/-!
# Marks

A mark is a place in a text, as a reader sees it that counts characters and
lines. The index counts characters from zero, lines count from one and columns
from zero.

## Main definitions

* `Mark`: A place in a text.
* `Mark.start`: The place at which every text begins.
* `Mark.right`: The place some characters further on the same line.
* `Mark.nextLine`: The place behind a line break of one character.
-/

namespace YamlLocator

namespace Yaml

/-- A place in a text. -/
structure Mark where
  /-- The number of characters in front of it. -/
  index : Nat
  /-- The number of its line, counted from one. -/
  line : Nat
  /-- The number of characters in front of it on its line. -/
  column : Nat
deriving DecidableEq, Repr, Inhabited

namespace Mark

/-- The place at which every text begins. -/
def start : Mark := { index := 0, line := 1, column := 0 }

/-- The place `count` characters further on the same line. -/
def right (mark : Mark) (count : Nat) : Mark :=
  { mark with index := mark.index + count, column := mark.column + count }

/-- The place behind a line break of one character. -/
def nextLine (mark : Mark) : Mark :=
  { index := mark.index + 1, line := mark.line + 1, column := 0 }

end Mark

end Yaml

end YamlLocator
