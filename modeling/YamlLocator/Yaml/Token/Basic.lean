import YamlLocator.Yaml.Directive

/-!
# Tokens

The units that the grammar of YAML is stated in. Some have no spelling of their own:
the beginning and the end of a block collection follow from the layout, and the
beginning of a key that is not announced by a sign is known only once its colon
has been read.

## Main definitions

* `ScalarStyle`: How a scalar is written.
* `Token`: A unit of the grammar.
* `Placed`: Something together with the mark that it is reported for.
-/

namespace YamlLocator

namespace Yaml

/-- How a scalar is written. -/
inductive ScalarStyle where
  | plain
  | singleQuoted
  | doubleQuoted
  | literal
  | folded
deriving DecidableEq, Repr

/-- A unit of the grammar. -/
inductive Token where
  | streamStart
  | streamEnd
  | directive (directive : Directive)
  | documentStart
  | documentEnd
  | blockSequenceStart
  | blockMappingStart
  | blockEnd
  | flowSequenceStart
  | flowSequenceEnd
  | flowMappingStart
  | flowMappingEnd
  | blockEntry
  | flowEntry
  | key
  | value
  | alias (name : String)
  | anchor (name : String)
  | tag (tag : Tag)
  | scalar (style : ScalarStyle) (text : String)
deriving DecidableEq, Repr

/-- Something together with the mark that it is reported for. -/
structure Placed (α : Type) where
  item : α
  mark : Mark
deriving DecidableEq, Repr

end Yaml

end YamlLocator
