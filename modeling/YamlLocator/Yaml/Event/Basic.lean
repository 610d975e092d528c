import YamlLocator.Yaml.Token.Basic

/-!
# Events

The structure of a document as a flat sequence: every collection is announced by an
event where it starts and by another one where it ends, and what lies between the two
is inside it. The entries of a mapping come as keys and values in turn.

Anchors and tags have been dealt with when an event arises and are not part of it.

## Main definitions

* `Event`: A step through the structure of a document.
-/

namespace YamlLocator

namespace Yaml

/-- A step through the structure of a document. -/
inductive Event where
  | streamStart
  | streamEnd
  | documentStart
  | documentEnd
  | sequenceStart
  | sequenceEnd
  | mappingStart
  | mappingEnd
  | scalar (style : ScalarStyle) (text : String)
  | alias
deriving DecidableEq, Repr

/-- What stands where a node may be left out. -/
def Event.emptyScalar : Event := .scalar .plain ""

end Yaml

end YamlLocator
