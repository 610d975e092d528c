import YamlLocator.KeyPath
import YamlLocator.Yaml.Document

/-!
# Finding Keys

Following a key path through a document. Each segment leads from a mapping to the
first of its entries whose key has that name, and then to the value of that entry.

If a path cannot be followed to its end, the answer is the last key on the way, so that
there is a place to show for a key that is not there yet. A key without a span cannot be
shown, and the one before it is taken instead. There is no answer if not even the first
segment leads anywhere.

## Main definitions

* `KeyMatch`: The key that was found for a path.
* `Yaml.Node.locate`: The key for some segments, from a node on.
* `KeyPath.find`: The key for a path in a text.
-/

namespace YamlLocator

/-- The key that was found for a path. -/
inductive KeyMatch where
  /-- The key that the path addresses. -/
  | exact (span : Span)
  /-- The last key on the way to it. -/
  | nearest (span : Span)
deriving DecidableEq, Repr

namespace KeyMatch

/-- The span of the key. -/
def span : KeyMatch → Span
  | .exact span => span
  | .nearest span => span

/-- Whether the path was followed to its end. -/
def isExact : KeyMatch → Bool
  | .exact _ => true
  | .nearest _ => false

end KeyMatch

namespace Yaml

namespace Node

/-- The entry that a segment leads to from a node. -/
def entryNamed? (name : String) (node : Node) : Option Entry :=
  node.entries?.bind (entryFor? name)

/-- The key for the segments of a path, from a node on. -/
def locate : List String → Node → Option KeyMatch
  | [], _ => none
  | [name], node => do
    let entry ← node.entryNamed? name
    return .exact (← entry.key.span)
  | name :: next :: rest, node => do
    let entry ← node.entryNamed? name
    match entry.value.bind (locate (next :: rest)) with
    | some found => return found
    | none => return .nearest (← entry.key.span)

end Node

end Yaml

namespace KeyPath

/-- The key for the path in the first document of a text. -/
def find (path : KeyPath) (text : String) : Except Yaml.ParseError (Option KeyMatch) := do
  return (← Yaml.Document.parse text).bind (Yaml.Node.locate path.segments)

end KeyPath

end YamlLocator
