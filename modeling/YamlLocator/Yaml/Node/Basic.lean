import YamlLocator.Position.Span
import YamlLocator.Yaml.Node.Kind

/-!
# Nodes

The tree of a document, as far as it takes to find keys in it. Mappings keep their
entries in the order of the text, repeated keys included; scalars keep their text
without quotes and escapes; aliases are not followed.

Every node has a span of the text if it was read from one. A node made by hand may
have none, and so may a value: an entry without one is a key alone.

## Main definitions

* `Node`, `Entry`: The tree.
* `Node.decEq`: Whether two trees are the same.
* `Node.span`, `Node.entries?`: What nodes of any kind can be asked for.
* `Node.isKeyNamed`: Whether a node is a key of a given name.
* `entryFor?`, `entryIndex?`: The first entry with a key of a given name, and its place.

## Theorems

* `entryFor?_eq_bind`: The entry stands at its place.
-/

namespace YamlLocator

namespace Yaml

mutual

/-- A node of a document. -/
inductive Node where
  | mapping (entries : List Entry) (span : Option Span)
  | sequence (items : List Node) (span : Option Span)
  | scalar (text : String) (kind : ScalarKind) (span : Option Span)
  | alias (span : Option Span)

/-- An entry of a mapping. -/
structure Entry where
  key : Node
  value : Option Node

end

namespace Node

mutual

/-- Whether two nodes are the same, kind by kind. -/
def decEq : (node node' : Node) → Decidable (node = node')
  | .mapping entries span, .mapping entries' span' =>
    have := decEqEntries entries entries'
    decidable_of_iff (entries = entries' ∧ span = span') (by simp)
  | .sequence items span, .sequence items' span' =>
    have := decEqItems items items'
    decidable_of_iff (items = items' ∧ span = span') (by simp)
  | .scalar text kind span, .scalar text' kind' span' =>
    decidable_of_iff (text = text' ∧ kind = kind' ∧ span = span') (by simp)
  | .alias span, .alias span' => decidable_of_iff (span = span') (by simp)
  | .mapping _ _, .sequence _ _ | .mapping _ _, .scalar _ _ _ | .mapping _ _, .alias _
  | .sequence _ _, .mapping _ _ | .sequence _ _, .scalar _ _ _ | .sequence _ _, .alias _
  | .scalar _ _ _, .mapping _ _ | .scalar _ _ _, .sequence _ _ | .scalar _ _ _, .alias _
  | .alias _, .mapping _ _ | .alias _, .sequence _ _ | .alias _, .scalar _ _ _ => isFalse nofun
termination_by structural node => node

/-- Whether two lists of nodes are the same. -/
def decEqItems : (items items' : List Node) → Decidable (items = items')
  | [], [] => isTrue rfl
  | [], _ :: _ | _ :: _, [] => isFalse nofun
  | item :: items, item' :: items' =>
    have := decEq item item'
    have := decEqItems items items'
    decidable_of_iff (item = item' ∧ items = items') (by simp)

/-- Whether two entries are the same. -/
def decEqEntry : (entry entry' : Entry) → Decidable (entry = entry')
  | ⟨key, none⟩, ⟨key', none⟩ =>
    have := decEq key key'
    decidable_of_iff (key = key') (by simp)
  | ⟨_, none⟩, ⟨_, some _⟩ | ⟨_, some _⟩, ⟨_, none⟩ => isFalse (by simp)
  | ⟨key, some value⟩, ⟨key', some value'⟩ =>
    have := decEq key key'
    have := decEq value value'
    decidable_of_iff (key = key' ∧ value = value') (by simp)

/-- Whether two lists of entries are the same. -/
def decEqEntries : (entries entries' : List Entry) → Decidable (entries = entries')
  | [], [] => isTrue rfl
  | [], _ :: _ | _ :: _, [] => isFalse nofun
  | entry :: entries, entry' :: entries' =>
    have := decEqEntry entry entry'
    have := decEqEntries entries entries'
    decidable_of_iff (entry = entry' ∧ entries = entries') (by simp)

end

instance : DecidableEq Node := decEq

/-- The span of the text that the node was read from. -/
def span : Node → Option Span
  | .mapping _ span => span
  | .sequence _ span => span
  | .scalar _ _ span => span
  | .alias span => span

/-- The entries of a mapping. -/
def entries? : Node → Option (List Entry)
  | .mapping entries _ => some entries
  | _ => none

/-- Whether the node is a key of the given name: a string with that text. A number, a
    truth value or a null is never a key that is looked for, whatever its spelling. -/
def isKeyNamed (name : String) : Node → Bool
  | .scalar text kind _ => kind = .string && text = name
  | _ => false

end Node

/-- The first entry whose key has the given name. -/
def entryFor? (name : String) (entries : List Entry) : Option Entry :=
  entries.find? fun entry => entry.key.isKeyNamed name

/-- The place of that entry among the entries. -/
def entryIndex? (name : String) (entries : List Entry) : Option Nat :=
  entries.findIdx? fun entry => entry.key.isKeyNamed name

/-- The entry stands at its place. -/
theorem entryFor?_eq_bind (name : String) (entries : List Entry) :
    entryFor? name entries = (entryIndex? name entries).bind (entries[·]?) :=
  List.find?_eq_bind_findIdx?_getElem?

end Yaml

end YamlLocator
