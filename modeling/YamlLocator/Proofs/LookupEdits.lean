import YamlLocator.Proofs.KeyChain
import Mathlib.Logic.Relation

/-!
# Edits That No Lookup Sees

A lookup reads little of a tree: in each mapping on its way it reads the first entry of one name,
and of that entry the span of the key and the mapping that the value is. This module lists what
can be changed without any lookup taking notice. An entry may come or go if no name leads to it,
because its key is no string or because an earlier entry has the same key. Entries may change
places as long as those of one name stay in order. A value that is no mapping may become any
other such value, or none. Spans may change, other than those of the keys that names lead to. All
of this may happen anywhere in the tree: below a value, inside an item or inside a key, which is
no string then.

Two trees that such edits lead back and forth between have the same answer for every path. For
one edit this is an induction on the place of the edit. What has to be kept at each level is
`Entry.view` of the first entry of every name, and nothing else of the entries.

## Main definitions

* `Node.IsString`: A node is a string, and as a key has a name.
* `Node.withSpan`: A node with another span.
* `Edit`: One tree becomes another one by a single change.
* `Entry.view`: What a lookup reads of an entry.

## Theorems

* `locate_cons_mapping`: A lookup in a mapping in terms of what it reads there.
* `locate_eq_of_edit`: One edit changes no answer.
* `locate_eq_of_edits`: Any number of edits, and of edits undone, changes no answer.
-/

namespace YamlLocator

namespace Yaml

namespace Node

/-- The node is a string. As a key it has a name that a path can ask for. -/
def IsString (node : Node) : Prop := ∃ name span, node = .scalar name .string span

/-- The node with another span. -/
def withSpan (span : Option Span) : Node → Node
  | .mapping entries _ => .mapping entries span
  | .sequence items _ => .sequence items span
  | .scalar text kind _ => .scalar text kind span
  | .alias _ => .alias span

end Node

/-- One tree becomes another one by a single change. Taking an entry out is the insertion of it
    undone. -/
inductive Edit : Node → Node → Prop
  /-- An entry is inserted whose key is no string. -/
  | insertOther (before after : List Entry) (entry : Entry) (span : Option Span)
      (hkey : ¬ entry.key.IsString) :
      Edit (.mapping (before ++ after) span) (.mapping (before ++ entry :: after) span)
  /-- An entry is inserted behind one with the same string as its key. -/
  | insertRepeated (before after : List Entry) (earlier entry : Entry) (span : Option Span)
      (name : String) (first second : Option Span) (hmem : earlier ∈ before)
      (hearlier : earlier.key = .scalar name .string first)
      (hkey : entry.key = .scalar name .string second) :
      Edit (.mapping (before ++ after) span) (.mapping (before ++ entry :: after) span)
  /-- Entries change places, but those with the same string as their keys stay in order. -/
  | reorder (entries reordered : List Entry) (span : Option Span) (hperm : entries.Perm reordered)
      (horder : ∀ name, entries.filter (·.key.isKeyNamed name) =
        reordered.filter (·.key.isKeyNamed name)) :
      Edit (.mapping entries span) (.mapping reordered span)
  /-- A value that is absent or no mapping becomes another one of these. -/
  | replace (before after : List Entry) (key : Node) (value other : Option Node)
      (span : Option Span) (hvalue : ∀ node, value = some node → node.entries? = none)
      (hother : ∀ node, other = some node → node.entries? = none) :
      Edit (.mapping (before ++ ⟨key, value⟩ :: after) span)
        (.mapping (before ++ ⟨key, other⟩ :: after) span)
  /-- The span of the node changes. -/
  | respan (node : Node) (span : Option Span) : Edit node (node.withSpan span)
  /-- A key that is no string is edited. -/
  | key (before after : List Entry) (key other : Node) (value : Option Node) (span : Option Span)
      (hkey : ¬ key.IsString) (h : Edit key other) :
      Edit (.mapping (before ++ ⟨key, value⟩ :: after) span)
        (.mapping (before ++ ⟨other, value⟩ :: after) span)
  /-- A value is edited. -/
  | value (before after : List Entry) (key value other : Node) (span : Option Span)
      (h : Edit value other) :
      Edit (.mapping (before ++ ⟨key, some value⟩ :: after) span)
        (.mapping (before ++ ⟨key, some other⟩ :: after) span)
  /-- An item is edited. -/
  | item (before after : List Node) (item other : Node) (span : Option Span)
      (h : Edit item other) :
      Edit (.sequence (before ++ item :: after) span) (.sequence (before ++ other :: after) span)

/-- What a lookup reads of an entry: the span of the key, and the answers for the value. -/
def Entry.view (entry : Entry) : Option Span × (List String → Option KeyMatch) :=
  (entry.key.span, fun path => entry.value.bind (Node.locate path))

/-! ### What a lookup reads -/

theorem isString_iff (node : Node) : node.IsString ↔ ∃ name, node.isKeyNamed name = true := by
  simp only [Node.IsString, isKeyNamed_iff]

theorem isKeyNamed_eq_false {node : Node} (h : ¬ node.IsString) (name : String) :
    node.isKeyNamed name = false := by
  rw [isString_iff, not_exists] at h
  exact Bool.eq_false_iff.mpr (h name)

/-- In a mapping, a lookup reads the first entry of a name, and of that entry its view. -/
theorem locate_cons_mapping (name : String) (rest : List String) (entries : List Entry)
    (span : Option Span) :
    Node.locate (name :: rest) (.mapping entries span) =
      ((entryFor? name entries).map Entry.view).bind fun view =>
        if rest = [] then view.1.map .exact
        else (view.2 rest).or (view.1.map .nearest) := by
  cases hfound : entryFor? name entries with
  | some entry =>
    rw [locate_mapping ((entryFor?_eq_some_iff name entries entry).mp hfound)]
    rfl
  | none =>
    refine locate_eq_none (fun others span' heq entry hfirst => ?_) rest
    cases heq
    rw [← entryFor?_eq_some_iff, hfound] at hfirst
    simp at hfirst

theorem locate_nil (node : Node) : Node.locate [] node = none := by
  simp [Node.locate]

/-- Mappings that show the same for every name have the same answers. -/
theorem locate_mapping_congr {entries others : List Entry}
    (h : ∀ name, (entryFor? name entries).map Entry.view = (entryFor? name others).map Entry.view)
    (path : List String) (span span' : Option Span) :
    Node.locate path (.mapping entries span) = Node.locate path (.mapping others span') := by
  cases path with
  | nil => rw [locate_nil, locate_nil]
  | cons name rest => rw [locate_cons_mapping, locate_cons_mapping, h name]

/-- Below a node that is no mapping there is nothing to be found. -/
theorem locate_of_not_mapping {node : Node} (h : node.entries? = none) (path : List String) :
    Node.locate path node = none := by
  cases path with
  | nil => exact locate_nil node
  | cons name rest =>
    refine locate_eq_none (fun entries span heq => ?_) rest
    rw [heq] at h
    simp [Node.entries?] at h

theorem bind_locate_of_not_mapping {value : Option Node}
    (h : ∀ node, value = some node → node.entries? = none) (path : List String) :
    value.bind (Node.locate path) = none := by
  cases value with
  | none => rfl
  | some node => exact locate_of_not_mapping (h node rfl) path

/-! ### Changes to the entries of one mapping -/

variable {before after : List Entry} {entry other : Entry} {name : String}

/-- An entry of another name is passed over. -/
theorem entryFor?_insert (h : entry.key.isKeyNamed name = false) :
    entryFor? name (before ++ entry :: after) = entryFor? name (before ++ after) := by
  simp only [entryFor?, List.find?_append, List.find?_cons, h]

/-- An entry behind another one of its name is not reached. -/
theorem entryFor?_append_of_mem {earlier : Entry} (hmem : earlier ∈ before)
    (h : earlier.key.isKeyNamed name = true) (after : List Entry) :
    entryFor? name (before ++ after) = entryFor? name before := by
  have hfound : (entryFor? name before).isSome = true := List.find?_isSome.mpr ⟨earlier, hmem, h⟩
  rcases Option.isSome_iff_exists.mp hfound with ⟨found, hfound⟩
  rw [entryFor?, List.find?_append, ← entryFor?, hfound, Option.some_or]

/-- The first entry of a name is the first one of all entries of that name. -/
theorem entryFor?_eq_head?_filter (name : String) (entries : List Entry) :
    entryFor? name entries = (entries.filter (·.key.isKeyNamed name)).head? :=
  List.head?_filter.symm

/-- An entry may change if its name does not, and if it shows the same to those who reach it. -/
theorem view_entryFor?_update
    (hkey : entry.key.isKeyNamed name = other.key.isKeyNamed name)
    (hview : entry.key.isKeyNamed name = true → entry.view = other.view) :
    (entryFor? name (before ++ entry :: after)).map Entry.view =
      (entryFor? name (before ++ other :: after)).map Entry.view := by
  by_cases hnamed : entry.key.isKeyNamed name = true
  · have hother : other.key.isKeyNamed name = true := hkey ▸ hnamed
    simp only [entryFor?, List.find?_append, List.find?_cons, hnamed, hother, Option.map_or,
      Option.map_some, hview hnamed]
  · rw [Bool.not_eq_true] at hnamed
    rw [entryFor?_insert hnamed, entryFor?_insert (hkey ▸ hnamed)]

/-! ### One edit, and any number of them -/

/-- Nothing becomes a string that was none. -/
theorem isString_of_edit {node edited : Node} (h : Edit node edited) (hedited : edited.IsString) :
    node.IsString := by
  rcases hedited with ⟨name, span, rfl⟩
  generalize hscalar : Node.scalar name .string span = edited at h
  cases h with
  | respan node span' =>
    cases node with
    | scalar text kind was =>
      cases hscalar
      exact ⟨_, was, rfl⟩
    | mapping entries was => cases hscalar
    | sequence items was => cases hscalar
    | «alias» was => cases hscalar
  | _ => cases hscalar

/-- One edit changes no answer. The induction is on the place of the edit: an edit below a value
    changes no answer for the value, and thus not what the entry shows. -/
theorem locate_eq_of_edit {node edited : Node} (h : Edit node edited) (path : List String) :
    node.locate path = edited.locate path := by
  induction h generalizing path with
  | insertOther before after entry span hkey =>
    refine locate_mapping_congr (fun name => ?_) path span span
    rw [entryFor?_insert (isKeyNamed_eq_false hkey name)]
  | insertRepeated before after earlier entry span name first second hmem hearlier hkey =>
    refine locate_mapping_congr (fun asked => ?_) path span span
    by_cases hname : entry.key.isKeyNamed asked = true
    · -- The name of the entry leads to the earlier one, or to one in front of that.
      have hsame : earlier.key.isKeyNamed asked = true := by
        rw [hkey] at hname
        rw [hearlier]
        exact hname
      rw [entryFor?_append_of_mem hmem hsame, entryFor?_append_of_mem hmem hsame]
    · rw [entryFor?_insert (Bool.eq_false_iff.mpr hname)]
  | reorder entries reordered span hperm horder =>
    refine locate_mapping_congr (fun name => ?_) path span span
    rw [entryFor?_eq_head?_filter, entryFor?_eq_head?_filter, horder name]
  | replace before after key value other span hvalue hother =>
    have hview : Entry.view ⟨key, value⟩ = Entry.view ⟨key, other⟩ := by
      simp only [Entry.view, bind_locate_of_not_mapping hvalue, bind_locate_of_not_mapping hother]
    refine locate_mapping_congr (fun name => ?_) path span span
    exact view_entryFor?_update rfl fun _ => hview
  | respan node span =>
    cases node with
    | mapping entries was => exact locate_mapping_congr (fun name => rfl) path was span
    | sequence items was => rw [locate_of_not_mapping rfl, locate_of_not_mapping rfl]
    | scalar text kind was => rw [locate_of_not_mapping rfl, locate_of_not_mapping rfl]
    | «alias» was => rw [locate_of_not_mapping rfl, locate_of_not_mapping rfl]
  | key before after key other value span hkey h _ =>
    -- No name leads to the entry, before and after.
    refine locate_mapping_congr (fun name => ?_) path span span
    have hother : ¬ other.IsString := fun hother => hkey (isString_of_edit h hother)
    rw [entryFor?_insert (isKeyNamed_eq_false hkey name),
      entryFor?_insert (isKeyNamed_eq_false hother name)]
  | value before after key value other span h ih =>
    have hview : Entry.view ⟨key, some value⟩ = Entry.view ⟨key, some other⟩ := by
      simp only [Entry.view, Option.bind_some, ih]
    refine locate_mapping_congr (fun name => ?_) path span span
    exact view_entryFor?_update rfl fun _ => hview
  | item before after item other span h _ =>
    rw [locate_of_not_mapping rfl, locate_of_not_mapping rfl]

/-- Trees that edits lead back and forth between have the same answer for every path. -/
theorem locate_eq_of_edits {node edited : Node} (h : Relation.EqvGen Edit node edited)
    (path : KeyPath) : node.locate path.segments = edited.locate path.segments := by
  induction h with
  | rel node edited h => exact locate_eq_of_edit h path.segments
  | refl node => rfl
  | symm node edited _ ih => exact ih.symm
  | trans node between edited _ _ ih₁ ih₂ => exact ih₁.trans ih₂

/-- Two mappings before and after five edits: the inner value is a sequence now, the inner mapping
    has lost its span, the outer entries have changed places, and an entry of each kind that no
    name leads to has come in. -/
theorem locate_eq_of_edits_of_five :
    let inner (value : Node) (span : Option Span) : Node :=
      .mapping [⟨.scalar "c" .string (some ⟨5, 6⟩), some value⟩] span
    let outer (value : Node) : Entry := ⟨.scalar "b" .string (some ⟨0, 1⟩), some value⟩
    let node : Node := .mapping
      [outer (inner (.scalar "1" .integer none) (some ⟨6, 9⟩)), ⟨.scalar "a" .string none, none⟩]
      none
    let edited : Node := .mapping
      [⟨.scalar "a" .string none, none⟩, ⟨.scalar "1" .integer none, none⟩,
        outer (inner (.sequence [] none) none), ⟨.scalar "b" .string none, none⟩]
      none
    Relation.EqvGen Edit node edited ∧ edited.locate ["b", "c"] = some (.exact ⟨5, 6⟩) := by
  intro inner outer node edited
  have hedits : Relation.EqvGen Edit node edited := by
    refine .trans _ _ _ (.rel _ _ (.value [] [_] _ _ _ _
      (.replace [] [] _ _ (some (.sequence [] none)) _ (by simp [Node.entries?])
        (by simp [Node.entries?])))) ?_
    refine .trans _ _ _ (.rel _ _ (.value [] [_] _ _ _ _ (.respan _ none))) ?_
    refine .trans _ _ _ (.rel _ _ (.reorder _ _ _ (.swap _ _ []) fun name => ?_)) ?_
    · -- No name has more than one entry yet.
      by_cases hname : "b" = name
      · subst hname
        rfl
      · simp [List.filter_cons, Node.isKeyNamed, hname]
    refine .trans _ _ _ (.rel _ _ (.insertOther [_] [_] ⟨.scalar "1" .integer none, none⟩ _
      (by simp [Node.IsString]))) ?_
    exact .rel _ _ (.insertRepeated [_, _, _] [] (outer (inner (.sequence [] none) none)) _ _ "b"
      _ _ (List.mem_cons_of_mem _ (List.mem_cons_of_mem _ List.mem_cons_self)) rfl rfl)
  refine ⟨hedits, ?_⟩
  rw [← locate_eq_of_edits hedits ⟨["b", "c"], by decide, by decide⟩]
  rfl

end Yaml

end YamlLocator
