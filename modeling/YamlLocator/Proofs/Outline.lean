import YamlLocator.Yaml.Node.Assembly

/-!
# Outlines of Documents

The tree that some events describe, as a tree to begin with. An outline has the marks of
its collections where they start and where they end, and the children of a mapping in a
row, keys and values in turn. Its events are what a reader of the document reports, one
node after the other and every collection between its two ends.

Assembling the events of an outline gives its node, whatever has been assembled so far.
That generality is what makes the induction work: a collection in the middle of a document
is assembled on top of the collections around it, and when it ends it goes into the
innermost of them. So the events of a tree do to an assembly what completing its node does,
and the events of a row of trees do what completing their nodes one by one does.

What remains is a statement about one frame: nodes that are completed in a mapping one by
one become its entries two by two.

## Main definitions

* `Outline`: The tree that some events describe.
* `Outline.events`: The events that describe it.
* `pairUp`: Keys and values in turn as entries.
* `Outline.node`: The node that stands for it.
* `Event.isBoundary`: The events of documents and streams.

## Theorems

* `getElem?_pairUp`, `value_getLast?_pairUp`: The entries of a row of nodes.
* `foldl_addToEntries`: Nodes that are added one by one become entries two by two.
* `foldl_add_events`: The events of an outline complete its node.
* `add_boundary`: The events of documents and streams assemble nothing.
-/

namespace YamlLocator

namespace Yaml

/-- The tree that some events describe. -/
inductive Outline where
  | scalar (style : ScalarStyle) (text : String) (mark : Mark)
  | alias (mark : Mark)
  | sequence (start : Mark) (children : List Outline) (stop : Mark)
  /-- A mapping, with its keys and values in turn. -/
  | mapping (start : Mark) (children : List Outline) (stop : Mark)

/-- Keys and values in turn as entries. An odd node at the end is a key without a value. -/
def pairUp : List Node → List Entry
  | [] => []
  | [key] => [{ key, value := none }]
  | key :: value :: rest => { key, value := some value } :: pairUp rest

namespace Outline

mutual

/-- The events that describe an outline. -/
def events : Outline → List (Placed Event)
  | .scalar style text mark => [{ item := .scalar style text, mark }]
  | .alias mark => [{ item := .alias, mark }]
  | .sequence start children stop =>
    { item := .sequenceStart, mark := start } ::
      (eventsOfAll children ++ [{ item := .sequenceEnd, mark := stop }])
  | .mapping start children stop =>
    { item := .mappingStart, mark := start } ::
      (eventsOfAll children ++ [{ item := .mappingEnd, mark := stop }])

/-- The events that describe some outlines in a row. -/
def eventsOfAll : List Outline → List (Placed Event)
  | [] => []
  | outline :: rest => outline.events ++ eventsOfAll rest

end

mutual

/-- The node that stands for an outline. Its marks become spans by the offsets of the
    text, and only plain scalars can be something other than strings. -/
def node (offsets : OffsetTable) : Outline → Node
  | .scalar style text mark =>
    .scalar text (if style = .plain then ScalarKind.ofPlain text else .string)
      (some (Assembly.scalarSpan offsets mark style text))
  | .alias mark =>
    .alias (some { start := offsets.byteAt mark.index, stop := offsets.byteAt mark.index })
  | .sequence start children stop =>
    .sequence (nodes offsets children) (some (Assembly.spanBetween offsets start stop))
  | .mapping start children stop =>
    .mapping (pairUp (nodes offsets children)) (some (Assembly.spanBetween offsets start stop))

/-- The nodes that stand for some outlines in a row. -/
def nodes (offsets : OffsetTable) : List Outline → List Node
  | [] => []
  | outline :: rest => outline.node offsets :: nodes offsets rest

end

end Outline

/-- Whether an event belongs to a document or a stream rather than to a node. -/
def Event.isBoundary : Event → Bool
  | .streamStart => true
  | .streamEnd => true
  | .documentStart => true
  | .documentEnd => true
  | _ => false

/-! ### Entries -/

/-- The entry at a place has the key at twice that place, and the node behind that key as
    its value. -/
theorem getElem?_pairUp (nodes : List Node) (i : Nat) :
    (pairUp nodes)[i]? = nodes[2 * i]?.map fun key => { key, value := nodes[2 * i + 1]? } := by
  induction nodes using pairUp.induct generalizing i with
  | case1 => simp [pairUp]
  | case2 key =>
    cases i with
    | zero => rfl
    | succ i => simp [pairUp, show 2 * (i + 1) = 2 * i + 1 + 1 by omega]
  | case3 key value rest ih =>
    cases i with
    | zero => rfl
    | succ i =>
      rw [pairUp, List.getElem?_cons_succ, ih, show 2 * (i + 1) = 2 * i + 1 + 1 by omega]
      rfl

/-- The last entry is a key without a value exactly if the number of nodes is odd. -/
theorem value_getLast?_pairUp (nodes : List Node) (entry : Entry)
    (h : (pairUp nodes).getLast? = some entry) : entry.value = none ↔ nodes.length % 2 = 1 := by
  induction nodes using pairUp.induct with
  | case1 => simp [pairUp] at h
  | case2 key =>
    simp only [pairUp, List.getLast?_singleton, Option.some.injEq] at h
    simp [← h]
  | case3 key value rest ih =>
    rw [List.length_cons, List.length_cons, Nat.add_assoc, Nat.add_mod_right]
    rw [pairUp, List.getLast?_cons] at h
    cases hrest : (pairUp rest).getLast? with
    | some last =>
      rw [hrest, Option.getD_some, Option.some.injEq] at h
      rw [h] at hrest
      rw [← ih hrest]
    | none =>
      -- The entry is the last one, since no nodes are left for another.
      have hnil : rest.length = 0 := by
        cases rest with
        | nil => rfl
        | cons node more => cases more <;> simp [pairUp] at hrest
      rw [hrest, Option.getD_none, Option.some.injEq] at h
      simp [← h, hnil]

/-- Nodes that are added one by one behind entries with values become entries two by
    two. -/
theorem foldl_addToEntries (nodes : List Node) (entries : List Entry)
    (hentries : ∀ entry ∈ entries.head?, entry.value ≠ none) :
    nodes.foldl (fun entries node => Assembly.addToEntries node entries) entries =
      (pairUp nodes).reverse ++ entries := by
  -- A node is a key if every entry has a value.
  have hkey (node : Node) :
      ∀ entries : List Entry, (∀ entry ∈ entries.head?, entry.value ≠ none) →
        Assembly.addToEntries node entries = { key := node, value := none } :: entries := by
    intro entries h
    rcases entries with _ | ⟨⟨key, value⟩, older⟩
    · rfl
    · cases value with
      | none => exact absurd rfl (h _ rfl)
      | some value => rfl
  induction nodes using pairUp.induct generalizing entries with
  | case1 => rfl
  | case2 key =>
    rw [List.foldl_cons, hkey key entries hentries]
    rfl
  | case3 key value rest ih =>
    rw [List.foldl_cons, List.foldl_cons, hkey key entries hentries, Assembly.addToEntries,
      ih _ (by simp), pairUp, List.reverse_cons, List.append_assoc]
    rfl

/-! ### Assembling -/

namespace Assembly

/-- Completing nodes inside a collection changes that collection only. -/
theorem foldl_complete_frame (nodes : List Node) (frame : Frame) (outer : List Frame)
    (root : Option Node) (fault : Option StructureFault) :
    nodes.foldl complete { frames := frame :: outer, root, fault } =
      { frames := nodes.foldl (fun frame node => addToFrame node frame) frame :: outer
        root
        fault } := by
  induction nodes generalizing frame with
  | nil => rfl
  | cons node rest ih => exact ih (addToFrame node frame)

theorem foldl_addToFrame_sequence (nodes : List Node) (start : Mark) (items : List Node) :
    nodes.foldl (fun frame node => addToFrame node frame) (.sequence start items) =
      .sequence start (nodes.reverse ++ items) := by
  induction nodes generalizing items with
  | nil => rfl
  | cons node rest ih =>
    rw [List.foldl_cons, addToFrame, ih, List.reverse_cons, List.append_assoc]
    rfl

theorem foldl_addToFrame_mapping (nodes : List Node) (start : Mark) (entries : List Entry) :
    nodes.foldl (fun frame node => addToFrame node frame) (.mapping start entries) =
      .mapping start (nodes.foldl (fun entries node => addToEntries node entries) entries) := by
  induction nodes generalizing entries with
  | nil => rfl
  | cons node rest ih => exact ih (addToEntries node entries)

/-- An event of a document or a stream assembles nothing. -/
theorem add_boundary (offsets : OffsetTable) (a : Assembly) {event : Placed Event}
    (h : event.item.isBoundary = true) : a.add offsets event = a := by
  rcases event with ⟨item, mark⟩
  cases item <;> first | rfl | simp [Event.isBoundary] at h

theorem foldl_add_boundary (offsets : OffsetTable) (events : List (Placed Event)) (a : Assembly)
    (h : ∀ event ∈ events, event.item.isBoundary = true) :
    events.foldl (add offsets) a = a := by
  induction events with
  | nil => rfl
  | cons event rest ih =>
    rw [List.foldl_cons, add_boundary offsets a (h event List.mem_cons_self)]
    exact ih fun event hmem => h event (List.mem_cons_of_mem _ hmem)

mutual

/-- The events of an outline complete its node, whatever has been assembled so far. -/
theorem foldl_add_events (offsets : OffsetTable) (outline : Outline) (a : Assembly) :
    outline.events.foldl (add offsets) a = a.complete (outline.node offsets) := by
  cases outline with
  | scalar style text mark => rfl
  | «alias» mark => rfl
  | sequence first children last =>
    -- The children are assembled on top of the frame that the first event opens.
    simp only [Outline.events, List.foldl_cons, List.foldl_append, List.foldl_nil]
    rw [foldl_add_eventsOfAll offsets children]
    simp only [add, start, foldl_complete_frame, foldl_addToFrame_sequence, List.append_nil,
      List.reverse_reverse, Outline.node]
  | mapping first children last =>
    simp only [Outline.events, List.foldl_cons, List.foldl_append, List.foldl_nil]
    rw [foldl_add_eventsOfAll offsets children]
    simp only [add, start, foldl_complete_frame, foldl_addToFrame_mapping,
      foldl_addToEntries _ [] (by simp), List.append_nil, List.reverse_reverse, Outline.node]

/-- The events of outlines in a row complete their nodes one by one. -/
theorem foldl_add_eventsOfAll (offsets : OffsetTable) (outlines : List Outline) (a : Assembly) :
    (Outline.eventsOfAll outlines).foldl (add offsets) a =
      (Outline.nodes offsets outlines).foldl complete a := by
  cases outlines with
  | nil => rfl
  | cons outline rest =>
    rw [Outline.eventsOfAll, List.foldl_append, foldl_add_events offsets outline,
      foldl_add_eventsOfAll offsets rest]
    rfl

end

/-- The root of a document is the node of its outline. -/
theorem ofEvents_events (offsets : OffsetTable) (outline : Outline)
    {before after : List (Placed Event)}
    (hbefore : ∀ event ∈ before, event.item.isBoundary = true)
    (hafter : ∀ event ∈ after, event.item.isBoundary = true) :
    ofEvents offsets (before ++ outline.events ++ after) = .ok (some (outline.node offsets)) := by
  rw [ofEvents, List.foldl_append, List.foldl_append, foldl_add_boundary _ before _ hbefore,
    foldl_add_events, foldl_add_boundary _ after _ hafter]
  rfl

/-- Assembling the events of an outline inside a document gives its node, which holds in the
    entries of each mapping its children two by two. -/
theorem ofEvents_outline_eq_node (text : String) (outline : Outline)
    (before after : List (Placed Event))
    (hbefore : ∀ event ∈ before, event.item.isBoundary = true)
    (hafter : ∀ event ∈ after, event.item.isBoundary = true) :
    ofEvents (OffsetTable.ofText text.toList) (before ++ outline.events ++ after) =
        .ok (some (outline.node (OffsetTable.ofText text.toList))) ∧
      (∀ (nodes : List Node) (i : Nat), (pairUp nodes)[i]? =
        nodes[2 * i]?.map fun key => { key, value := nodes[2 * i + 1]? }) ∧
      ∀ (nodes : List Node) (entry : Entry), (pairUp nodes).getLast? = some entry →
        (entry.value = none ↔ nodes.length % 2 = 1) := by
  exact ⟨ofEvents_events _ outline hbefore hafter, getElem?_pairUp, value_getLast?_pairUp⟩

/-- A mapping with a sequence for its only value, which ends in a key without a value. -/
theorem ofEvents_outline_eq_node_of_odd :
    ofEvents (OffsetTable.ofText "? 1\n: [ *a ]\n? \"1\"".toList)
        ([{ item := .streamStart, mark := ⟨0, 1, 0⟩ },
            { item := .documentStart, mark := ⟨0, 1, 0⟩ }] ++
          (Outline.mapping ⟨0, 1, 0⟩
            [.scalar .plain "1" ⟨2, 1, 2⟩, .sequence ⟨6, 2, 2⟩ [.alias ⟨8, 2, 4⟩] ⟨11, 2, 7⟩,
              .scalar .doubleQuoted "1" ⟨15, 3, 2⟩] ⟨18, 4, 0⟩).events ++
          [{ item := .documentEnd, mark := ⟨18, 4, 0⟩ }]) =
      .ok (some (.mapping
        [{ key := .scalar "1" .integer (some ⟨2, 3⟩)
           value := some (.sequence [.alias (some ⟨8, 8⟩)] (some ⟨6, 11⟩)) },
         { key := .scalar "1" .string (some ⟨15, 18⟩), value := none }] (some ⟨0, 18⟩))) :=
  (ofEvents_outline_eq_node "? 1\n: [ *a ]\n? \"1\"" _ _ _ (by decide) (by decide)).1

end Assembly

end Yaml

end YamlLocator
