import YamlLocator.Proofs.Nesting
import YamlLocator.Proofs.Outline
import YamlLocator.Proofs.TokenQueue
import YamlLocator.Yaml.Document

/-!
# Trees without Gaps

Why reading a document never fails over its events, and why every key in the tree that comes
out of it has a value.

Assembling nodes and waiting for events are two views of the same stack. A frame of the
assembly waits for something: a sequence for an item, a mapping for a key if all its entries
have values and for a value otherwise. The frames around the innermost one wait for what
comes behind the collection that is open inside them, so they are already one node further.
`Fits` says that the levels of the reader of events are those of the frames, and that what
has been assembled has no gaps so far.

An event that is waited for keeps this up. The end of a collection finds the frame of its
beginning on top, so nothing is ever at fault, and it finds the last entry of a mapping with
a value. Since the grammar gives no other events, both hold for every text.

## Main definitions

* `Node.Part`: A node occurs in another one.
* `Node.IsFilled`: Every entry of every mapping in a node has a value.
* `Frame.awaited`, `Frame.next`: What a frame waits for, and behind one more node.
* `Assembly.Fits`: An assembly agrees with the levels of a reader of events.
* `Assembly.Reading`: The same while a node is being read.

## Theorems

* `reading_of_accept`: An event that begins a node finds room for it.
* `exists_innermost`: The end of a collection finds a collection that waits for it.
* `fits_add`: An event that is waited for keeps an assembly in agreement.
* `fits_foldl_add`: The same for the events of a run.
* `ofEvents_of_acceptAll`: Events that are waited for up to the last give a filled root.
-/

namespace YamlLocator

namespace Yaml

/-- A node occurs in another one: as a whole, or in an item, a key or a value of it. -/
inductive Node.Part (node : Node) : Node → Prop
  | whole : Part node node
  | item (item : Node) (items : List Node) (span : Option Span) (hmem : item ∈ items)
      (h : Part node item) : Part node (.sequence items span)
  | key (entry : Entry) (entries : List Entry) (span : Option Span) (hmem : entry ∈ entries)
      (h : Part node entry.key) : Part node (.mapping entries span)
  | value (value : Node) (entry : Entry) (entries : List Entry) (span : Option Span)
      (hmem : entry ∈ entries) (hvalue : entry.value = some value) (h : Part node value) :
      Part node (.mapping entries span)

/-- Every entry of every mapping that occurs in the node has a value. -/
def Node.IsFilled (root : Node) : Prop :=
  ∀ entries span, Node.Part (.mapping entries span) root →
    ∀ entry ∈ entries, ∃ value, entry.value = some value

/-- The key of the entry is filled, and so is its value if it has one. -/
def Entry.IsFilled (entry : Entry) : Prop :=
  entry.key.IsFilled ∧ ∀ value, entry.value = some value → value.IsFilled

theorem isFilled_scalar (text : String) (kind : ScalarKind) (span : Option Span) :
    (Node.scalar text kind span).IsFilled := by
  intro entries _ hpart
  cases hpart

theorem isFilled_alias (span : Option Span) : (Node.alias span).IsFilled := by
  intro entries _ hpart
  cases hpart

theorem isFilled_sequence {items : List Node} (h : ∀ item ∈ items, item.IsFilled)
    (span : Option Span) : (Node.sequence items span).IsFilled := by
  intro entries _ hpart
  cases hpart with
  | item item _ _ hmem hin => exact h item hmem entries _ hin

theorem isFilled_mapping {entries : List Entry} (h : ∀ entry ∈ entries, entry.IsFilled)
    (hvalue : ∀ entry ∈ entries, ∃ value, entry.value = some value) (span : Option Span) :
    (Node.mapping entries span).IsFilled := by
  intro inner _ hpart
  cases hpart with
  | whole => exact hvalue
  | key entry _ _ hmem hin => exact (h entry hmem).1 inner _ hin
  | value value entry _ _ hmem hsome hin => exact (h entry hmem).2 value hsome inner _ hin

/-! ### Levels and frames -/

/-- Whether a level lies outside every collection. -/
def Awaited.isOutside : Awaited → Bool
  | .item => false
  | .key => false
  | .value => false
  | _ => true

namespace Frame

/-- What a collection waits for behind one more node. -/
def next : Frame → Awaited
  | .sequence _ _ => .item
  | .mapping _ ({ key := _, value := none } :: _) => .key
  | .mapping _ _ => .value

/-- What a collection waits for. -/
def awaited : Frame → Awaited
  | .sequence _ _ => .item
  | .mapping _ ({ key := _, value := none } :: _) => .value
  | .mapping _ _ => .key

/-- What is in a collection is filled, and only the newest entry may have no value yet. -/
def IsFilled : Frame → Prop
  | .sequence _ items => ∀ item ∈ items, item.IsFilled
  | .mapping _ entries =>
    (∀ entry ∈ entries, entry.IsFilled) ∧ ∀ entry ∈ entries.tail, ∃ value, entry.value = some value

theorem isOutside_awaited (frame : Frame) : frame.awaited.isOutside = false := by
  cases frame with
  | sequence start items => rfl
  | mapping start entries => rcases entries with _ | ⟨⟨key, _ | value⟩, older⟩ <;> rfl

/-- Every entry of a mapping that waits for a key has a value. -/
theorem value_of_awaited_key {start : Mark} {entries : List Entry}
    (h : (Frame.mapping start entries).IsFilled)
    (hkey : (Frame.mapping start entries).awaited = .key) :
    ∀ entry ∈ entries, ∃ value, entry.value = some value := by
  intro entry hmem
  rcases entries with _ | ⟨⟨key, value⟩, older⟩
  · simp at hmem
  · rcases List.mem_cons.mp hmem with rfl | hmem
    · cases value with
      | none => simp [awaited] at hkey
      | some value => exact ⟨value, rfl⟩
    · exact h.2 entry hmem

theorem awaited_addToFrame (node : Node) (frame : Frame) :
    (Assembly.addToFrame node frame).awaited = frame.next := by
  cases frame with
  | sequence start items => rfl
  | mapping start entries =>
    rcases entries with _ | ⟨⟨key, _ | value⟩, older⟩
    · rfl
    · rfl
    · rfl

theorem isFilled_addToFrame {node : Node} {frame : Frame} (hnode : node.IsFilled)
    (h : frame.IsFilled) : (Assembly.addToFrame node frame).IsFilled := by
  cases frame with
  | sequence start items =>
    intro item hmem
    rcases List.mem_cons.mp hmem with rfl | hmem
    · exact hnode
    · exact h item hmem
  | mapping start entries =>
    rcases entries with _ | ⟨⟨key, _ | value⟩, older⟩
    · simp [Assembly.addToFrame, Assembly.addToEntries, IsFilled, Entry.IsFilled, hnode]
    · -- The node is the value of the newest entry.
      rcases h with ⟨hentries, hvalues⟩
      refine ⟨fun entry hmem => ?_, hvalues⟩
      rcases List.mem_cons.mp hmem with rfl | hmem
      · refine ⟨(hentries _ List.mem_cons_self).1, fun value hvalue => ?_⟩
        rw [Option.some.injEq] at hvalue
        rw [← hvalue]
        exact hnode
      · exact hentries entry (List.mem_cons_of_mem _ hmem)
    · -- The node is the key of a new entry.
      rcases h with ⟨hentries, hvalues⟩
      refine ⟨fun entry hmem => ?_, fun entry hmem => ?_⟩
      · rcases List.mem_cons.mp hmem with rfl | hmem
        · exact ⟨hnode, by simp⟩
        · exact hentries entry hmem
      · rcases List.mem_cons.mp hmem with rfl | hmem
        · exact ⟨value, rfl⟩
        · exact hvalues entry hmem

end Frame

/-! ### Assemblies -/

namespace Nesting

/-- What an event of a document or a stream puts in the place of what waited for it. -/
def announced : Event → List Awaited
  | .streamStart => [.document]
  | .documentStart => [.root, .documentEnd]
  | _ => []

theorem isOutside_announced (event : Event) :
    ∀ level ∈ announced event, level.isOutside = true := by
  cases event <;> simp [announced, Awaited.isOutside]

/-- An event of a document or a stream is waited for outside every collection only. -/
theorem accept_boundary {level : Awaited} {outer after : List Awaited} {event : Event}
    (hboundary : event.isBoundary = true) (h : accept (level :: outer) event = some after) :
    level.isOutside = true ∧ after = announced event ++ outer := by
  cases level <;> cases event <;>
    simp_all [accept, acceptNode, announced, Awaited.isOutside, Event.isBoundary]

end Nesting

namespace Assembly

open Nesting

/-- Nothing is at fault, and what has been assembled is filled. -/
structure IsSound (a : Assembly) : Prop where
  fault : a.fault = none
  frames : ∀ frame ∈ a.frames, frame.IsFilled
  root : ∀ root, a.root = some root → root.IsFilled

/-- The assembly agrees with the levels while a node is being read that goes into its
    innermost collection: every collection waits for what comes behind one more node. -/
structure Reading (levels : List Awaited) (a : Assembly) : Prop extends IsSound a where
  levels : ∃ outside, levels = a.frames.map Frame.next ++ outside ∧
    ∀ level ∈ outside, level.isOutside = true

/-- The assembly agrees with the levels between two nodes: the innermost collection waits
    for its next node, and the ones around it for what comes behind it. -/
structure Fits (levels : List Awaited) (a : Assembly) : Prop extends IsSound a where
  levels : ∃ outside, (∀ level ∈ outside, level.isOutside = true) ∧
    match a.frames with
    | [] => levels = outside
    | frame :: outer => levels = frame.awaited :: (outer.map Frame.next ++ outside)

theorem fits_empty : Fits [.streamStart] empty where
  fault := rfl
  frames := by simp [empty]
  root := by simp [empty]
  levels := ⟨[.streamStart], by simp [Awaited.isOutside], rfl⟩

/-- A node that is complete goes into the innermost collection. -/
theorem fits_complete {levels : List Awaited} {a : Assembly} (h : Reading levels a) {node : Node}
    (hnode : node.IsFilled) : Fits levels (a.complete node) := by
  rcases a with ⟨frames, root, fault⟩
  rcases h with ⟨⟨hfault, hframes, hroot⟩, outside, hlevels, houtside⟩
  cases frames with
  | nil =>
    -- Outside every collection the node becomes the root.
    refine ⟨⟨hfault, hframes, fun root hsome => ?_⟩, outside, houtside, hlevels⟩
    simp only [complete, Option.some.injEq] at hsome
    rw [← hsome]
    exact hnode
  | cons frame outer =>
    refine ⟨⟨hfault, fun inner hmem => ?_, hroot⟩, outside, houtside, ?_⟩
    · rcases List.mem_cons.mp hmem with rfl | hmem
      · exact Frame.isFilled_addToFrame hnode (hframes frame List.mem_cons_self)
      · exact hframes inner (List.mem_cons_of_mem _ hmem)
    · simp only [complete, Frame.awaited_addToFrame]
      exact hlevels

/-- A collection that is started waits for its first node. -/
theorem fits_start {levels : List Awaited} {a : Assembly} (h : Reading levels a) {frame : Frame}
    (hframe : frame.IsFilled) : Fits (frame.awaited :: levels) (a.start frame) := by
  rcases h with ⟨⟨hfault, hframes, hroot⟩, outside, hlevels, houtside⟩
  refine ⟨⟨hfault, fun inner hmem => ?_, hroot⟩, outside, houtside, ?_⟩
  · rcases List.mem_cons.mp hmem with rfl | hmem
    · exact hframe
    · exact hframes inner hmem
  · simp only [start, hlevels]

/-- An event that begins a node finds the innermost collection, or the document, ready for
    one. -/
theorem reading_of_accept {levels after : List Awaited} {a : Assembly} {event : Event}
    (h : Fits levels a) (hevent : acceptNode [] event ≠ none)
    (haccept : accept levels event = some after) :
    ∃ inner, Reading inner a ∧ acceptNode inner event = some after := by
  rcases a with ⟨frames, root, fault⟩
  rcases h with ⟨hsound, outside, houtside, hlevels⟩
  cases frames with
  | nil =>
    -- Outside every collection only the contents of the document are a node.
    simp only at hlevels
    rw [hlevels] at haccept
    rcases outside with _ | ⟨level, outer⟩
    · cases event <;> simp [accept] at haccept
    · have houter : ∀ level ∈ outer, level.isOutside = true :=
        fun level hmem => houtside level (List.mem_cons_of_mem _ hmem)
      have hlevel := houtside level List.mem_cons_self
      cases level with
      | root => exact ⟨outer, ⟨hsound, outer, rfl, houter⟩, haccept⟩
      | streamStart => cases event <;> simp_all [accept, acceptNode]
      | document => cases event <;> simp_all [accept, acceptNode]
      | documentEnd => cases event <;> simp_all [accept, acceptNode]
      | item => simp [Awaited.isOutside] at hlevel
      | key => simp [Awaited.isOutside] at hlevel
      | value => simp [Awaited.isOutside] at hlevel
  | cons frame outer =>
    refine ⟨frame.next :: (outer.map Frame.next ++ outside), ⟨hsound, outside, rfl, houtside⟩, ?_⟩
    simp only at hlevels
    rw [hlevels] at haccept
    -- The innermost collection steps on to what comes behind the node.
    have hnext (rest : List Awaited) : acceptNode (frame.next :: rest) event =
        accept (frame.awaited :: rest) event := by
      cases frame with
      | sequence first items =>
        cases event <;> simp_all [Frame.next, Frame.awaited, accept, acceptNode]
      | mapping first entries =>
        rcases entries with _ | ⟨⟨key, _ | value⟩, older⟩ <;>
          cases event <;> simp_all [Frame.next, Frame.awaited, accept, acceptNode]
    rw [hnext, haccept]

/-- The end of a collection is waited for by the innermost one, and what is around that one
    is ready for it as a node. -/
theorem exists_innermost {levels after : List Awaited} {a : Assembly} {event : Event}
    (h : Fits levels a) (hend : event = .sequenceEnd ∨ event = .mappingEnd)
    (haccept : accept levels event = some after) :
    ∃ frame outer inner, a.frames = frame :: outer ∧ frame.IsFilled ∧
      accept (frame.awaited :: inner) event = some after ∧
      Reading inner { a with frames := outer } := by
  rcases a with ⟨frames, root, fault⟩
  rcases h with ⟨⟨hfault, hframes, hroot⟩, outside, houtside, hlevels⟩
  cases frames with
  | nil =>
    -- Outside every collection nothing waits for the end of one.
    simp only at hlevels
    rw [hlevels] at haccept
    rcases outside with _ | ⟨level, outer⟩
    · rcases hend with rfl | rfl <;> simp [accept] at haccept
    · have hlevel := houtside level List.mem_cons_self
      rcases hend with rfl | rfl <;> cases level <;>
        simp [accept, acceptNode, Awaited.isOutside] at haccept hlevel
  | cons frame outer =>
    simp only at hlevels
    rw [hlevels] at haccept
    have houter : ∀ inner ∈ outer, inner.IsFilled :=
      fun inner hmem => hframes inner (List.mem_cons_of_mem _ hmem)
    exact ⟨frame, outer, _, rfl, hframes frame List.mem_cons_self, haccept,
      ⟨hfault, houter, hroot⟩, outside, rfl, houtside⟩

/-- The end of a sequence finds the frame of a sequence, which goes into the collection
    around it. -/
theorem reading_of_sequenceEnd {levels after : List Awaited} {a : Assembly} (h : Fits levels a)
    (haccept : accept levels .sequenceEnd = some after) :
    ∃ first items outer, a.frames = .sequence first items :: outer ∧
      (∀ item ∈ items, item.IsFilled) ∧ Reading after { a with frames := outer } := by
  rcases exists_innermost h (.inl rfl) haccept with
    ⟨frame, outer, inner, hframes, hfilled, hinner, hreading⟩
  cases frame with
  | sequence first items =>
    simp only [Frame.awaited, accept, Option.some.injEq] at hinner
    rw [hinner] at hreading
    exact ⟨first, items, outer, hframes, hfilled, hreading⟩
  | mapping first entries =>
    rcases entries with _ | ⟨⟨key, _ | value⟩, older⟩ <;>
      simp [Frame.awaited, accept, acceptNode] at hinner

/-- The end of a mapping finds the frame of a mapping, whose entries all have values by
    then. -/
theorem reading_of_mappingEnd {levels after : List Awaited} {a : Assembly} (h : Fits levels a)
    (haccept : accept levels .mappingEnd = some after) :
    ∃ first entries outer, a.frames = .mapping first entries :: outer ∧
      (∀ entry ∈ entries, entry.IsFilled) ∧
      (∀ entry ∈ entries, ∃ value, entry.value = some value) ∧
      Reading after { a with frames := outer } := by
  rcases exists_innermost h (.inr rfl) haccept with
    ⟨frame, outer, inner, hframes, hfilled, hinner, hreading⟩
  cases frame with
  | sequence first items => simp [Frame.awaited, accept, acceptNode] at hinner
  | mapping first entries =>
    -- A mapping that waits for a value does not wait for its end.
    have hkey : (Frame.mapping first entries).awaited = .key := by
      rcases entries with _ | ⟨⟨key, _ | value⟩, older⟩
      · rfl
      · simp [Frame.awaited, accept, acceptNode] at hinner
      · rfl
    rw [hkey, accept, Option.some.injEq] at hinner
    rw [hinner] at hreading
    exact ⟨first, entries, outer, hframes, hfilled.1, Frame.value_of_awaited_key hfilled hkey,
      hreading⟩

/-- An event of a document or a stream leaves what has been assembled alone. -/
theorem fits_of_boundary {levels after : List Awaited} {a : Assembly} {event : Event}
    (h : Fits levels a) (hboundary : event.isBoundary = true)
    (haccept : accept levels event = some after) : Fits after a := by
  rcases a with ⟨frames, root, fault⟩
  rcases h with ⟨hsound, outside, houtside, hlevels⟩
  cases frames with
  | nil =>
    simp only at hlevels
    rw [hlevels] at haccept
    rcases outside with _ | ⟨level, outer⟩
    · cases event <;> simp [accept] at haccept
    · refine ⟨hsound, after, fun inner hmem => ?_, rfl⟩
      rw [(accept_boundary hboundary haccept).2, List.mem_append] at hmem
      rcases hmem with hmem | hmem
      · exact isOutside_announced event inner hmem
      · exact houtside inner (List.mem_cons_of_mem _ hmem)
  | cons frame outer =>
    simp only at hlevels
    rw [hlevels] at haccept
    -- Inside a collection no such event is waited for.
    have hinside := (accept_boundary hboundary haccept).1
    rw [frame.isOutside_awaited] at hinside
    exact absurd hinside (by simp)

/-- An event that is waited for keeps an assembly in agreement with the levels. -/
theorem fits_add (offsets : OffsetTable) {levels after : List Awaited} {a : Assembly}
    {event : Placed Event} (h : Fits levels a) (haccept : accept levels event.item = some after) :
    Fits after (a.add offsets event) := by
  rcases event with ⟨event, mark⟩
  cases event with
  | streamStart => exact fits_of_boundary h rfl haccept
  | streamEnd => exact fits_of_boundary h rfl haccept
  | documentStart => exact fits_of_boundary h rfl haccept
  | documentEnd => exact fits_of_boundary h rfl haccept
  | sequenceStart =>
    rcases reading_of_accept h (by simp [acceptNode]) haccept with ⟨inner, hreading, hinner⟩
    rw [acceptNode, Option.some.injEq] at hinner
    rw [← hinner]
    have hframe : (Frame.sequence mark []).IsFilled := by simp [Frame.IsFilled]
    exact fits_start hreading hframe
  | mappingStart =>
    rcases reading_of_accept h (by simp [acceptNode]) haccept with ⟨inner, hreading, hinner⟩
    rw [acceptNode, Option.some.injEq] at hinner
    rw [← hinner]
    have hframe : (Frame.mapping mark []).IsFilled := by simp [Frame.IsFilled]
    exact fits_start hreading hframe
  | scalar style text =>
    rcases reading_of_accept h (by simp [acceptNode]) haccept with ⟨inner, hreading, hinner⟩
    rw [acceptNode, Option.some.injEq] at hinner
    rw [← hinner]
    exact fits_complete hreading (isFilled_scalar _ _ _)
  | «alias» =>
    rcases reading_of_accept h (by simp [acceptNode]) haccept with ⟨inner, hreading, hinner⟩
    rw [acceptNode, Option.some.injEq] at hinner
    rw [← hinner]
    exact fits_complete hreading (isFilled_alias _)
  | sequenceEnd =>
    rcases reading_of_sequenceEnd h haccept with ⟨first, items, outer, hframes, hitems, hreading⟩
    simp only [add, hframes]
    exact fits_complete hreading
      (isFilled_sequence (fun item hmem => hitems item (List.mem_reverse.mp hmem)) _)
  | mappingEnd =>
    rcases reading_of_mappingEnd h haccept with
      ⟨first, entries, outer, hframes, hentries, hvalues, hreading⟩
    simp only [add, hframes]
    exact fits_complete hreading
      (isFilled_mapping (fun entry hmem => hentries entry (List.mem_reverse.mp hmem))
        (fun entry hmem => hvalues entry (List.mem_reverse.mp hmem)) _)

/-- Events that are waited for one after the other keep an assembly in agreement. -/
theorem fits_foldl_add (offsets : OffsetTable) {levels after : List Awaited} {a : Assembly}
    {events : List (Placed Event)} (h : Fits levels a)
    (haccept : acceptAll levels (events.map (·.item)) = some after) :
    Fits after (events.foldl (add offsets) a) := by
  induction events generalizing levels a with
  | nil =>
    simp only [acceptAll, List.map_nil, List.foldlM_nil, Option.pure_def,
      Option.some.injEq] at haccept
    rw [← haccept]
    exact h
  | cons event rest ih =>
    rw [acceptAll, List.map_cons, List.foldlM_cons] at haccept
    -- Behind the first event the other ones are waited for.
    cases hevent : accept levels event.item with
    | none => simp [hevent] at haccept
    | some between =>
      rw [hevent] at haccept
      exact ih (fits_add offsets h hevent) haccept

/-- Events that are waited for up to the last one give a root without gaps, or none. -/
theorem ofEvents_of_acceptAll (offsets : OffsetTable) {events : List (Placed Event)}
    (h : acceptAll [.streamStart] (events.map (·.item)) = some []) :
    ∃ root, ofEvents offsets events = .ok root ∧ ∀ node, root = some node → node.IsFilled := by
  rcases fits_foldl_add offsets fits_empty h with ⟨⟨hfault, hframes, hroot⟩, outside, _, hlevels⟩
  -- No level is open, and so no frame is.
  have hnil : (events.foldl (add offsets) empty).frames = [] := by
    cases hframe : (events.foldl (add offsets) empty).frames with
    | nil => rfl
    | cons frame outer => simp [hframe] at hlevels
  refine ⟨(events.foldl (add offsets) empty).root, ?_, hroot⟩
  simp [ofEvents, result, hfault, hnil]

end Assembly

namespace Document

open Nesting

/-- The events of a document are waited for up to the last one. -/
theorem acceptAll_of_events {text : List Char} {found : List (Placed Event)}
    (h : events text = .ok found) :
    acceptAll [.streamStart] (found.map (·.item)) = some [] := by
  rcases Derivation.gives_of_events h with ⟨given, d, hgives, hagenda, rfl⟩
  have haccept := Derivation.acceptAll_of_gives hgives
  rw [hagenda] at haccept
  exact haccept

/-- Reading a text gives a tree in which every key has a value, or no tree, or finds the text
    malformed; it never fails over its events. While it reads, every event is one that is
    waited for, no collection is open behind the last one, and tokens are put in the queue
    in front of tokens that are still there. -/
theorem parse_eq_filled_or_malformed (text : String) :
    ((∃ root, parse text = .ok root ∧ ∀ node, root = some node → node.IsFilled) ∨
      ∃ message line column, parse text = .error (.malformed message line column)) ∧
    (∀ given d, Derivation.Gives (.ofStream (.ofText text.toList)) given d →
      ∃ levels, acceptAll [.streamStart] (given.map (·.item)) = some levels) ∧
    (∀ found, events text.toList = .ok found →
      acceptAll [.streamStart] (found.map (·.item)) = some []) ∧
    ∀ tokens t, Tokenizer.Runs (.ofText text.toList) tokens t →
      ∀ k, some k ∈ t.candidate :: t.outer →
        t.delivered ≤ k.number ∧ k.number ≤ t.delivered + t.queue.length := by
  refine ⟨?_, ?_, fun found h => acceptAll_of_events h, ?_⟩
  · cases hevents : events text.toList with
    | error e =>
      refine .inr ⟨e.fault.message, e.mark.line, e.mark.column + 1, ?_⟩
      rw [parse, hevents]
      rfl
    | ok found =>
      rcases Assembly.ofEvents_of_acceptAll (OffsetTable.ofText text.toList)
        (acceptAll_of_events hevents) with ⟨root, hroot, hfilled⟩
      refine .inl ⟨root, ?_, hfilled⟩
      rw [parse_of_events hevents, hroot]
      rfl
  · intro given d hgives
    exact ⟨_, Derivation.acceptAll_of_gives hgives⟩
  · intro tokens t hruns
    exact (Tokenizer.isOrderly_of_runs hruns (Tokenizer.isOrderly_ofText _)).room

end Document

end Yaml

end YamlLocator
