import YamlLocator.Proofs.WellFormed

/-!
# Spans of Assembled Nodes

What the spans of a tree come from. Every node that is assembled gets a span at once: a scalar
and an alias when their event comes, a collection when it ends, and then from the mark of its
start to the mark of its end. So whatever holds of all spans that are made in these three
ways holds of every node of the tree, in the position of a key, a value or an item, at every
depth.

For scalars and aliases nothing more is needed than the way in which the span is made. For a
collection the two marks matter, and they belong to different events. `IsMatched` says
something about them without the assembly: it keeps the marks of the collections that have
started and compares every end with the innermost one.

## Main definitions

* `Node.IsSpanned`: Every node in a tree has a span of some kind.
* `Assembly.IsSpanned`: The same for all that has been assembled.
* `startsBehind`: The marks of the open collections behind an event.
* `IsMatched`: Every end of a collection stands in a relation to its start.

## Theorems

* `isSpanned_add`: An event keeps what has been assembled spanned.
* `starts_add`: The open collections of an assembly are those of the events.
* `isSpanned_of_parse`: The tree of a text is spanned if its events are matched.
-/

namespace YamlLocator

namespace Yaml

/-- Every node that occurs in the node has a span with the property. -/
def Node.IsSpanned (P : Span → Prop) (root : Node) : Prop :=
  ∀ node, Node.Part node root → ∃ span, node.span = some span ∧ P span

/-- The key of the entry is spanned, and so is its value if it has one. -/
def Entry.IsSpanned (P : Span → Prop) (entry : Entry) : Prop :=
  entry.key.IsSpanned P ∧ ∀ value, entry.value = some value → value.IsSpanned P

variable {P : Span → Prop}

theorem isSpanned_scalar (text : String) (kind : ScalarKind) {span : Span} (h : P span) :
    (Node.scalar text kind (some span)).IsSpanned P := by
  intro node hpart
  cases hpart with
  | whole => exact ⟨span, rfl, h⟩

theorem isSpanned_alias {span : Span} (h : P span) : (Node.alias (some span)).IsSpanned P := by
  intro node hpart
  cases hpart with
  | whole => exact ⟨span, rfl, h⟩

theorem isSpanned_sequence {items : List Node} {span : Span} (h : P span)
    (hitems : ∀ item ∈ items, item.IsSpanned P) :
    (Node.sequence items (some span)).IsSpanned P := by
  intro node hpart
  cases hpart with
  | whole => exact ⟨span, rfl, h⟩
  | item item _ _ hmem hin => exact hitems item hmem node hin

theorem isSpanned_mapping {entries : List Entry} {span : Span} (h : P span)
    (hentries : ∀ entry ∈ entries, entry.IsSpanned P) :
    (Node.mapping entries (some span)).IsSpanned P := by
  intro node hpart
  cases hpart with
  | whole => exact ⟨span, rfl, h⟩
  | key entry _ _ hmem hin => exact (hentries entry hmem).1 node hin
  | value value entry _ _ hmem hsome hin => exact (hentries entry hmem).2 value hsome node hin

/-! ### Frames -/

namespace Frame

/-- The mark at which the collection starts. -/
def mark : Frame → Mark
  | .sequence start _ => start
  | .mapping start _ => start

/-- Everything in the collection is spanned. -/
def IsSpanned (P : Span → Prop) : Frame → Prop
  | .sequence _ items => ∀ item ∈ items, item.IsSpanned P
  | .mapping _ entries => ∀ entry ∈ entries, entry.IsSpanned P

theorem mark_addToFrame (node : Node) (frame : Frame) :
    (Assembly.addToFrame node frame).mark = frame.mark := by
  cases frame <;> rfl

theorem isSpanned_addToFrame {node : Node} (hnode : node.IsSpanned P) {frame : Frame}
    (hframe : frame.IsSpanned P) : (Assembly.addToFrame node frame).IsSpanned P := by
  cases frame with
  | sequence first items =>
    intro item hmem
    rcases List.mem_cons.mp hmem with rfl | hmem
    · exact hnode
    · exact hframe item hmem
  | mapping first entries =>
    rcases entries with _ | ⟨⟨key, _ | value⟩, older⟩
    · -- The first key.
      intro entry hmem
      simp only [Assembly.addToEntries, List.mem_singleton] at hmem
      rw [hmem]
      exact ⟨hnode, by simp⟩
    · -- A value for the last key.
      intro entry hmem
      rcases List.mem_cons.mp hmem with rfl | hmem
      · refine ⟨(hframe _ List.mem_cons_self).1, fun value hvalue => ?_⟩
        rw [Option.some.injEq] at hvalue
        rwa [← hvalue]
      · exact hframe entry (List.mem_cons_of_mem _ hmem)
    · -- Another key.
      intro entry hmem
      rcases List.mem_cons.mp hmem with rfl | hmem
      · exact ⟨hnode, by simp⟩
      · exact hframe entry hmem

end Frame

/-! ### Starts and ends -/

/-- Whether an event starts a collection. -/
def Event.isStart : Event → Bool
  | .sequenceStart => true
  | .mappingStart => true
  | _ => false

/-- Whether an event ends a collection. -/
def Event.isStop : Event → Bool
  | .sequenceEnd => true
  | .mappingEnd => true
  | _ => false

/-- The marks of the collections that are open behind an event, innermost first. -/
def startsBehind (starts : List Mark) (event : Placed Event) : List Mark :=
  if event.item.isStart then event.mark :: starts
  else if event.item.isStop then starts.tail
  else starts

/-- Every end of a collection stands in the relation to the start of the innermost one that is
    open. -/
def IsMatched (R : Mark → Mark → Prop) : List Mark → List (Placed Event) → Prop
  | _, [] => True
  | starts, event :: rest =>
    (event.item.isStop = true → ∀ first ∈ starts.head?, R first event.mark) ∧
      IsMatched R (startsBehind starts event) rest

variable {R : Mark → Mark → Prop}

theorem isMatched_of_forall (h : ∀ first last, R first last) (starts : List Mark)
    (events : List (Placed Event)) : IsMatched R starts events := by
  induction events generalizing starts with
  | nil => trivial
  | cons event rest ih => exact ⟨fun _ first _ => h first event.mark, ih _⟩

namespace Assembly

/-- Everything that has been assembled is spanned. -/
structure IsSpanned (P : Span → Prop) (a : Assembly) : Prop where
  frames : ∀ frame ∈ a.frames, frame.IsSpanned P
  root : ∀ node, a.root = some node → node.IsSpanned P

/-- The marks of the collections that have not ended yet, innermost first. -/
def starts (a : Assembly) : List Mark := a.frames.map Frame.mark

theorem isSpanned_complete {a : Assembly} (h : a.IsSpanned P) {node : Node}
    (hnode : node.IsSpanned P) : (a.complete node).IsSpanned P := by
  rcases a with ⟨frames, root, fault⟩
  cases frames with
  | nil =>
    refine ⟨by simp [complete], fun root hroot => ?_⟩
    simp only [complete, Option.some.injEq] at hroot
    rwa [← hroot]
  | cons frame outer =>
    refine ⟨fun inner hmem => ?_, h.root⟩
    rcases List.mem_cons.mp hmem with rfl | hmem
    · exact Frame.isSpanned_addToFrame hnode (h.frames frame List.mem_cons_self)
    · exact h.frames inner (List.mem_cons_of_mem _ hmem)

theorem starts_complete (a : Assembly) (node : Node) : (a.complete node).starts = a.starts := by
  rcases a with ⟨frames, root, fault⟩
  cases frames with
  | nil => rfl
  | cons frame outer => simp [complete, starts, Frame.mark_addToFrame]

theorem isSpanned_start {a : Assembly} (h : a.IsSpanned P) {frame : Frame}
    (hframe : frame.IsSpanned P) : (a.start frame).IsSpanned P := by
  refine ⟨fun inner hmem => ?_, h.root⟩
  rcases List.mem_cons.mp hmem with rfl | hmem
  · exact hframe
  · exact h.frames inner hmem

theorem isSpanned_outer {a : Assembly} (h : a.IsSpanned P) {frame : Frame} {outer : List Frame}
    (hframes : a.frames = frame :: outer) : IsSpanned P { a with frames := outer } :=
  ⟨fun inner hmem => h.frames inner (by rw [hframes]; exact List.mem_cons_of_mem _ hmem), h.root⟩

theorem isSpanned_fail {a : Assembly} (h : a.IsSpanned P) (fault : StructureFault) :
    (a.fail fault).IsSpanned P :=
  ⟨fun frame hmem => h.frames frame (List.mem_of_mem_tail hmem), h.root⟩

/-- The collections that are open behind an event are told by the events alone. -/
theorem starts_add (offsets : OffsetTable) (a : Assembly) (event : Placed Event) :
    (a.add offsets event).starts = startsBehind a.starts event := by
  rcases event with ⟨item, mark⟩
  rcases a with ⟨frames, root, fault⟩
  cases item with
  | scalar style text => exact starts_complete _ _
  | «alias» => exact starts_complete _ _
  | sequenceStart => rfl
  | mappingStart => rfl
  | sequenceEnd =>
    rcases frames with _ | ⟨⟨first, items⟩ | ⟨first, entries⟩, outer⟩
    · rfl
    · exact starts_complete _ _
    · rfl
  | mappingEnd =>
    rcases frames with _ | ⟨⟨first, items⟩ | ⟨first, entries⟩, outer⟩
    · rfl
    · rfl
    · exact starts_complete _ _
  | streamStart => rfl
  | streamEnd => rfl
  | documentStart => rfl
  | documentEnd => rfl

section

variable {offsets : OffsetTable}
  (hpoint : ∀ mark, P (spanBetween offsets mark mark))
  (hscalar : ∀ mark style text, P (scalarSpan offsets mark style text))
  (hbetween : ∀ first last, R first last → P (spanBetween offsets first last))

include hpoint hscalar hbetween

/-- An event keeps what has been assembled spanned, if an end matches the start of the
    innermost collection. -/
theorem isSpanned_add {a : Assembly} (h : a.IsSpanned P) {event : Placed Event}
    (hstop : event.item.isStop = true → ∀ first ∈ a.starts.head?, R first event.mark) :
    (a.add offsets event).IsSpanned P := by
  rcases event with ⟨item, mark⟩
  cases item with
  | scalar style text => exact isSpanned_complete h (isSpanned_scalar _ _ (hscalar mark style text))
  | «alias» => exact isSpanned_complete h (isSpanned_alias (hpoint mark))
  | sequenceStart => exact isSpanned_start h (by simp [Frame.IsSpanned])
  | mappingStart => exact isSpanned_start h (by simp [Frame.IsSpanned])
  | sequenceEnd =>
    simp only [add]
    split
    · -- The end of the innermost collection, which is a sequence.
      rename_i first items outer hframes
      have hfirst := hstop rfl first (by simp [starts, hframes, Frame.mark])
      have hitems := h.frames (.sequence first items) (by simp [hframes])
      refine isSpanned_complete (isSpanned_outer h hframes)
        (isSpanned_sequence (hbetween first mark hfirst) fun item hmem => ?_)
      exact hitems item (List.mem_reverse.mp hmem)
    · exact isSpanned_fail h _
  | mappingEnd =>
    simp only [add]
    split
    · rename_i first entries outer hframes
      have hfirst := hstop rfl first (by simp [starts, hframes, Frame.mark])
      have hentries := h.frames (.mapping first entries) (by simp [hframes])
      refine isSpanned_complete (isSpanned_outer h hframes)
        (isSpanned_mapping (hbetween first mark hfirst) fun entry hmem => ?_)
      exact hentries entry (List.mem_reverse.mp hmem)
    · exact isSpanned_fail h _
  | streamStart => exact h
  | streamEnd => exact h
  | documentStart => exact h
  | documentEnd => exact h

theorem isSpanned_foldl_add {events : List (Placed Event)} {a : Assembly} (h : a.IsSpanned P)
    (hevents : IsMatched R a.starts events) : (events.foldl (add offsets) a).IsSpanned P := by
  induction events generalizing a with
  | nil => exact h
  | cons event rest ih =>
    rcases hevents with ⟨hstop, hrest⟩
    refine ih (isSpanned_add hpoint hscalar hbetween h hstop) ?_
    rw [starts_add]
    exact hrest

end

end Assembly

/-- The tree of a text is spanned if its events are matched in a way that gives spans with the
    property. -/
theorem isSpanned_of_parse {text : String} {root : Node}
    (hparse : Document.parse text = .ok (some root))
    (hpoint : ∀ mark, P (Assembly.spanBetween (.ofText text.toList) mark mark))
    (hscalar : ∀ mark style scalar, P (Assembly.scalarSpan (.ofText text.toList) mark style scalar))
    (hbetween : ∀ first last, R first last →
      P (Assembly.spanBetween (.ofText text.toList) first last))
    (hmatched : ∀ found, Document.events text.toList = .ok found → IsMatched R [] found) :
    root.IsSpanned P := by
  rcases Document.exists_events_of_parse hparse with ⟨found, hevents, htree⟩
  have hspanned := Assembly.isSpanned_foldl_add hpoint hscalar hbetween
    (a := Assembly.empty) ⟨by simp [Assembly.empty], by simp [Assembly.empty]⟩
    (hmatched found hevents)
  exact hspanned.root root (Assembly.root_of_ofEvents htree)

/-- Every node of the tree of a text has a span. -/
theorem span_of_parse {text : String} {root : Node}
    (hparse : Document.parse text = .ok (some root)) : root.IsSpanned fun _ => True :=
  isSpanned_of_parse (R := fun _ _ => True) hparse (fun _ => trivial) (fun _ _ _ => trivial)
    (fun _ _ _ => trivial) fun found _ => isMatched_of_forall (fun _ _ => trivial) [] found

end Yaml

end YamlLocator
