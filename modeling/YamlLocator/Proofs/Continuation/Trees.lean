import YamlLocator.Proofs.Offsets
import YamlLocator.Proofs.Retelling.Trees
import YamlLocator.Proofs.Spans

/-!
# Trees of a Text That Goes On

The same events describe the same tree, but the table that turns marks into offsets is that of the
whole text. It is the same for every place in the text that does not go on. What lies behind that
text counts as its end there, and has an offset of its own in the text that goes on; the end of a
scalar is estimated and may be such a place, while the two ends of a collection are marks of
tokens.

## Main definitions

* `Span.cut`, `Span.cutStop`: A span, or its end, cut at the end of a text.
* `Node.mapScalarSpans`: A tree with other spans of scalars.

## Theorems

* `Assembly.mapSpans_ofEvents_append`: The trees are equal once their spans are cut.
* `Assembly.mapScalarSpans_ofEvents_append`: Only the ends of scalars need that if all events lie in
  the text.
-/

namespace YamlLocator

/-- The span, cut at the end of a text of the given size. -/
def Span.cut (size : Nat) (span : Span) : Span :=
  { start := min span.start size, stop := min span.stop size }

/-- The span with its end cut at the end of a text of the given size. -/
def Span.cutStop (size : Nat) (span : Span) : Span := { span with stop := min span.stop size }

namespace OffsetTable

variable (text more : List Char)

/-- The places of a text keep their offsets if it goes on. -/
theorem byteAt_append_of_le {i : Nat} (h : i ≤ text.length) :
    (ofText (text ++ more)).byteAt i = (ofText text).byteAt i := by
  rw [byteAt_ofText, byteAt_ofText, List.take_append_of_le_length h]

/-- What lies behind the text counts as its end. -/
theorem min_byteAt_append (i : Nat) :
    min ((ofText (text ++ more)).byteAt i) (Text.byteLength text) = (ofText text).byteAt i := by
  rw [byteAt_ofText, byteAt_ofText]
  rcases Nat.le_total i text.length with h | h
  · have hsplit := congrArg Text.byteLength (List.take_append_drop i text)
    rw [Text.byteLength_append] at hsplit
    rw [List.take_append_of_le_length h]
    omega
  · rw [List.take_append, List.take_of_length_le h, Text.byteLength_append]
    omega

end OffsetTable

namespace Yaml

mutual

/-- The tree with other spans of its scalars. -/
def Node.mapScalarSpans (f : Span → Span) : Node → Node
  | .mapping entries span => .mapping (Entry.mapScalarSpansOfAll f entries) span
  | .sequence items span => .sequence (Node.mapScalarSpansOfAll f items) span
  | .scalar text kind span => .scalar text kind (span.map f)
  | .alias span => .alias span

/-- Some trees in a row with other spans of their scalars. -/
def Node.mapScalarSpansOfAll (f : Span → Span) : List Node → List Node
  | [] => []
  | node :: rest => node.mapScalarSpans f :: Node.mapScalarSpansOfAll f rest

/-- An entry with other spans of its scalars. -/
def Entry.mapScalarSpans (f : Span → Span) : Entry → Entry
  | { key, value := none } => { key := key.mapScalarSpans f, value := none }
  | { key, value := some value } =>
    { key := key.mapScalarSpans f, value := some (value.mapScalarSpans f) }

/-- Some entries in a row with other spans of their scalars. -/
def Entry.mapScalarSpansOfAll (f : Span → Span) : List Entry → List Entry
  | [] => []
  | entry :: rest => entry.mapScalarSpans f :: Entry.mapScalarSpansOfAll f rest

end

theorem Node.mapScalarSpansOfAll_eq (f : Span → Span) (nodes : List Node) :
    Node.mapScalarSpansOfAll f nodes = nodes.map (Node.mapScalarSpans f) := by
  induction nodes with
  | nil => rfl
  | cons node rest ih => rw [Node.mapScalarSpansOfAll, ih, List.map_cons]

theorem Entry.mapScalarSpansOfAll_eq (f : Span → Span) (entries : List Entry) :
    Entry.mapScalarSpansOfAll f entries = entries.map (Entry.mapScalarSpans f) := by
  induction entries with
  | nil => rfl
  | cons entry rest ih => rw [Entry.mapScalarSpansOfAll, ih, List.map_cons]

/-- An open collection with other spans of the scalars in it. -/
def Frame.mapScalarSpans (f : Span → Span) : Frame → Frame
  | .sequence start items => .sequence start (items.map (Node.mapScalarSpans f))
  | .mapping start entries => .mapping start (entries.map (Entry.mapScalarSpans f))

namespace Assembly

/-- What has been assembled, with other spans of the scalars in it. -/
def mapScalarSpans (f : Span → Span) (a : Assembly) : Assembly :=
  { a with
    frames := a.frames.map (Frame.mapScalarSpans f)
    root := a.root.map (Node.mapScalarSpans f) }

variable (f : Span → Span)

theorem mapScalarSpans_addToEntries (node : Node) (entries : List Entry) :
    (addToEntries node entries).map (Entry.mapScalarSpans f) =
      addToEntries (node.mapScalarSpans f) (entries.map (Entry.mapScalarSpans f)) := by
  rcases entries with _ | ⟨⟨key, _ | value⟩, older⟩ <;> simp [addToEntries, Entry.mapScalarSpans]

theorem mapScalarSpans_addToFrame (node : Node) (frame : Frame) :
    (addToFrame node frame).mapScalarSpans f =
      addToFrame (node.mapScalarSpans f) (frame.mapScalarSpans f) := by
  cases frame with
  | sequence start items => rfl
  | mapping start entries =>
    simp only [addToFrame, Frame.mapScalarSpans, mapScalarSpans_addToEntries]

theorem mapScalarSpans_complete (a : Assembly) (node : Node) :
    (a.complete node).mapScalarSpans f = (a.mapScalarSpans f).complete (node.mapScalarSpans f) := by
  rcases a with ⟨frames, root, fault⟩
  cases frames with
  | nil => rfl
  | cons frame outer => simp [complete, mapScalarSpans, mapScalarSpans_addToFrame]

theorem mapScalarSpans_fail (a : Assembly) (fault : StructureFault) :
    (a.fail fault).mapScalarSpans f = (a.mapScalarSpans f).fail fault := by
  simp [fail, mapScalarSpans]

/-- Two tables agree about an index. -/
def AgreesAt (offsets offsets' : OffsetTable) (mark : Mark) : Prop :=
  offsets'.byteAt mark.index = offsets.byteAt mark.index

variable {f} {offsets offsets' : OffsetTable}

/-- An event adds the same if the tables agree about its mark and those of the collections that
    are open. -/
theorem mapScalarSpans_add {a : Assembly} {event : Placed Event}
    (hmark : AgreesAt offsets offsets' event.mark)
    (hstarts : ∀ start ∈ a.starts, AgreesAt offsets offsets' start)
    (hscalar : ∀ style text,
      f (scalarSpan offsets' event.mark style text) = scalarSpan offsets event.mark style text) :
    (a.add offsets' event).mapScalarSpans f = (a.mapScalarSpans f).add offsets event := by
  rcases a with ⟨frames, root, fault⟩
  rcases event with ⟨event, mark⟩
  have hbetween {first : Mark} (hfirst : AgreesAt offsets offsets' first) :
      spanBetween offsets' first mark = spanBetween offsets first mark := by
    rw [spanBetween, spanBetween, hfirst, hmark]
  cases event with
  | scalar style text =>
    refine (mapScalarSpans_complete ..).trans ?_
    rw [Node.mapScalarSpans, Option.map_some, hscalar]
    rfl
  | «alias» =>
    refine (mapScalarSpans_complete ..).trans ?_
    rw [Node.mapScalarSpans, hbetween hmark]
    rfl
  | sequenceEnd =>
    rcases frames with _ | ⟨⟨first, items⟩ | ⟨first, entries⟩, outer⟩
    · exact mapScalarSpans_fail ..
    · refine (mapScalarSpans_complete ..).trans ?_
      rw [Node.mapScalarSpans, Node.mapScalarSpansOfAll_eq, List.map_reverse,
        hbetween (hstarts first (by simp [starts, Frame.mark]))]
      rfl
    · exact mapScalarSpans_fail ..
  | mappingEnd =>
    rcases frames with _ | ⟨⟨first, items⟩ | ⟨first, entries⟩, outer⟩
    · exact mapScalarSpans_fail ..
    · exact mapScalarSpans_fail ..
    · refine (mapScalarSpans_complete ..).trans ?_
      rw [Node.mapScalarSpans, Entry.mapScalarSpansOfAll_eq, List.map_reverse,
        hbetween (hstarts first (by simp [starts, Frame.mark]))]
      rfl
  | _ => rfl

/-- The collections that are open behind an event started there or before. -/
theorem forall_mem_startsBehind {P : Mark → Prop} {starts : List Mark} {event : Placed Event}
    (hmark : P event.mark) (hstarts : ∀ start ∈ starts, P start) :
    ∀ start ∈ startsBehind starts event, P start := by
  unfold startsBehind
  split
  · exact List.forall_mem_cons.mpr ⟨hmark, hstarts⟩
  · split
    · exact fun start hmem => hstarts start (List.mem_of_mem_tail hmem)
    · exact hstarts

theorem mapScalarSpans_foldl {events : List (Placed Event)} {a : Assembly}
    (hmarks : ∀ event ∈ events, AgreesAt offsets offsets' event.mark)
    (hstarts : ∀ start ∈ a.starts, AgreesAt offsets offsets' start)
    (hscalar : ∀ event ∈ events, ∀ style text,
      f (scalarSpan offsets' event.mark style text) = scalarSpan offsets event.mark style text) :
    (events.foldl (add offsets') a).mapScalarSpans f =
      events.foldl (add offsets) (a.mapScalarSpans f) := by
  induction events generalizing a with
  | nil => rfl
  | cons event events ih =>
    rcases List.forall_mem_cons.mp hmarks with ⟨hmark, hmarks⟩
    rcases List.forall_mem_cons.mp hscalar with ⟨hevent, hscalar⟩
    have hbehind : ∀ start ∈ (a.add offsets' event).starts, AgreesAt offsets offsets' start := by
      rw [starts_add]
      exact forall_mem_startsBehind hmark hstarts
    rw [List.foldl_cons, List.foldl_cons, ih hmarks hbehind hscalar,
      mapScalarSpans_add hmark hstarts hevent]

theorem mapScalarSpans_result (a : Assembly) :
    (a.mapScalarSpans f).result = a.result.map (Option.map (Node.mapScalarSpans f)) := by
  simp only [result, mapScalarSpans, List.isEmpty_map]
  cases a.fault with
  | some fault => rfl
  | none =>
    simp only
    split <;> rfl

variable (text more : List Char)

/-- The tree of a text that goes on is the tree of the text once all spans are cut. -/
theorem mapSpans_ofEvents_append (events : List (Placed Event)) :
    (ofEvents (.ofText (text ++ more)) events).map
        (Option.map (Node.mapSpans (Span.cut (Text.byteLength text)))) =
      ofEvents (.ofText text) events := by
  -- Nothing becomes of the marks: the events are the same.
  let σ : Retelling := { text, offset := 0, lines := 0, doubled := false, plain := by simp }
  have hmark (m : Mark) : σ.mark m = m := by simp [σ, Retelling.mark, Retelling.index]
  have hplace : σ.place = (id : Placed Event → Placed Event) := by
    funext event
    simp [Retelling.place, hmark]
  have hspans : σ.Matches (.ofText text) (.ofText (text ++ more)) id
      (Span.cut (Text.byteLength text)) := by
    refine ⟨fun first last => ?_, fun mark style value => ?_⟩
    · simp only [hmark, spanBetween, Span.cut, OffsetTable.min_byteAt_append, id]
    · simp only [hmark, scalarSpan, Span.cut, OffsetTable.min_byteAt_append, id]
  have halike : IsAlike σ id (Span.cut (Text.byteLength text)) empty empty := ⟨.nil, rfl, rfl⟩
  have hresult := mapSpans_result (isAlike_foldl hspans events halike)
  have hsame : Node.mapSpans id = id := funext Node.mapSpans_id
  rw [hplace, List.map_id, hsame, Option.map_id] at hresult
  rw [ofEvents, ofEvents, hresult]
  cases (events.foldl (add (.ofText text)) empty).result <;> rfl

/-- If all events lie in the text, only the ends of scalars have to be cut. -/
theorem mapScalarSpans_ofEvents_append {events : List (Placed Event)}
    (hevents : ∀ event ∈ events, event.mark.index ≤ text.length) :
    (ofEvents (.ofText (text ++ more)) events).map
        (Option.map (Node.mapScalarSpans (Span.cutStop (Text.byteLength text)))) =
      ofEvents (.ofText text) events := by
  have hmarks (event : Placed Event) (hmem : event ∈ events) :
      AgreesAt (.ofText text) (.ofText (text ++ more)) event.mark :=
    OffsetTable.byteAt_append_of_le text more (hevents event hmem)
  rw [ofEvents, ← mapScalarSpans_result, mapScalarSpans_foldl hmarks (by simp [starts, empty])
    fun event hmem style value => ?_]
  · rfl
  · simp only [scalarSpan, Span.cutStop, OffsetTable.min_byteAt_append,
      OffsetTable.byteAt_append_of_le text more (hevents event hmem)]

end Assembly

end Yaml

end YamlLocator
