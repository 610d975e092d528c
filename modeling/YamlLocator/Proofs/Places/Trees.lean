import YamlLocator.Proofs.KeyChain
import YamlLocator.Proofs.Places.ScalarOrder
import YamlLocator.Proofs.SpanBounds

/-!
# Where the Scalars of a Tree Begin

A property of nodes that goes from the parts of a collection to the whole holds of every node
that is assembled, if it holds of those that are assembled from a single event. So every scalar in
a tree was given by an event of its own, with its text, its kind and its span. The event begins at
a place in the text, and the offset of that place is where the span starts.

Keys that are looked for are such scalars, and they are not empty.

## Main definitions

* `Assembly.IsInductive`: A property that goes from parts to the whole.
* `Assembly.Holds`: It holds of everything that has been assembled.
* `Text.charAt?`: The character at a byte offset.

## Theorems

* `Assembly.holds_add`: An event keeps such a property.
* `exists_event_of_part`: Every scalar of a tree is given by an event.
* `exists_begins_of_part`: A scalar that is not left out begins where its span starts.
* `exists_part_of_locate`, `exists_part_of_find`: The key that is found is a scalar of the tree.
-/

namespace YamlLocator

namespace Yaml

/-! ### Induction over what is assembled -/

/-- The key of the entry has the property, and so has its value if it has one. -/
def Entry.Holds (R : Node → Prop) (entry : Entry) : Prop :=
  R entry.key ∧ ∀ value, entry.value = some value → R value

/-- Everything in the collection has the property. -/
def Frame.Holds (R : Node → Prop) : Frame → Prop
  | .sequence _ items => ∀ item ∈ items, R item
  | .mapping _ entries => ∀ entry ∈ entries, entry.Holds R

namespace Assembly

/-- The property goes from the parts of a collection to the whole. -/
structure IsInductive (R : Node → Prop) : Prop where
  isAlias : ∀ span, R (.alias span)
  sequence : ∀ items span, (∀ item ∈ items, R item) → R (.sequence items span)
  mapping : ∀ entries span, (∀ entry ∈ entries, entry.Holds R) → R (.mapping entries span)

/-- Everything that has been assembled has the property. -/
structure Holds (R : Node → Prop) (a : Assembly) : Prop where
  frames : ∀ frame ∈ a.frames, frame.Holds R
  root : ∀ node, a.root = some node → R node

variable {R : Node → Prop} {offsets : OffsetTable}

theorem holds_addToFrame {node : Node} (hnode : R node) {frame : Frame} (h : frame.Holds R) :
    (addToFrame node frame).Holds R := by
  cases frame with
  | sequence first items => exact List.forall_mem_cons.mpr ⟨hnode, h⟩
  | mapping first entries =>
    rcases entries with _ | ⟨⟨key, _ | value⟩, older⟩
    · exact List.forall_mem_cons.mpr ⟨⟨hnode, by simp⟩, h⟩
    · -- The node is the value that the last key does not have yet.
      rcases List.forall_mem_cons.mp h with ⟨⟨hkey, -⟩, holder⟩
      refine List.forall_mem_cons.mpr ⟨⟨hkey, fun value hvalue => ?_⟩, holder⟩
      rw [Option.some.injEq] at hvalue
      rwa [← hvalue]
    · exact List.forall_mem_cons.mpr ⟨⟨hnode, by simp⟩, h⟩

theorem holds_complete {a : Assembly} (h : a.Holds R) {node : Node} (hnode : R node) :
    (a.complete node).Holds R := by
  rcases a with ⟨frames, root, fault⟩
  cases frames with
  | nil => exact ⟨by simp [complete], fun root hroot => by simp_all [complete]⟩
  | cons frame outer =>
    rcases List.forall_mem_cons.mp h.frames with ⟨hframe, houter⟩
    exact ⟨List.forall_mem_cons.mpr ⟨holds_addToFrame hnode hframe, houter⟩, h.root⟩

theorem holds_start {a : Assembly} (h : a.Holds R) {frame : Frame} (hframe : frame.Holds R) :
    (a.start frame).Holds R :=
  ⟨List.forall_mem_cons.mpr ⟨hframe, h.frames⟩, h.root⟩

theorem holds_fail {a : Assembly} (h : a.Holds R) (fault : StructureFault) :
    (a.fail fault).Holds R :=
  ⟨fun frame hmem => h.frames frame (List.mem_of_mem_tail hmem), h.root⟩

theorem holds_add (hR : IsInductive R) {a : Assembly} (h : a.Holds R) {event : Placed Event}
    (hscalar : ∀ style text, event.item = .scalar style text →
      R (.scalar text (kindOf style text) (some (scalarSpan offsets event.mark style text)))) :
    (a.add offsets event).Holds R := by
  rcases event with ⟨item, mark⟩
  cases item with
  | scalar style text => exact holds_complete h (hscalar style text rfl)
  | «alias» => exact holds_complete h (hR.isAlias _)
  | sequenceStart => exact holds_start h (by simp [Frame.Holds])
  | mappingStart => exact holds_start h (by simp [Frame.Holds])
  | sequenceEnd =>
    simp only [add]
    split
    · rename_i first items outer hframes
      have hall := h.frames
      rw [hframes, List.forall_mem_cons] at hall
      refine holds_complete (a := { a with frames := outer }) ⟨hall.2, h.root⟩
        (hR.sequence _ _ fun item hmem => ?_)
      exact hall.1 item (List.mem_reverse.mp hmem)
    · exact holds_fail h _
  | mappingEnd =>
    simp only [add]
    split
    · rename_i first entries outer hframes
      have hall := h.frames
      rw [hframes, List.forall_mem_cons] at hall
      refine holds_complete (a := { a with frames := outer }) ⟨hall.2, h.root⟩
        (hR.mapping _ _ fun entry hmem => ?_)
      exact hall.1 entry (List.mem_reverse.mp hmem)
    · exact holds_fail h _
  | streamStart => exact h
  | streamEnd => exact h
  | documentStart => exact h
  | documentEnd => exact h

theorem holds_foldl_add (hR : IsInductive R) {events : List (Placed Event)} {a : Assembly}
    (h : a.Holds R)
    (hscalar : ∀ event ∈ events, ∀ style text, event.item = .scalar style text →
      R (.scalar text (kindOf style text) (some (scalarSpan offsets event.mark style text)))) :
    (events.foldl (add offsets) a).Holds R := by
  induction events generalizing a with
  | nil => exact h
  | cons event rest ih =>
    rw [List.forall_mem_cons] at hscalar
    exact ih (holds_add hR h hscalar.1) hscalar.2

end Assembly

/-! ### Scalars of a tree -/

/-- What holds of every scalar that is a part goes from parts to the whole. -/
theorem isInductive_of_part (Q : String → ScalarKind → Option Span → Prop) :
    Assembly.IsInductive fun root =>
      ∀ value kind span, Node.Part (.scalar value kind span) root → Q value kind span where
  isAlias := fun span value kind span' hpart => by cases hpart
  sequence := fun items span hitems value kind span' hpart => by
    cases hpart with
    | item item _ _ hmem hin => exact hitems item hmem value kind span' hin
  mapping := fun entries span hentries value kind span' hpart => by
    cases hpart with
    | key entry _ _ hmem hin => exact (hentries entry hmem).1 value kind span' hin
    | value inner entry _ _ hmem hsome hin =>
      exact (hentries entry hmem).2 inner hsome value kind span' hin

/-- A node that was given by an event for a scalar. -/
def IsGiven (offsets : OffsetTable) (event : Placed Event) (value : String) (kind : ScalarKind)
    (span : Option Span) : Prop :=
  ∃ style, event.item = .scalar style value ∧ kind = Assembly.kindOf style value ∧
    span = some (Assembly.scalarSpan offsets event.mark style value)

/-- Every scalar in the tree of a text was given by an event. -/
theorem exists_event_of_part {text : String} {root : Node}
    (hparse : Document.parse text = .ok (some root)) {value : String} {kind : ScalarKind}
    {span : Option Span} (hpart : Node.Part (.scalar value kind span) root) :
    ∃ found, Document.events text.toList = .ok found ∧
      ∃ event ∈ found, IsGiven (.ofText text.toList) event value kind span := by
  rcases Document.exists_events_of_parse hparse with ⟨found, hevents, htree⟩
  refine ⟨found, hevents, ?_⟩
  have hinductive := isInductive_of_part fun value kind span =>
    ∃ event ∈ found, IsGiven (.ofText text.toList) event value kind span
  have hempty (R : Node → Prop) : Assembly.empty.Holds R :=
    ⟨by simp [Assembly.empty], by simp [Assembly.empty]⟩
  refine (Assembly.holds_foldl_add hinductive (hempty _)
    fun event hmem style value hitem => ?_).root root (Assembly.root_of_ofEvents htree)
      value kind span hpart
  intro value kind span hpart
  cases hpart with
  | whole => exact ⟨event, hmem, style, hitem, rfl, rfl⟩

end Yaml

/-- The character that begins at a byte offset. -/
def Text.charAt? (offset : Nat) (text : List Char) : Option Char := (cutAtByte offset text).2.head?

namespace Yaml

/-- Where a cursor stands, the text can be cut. -/
theorem Cursor.exists_of_stands {text : List Char} {c : Cursor} (h : c.Stands text) :
    ∃ front, text = front ++ c.rest ∧
      (OffsetTable.ofText text).byteAt c.mark.index = Text.byteLength front := by
  rcases h with ⟨front, rfl, -, hmark⟩
  refine ⟨front, rfl, ?_⟩
  rw [hmark, Mark.index_past, Mark.start, Nat.zero_add, OffsetTable.byteAt_ofText_append]

/-- A scalar of a tree begins where its span starts, unless it stands for a node that is left out.
    Only a block scalar with characters of several bytes in front of it may change that. -/
theorem exists_begins_of_part {text : String} {root : Node}
    (hparse : Document.parse text = .ok (some root)) {value : String} {kind : ScalarKind}
    {span : Option Span} (hpart : Node.Part (.scalar value kind span) root) :
    ∃ found, Document.events text.toList = .ok found ∧ ∃ event ∈ found, ∃ style,
      event.item = .scalar style value ∧ kind = Assembly.kindOf style value ∧
        ∃ range, range = Assembly.scalarSpan (.ofText text.toList) event.mark style value ∧
          span = some range ∧
          (event.item = .emptyScalar ∨
            (Text.IsNarrowBefore text.toList range.start →
              Text.BeginsAt text.toList event.mark style value)) := by
  rcases exists_event_of_part hparse hpart with
    ⟨found, hevents, event, hmem, style, hitem, hkind, hspan⟩
  refine ⟨found, hevents, event, hmem, style, hitem, hkind, _, rfl, hspan, ?_⟩
  rcases Document.begins_of_events hevents hmem hitem with hempty | hbegins | hbehind
  · exact .inl hempty
  · exact .inr fun _ => hbegins
  · exact .inr fun hnarrow => absurd hbehind (Text.not_isBehindWide hnarrow)

/-! ### Keys -/

/-- The entry that a segment leads to is an entry of the node, and its key has that name. -/
theorem exists_mapping_of_entryNamed? {name : String} {node : Node} {entry : Entry}
    (h : node.entryNamed? name = some entry) :
    ∃ entries span, node = .mapping entries span ∧ entry ∈ entries ∧
      ∃ keySpan, entry.key = .scalar name .string keySpan := by
  unfold Node.entryNamed? at h
  cases node with
  | mapping entries span =>
    have hfirst := (entryFor?_eq_some_iff name entries entry).mp h
    rcases hfirst with ⟨earlier, later, hentries, hkey, -⟩
    exact ⟨entries, span, rfl, by simp [hentries], hkey⟩
  | _ => simp [Node.entries?] at h

/-- The key that is found from a node on is a string in it, named as one of the segments, and as
    the last one if all of them were followed. -/
theorem exists_part_of_locate {segments : List String} {node : Node} {found : KeyMatch}
    (h : node.locate segments = some found) :
    ∃ name ∈ segments, Node.Part (.scalar name .string (some found.span)) node ∧
      (found.isExact = true → segments.getLast? = some name) := by
  induction segments generalizing node found with
  | nil => simp [Node.locate] at h
  | cons name rest ih =>
    have hkeyed {entry : Entry} (hentry : node.entryNamed? name = some entry) {span : Span}
        (hspan : entry.key.span = some span) :
        Node.Part (.scalar name .string (some span)) node := by
      rcases exists_mapping_of_entryNamed? hentry with ⟨entries, outer, rfl, hmem, keySpan, hkey⟩
      have hsame : keySpan = some span := by rwa [hkey] at hspan
      refine .key entry entries outer hmem ?_
      rw [hkey, hsame]
      exact .whole
    cases rest with
    | nil =>
      simp only [Node.locate, bind, Option.bind_eq_some_iff, pure, Option.some.injEq] at h
      rcases h with ⟨entry, hentry, span, hspan, rfl⟩
      exact ⟨name, List.mem_cons_self, hkeyed hentry hspan, fun _ => rfl⟩
    | cons next rest =>
      simp only [Node.locate, bind, Option.bind_eq_some_iff] at h
      rcases h with ⟨entry, hentry, h⟩
      split at h
      · -- The path goes on in the value.
        rename_i inner hinner
        simp only [pure, Option.some.injEq] at h
        subst h
        rcases exists_mapping_of_entryNamed? hentry with ⟨entries, outer, rfl, hmem, -⟩
        rcases Option.bind_eq_some_iff.mp hinner with ⟨value, hvalue, hlocate⟩
        rcases ih hlocate with ⟨name', hname', hpart, hlast⟩
        refine ⟨name', List.mem_cons_of_mem _ hname', ?_, fun hexact => ?_⟩
        · exact .value value entry entries outer hmem hvalue hpart
        · rw [List.getLast?_cons_cons]
          exact hlast hexact
      · simp only [pure, Option.bind_eq_some_iff, Option.some.injEq] at h
        rcases h with ⟨span, hspan, rfl⟩
        refine ⟨name, List.mem_cons_self, hkeyed hentry hspan, fun hexact => ?_⟩
        simp [KeyMatch.isExact] at hexact

end Yaml

/-- The key that is found in a text is a scalar of its tree. -/
theorem KeyPath.exists_part_of_find {path : KeyPath} {text : String} {found : KeyMatch}
    (h : path.find text = .ok (some found)) :
    ∃ root, Yaml.Document.parse text = .ok (some root) ∧
      ∃ name ∈ path.segments, Yaml.Node.Part (.scalar name .string (some found.span)) root ∧
        (found.isExact = true → path.segments.getLast? = some name) := by
  unfold find at h
  cases hparse : Yaml.Document.parse text with
  | error e => simp [hparse, bind, Except.bind] at h
  | ok parsed =>
    simp only [hparse, bind, Except.bind, pure, Except.pure, Except.ok.injEq,
      Option.bind_eq_some_iff] at h
    rcases h with ⟨root, rfl, hlocate⟩
    exact ⟨root, rfl, Yaml.exists_part_of_locate hlocate⟩

end YamlLocator
