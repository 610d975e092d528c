import Mathlib.Data.List.Forall2
import YamlLocator.KeyMatch
import YamlLocator.Location
import YamlLocator.Proofs.Retelling.Events

/-!
# Trees of a Text Told Anew

The same events at other marks give the same tree with other spans. How the spans of the two
trees are related depends on the two texts, so it is left open here: there are two functions on
spans that make the spans equal which come from the same mark, and then they make the trees
equal. One of them may be the identity. If only some of a span can be told, as is the case
when the characters between its ends are not the same, both forget the rest.

## Main definitions

* `Node.mapSpans`, `KeyMatch.mapSpan`: A tree and an answer with other spans.
* `KeyMatch.report`: What is told of an answer.
* `Retelling.Matches`: Two functions make spans equal that come from the same mark.
* `ParseError.below`: What becomes of an error that is shown.

## Theorems

* `Assembly.isAlike_add`: An event keeps two assemblies alike.
* `Document.mapSpans_parse`: The two trees are equal once the spans are.
* `Node.locate_mapSpans`: Keys are found without regard to spans.
* `KeyPath.mapSpan_find`: The two answers are equal once the spans are.
-/

namespace YamlLocator

/-- What is told of an answer: whether the key is the one that was asked for, and where it
    stands. -/
def KeyMatch.report (found : KeyMatch) (source file : String) (withColumn : Bool) :
    Bool × Location :=
  (found.isExact, Location.ofSpan source found.span file withColumn)

/-- An answer with another span. -/
def KeyMatch.mapSpan (f : Span → Span) : KeyMatch → KeyMatch
  | .exact span => .exact (f span)
  | .nearest span => .nearest (f span)

namespace Yaml

mutual

/-- The tree with other spans. -/
def Node.mapSpans (f : Span → Span) : Node → Node
  | .mapping entries span => .mapping (Entry.mapSpansOfAll f entries) (span.map f)
  | .sequence items span => .sequence (Node.mapSpansOfAll f items) (span.map f)
  | .scalar text kind span => .scalar text kind (span.map f)
  | .alias span => .alias (span.map f)

/-- Some trees in a row with other spans. -/
def Node.mapSpansOfAll (f : Span → Span) : List Node → List Node
  | [] => []
  | node :: rest => node.mapSpans f :: Node.mapSpansOfAll f rest

/-- An entry with other spans. -/
def Entry.mapSpans (f : Span → Span) : Entry → Entry
  | { key, value := none } => { key := key.mapSpans f, value := none }
  | { key, value := some value } => { key := key.mapSpans f, value := some (value.mapSpans f) }

/-- Some entries in a row with other spans. -/
def Entry.mapSpansOfAll (f : Span → Span) : List Entry → List Entry
  | [] => []
  | entry :: rest => entry.mapSpans f :: Entry.mapSpansOfAll f rest

end

theorem Node.mapSpansOfAll_eq (f : Span → Span) (nodes : List Node) :
    Node.mapSpansOfAll f nodes = nodes.map (Node.mapSpans f) := by
  induction nodes with
  | nil => rfl
  | cons node rest ih => rw [Node.mapSpansOfAll, ih, List.map_cons]

theorem Entry.mapSpansOfAll_eq (f : Span → Span) (entries : List Entry) :
    Entry.mapSpansOfAll f entries = entries.map (Entry.mapSpans f) := by
  induction entries with
  | nil => rfl
  | cons entry rest ih => rw [Entry.mapSpansOfAll, ih, List.map_cons]

section

variable (f : Span → Span)

@[simp]
theorem Node.mapSpans_mapping (entries : List Entry) (span : Option Span) :
    (Node.mapping entries span).mapSpans f =
      .mapping (entries.map (Entry.mapSpans f)) (span.map f) := by
  rw [Node.mapSpans, Entry.mapSpansOfAll_eq]

@[simp]
theorem Node.mapSpans_sequence (items : List Node) (span : Option Span) :
    (Node.sequence items span).mapSpans f =
      .sequence (items.map (Node.mapSpans f)) (span.map f) := by
  rw [Node.mapSpans, Node.mapSpansOfAll_eq]

@[simp]
theorem Node.mapSpans_scalar (text : String) (kind : ScalarKind) (span : Option Span) :
    (Node.scalar text kind span).mapSpans f = .scalar text kind (span.map f) := by
  rw [Node.mapSpans]

@[simp]
theorem Node.mapSpans_alias (span : Option Span) :
    (Node.alias span).mapSpans f = .alias (span.map f) := by
  rw [Node.mapSpans]

@[simp]
theorem Entry.mapSpans_mk (key : Node) (value : Option Node) :
    ({ key, value } : Entry).mapSpans f =
      { key := key.mapSpans f, value := value.map (Node.mapSpans f) } := by
  cases value <;> rw [Entry.mapSpans] <;> rfl

@[simp]
theorem Entry.key_mapSpans (entry : Entry) : (entry.mapSpans f).key = entry.key.mapSpans f := by
  rcases entry with ⟨key, value⟩
  rw [Entry.mapSpans_mk]

@[simp]
theorem Entry.value_mapSpans (entry : Entry) :
    (entry.mapSpans f).value = entry.value.map (Node.mapSpans f) := by
  rcases entry with ⟨key, value⟩
  rw [Entry.mapSpans_mk]

@[simp]
theorem Node.span_mapSpans (node : Node) : (node.mapSpans f).span = node.span.map f := by
  cases node <;> simp [Node.span]

@[simp]
theorem Node.isKeyNamed_mapSpans (name : String) (node : Node) :
    (node.mapSpans f).isKeyNamed name = node.isKeyNamed name := by
  cases node <;> simp [Node.isKeyNamed]

@[simp]
theorem Node.entries?_mapSpans (node : Node) :
    (node.mapSpans f).entries? = node.entries?.map (·.map (Entry.mapSpans f)) := by
  cases node <;> simp [Node.entries?]

end

mutual

theorem Node.mapSpans_id : (node : Node) → node.mapSpans id = node
  | .mapping entries span => by
    rw [Node.mapSpans, Entry.mapSpansOfAll_id entries, Option.map_id_fun, id]
  | .sequence items span => by
    rw [Node.mapSpans, Node.mapSpansOfAll_id items, Option.map_id_fun, id]
  | .scalar text kind span => by rw [Node.mapSpans, Option.map_id_fun, id]
  | .alias span => by rw [Node.mapSpans, Option.map_id_fun, id]

theorem Node.mapSpansOfAll_id : (nodes : List Node) → Node.mapSpansOfAll id nodes = nodes
  | [] => rfl
  | node :: rest => by
    rw [Node.mapSpansOfAll, Node.mapSpans_id node, Node.mapSpansOfAll_id rest]

theorem Entry.mapSpans_id : (entry : Entry) → entry.mapSpans id = entry
  | { key, value := none } => by rw [Entry.mapSpans, Node.mapSpans_id key]
  | { key, value := some value } => by
    rw [Entry.mapSpans, Node.mapSpans_id key, Node.mapSpans_id value]

theorem Entry.mapSpansOfAll_id : (entries : List Entry) → Entry.mapSpansOfAll id entries = entries
  | [] => rfl
  | entry :: rest => by
    rw [Entry.mapSpansOfAll, Entry.mapSpans_id entry, Entry.mapSpansOfAll_id rest]

end

/-! ### Finding keys -/

theorem Node.entryNamed?_mapSpans (f : Span → Span) (name : String) (node : Node) :
    (node.mapSpans f).entryNamed? name = (node.entryNamed? name).map (Entry.mapSpans f) := by
  have hkey : (fun entry : Entry => entry.key.isKeyNamed name) ∘ Entry.mapSpans f =
      fun entry => entry.key.isKeyNamed name := by
    funext entry
    simp
  cases hentries : node.entries? with
  | none => simp [Node.entryNamed?, hentries]
  | some entries =>
    simp only [Node.entryNamed?, Node.entries?_mapSpans, hentries, Option.map_some,
      Option.bind_some, entryFor?, List.find?_map, hkey]

/-- Keys are found without regard to spans. -/
theorem Node.locate_mapSpans (f : Span → Span) (path : List String) (node : Node) :
    (node.mapSpans f).locate path = (node.locate path).map (KeyMatch.mapSpan f) := by
  induction path generalizing node with
  | nil => rfl
  | cons name rest ih =>
    cases hentry : node.entryNamed? name with
    | none => cases rest <;> simp [Node.locate, Node.entryNamed?_mapSpans, hentry]
    | some entry =>
      cases rest with
      | nil =>
        cases hspan : entry.key.span <;>
          simp [Node.locate, Node.entryNamed?_mapSpans, hentry, hspan, KeyMatch.mapSpan]
      | cons next rest =>
        have hvalue : (entry.value.map (Node.mapSpans f)).bind (Node.locate (next :: rest)) =
            (entry.value.bind (Node.locate (next :: rest))).map (KeyMatch.mapSpan f) := by
          cases entry.value with
          | none => rfl
          | some value => exact ih value
        simp only [Node.locate, Node.entryNamed?_mapSpans, hentry, Option.map_some,
          Option.bind_eq_bind, Option.bind_some, Entry.value_mapSpans, hvalue]
        cases entry.value.bind (Node.locate (next :: rest)) with
        | some found => rfl
        | none => cases hspan : entry.key.span <;> simp [hspan, KeyMatch.mapSpan]

/-! ### Assembling trees -/

/-- Two functions make the spans equal that come from the same mark. -/
structure Retelling.Matches (σ : Retelling) (offsets offsets' : OffsetTable)
    (f f' : Span → Span) : Prop where
  between : ∀ first last, f' (Assembly.spanBetween offsets' (σ.mark first) (σ.mark last)) =
    f (Assembly.spanBetween offsets first last)
  scalar : ∀ mark style text, f' (Assembly.scalarSpan offsets' (σ.mark mark) style text) =
    f (Assembly.scalarSpan offsets mark style text)

namespace Assembly

variable {σ : Retelling} {offsets offsets' : OffsetTable} {f f' : Span → Span}
  {a a' : Assembly}

/-- Two open collections that started at the same mark and hold the same trees. -/
inductive IsAlikeFrame (σ : Retelling) (f f' : Span → Span) : Frame → Frame → Prop
  | sequence (start : Mark) {items items' : List Node}
    (h : items'.map (Node.mapSpans f') = items.map (Node.mapSpans f)) :
    IsAlikeFrame σ f f' (.sequence start items) (.sequence (σ.mark start) items')
  | mapping (start : Mark) {entries entries' : List Entry}
    (h : entries'.map (Entry.mapSpans f') = entries.map (Entry.mapSpans f)) :
    IsAlikeFrame σ f f' (.mapping start entries) (.mapping (σ.mark start) entries')

/-- Two assemblies that hold the same trees. -/
structure IsAlike (σ : Retelling) (f f' : Span → Span) (a a' : Assembly) : Prop where
  frames : List.Forall₂ (IsAlikeFrame σ f f') a.frames a'.frames
  root_eq : a'.root.map (Node.mapSpans f') = a.root.map (Node.mapSpans f)
  fault_eq : a'.fault = a.fault

theorem mapSpans_addToEntries (f : Span → Span) (node : Node) (entries : List Entry) :
    (addToEntries node entries).map (Entry.mapSpans f) =
      addToEntries (node.mapSpans f) (entries.map (Entry.mapSpans f)) := by
  rcases entries with _ | ⟨⟨key, _ | value⟩, older⟩ <;> simp [addToEntries]

theorem isAlike_addToFrame {node node' : Node} {frame frame' : Frame}
    (hnode : node'.mapSpans f' = node.mapSpans f) (h : IsAlikeFrame σ f f' frame frame') :
    IsAlikeFrame σ f f' (addToFrame node frame) (addToFrame node' frame') := by
  cases h with
  | sequence start h => exact .sequence start (by rw [List.map_cons, List.map_cons, hnode, h])
  | mapping start h =>
    exact .mapping start (by rw [mapSpans_addToEntries, mapSpans_addToEntries, hnode, h])

theorem isAlike_complete {node node' : Node} (hnode : node'.mapSpans f' = node.mapSpans f)
    (h : IsAlike σ f f' a a') : IsAlike σ f f' (a.complete node) (a'.complete node') := by
  rcases a with ⟨frames, root, fault⟩
  rcases a' with ⟨frames', root', fault'⟩
  have hframes := h.frames
  cases hframes with
  | nil => exact { h with root_eq := by simp [complete, hnode], frames := .nil }
  | cons hframe houter =>
    exact { h with frames := .cons (isAlike_addToFrame hnode hframe) houter }

theorem isAlike_start {frame frame' : Frame} (hframe : IsAlikeFrame σ f f' frame frame')
    (h : IsAlike σ f f' a a') : IsAlike σ f f' (a.start frame) (a'.start frame') :=
  { h with frames := .cons hframe h.frames }

theorem isAlike_fail (fault : StructureFault) (h : IsAlike σ f f' a a') :
    IsAlike σ f f' (a.fail fault) (a'.fail fault) where
  frames := by
    rcases a with ⟨frames, root, first⟩
    rcases a' with ⟨frames', root', first'⟩
    have hframes := h.frames
    cases hframes with
    | nil => exact .nil
    | cons hframe houter => exact houter
  root_eq := h.root_eq
  fault_eq := by simp [fail, h.fault_eq]

/-- An event keeps two assemblies alike. -/
theorem isAlike_add (hspans : σ.Matches offsets offsets' f f') (h : IsAlike σ f f' a a')
    (event : Placed Event) :
    IsAlike σ f f' (a.add offsets event) (a'.add offsets' (σ.place event)) := by
  rcases event with ⟨event, mark⟩
  cases event with
  | scalar style text =>
    refine isAlike_complete ?_ h
    rw [Node.mapSpans_scalar, Node.mapSpans_scalar]
    exact congrArg (Node.scalar text _ ∘ some) (hspans.scalar mark style text)
  | «alias» =>
    refine isAlike_complete ?_ h
    rw [Node.mapSpans_alias, Node.mapSpans_alias]
    exact congrArg (Node.alias ∘ some) (hspans.between mark mark)
  | sequenceStart => exact isAlike_start (.sequence mark rfl) h
  | mappingStart => exact isAlike_start (.mapping mark rfl) h
  | sequenceEnd =>
    rcases a with ⟨frames, root, fault⟩
    rcases a' with ⟨frames', root', fault'⟩
    have hframes := h.frames
    cases hframes with
    | nil => exact isAlike_fail _ h
    | cons hframe houter =>
      cases hframe with
      | sequence start hitems =>
        refine isAlike_complete ?_ { h with frames := houter }
        rw [Node.mapSpans_sequence, Node.mapSpans_sequence, List.map_reverse, List.map_reverse,
          hitems]
        exact congrArg (Node.sequence _ ∘ some) (hspans.between start mark)
      | mapping start hentries => exact isAlike_fail _ h
  | mappingEnd =>
    rcases a with ⟨frames, root, fault⟩
    rcases a' with ⟨frames', root', fault'⟩
    have hframes := h.frames
    cases hframes with
    | nil => exact isAlike_fail _ h
    | cons hframe houter =>
      cases hframe with
      | sequence start hitems => exact isAlike_fail _ h
      | mapping start hentries =>
        refine isAlike_complete ?_ { h with frames := houter }
        rw [Node.mapSpans_mapping, Node.mapSpans_mapping, List.map_reverse, List.map_reverse,
          hentries]
        exact congrArg (Node.mapping _ ∘ some) (hspans.between start mark)
  | _ => exact h

theorem isAlike_foldl (hspans : σ.Matches offsets offsets' f f') (events : List (Placed Event))
    (h : IsAlike σ f f' a a') :
    IsAlike σ f f' (events.foldl (add offsets) a)
      ((events.map σ.place).foldl (add offsets') a') := by
  induction events generalizing a a' with
  | nil => exact h
  | cons event events ih => exact ih (isAlike_add hspans h event)

theorem mapSpans_result (h : IsAlike σ f f' a a') :
    a'.result.map (Option.map (Node.mapSpans f')) =
      a.result.map (Option.map (Node.mapSpans f)) := by
  have hempty : a'.frames.isEmpty = a.frames.isEmpty := by
    have hlength := h.frames.length_eq
    rw [Bool.eq_iff_iff, List.isEmpty_iff_length_eq_zero, List.isEmpty_iff_length_eq_zero, hlength]
  simp only [result, h.fault_eq, hempty]
  cases a.fault with
  | some fault => rfl
  | none =>
    simp only
    split
    · exact congrArg Except.ok h.root_eq
    · rfl

end Assembly

/-! ### Documents -/

/-- The error if some lines were put in front of the text. -/
def ParseError.below (lines : Nat) : ParseError → ParseError
  | .malformed message line column => .malformed message (line + lines) column
  | .unbalanced message => .unbalanced message

/-- The two trees are equal once the spans are. -/
theorem Document.mapSpans_parse {σ : Retelling} {text text' : String} {f f' : Span → Span}
    (hevents : σ.Agree
      (fun events events' => ∃ more, events = Event.start :: more ∧
        events' = Event.start :: more.map σ.place)
      (Document.events text.toList) (Document.events text'.toList))
    (hspans : σ.Matches (.ofText text.toList) (.ofText text'.toList) f f') :
    (parse text').map (Option.map (Node.mapSpans f')) =
      ((parse text).map (Option.map (Node.mapSpans f))).mapError (ParseError.below σ.lines) := by
  rcases Retelling.cases_of_agree hevents with
    ⟨e, herror, herror'⟩ | ⟨events, events', hok, hok', more, rfl, rfl⟩
  · rw [parse, parse, herror, herror']
    rfl
  · rw [parse_of_events hok, parse_of_events hok']
    have halike : Assembly.IsAlike σ f f' Assembly.empty Assembly.empty := ⟨.nil, rfl, rfl⟩
    have hresult := Assembly.mapSpans_result (Assembly.isAlike_foldl hspans more halike)
    have hofEvents (offsets : OffsetTable) (more : List (Placed Event)) :
        Assembly.ofEvents offsets (Event.start :: more) =
          (more.foldl (Assembly.add offsets) Assembly.empty).result := rfl
    have hmap (result : Except StructureFault (Option Node)) (f : Span → Span) :
        (result.mapError ParseError.ofStructureFault).map (Option.map (Node.mapSpans f)) =
          (result.map (Option.map (Node.mapSpans f))).mapError ParseError.ofStructureFault := by
      cases result <;> rfl
    -- A fault of nesting tells no place.
    have hshown (result : Except StructureFault (Option Node)) :
        (result.mapError ParseError.ofStructureFault).mapError (ParseError.below σ.lines) =
          result.mapError ParseError.ofStructureFault := by
      cases result <;> rfl
    rw [hofEvents, hofEvents, hmap, hmap, hresult, hshown]

end Yaml

/-- The two answers are equal once the spans are. -/
theorem KeyPath.mapSpan_find {σ : Yaml.Retelling} {text text' : String} {f f' : Span → Span}
    (hparse : (Yaml.Document.parse text').map (Option.map (Yaml.Node.mapSpans f')) =
      ((Yaml.Document.parse text).map (Option.map (Yaml.Node.mapSpans f))).mapError
        (Yaml.ParseError.below σ.lines))
    (path : KeyPath) :
    (path.find text').map (Option.map (KeyMatch.mapSpan f')) =
      ((path.find text).map (Option.map (KeyMatch.mapSpan f))).mapError
        (Yaml.ParseError.below σ.lines) := by
  have hfind (f : Span → Span) (text : String) :
      (path.find text).map (Option.map (KeyMatch.mapSpan f)) =
        ((Yaml.Document.parse text).map (Option.map (Yaml.Node.mapSpans f))).map
          (·.bind (Yaml.Node.locate path.segments)) := by
    unfold KeyPath.find
    rcases Yaml.Document.parse text with error | _ | root
    · rfl
    · rfl
    · simp [Except.map, bind, Except.bind, pure, Except.pure, Yaml.Node.locate_mapSpans]
  rw [hfind, hfind, hparse]
  cases (Yaml.Document.parse text).map (Option.map (Yaml.Node.mapSpans f)) <;> rfl

end YamlLocator
