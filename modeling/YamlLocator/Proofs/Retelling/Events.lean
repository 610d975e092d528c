import YamlLocator.Proofs.Nesting
import YamlLocator.Proofs.Retelling.Runs

/-!
# Events of a Text Told Anew

The grammar never asks where a token stands. It hands on the marks that it is given, and so it
fulfils the same expectations with the same events if every mark is another one.

## Main definitions

* `Retelling.production`, `Retelling.derivation`: What becomes of expectations and of where the
  reading of a document stands.
* `Retelling.step`: What becomes of a step.

## Theorems

* `Derivation.agree_node`: Nodes are read alike.
* `Derivation.agree_fulfil`: Every expectation is fulfilled alike.
* `Derivation.agree_events`: The same events are still to come.
* `Event.agree_ofTokens`: The same events come of the two streams of tokens.
-/

namespace YamlLocator

namespace Yaml

namespace Retelling

/-- What becomes of an expectation. Only that of a value behind a colon remembers a mark. -/
def production (σ : Retelling) : Production → Production
  | .flowColon colon => .flowColon (σ.mark colon)
  | p => p

/-- What becomes of the place where the reading of a document stands. -/
def derivation (σ : Retelling) (d : Derivation) : Derivation :=
  { d with
    tokens := d.tokens.map σ.delivered
    error := σ.error d.error
    reached := σ.mark d.reached
    agenda := d.agenda.map σ.production }

/-- What becomes of a step. -/
def step (σ : Retelling) (r : Placed Event × Derivation) : Placed Event × Derivation :=
  (σ.place r.1, σ.derivation r.2)

end Retelling

namespace Derivation

open Retelling

variable (σ : Retelling) (d : Derivation)

/-- Two steps that say the same. -/
abbrev AgreeStep (x x' : Step) : Prop := σ.Agree (fun r r' => r' = σ.step r) x x'

@[simp]
theorem item_delivered (token : Delivered) : (σ.delivered token).item = token.item := rfl

@[simp]
theorem mark_delivered (token : Delivered) : (σ.delivered token).mark = σ.mark token.mark := rfl

@[simp]
theorem skip_derivation : (σ.derivation d).skip = σ.derivation d.skip := by
  simp [skip, derivation]

@[simp]
theorem addAnchor_derivation (name : String) :
    (σ.derivation d).addAnchor name = σ.derivation (d.addAnchor name) := rfl

theorem agree_peek :
    σ.Agree (fun r r' => r' = (σ.delivered r.1, σ.derivation r.2)) d.peek
      (σ.derivation d).peek := by
  cases htokens : d.tokens with
  | nil =>
    have htokens' : (σ.derivation d).tokens = [] := by simp [derivation, htokens]
    simp only [peek, htokens, htokens']
    exact .error d.error
  | cons token tokens =>
    have htokens' : (σ.derivation d).tokens = σ.delivered token :: tokens.map σ.delivered := by
      simp [derivation, htokens]
    simp only [peek, htokens, htokens']
    exact .ok rfl

/-- What is done with the next token is alike if it is alike for every token. -/
theorem agree_next {next next' : Delivered × Derivation → Step}
    (h : ∀ token d, AgreeStep σ (next (token, d)) (next' (σ.delivered token, σ.derivation d))) :
    AgreeStep σ (d.peek >>= next) ((σ.derivation d).peek >>= next') :=
  agree_bind (agree_peek σ d) fun r _ hr => hr ▸ h r.1 r.2

theorem agree_emit (event : Event) (mark : Mark) (agenda : List Production) :
    AgreeStep σ (d.emit event mark agenda)
      ((σ.derivation d).emit event (σ.mark mark) (agenda.map σ.production)) :=
  .ok rfl

/-! ### Nodes -/

theorem agree_checkHandle (tag : Tag) (mark : Mark) :
    σ.Agree (fun _ _ => True) (d.checkHandle tag mark)
      ((σ.derivation d).checkHandle tag (σ.mark mark)) := by
  unfold checkHandle
  exact agree_ite (agree_refuse rfl _) (.ok trivial)

theorem agree_leftOut (adorned : Bool) (mark : Mark) (rest : List Production) :
    AgreeStep σ (d.leftOut adorned mark rest)
      ((σ.derivation d).leftOut adorned (σ.mark mark) (rest.map σ.production)) := by
  unfold leftOut
  exact agree_ite (agree_emit ..) (agree_refuse rfl _)

theorem agree_unadorned (place : Place) (adorned : Bool) (rest : List Production) :
    AgreeStep σ (d.unadorned place adorned rest)
      ((σ.derivation d).unadorned place adorned (rest.map σ.production)) := by
  refine agree_next σ d fun next d => ?_
  simp only [item_delivered, mark_delivered, skip_derivation]
  cases next.item with
  | scalar style text => exact agree_emit ..
  | flowSequenceStart => exact agree_emit ..
  | flowMappingStart => exact agree_emit ..
  | blockEntry => exact agree_ite (agree_emit ..) (agree_leftOut ..)
  | blockSequenceStart => exact agree_ite (agree_emit ..) (agree_leftOut ..)
  | blockMappingStart => exact agree_ite (agree_emit ..) (agree_leftOut ..)
  | _ => exact agree_leftOut ..

theorem agree_anchored (place : Place) (mark : Mark) (rest : List Production) :
    AgreeStep σ (d.anchored place mark rest)
      ((σ.derivation d).anchored place (σ.mark mark) (rest.map σ.production)) := by
  refine agree_next σ d fun next d => ?_
  simp only [item_delivered, skip_derivation]
  cases next.item with
  | tag tag => exact agree_bind (agree_checkHandle ..) fun _ _ _ => agree_unadorned ..
  | _ => exact agree_unadorned ..

theorem agree_tagged (place : Place) (rest : List Production) :
    AgreeStep σ (d.tagged place rest)
      ((σ.derivation d).tagged place (rest.map σ.production)) := by
  refine agree_next σ d fun next d => ?_
  simp only [item_delivered, skip_derivation, addAnchor_derivation]
  cases next.item with
  | anchor name => exact agree_unadorned ..
  | _ => exact agree_unadorned ..

/-- Nodes are read alike. -/
theorem agree_node (place : Place) (rest : List Production) :
    AgreeStep σ (d.node place rest) ((σ.derivation d).node place (rest.map σ.production)) := by
  refine agree_next σ d fun next d => ?_
  simp only [item_delivered, mark_delivered, skip_derivation, addAnchor_derivation]
  cases next.item with
  | «alias» name => exact agree_ite (agree_emit ..) (agree_refuse rfl _)
  | anchor name => exact agree_anchored ..
  | tag tag => exact agree_bind (agree_checkHandle ..) fun _ _ _ => agree_tagged ..
  | _ => exact agree_unadorned ..

theorem agree_nodeUnless (isLeftOut : Token → Bool) (place : Place) (rest : List Production) :
    AgreeStep σ (d.nodeUnless isLeftOut place rest)
      ((σ.derivation d).nodeUnless isLeftOut place (rest.map σ.production)) := by
  refine agree_next σ d fun next d => ?_
  exact agree_ite (agree_emit ..) (agree_node ..)

/-! ### Documents -/

theorem directives_derivation :
    (σ.derivation d).directives = d.directives.map σ.delivered := by
  simp only [directives, derivation, List.takeWhile_map]
  rfl

theorem agree_passDirectives :
    σ.Agree (fun d₁ d₁' => d₁' = σ.derivation d₁) d.passDirectives
      (σ.derivation d).passDirectives := by
  have hversions : (d.directives.map σ.delivered).filter (isVersion ·.item) =
      (d.directives.filter (isVersion ·.item)).map σ.delivered := by
    rw [List.filter_map]
    rfl
  simp only [passDirectives, directives_derivation, hversions]
  have hpassed : σ.derivation
      { d with
        tokens := d.tokens.dropWhile (isDirective ·.item)
        handle := d.directives.getLast?.bind (declaredHandle? ·.item) } =
      { σ.derivation d with
        tokens := (σ.derivation d).tokens.dropWhile (isDirective ·.item)
        handle := (d.directives.map σ.delivered).getLast?.bind (declaredHandle? ·.item) } := by
    have htokens : (d.tokens.map σ.delivered).dropWhile (isDirective ·.item) =
        (d.tokens.dropWhile (isDirective ·.item)).map σ.delivered := by
      rw [List.dropWhile_map]
      rfl
    simp only [derivation, htokens, List.getLast?_map, Option.bind_map]
    rfl
  cases hcase : d.directives.filter (isVersion ·.item) with
  | nil => exact .ok hpassed.symm
  | cons first others =>
    cases others with
    | nil => exact .ok hpassed.symm
    | cons second others => exact agree_refuse rfl _

theorem agree_stream (rest : List Production) :
    AgreeStep σ (d.stream rest) ((σ.derivation d).stream (rest.map σ.production)) := by
  refine agree_next σ d fun next d => ?_
  simp only [mark_delivered, skip_derivation]
  exact agree_emit ..

theorem agree_announced (rest : List Production) :
    AgreeStep σ (d.announced rest) ((σ.derivation d).announced (rest.map σ.production)) := by
  refine agree_bind (agree_passDirectives σ d) ?_
  rintro d _ rfl
  refine agree_next σ d fun next d => ?_
  simp only [item_delivered, mark_delivered, skip_derivation]
  exact agree_ite (agree_emit ..) (agree_refuse rfl _)

theorem agree_document (rest : List Production) :
    AgreeStep σ (d.document rest) ((σ.derivation d).document (rest.map σ.production)) := by
  have hpassed : { σ.derivation d with
      tokens := (σ.derivation d).tokens.dropWhile (·.item = Token.documentEnd) } =
      σ.derivation { d with tokens := d.tokens.dropWhile (·.item = Token.documentEnd) } := by
    simp only [derivation, List.dropWhile_map]
    rfl
  unfold document
  rw [hpassed]
  refine agree_next σ _ fun next d => ?_
  simp only [item_delivered, mark_delivered, skip_derivation]
  cases next.item with
  | streamEnd => exact agree_emit ..
  | directive directive => exact agree_announced ..
  | documentStart => exact agree_announced ..
  | _ => exact agree_emit ..

theorem agree_documentEnd (rest : List Production) :
    AgreeStep σ (d.documentEnd rest) ((σ.derivation d).documentEnd (rest.map σ.production)) := by
  refine agree_next σ d fun next d => ?_
  simp only [item_delivered, mark_delivered, skip_derivation]
  cases next.item with
  | directive directive => exact agree_refuse rfl _
  | _ => exact agree_emit ..

/-! ### Block collections -/

theorem agree_blockKey (rest : List Production) :
    AgreeStep σ (d.blockKey rest) ((σ.derivation d).blockKey (rest.map σ.production)) := by
  refine agree_next σ d fun next d => ?_
  simp only [item_delivered, mark_delivered, skip_derivation]
  cases next.item with
  | key => exact agree_nodeUnless ..
  | value => exact agree_emit ..
  | blockEnd => exact agree_emit ..
  | _ => exact agree_refuse rfl _

theorem agree_blockColon (rest : List Production) :
    AgreeStep σ (d.blockColon rest) ((σ.derivation d).blockColon (rest.map σ.production)) :=
  agree_nodeUnless ..

theorem agree_blockValue (rest : List Production) :
    AgreeStep σ (d.blockValue rest) ((σ.derivation d).blockValue (rest.map σ.production)) := by
  refine agree_next σ d fun next d => ?_
  simp only [item_delivered, mark_delivered, skip_derivation]
  cases next.item with
  | value => exact agree_blockColon ..
  | _ => exact agree_emit ..

theorem agree_blockEntry (rest : List Production) :
    AgreeStep σ (d.blockEntry rest) ((σ.derivation d).blockEntry (rest.map σ.production)) := by
  refine agree_next σ d fun next d => ?_
  simp only [item_delivered, mark_delivered, skip_derivation]
  cases next.item with
  | blockEntry => exact agree_nodeUnless ..
  | blockEnd => exact agree_emit ..
  | _ => exact agree_refuse rfl _

theorem agree_levelEntry (rest : List Production) :
    AgreeStep σ (d.levelEntry rest) ((σ.derivation d).levelEntry (rest.map σ.production)) := by
  refine agree_next σ d fun next d => ?_
  simp only [item_delivered, mark_delivered, skip_derivation]
  cases next.item with
  | blockEntry => exact agree_nodeUnless ..
  | _ => exact agree_emit ..

/-! ### Flow collections -/

theorem agree_flowKeyAt (mark : Mark) (rest : List Production) :
    AgreeStep σ (d.flowKeyAt mark rest)
      ((σ.derivation d).flowKeyAt (σ.mark mark) (rest.map σ.production)) := by
  refine agree_next σ d fun next d => ?_
  simp only [item_delivered, mark_delivered, skip_derivation]
  cases next.item with
  | key => exact agree_nodeUnless ..
  | value => exact agree_emit ..
  | flowMappingEnd => exact agree_emit ..
  | _ => exact agree_node ..

theorem agree_flowKey (first : Bool) (rest : List Production) :
    AgreeStep σ (d.flowKey first rest)
      ((σ.derivation d).flowKey first (rest.map σ.production)) := by
  refine agree_next σ d fun next d => ?_
  simp only [item_delivered, mark_delivered, skip_derivation]
  exact agree_ite (agree_flowKeyAt ..) (agree_ite (agree_flowKeyAt ..) (agree_refuse rfl _))

theorem agree_flowColon (colon : Mark) (rest : List Production) :
    AgreeStep σ (d.flowColon colon rest)
      ((σ.derivation d).flowColon (σ.mark colon) (rest.map σ.production)) := by
  refine agree_next σ d fun next d => ?_
  exact agree_ite (agree_emit ..) (agree_node ..)

theorem agree_flowValue (rest : List Production) :
    AgreeStep σ (d.flowValue rest) ((σ.derivation d).flowValue (rest.map σ.production)) := by
  refine agree_next σ d fun next d => ?_
  simp only [item_delivered, mark_delivered, skip_derivation]
  cases next.item with
  | value => exact agree_flowColon ..
  | _ => exact agree_emit ..

theorem agree_flowNoValue (rest : List Production) :
    AgreeStep σ (d.flowNoValue rest) ((σ.derivation d).flowNoValue (rest.map σ.production)) := by
  refine agree_next σ d fun next d => ?_
  exact agree_emit ..

theorem agree_flowEntryAt (rest : List Production) :
    AgreeStep σ (d.flowEntryAt rest) ((σ.derivation d).flowEntryAt (rest.map σ.production)) := by
  refine agree_next σ d fun next d => ?_
  simp only [item_delivered, mark_delivered, skip_derivation]
  cases next.item with
  | flowSequenceEnd => exact agree_emit ..
  | key => exact agree_emit ..
  | _ => exact agree_node ..

theorem agree_flowEntry (first : Bool) (rest : List Production) :
    AgreeStep σ (d.flowEntry first rest)
      ((σ.derivation d).flowEntry first (rest.map σ.production)) := by
  refine agree_next σ d fun next d => ?_
  simp only [item_delivered, mark_delivered, skip_derivation]
  exact agree_ite (agree_flowEntryAt ..) (agree_ite (agree_flowEntryAt ..) (agree_refuse rfl _))

theorem agree_pairKey (rest : List Production) :
    AgreeStep σ (d.pairKey rest) ((σ.derivation d).pairKey (rest.map σ.production)) := by
  refine agree_next σ d fun next d => ?_
  simp only [item_delivered, mark_delivered, skip_derivation]
  exact agree_ite (agree_emit ..) (agree_node ..)

theorem agree_pairValue (rest : List Production) :
    AgreeStep σ (d.pairValue rest) ((σ.derivation d).pairValue (rest.map σ.production)) := by
  refine agree_next σ d fun next d => ?_
  simp only [item_delivered, mark_delivered, skip_derivation]
  cases next.item with
  | value => exact agree_nodeUnless ..
  | _ => exact agree_emit ..

/-! ### Steps -/

/-- Every expectation is fulfilled alike. -/
theorem agree_fulfil (rest : List Production) (p : Production) :
    AgreeStep σ (d.fulfil rest p)
      ((σ.derivation d).fulfil (rest.map σ.production) (σ.production p)) := by
  cases p with
  | stream => exact agree_stream ..
  | document => exact agree_document ..
  | content => exact agree_nodeUnless ..
  | root => exact agree_node ..
  | documentEnd => exact agree_documentEnd ..
  | blockKey => exact agree_blockKey ..
  | blockValue => exact agree_blockValue ..
  | blockColon => exact agree_blockColon ..
  | blockEntry => exact agree_blockEntry ..
  | levelEntry => exact agree_levelEntry ..
  | flowKey first => exact agree_flowKey ..
  | flowValue => exact agree_flowValue ..
  | flowColon colon => exact agree_flowColon ..
  | flowNoValue => exact agree_flowNoValue ..
  | flowEntry first => exact agree_flowEntry ..
  | pairKey => exact agree_pairKey ..
  | pairValue => exact agree_pairValue ..
  | pairEnd => exact agree_emit ..

theorem agree_step :
    σ.Agree (fun r r' => r' = r.map σ.step) d.step (σ.derivation d).step := by
  cases hagenda : d.agenda with
  | nil =>
    have hagenda' : (σ.derivation d).agenda = [] := by simp [derivation, hagenda]
    rw [step, step, hagenda, hagenda']
    exact .ok rfl
  | cons p rest =>
    have hagenda' : (σ.derivation d).agenda = σ.production p :: rest.map σ.production := by
      simp [derivation, hagenda]
    rw [step, step, hagenda, hagenda']
    exact agree_bind (agree_fulfil σ d rest p) fun r r' hr => .ok (by rw [hr]; rfl)

theorem events_of_step_error {d : Derivation} {error : SyntaxError} (h : d.step = .error error)
    (given : List (Placed Event)) : d.events given = .error error := by
  rw [events]
  split
  · rename_i hstep
    rw [h, Except.error.injEq] at hstep
    rw [hstep]
  · rename_i hstep
    simp [h] at hstep
  · rename_i hstep
    simp [h] at hstep

/-- The same events are still to come, whatever has been given before. -/
theorem agree_events {d' : Derivation}
    (hagree : σ.Agree (fun r r' => r' = r.map σ.step) d.step d'.step)
    (given given' : List (Placed Event)) :
    σ.Agree
      (fun events events' => ∃ more, events = given.reverse ++ more ∧
        events' = given'.reverse ++ more.map σ.place)
      (d.events given) (d'.events given') := by
  fun_induction Derivation.events d given generalizing d' given' with
  | case1 d given error hstep =>
    rw [events_of_step_error (eq_error_of_agree hagree hstep)]
    exact .error error
  | case2 d given hstep =>
    rcases exists_ok_of_agree hagree hstep with ⟨_, hstep', rfl⟩
    rw [events_of_agenda_nil (agenda_of_step_none hstep')]
    exact .ok ⟨[], by simp⟩
  | case3 d given event d₁ hstep ih =>
    rcases exists_ok_of_agree hagree hstep with ⟨_, hstep', rfl⟩
    rw [events_of_step hstep' given']
    refine agree_imp (ih (agree_step σ d₁) (σ.place event :: given')) fun events events' h => ?_
    rcases h with ⟨more, hevents, hevents'⟩
    exact ⟨event :: more, by simp [hevents], by simp [hevents']⟩

/-- In front of a document it does not matter what has been looked at before. -/
theorem document_reached (reached : Mark) (rest : List Production) :
    ({ d with reached } : Derivation).document rest = d.document rest := by
  simp only [document, peek]

end Derivation

/-- The event that every stream begins with. -/
def Event.start : Placed Event := { item := .streamStart, mark := Mark.start }

/-- Where the reading stands behind the beginning of a stream. -/
def Derivation.ofStart (tokens : List Delivered) (error : SyntaxError) : Derivation :=
  { tokens, error, reached := Mark.start, agenda := [.document], anchors := [], handle := none }

/-- The events of the two texts are the same behind the first one, if that holds of their
    tokens. -/
theorem Event.agree_ofTokens (σ : Retelling) (tokens : List Delivered) (error : SyntaxError) :
    σ.Agree
      (fun events events' => ∃ more, events = Event.start :: more ∧
        events' = Event.start :: more.map σ.place)
      (Event.ofTokens { tokens := TokenStream.streamStart :: tokens, error })
      (Event.ofTokens
        { tokens := TokenStream.streamStart :: tokens.map σ.delivered
          error := σ.error error }) := by
  have hstep (tokens : List Delivered) (error : SyntaxError) :
      (Derivation.ofStream { tokens := TokenStream.streamStart :: tokens, error }).step =
        .ok (some (Event.start, Derivation.ofStart tokens error)) := rfl
  have hagree : σ.Agree (fun r r' => r' = r.map σ.step) (Derivation.ofStart tokens error).step
      (Derivation.ofStart (tokens.map σ.delivered) (σ.error error)).step := by
    have hdocument := Derivation.agree_step σ (Derivation.ofStart tokens error)
    have hreached : (σ.derivation (Derivation.ofStart tokens error)).step =
        (Derivation.ofStart (tokens.map σ.delivered) (σ.error error)).step :=
      congrArg (Except.map some)
        (Derivation.document_reached (Derivation.ofStart _ _) (σ.mark Mark.start) [])
    rwa [hreached] at hdocument
  rw [Event.ofTokens, Event.ofTokens, Derivation.events_of_step (hstep tokens error),
    Derivation.events_of_step (hstep _ _)]
  exact Derivation.agree_events σ _ hagree [Event.start] [Event.start]

end Yaml

end YamlLocator
