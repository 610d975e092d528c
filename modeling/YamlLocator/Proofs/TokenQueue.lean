import YamlLocator.Yaml.Token.Stream

/-!
# Candidates and the Queue

A candidate for a key remembers the number of the token that it begins with, and when its
colon is found, tokens are put in front of that one. This only makes sense while that token
has not been handed out: its place in the queue is the difference between its number and
the number of tokens handed out.

`HasRoom` says that the difference is never negative and never leads beyond the queue. Most
of what the tokenizer does makes the queue longer and takes candidates away, which cannot
harm; `Extends` is that, and it is closed under composition, so each kind of token needs
little more than the list of what it does. The one thing that shortens the queue is handing
a token out, and that waits while a candidate begins with it.

## Main definitions

* `Runs`: The tokens that some steps hand out.
* `HasRoom`: Every candidate begins inside the queue or right behind it.
* `Extends`: A longer queue with no stray candidates.
* `IsOrderly`: What is kept up from step to step.

## Theorems

* `stream_of_runs`: The stream of a text is the tokens of its steps.
* `extends_token`: Reading a token extends the queue.
* `isOrderly_of_runs`: Whatever has been read, every candidate begins inside the queue.
-/

namespace YamlLocator

namespace Yaml

namespace Tokenizer

/-- Some steps lead from one state of the reader to another and hand out some tokens. -/
inductive Runs : Tokenizer → List Delivered → Tokenizer → Prop
  | none (t : Tokenizer) : Runs t [] t
  | more (t t' t'' : Tokenizer) (found : Option Delivered) (tokens : List Delivered)
      (hstep : t.step = .ok (found, t')) (hrest : Runs t' tokens t'') :
      Runs t (found.toList ++ tokens) t''

theorem runs_append {t t' t'' : Tokenizer} {front back : List Delivered} (h : Runs t front t')
    (h' : Runs t' back t'') : Runs t (front ++ back) t'' := by
  induction h with
  | none t => exact h'
  | more t t₁ t₂ found tokens hstep _ ih =>
    rw [List.append_assoc]
    exact .more t t₁ t'' found _ hstep (ih h')

theorem runs_of_step {t t' : Tokenizer} {found : Option Delivered}
    (h : t.step = .ok (found, t')) : Runs t found.toList t' := by
  have := Runs.more t t' t' found [] h (.none t')
  rwa [List.append_nil] at this

/-- Behind a step the stream goes on with what the step hands out. -/
theorem stream_of_step {t t' : Tokenizer} {found : Option Delivered}
    (h : t.step = .ok (found, t')) (given : List Delivered) :
    t.stream given = t'.stream (found.toList ++ given) := by
  rw [stream]
  split
  · rename_i error hfailed
    rw [h] at hfailed
    simp at hfailed
  · rename_i found' t₁ hstep
    rw [h, Except.ok.injEq, Prod.mk.injEq] at hstep
    rw [hstep.1, hstep.2]

/-- Nothing comes behind an error. -/
theorem stream_of_step_error {t : Tokenizer} {error : SyntaxError} (h : t.step = .error error)
    (given : List Delivered) : t.stream given = { tokens := given.reverse, error } := by
  rw [stream]
  split
  · rename_i error' hfailed
    rw [h, Except.error.injEq] at hfailed
    rw [hfailed]
  · rename_i found t₁ hstep
    rw [h] at hstep
    simp at hstep

/-- The tokens that are still to come are those of any steps and what comes behind them. -/
theorem stream_of_runs {t t' : Tokenizer} {tokens : List Delivered} (h : Runs t tokens t')
    (given : List Delivered) : t.stream given = t'.stream (tokens.reverse ++ given) := by
  induction h generalizing given with
  | none t => rfl
  | more t t₁ t₂ found tokens hstep _ ih =>
    rw [stream_of_step hstep, ih]
    cases found <;> simp

/-- Every reader is refused in the end, so what goes from the next reader to the one before it
    holds of all of them. -/
@[elab_as_elim]
theorem induction_step {motive : Tokenizer → Prop} (t : Tokenizer)
    (refused : ∀ t error, t.step = .error error → motive t)
    (more : ∀ t found t', t.step = .ok (found, t') → motive t' → motive t) : motive t := by
  generalize ([] : List Delivered) = given
  fun_induction stream t given with
  | case1 t given error hstep => exact refused t error hstep
  | case2 t given found t' hstep ih => exact more t found t' hstep ih

/-- What is still to come does not depend on what has been handed out before. -/
theorem stream_eq_append (t : Tokenizer) (given : List Delivered) :
    t.stream given =
      { tokens := given.reverse ++ (t.stream []).tokens, error := (t.stream []).error } := by
  induction t using induction_step generalizing given with
  | refused t error hstep => simp [stream_of_step_error hstep]
  | more t found t' hstep ih =>
    rw [stream_of_step hstep given, stream_of_step hstep [], ih (found.toList ++ given),
      ih (found.toList ++ [])]
    simp

/-- The tokens that are still to come are those of some steps. -/
theorem exists_runs_of_stream (t : Tokenizer) (given : List Delivered) :
    ∃ tokens t', Runs t tokens t' ∧ (t.stream given).tokens = given.reverse ++ tokens := by
  induction t using induction_step generalizing given with
  | refused t error hstep => exact ⟨[], t, .none t, by simp [stream_of_step_error hstep]⟩
  | more t found t' hstep ih =>
    rcases ih (found.toList ++ given) with ⟨tokens, last, hruns, htokens⟩
    refine ⟨found.toList ++ tokens, last, .more t t' last found tokens hstep hruns, ?_⟩
    rw [stream_of_step hstep, htokens]
    cases found <;> simp

/-- Every candidate begins with a token of the queue, or right behind the last one. -/
def HasRoom (t : Tokenizer) : Prop :=
  ∀ k, some k ∈ t.candidate :: t.outer →
    t.delivered ≤ k.number ∧ k.number ≤ t.delivered + t.queue.length

/-- The queue has only become longer, and a candidate that is new begins in it or right
    behind it. The end of the text has not been read in between. -/
structure Extends (t t' : Tokenizer) : Prop where
  delivered : t'.delivered = t.delivered
  queue : t.queue.length ≤ t'.queue.length
  ended : t'.ended = t.ended
  candidates : ∀ k, some k ∈ t'.candidate :: t'.outer → some k ∈ t.candidate :: t.outer ∨
    (t'.delivered ≤ k.number ∧ k.number ≤ t'.delivered + t'.queue.length)

theorem Extends.trans {t t' t'' : Tokenizer} (h : Extends t t') (h' : Extends t' t'') :
    Extends t t'' where
  delivered := by rw [h'.delivered, h.delivered]
  queue := Nat.le_trans h.queue h'.queue
  ended := by rw [h'.ended, h.ended]
  candidates := by
    intro k hk
    rcases h'.candidates k hk with hk | hk
    · -- A candidate of the first part stays in a queue that only gets longer.
      rcases h.candidates k hk with hk | ⟨hle, hge⟩
      · exact .inl hk
      · have := h'.queue
        rw [h'.delivered]
        exact .inr ⟨hle, by omega⟩
    · exact .inr hk

theorem hasRoom_of_extends {t t' : Tokenizer} (h : Extends t t') (hroom : t.HasRoom) :
    t'.HasRoom := by
  intro k hk
  rcases h.candidates k hk with hk | hk
  · have := hroom k hk
    have := h.queue
    rw [h.delivered]
    omega
  · exact hk

/-- What leaves the candidates alone extends the queue if it does not make it shorter. -/
theorem extends_of_same {t t' : Tokenizer} (hdelivered : t'.delivered = t.delivered)
    (hqueue : t.queue.length ≤ t'.queue.length) (hcandidate : t'.candidate = t.candidate)
    (houter : t'.outer = t.outer) (hended : t'.ended = t.ended) : Extends t t' where
  delivered := hdelivered
  queue := hqueue
  ended := hended
  candidates := by
    intro k hk
    rw [hcandidate, houter] at hk
    exact .inl hk

theorem Extends.refl (t : Tokenizer) : Extends t t :=
  extends_of_same rfl (Nat.le_refl _) rfl rfl rfl

/-! ### Moves that leave the candidates alone -/

theorem extends_push (t : Tokenizer) (token : Token) (mark : Mark) :
    Extends t (t.push token mark) :=
  extends_of_same rfl (by simp [push]) rfl rfl rfl

theorem extends_pushBefore (t : Tokenizer) (number : Nat) (token : Token) (mark : Mark) :
    Extends t (t.pushBefore number token mark) := by
  refine extends_of_same rfl ?_ rfl rfl rfl
  simp only [pushBefore, List.length_insertIdx]
  split <;> omega

theorem extends_allowKey (t : Tokenizer) (allowed : Bool) : Extends t (t.allowKey allowed) :=
  extends_of_same rfl (Nat.le_refl _) rfl rfl rfl

theorem extends_adjacent (t : Tokenizer) (adjacent : Nat) : Extends t { t with adjacent } :=
  extends_of_same rfl (Nat.le_refl _) rfl rfl rfl

theorem extends_inMapping (t : Tokenizer) (inMapping : Bool) : Extends t { t with inMapping } :=
  extends_of_same rfl (Nat.le_refl _) rfl rfl rfl

theorem extends_moveTo (t : Tokenizer) (cursor : Cursor) : Extends t (t.moveTo cursor) :=
  extends_of_same rfl (Nat.le_refl _) rfl rfl rfl

theorem extends_closeTo (t : Tokenizer) (column : Nat) : Extends t (t.closeTo column) := by
  unfold closeTo
  split
  · exact .refl t
  · exact extends_of_same rfl (by simp) rfl rfl rfl

theorem extends_indent (t : Tokenizer) (column : Nat) (number : Option Nat) (token : Token)
    (mark : Mark) : Extends t (t.indent column number token mark) := by
  have hlevels (levels : List Level) : Extends t { t with levels } :=
    extends_of_same rfl (Nat.le_refl _) rfl rfl rfl
  simp only [indent]
  split
  · exact .refl t
  · split
    · split
      · exact (hlevels _).trans (extends_pushBefore _ _ _ _)
      · exact (hlevels _).trans (extends_push _ _ _)
    · exact hlevels _

theorem extends_addProvisional (t : Tokenizer) : Extends t t.addProvisional := by
  unfold addProvisional
  split
  · exact .refl t
  · exact extends_of_same rfl (Nat.le_refl _) rfl rfl rfl

theorem extends_dropProvisional (t : Tokenizer) : Extends t t.dropProvisional :=
  extends_of_same rfl (Nat.le_refl _) rfl rfl rfl

theorem extends_separate {t t' : Tokenizer} (h : t.separate = .ok t') : Extends t t' := by
  simp only [separate, bind_eq_ok, pure_eq_ok, Except.ok.injEq] at h
  rcases h with ⟨⟨c, broken⟩, _, rfl⟩
  exact extends_of_same rfl (Nat.le_refl _) rfl rfl rfl

theorem extends_passSign {t t' : Tokenizer} (h : t.passSign = .ok t') : Extends t t' := by
  simp only [passSign, bind_eq_ok, pure_eq_ok, Except.ok.injEq] at h
  rcases h with ⟨c, _, rfl⟩
  exact extends_moveTo t c

theorem extends_endPair (t : Tokenizer) : Extends t t.endPair := by
  unfold endPair
  split
  · exact extends_of_same rfl (by simp [push]) rfl rfl rfl
  · exact .refl t

theorem extends_startKeylessPair (t : Tokenizer) : Extends t t.startKeylessPair := by
  unfold startKeylessPair
  split
  · exact extends_push _ _ _
  · exact .refl t

/-! ### Moves that change the candidates -/

/-- A candidate that is remembered begins right behind the queue. -/
theorem extends_saveCandidate (t : Tokenizer) : Extends t t.saveCandidate := by
  unfold saveCandidate
  split
  · refine ⟨rfl, Nat.le_refl _, rfl, fun k hk => ?_⟩
    rcases List.mem_cons.mp hk with hk | hk
    · rw [Option.some.injEq] at hk
      rw [hk]
      exact .inr ⟨by simp, by simp⟩
    · exact .inl (List.mem_cons_of_mem _ hk)
  · exact .refl t

theorem extends_withoutCandidate (t : Tokenizer) : Extends t { t with candidate := none } := by
  refine ⟨rfl, Nat.le_refl _, rfl, fun k hk => .inl ?_⟩
  rcases List.mem_cons.mp hk with hk | hk
  · simp at hk
  · exact List.mem_cons_of_mem _ hk

theorem extends_dropStale {t t' : Tokenizer} (h : t.dropStale = .ok t') : Extends t t' := by
  unfold dropStale at h
  split at h
  · simp only [Except.ok.injEq] at h
    rw [h]
    exact .refl t'
  · split at h
    · -- A stale candidate is forgotten, unless it had to be a key.
      split at h
      · simp at h
      · simp only [Except.ok.injEq] at h
        rw [← h]
        exact extends_withoutCandidate t
    · simp only [Except.ok.injEq] at h
      rw [h]
      exact .refl t'

theorem extends_dropCandidate {t t' : Tokenizer} (h : t.dropCandidate = .ok t') :
    Extends t t' := by
  unfold dropCandidate at h
  split at h
  · simp at h
  · simp only [Except.ok.injEq] at h
    rw [← h]
    exact extends_withoutCandidate t

/-- The candidates around a flow collection are kept below a new level. -/
theorem extends_enterFlow (t : Tokenizer) (keyAllowed inMapping : Bool) :
    Extends t { t with
      candidate := none, outer := t.candidate :: t.outer, keyAllowed, inMapping } := by
  refine ⟨rfl, Nat.le_refl _, rfl, fun k hk => .inl ?_⟩
  rcases List.mem_cons.mp hk with hk | hk
  · simp at hk
  · exact hk

theorem extends_leaveFlow (t : Tokenizer) : Extends t t.leaveFlow := by
  unfold leaveFlow
  split
  · exact .refl t
  · rename_i candidate outer houter
    refine ⟨rfl, Nat.le_refl _, rfl, fun k hk => .inl ?_⟩
    rw [houter]
    exact List.mem_cons_of_mem _ hk

theorem extends_endDocument {t t' : Tokenizer} (h : t.endDocument = .ok t') : Extends t t' := by
  simp only [endDocument, bind_eq_ok, pure_eq_ok, Except.ok.injEq] at h
  rcases h with ⟨t₁, h₁, rfl⟩
  exact ((extends_closeTo t 0).trans (extends_dropCandidate h₁)).trans (extends_allowKey t₁ false)

/-! ### Tokens -/

theorem outer_closeTo (t : Tokenizer) (column : Nat) : (t.closeTo column).outer = t.outer := by
  unfold closeTo
  split <;> rfl

/-- Behind the end of the text no candidate is left. -/
theorem not_mem_of_streamEnd {t t' : Tokenizer} (h : t.streamEnd = .ok t') (k : Candidate) :
    some k ∉ t'.candidate :: t'.outer := by
  simp only [streamEnd] at h
  split at h
  · simp at h
  · simp only [endDocument, dropCandidate, bind_eq_ok, pure_eq_ok, Except.ok.injEq] at h
    rcases h with ⟨t₁, ⟨t₂, h₂, rfl⟩, rfl⟩
    split at h₂
    · simp at h₂
    · simp only [Except.ok.injEq] at h₂
      rw [← h₂]
      simp [push, allowKey, outer_closeTo]

theorem extends_directive {t t' : Tokenizer} (h : t.directive = .ok t') : Extends t t' := by
  simp only [directive, bind_eq_ok, pure_eq_ok, Except.ok.injEq] at h
  rcases h with ⟨t₁, h₁, ⟨d, c⟩, _, rfl⟩
  exact ((extends_endDocument h₁).trans (extends_moveTo t₁ c)).trans (extends_push _ _ _)

theorem extends_documentMark {t t' : Tokenizer} {token : Token}
    (h : t.documentMark token = .ok t') : Extends t t' := by
  simp only [documentMark, bind_eq_ok, pure_eq_ok, Except.ok.injEq] at h
  rcases h with ⟨t₁, h₁, rfl⟩
  exact ((extends_endDocument h₁).trans (extends_moveTo t₁ _)).trans (extends_push _ _ _)

theorem extends_documentEnd {t t' : Tokenizer} (h : t.documentEnd = .ok t') : Extends t t' := by
  simp only [documentEnd, bind_eq_ok] at h
  rcases h with ⟨t₁, h₁, c, _, h⟩
  split at h
  · simp only [pure_eq_ok, Except.ok.injEq] at h
    rw [← h]
    exact (extends_documentMark h₁).trans (extends_moveTo t₁ c)
  · simp at h

theorem extends_flowStart {t t' : Tokenizer} {token : Token} (h : t.flowStart token = .ok t') :
    Extends t t' := by
  simp only [flowStart] at h
  split at h
  · simp at h
  · simp only [bind_eq_ok, pure_eq_ok, Except.ok.injEq] at h
    rcases h with ⟨t₁, h₁, rfl⟩
    refine Extends.trans ?_ ((extends_passSign h₁).trans (extends_push _ _ _))
    exact (extends_saveCandidate t).trans
      ((extends_addProvisional _).trans (extends_enterFlow _ true _))

theorem extends_flowEnd {t t' : Tokenizer} {token : Token} (h : t.flowEnd token = .ok t') :
    Extends t t' := by
  simp only [flowEnd, bind_eq_ok, pure_eq_ok, Except.ok.injEq] at h
  rcases h with ⟨t₁, h₁, t₂, h₂, rfl⟩
  refine ((((extends_dropCandidate h₁).trans (extends_leaveFlow t₁)).trans
    (extends_allowKey _ false)).trans (extends_endPair _)).trans ?_
  exact (extends_passSign h₂).trans ((extends_adjacent t₂ _).trans (extends_push _ _ _))

theorem extends_flowEntry {t t' : Tokenizer} (h : t.flowEntry = .ok t') : Extends t t' := by
  simp only [flowEntry, bind_eq_ok, pure_eq_ok, Except.ok.injEq] at h
  rcases h with ⟨t₁, h₁, t₂, h₂, rfl⟩
  refine (((extends_dropCandidate h₁).trans (extends_allowKey t₁ true)).trans
    (extends_endPair _)).trans ?_
  exact (extends_passSign h₂).trans (extends_push _ _ _)

theorem extends_blockEntryAt {t t' : Tokenizer} {c : Cursor} (h : t.blockEntryAt c = .ok t') :
    Extends t t' := by
  simp only [blockEntryAt, bind_eq_ok, pure_eq_ok, Except.ok.injEq] at h
  rcases h with ⟨t₁, h₁, rfl⟩
  refine ((extends_indent t t.mark.column none .blockSequenceStart t.mark).trans
    (extends_moveTo _ c)).trans ?_
  refine Extends.trans ?_ (((extends_dropCandidate h₁).trans (extends_allowKey t₁ true)).trans
    (extends_push _ _ _))
  split
  · exact extends_addProvisional _
  · exact .refl _

theorem extends_blockEntry {t t' : Tokenizer} (h : t.blockEntry = .ok t') : Extends t t' := by
  unfold blockEntry at h
  split at h
  · simp at h
  · split at h
    · simp at h
    · simp only [bind_eq_ok] at h
      rcases h with ⟨_, _, c, _, h⟩
      split at h
      · simp at h
      · exact extends_blockEntryAt h

theorem extends_explicitKey {t t' : Tokenizer} (h : t.explicitKey = .ok t') : Extends t t' := by
  simp only [explicitKey] at h
  split at h
  · simp at h
  · simp only [bind_eq_ok, pure_eq_ok, Except.ok.injEq] at h
    rcases h with ⟨t₁, h₁, c, _, rfl⟩
    refine (extends_indent t t.mark.column none .blockMappingStart t.mark).trans ?_
    refine (extends_inMapping _ _).trans ((extends_dropCandidate h₁).trans ?_)
    exact ((extends_allowKey t₁ _).trans (extends_moveTo _ c)).trans (extends_push _ _ _)

theorem extends_startPair {t t' : Tokenizer} {k : Candidate} {colon : Mark}
    (h : t.startPair k colon = .ok t') : Extends t t' := by
  unfold startPair at h
  split at h
  · split at h
    · simp at h
    · simp only [Except.ok.injEq] at h
      rw [← h]
      exact extends_pushBefore _ _ _ _
  · simp only [Except.ok.injEq] at h
    rw [h]
    exact .refl t'

theorem extends_valueOf {t t' : Tokenizer} {k : Candidate} {colon : Mark}
    (h : t.valueOf k colon = .ok t') : Extends t t' := by
  simp only [valueOf, bind_eq_ok, pure_eq_ok, Except.ok.injEq] at h
  rcases h with ⟨t₁, h₁, rfl⟩
  refine ((extends_pushBefore t k.number .key k.mark).trans (extends_startPair h₁)).trans ?_
  refine ((extends_indent t₁ k.mark.column (some k.number) .blockMappingStart colon).trans
    (extends_addProvisional _)).trans ?_
  exact (extends_withoutCandidate _).trans
    ((extends_allowKey _ false).trans (extends_push _ _ _))

theorem extends_valueAlone {t t' : Tokenizer} {colon : Mark} (h : t.valueAlone colon = .ok t') :
    Extends t t' := by
  unfold valueAlone at h
  split at h
  · simp at h
  · simp only [Except.ok.injEq] at h
    rw [← h]
    refine (extends_startKeylessPair t).trans
      ((extends_indent _ colon.column none .blockMappingStart colon).trans ?_)
    exact (extends_addProvisional _).trans ((extends_allowKey _ _).trans (extends_push _ _ _))

theorem extends_value {t t' : Tokenizer} (h : t.value = .ok t') : Extends t t' := by
  simp only [value, bind_eq_ok] at h
  rcases h with ⟨c, _, h⟩
  have hmove : Extends t { t with cursor := c, inPair := t.inFlow && !t.inMapping } :=
    extends_of_same rfl (Nat.le_refl _) rfl rfl rfl
  split at h
  · exact hmove.trans (extends_valueOf h)
  · exact hmove.trans (extends_valueAlone h)

theorem extends_named {t t' : Tokenizer} {token : String → Token} (h : t.named token = .ok t') :
    Extends t t' := by
  simp only [named, bind_eq_ok, pure_eq_ok, Except.ok.injEq] at h
  rcases h with ⟨⟨name, c⟩, _, rfl⟩
  exact (extends_saveCandidate t).trans
    ((extends_allowKey _ false).trans ((extends_moveTo _ c).trans (extends_push _ _ _)))

theorem extends_tag {t t' : Tokenizer} (h : t.tag = .ok t') : Extends t t' := by
  simp only [tag, bind_eq_ok, pure_eq_ok, Except.ok.injEq] at h
  rcases h with ⟨⟨tag, c⟩, _, rfl⟩
  exact (extends_saveCandidate t).trans
    ((extends_allowKey _ false).trans ((extends_moveTo _ c).trans (extends_push _ _ _)))

theorem extends_blockScalar {t t' : Tokenizer} {style : ScalarStyle}
    (h : t.blockScalar style = .ok t') : Extends t t' := by
  simp only [blockScalar, bind_eq_ok, pure_eq_ok, Except.ok.injEq] at h
  rcases h with ⟨scalar, _, rfl⟩
  exact (extends_saveCandidate t).trans ((extends_allowKey _ true).trans
    ((extends_dropProvisional _).trans ((extends_moveTo _ _).trans (extends_push _ _ _))))

theorem extends_quotedScalar {t t' : Tokenizer} {quotes : Quoted.Quotes} {style : ScalarStyle}
    (h : t.quotedScalar quotes style = .ok t') : Extends t t' := by
  simp only [quotedScalar, bind_eq_ok] at h
  rcases h with ⟨⟨text, closed⟩, _, behind, _, h⟩
  split at h
  · simp only [bind_eq_ok, pure_eq_ok, Except.ok.injEq] at h
    rcases h with ⟨t₁, h₁, rfl⟩
    refine (extends_saveCandidate t).trans ((extends_allowKey _ false).trans
      ((extends_moveTo _ behind).trans ((extends_separate h₁).trans ?_)))
    exact (extends_adjacent t₁ _).trans (extends_push _ _ _)
  · simp at h

theorem extends_plainScalar {t t' : Tokenizer} (h : t.plainScalar = .ok t') : Extends t t' := by
  simp only [plainScalar] at h
  split at h
  · simp at h
  · split at h
    · simp at h
    · simp only [bind_eq_ok, pure_eq_ok, Except.ok.injEq] at h
      rcases h with ⟨⟨text, c⟩, _, rfl⟩
      refine (extends_saveCandidate t).trans ((extends_allowKey _ false).trans
        ((extends_dropProvisional _).trans ?_))
      exact (extends_moveTo _ c).trans ((extends_allowKey _ _).trans (extends_push _ _ _))

/-- Reading a token extends the queue, or reads the end of the text. -/
theorem extends_token {t t' : Tokenizer} (h : t.token = .ok t') :
    Extends t t' ∨ ∀ k, some k ∉ t'.candidate :: t'.outer := by
  by_cases hend : t.upcoming = .streamEnd
  · rw [token, hend] at h
    exact .inr (not_mem_of_streamEnd h)
  · left
    unfold token at h
    split at h
    · exact absurd ‹_› hend
    · exact extends_directive h
    · exact extends_documentMark h
    · exact extends_documentEnd h
    · exact extends_flowStart h
    · exact extends_flowEnd h
    · exact extends_flowEntry h
    · exact extends_blockEntry h
    · exact extends_explicitKey h
    · exact extends_value h
    · exact extends_named h
    · exact extends_named h
    · exact extends_tag h
    · exact extends_blockScalar h
    · exact extends_quotedScalar h
    · exact extends_plainScalar h
    · simp at h

/-! ### Steps -/

/-- The candidates are in order: they begin inside the queue, and none is left when the end
    of the text has been read. -/
structure IsOrderly (t : Tokenizer) : Prop where
  room : t.HasRoom
  ended : t.ended = true → ∀ k, some k ∉ t.candidate :: t.outer

theorem isOrderly_ofText (text : List Char) : (ofText text).IsOrderly where
  room := by
    intro k hk
    simp [ofText] at hk
  ended := by
    intro h
    simp [ofText] at h

theorem isOrderly_dropStale {t t' : Tokenizer} (h : t.dropStale = .ok t') (ht : t.IsOrderly) :
    t'.IsOrderly := by
  have hextends := extends_dropStale h
  refine ⟨hasRoom_of_extends hextends ht.room, fun hended k hk => ?_⟩
  rw [hextends.ended] at hended
  -- A candidate that is dropped is none that is new.
  unfold dropStale at h
  split at h
  · simp only [Except.ok.injEq] at h
    rw [← h] at hk
    exact ht.ended hended k hk
  · rename_i k' hk'
    have hmem : some k' ∈ t.candidate :: t.outer := by simp [hk']
    exact ht.ended hended k' hmem

theorem isOrderly_round {t t' : Tokenizer} (h : t.round = .ok t') (hended : t.ended = false)
    (ht : t.IsOrderly) : t'.IsOrderly := by
  simp only [round, bind_eq_ok] at h
  rcases h with ⟨t₁, h₁, t₂, h₂, h⟩
  have happroach := (extends_separate h₁).trans
    ((extends_dropStale h₂).trans (extends_closeTo t₂ (t₂.mark.column + 1)))
  -- The round reads the end of the text, or it does not end the text.
  rcases extends_token h with htoken | hnone
  · have hextends := happroach.trans htoken
    refine ⟨hasRoom_of_extends hextends ht.room, fun hended' => ?_⟩
    rw [hextends.ended, hended] at hended'
    simp at hended'
  · exact ⟨fun k hk => absurd hk (hnone k), fun _ => hnone⟩

/-- A token that no candidate begins with can be handed out. -/
theorem isOrderly_withoutFirst {t : Tokenizer} (hqueue : t.queue ≠ [])
    (hwaiting : (t.isWaiting && !t.ended) = false) (ht : t.IsOrderly) :
    t.withoutFirst.IsOrderly := by
  refine ⟨fun k hk => ?_, ht.ended⟩
  have hk : some k ∈ t.candidate :: t.outer := hk
  have hroom := ht.room k hk
  have hlength := List.length_pos_iff.mpr hqueue
  -- A candidate that begins with the token would have made it wait.
  have hnumber : k.number ≠ t.delivered := by
    intro hnumber
    have hwaits : t.isWaiting = true := by
      rw [isWaiting, List.any_eq_true]
      exact ⟨some k, hk, by simp [hnumber]⟩
    have hended : t.ended = true := by simpa [hwaits] using hwaiting
    exact ht.ended hended k hk
  simp only [withoutFirst, List.length_tail]
  omega

theorem isOrderly_step {t : Tokenizer} {r : Option Delivered × Tokenizer} (h : t.step = .ok r)
    (ht : t.IsOrderly) : r.2.IsOrderly := by
  unfold step at h
  split at h
  · split at h
    · simp at h
    · rename_i hended
      simp only [bind_eq_ok, pure_eq_ok, Except.ok.injEq] at h
      rcases h with ⟨t', hround, rfl⟩
      exact isOrderly_round hround (by simpa using hended) ht
  · rename_i first rest hqueue
    simp only [bind_eq_ok] at h
    rcases h with ⟨t₁, hstale, h⟩
    have ht₁ := isOrderly_dropStale hstale ht
    -- Either the first token waits for another round, or it is handed out.
    split at h
    · rename_i hwaiting
      simp only [Bool.and_eq_true, Bool.not_eq_true'] at hwaiting
      simp only [bind_eq_ok, pure_eq_ok, Except.ok.injEq] at h
      rcases h with ⟨t', hround, rfl⟩
      exact isOrderly_round hround hwaiting.2 ht₁
    · rename_i hwaiting
      simp only [pure_eq_ok, Except.ok.injEq] at h
      rw [← h]
      refine isOrderly_withoutFirst ?_ (by simpa using hwaiting) ht₁
      rw [(measure_dropStale hstale).1, hqueue]
      simp

/-- Whatever has been read of a text, every candidate begins inside the queue. -/
theorem isOrderly_of_runs {t t' : Tokenizer} {tokens : List Delivered} (h : Runs t tokens t')
    (ht : t.IsOrderly) : t'.IsOrderly := by
  induction h with
  | none t => exact ht
  | more t t₁ t₂ found tokens hstep _ ih => exact ih (isOrderly_step hstep ht)

end Tokenizer

end Yaml

end YamlLocator
