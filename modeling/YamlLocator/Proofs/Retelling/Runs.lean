import YamlLocator.Proofs.Retelling.Tokens
import YamlLocator.Proofs.TokenOrder.Alignment

/-!
# Runs over a Text Told Anew

Two readers of tokens at the same place of two texts read the same token next, and so they go
on, step by step, until both are refused for the same reason or both have come to the end. There
they stand behind the last line, which is no place in a text any more, but nothing is left to do
then than to hand out what is in the queue.

## Main definitions

* `Tokenizer.Spent`: Two readers that have come to the end.
* `Tokenizer.Told`: Two readers that go on alike.
* `Retelling.delivered`: What becomes of tokens that are handed out.
* `TokenStream.Told`: Two streams that are alike until enough tokens have been handed out.
* `Tokenizer.StaysNarrowUntil`: All block scalars that are read until then are ASCII.

## Theorems

* `Tokenizer.agree_token`, `Tokenizer.agree_round`, `Tokenizer.agree_step`: What is next is read
  alike.
* `Tokenizer.told_stream`: The same tokens are handed out, and the same error ends them.
* `TokenStream.told_ofText`: The streams of the two texts.
-/

namespace YamlLocator

namespace Yaml

/-- What is next behind a separation is no line break. -/
theorem Cursor.not_isBreak_of_separation {margin : Nat} {broken broken' : Bool} {c c' : Cursor}
    (h : separation margin broken c = .ok (c', broken')) : isBreak c'.peek = false := by
  fun_induction separation margin broken c with
  | case1 broken c hblank htab hend ih => exact ih h
  | case2 => simp at h
  | case3 broken c hblank htab ih => exact ih h
  | case4 broken c hblank hbreak ih => exact ih h
  | case5 broken c hblank hbreak hcomment ih => exact ih h
  | case6 broken c hblank hbreak hcomment =>
    simp only [Except.ok.injEq, Prod.mk.injEq] at h
    rw [← h.1]
    exact Bool.eq_false_iff.mpr hbreak

/-- Two readers that have come to the end of the two texts. -/
structure Tokenizer.Spent (σ : Retelling) (t t' : Tokenizer) : Prop where
  ended : t.ended = true ∧ t'.ended = true
  queue_eq : t'.queue = t.queue.map σ.place
  mark_eq : t'.mark = σ.mark t.mark
  candidate_eq : t.candidate = none ∧ t'.candidate = none

/-- Two readers that go on alike. Inside flow collections something has been read already. -/
def Tokenizer.Told (σ : Retelling) (t t' : Tokenizer) : Prop :=
  (Retold σ t t' ∧ (t.inFlow = true → 0 < t.mark.index)) ∨ Spent σ t t'

namespace Tokenizer

open Retelling

variable {σ : Retelling} {t t' : Tokenizer}

/-! ### The end -/

theorem mark_afterLastLine {c c' : Cursor} (h : Cursor.Retold σ c c') :
    (afterLastLine c').mark = σ.mark (afterLastLine c).mark := by
  simp only [afterLastLine, h.column_eq]
  split
  · exact h.mark_eq
  · simp only [h.mark_eq, Retelling.mark, Mark.mk.injEq, and_true, true_and]
    omega

theorem mark_closeTo (t : Tokenizer) (column : Nat) : (t.closeTo column).mark = t.mark := by
  rw [mark, cursor_closeTo, mark]

theorem candidate_closeTo (t : Tokenizer) (column : Nat) :
    (t.closeTo column).candidate = t.candidate := by
  unfold closeTo
  split <;> rfl

/-- Without candidates, the end of a document ends the open collections and nothing else. -/
theorem endDocument_of_candidate (h : t.candidate = none) :
    t.endDocument = .ok ((t.closeTo 0).allowKey false) := by
  have hclosed : (t.closeTo 0).candidate = none := by rw [candidate_closeTo, h]
  have hdrop : (t.closeTo 0).dropCandidate = .ok (t.closeTo 0) := by
    simp only [dropCandidate, hclosed, Option.any_none, Bool.false_eq_true, if_false]
    rw [← hclosed]
  simp only [endDocument, hdrop]
  rfl

/-- The reader behind the last line, where no key can begin any more. -/
def atLast (t : Tokenizer) : Tokenizer :=
  { t.moveTo (afterLastLine t.cursor) with
    candidate := none
    outer := t.outer.map fun _ => none }

theorem streamEnd_eq (t : Tokenizer) :
    t.streamEnd =
      if (t.candidate :: t.outer).any fun k => k.any (·.required) then
        t.atLast.mark.refuse .keyExpected
      else
        .ok { ((t.atLast.closeTo 0).allowKey false).push .streamEnd (t.atLast.closeTo 0).mark with
          ended := true } := by
  refine if_congr Iff.rfl rfl ?_
  rw [endDocument_of_candidate rfl]
  rfl

theorem agree_streamEnd (h : Retold σ t t') : σ.Agree (Spent σ) t.streamEnd t'.streamEnd := by
  have hmark : t'.atLast.mark = σ.mark t.atLast.mark := mark_afterLastLine h.cursor
  have hflow : t'.atLast.inFlow = t.atLast.inFlow := by
    simp only [inFlow, atLast, h.outer_eq, List.isEmpty_map]
  have hqueue : (t'.atLast.closeTo 0).queue = (t.atLast.closeTo 0).queue.map σ.place :=
    queue_closeTo_eq (show t'.atLast.queue = t.atLast.queue.map σ.place from h.queue_eq) hflow
      h.levels_eq hmark 0
  simp only [streamEnd_eq, h.candidate_eq, h.outer_eq, ← List.map_cons, List.any_map,
    Function.comp_def, any_required_map]
  split
  · exact agree_refuse hmark _
  · refine .ok ⟨⟨rfl, rfl⟩, ?_, ?_, ?_⟩
    · simp [allowKey, push, hqueue, mark_closeTo, hmark, place]
    · exact (mark_closeTo _ _).trans (hmark.trans (congrArg _ (mark_closeTo _ _).symm))
    · exact ⟨candidate_closeTo _ _, candidate_closeTo _ _⟩

/-! ### Rounds -/

theorem atValue_eq (h : Retold σ t t') (hbreak : isBreak t.cursor.peek = false)
    (hinside : t.inFlow = true → 0 < t.mark.index) : t'.atValue = t.atValue := by
  have hnext := h.cursor.blanks_one hbreak
  have hgap : isGap (t'.cursor.peekAt 1) = isGap (t.cursor.peekAt 1) := hnext.isGap_peek
  have hflow : isFlow (t'.cursor.peekAt 1) = isFlow (t.cursor.peekAt 1) := hnext.isFlow_peek
  simp only [atValue, hgap, hflow, h.inFlow_eq]
  cases hcase : t.inFlow with
  | false => rfl
  | true =>
    -- Nothing else has the index of the place behind the last scalar.
    have hadjacent : t'.mark.index = t'.adjacent ↔ t.mark.index = t.adjacent := by
      rw [h.mark_eq]
      rcases h.adjacent_eq with hplace | ⟨hnone, hnone'⟩
      · rw [hplace]
        exact index_inj
      · have hpos := hinside hcase
        have hle : t.mark.index ≤ σ.index t.mark.index := by
          simp only [Retelling.index]
          omega
        rw [hnone, hnone']
        simp only [Retelling.mark]
        omega
    rw [decide_eq_decide.mpr hadjacent]

theorem upcoming_eq (h : Retold σ t t') (hbreak : isBreak t.cursor.peek = false)
    (hinside : t.inFlow = true → 0 < t.mark.index) : t'.upcoming = t.upcoming := by
  have hgap : isGap (t'.cursor.peekAt 1) = isGap (t.cursor.peekAt 1) :=
    (h.cursor.blanks_one hbreak).isGap_peek
  simp only [upcoming, indicated, h.cursor.peek_eq hbreak, h.column_eq,
    h.cursor.atSign_eq '-' (by decide), h.cursor.atSign_eq '.' (by decide), h.margin_eq, hgap,
    atValue_eq h hbreak hinside, h.inFlow_eq]

/-- What the cursor stands at if something is found that begins with a sign. -/
def Upcoming.IsSigned (c : Cursor) : Upcoming → Prop
  | .documentStart => c.atSign '-' = true
  | .documentEnd => c.atSign '.' = true
  | .tag => c.peek = '!'
  | .blockScalar style =>
    (style = .literal ∧ c.peek = '|') ∨ (style = .folded ∧ c.peek = '>')
  | _ => True

theorem isSigned_upcoming (t : Tokenizer) : t.upcoming.IsSigned t.cursor := by
  unfold upcoming
  repeat' split
  all_goals try trivial
  unfold indicated
  split
  all_goals first
    | trivial
    | (split <;> trivial)
    | (split <;> simp_all [Upcoming.IsSigned])

/-- The next token is read alike. -/
theorem agree_token (h : Retold σ t t') (hbreak : isBreak t.cursor.peek = false)
    (hinside : t.inFlow = true → 0 < t.mark.index)
    (hnarrow : σ.doubled = true → ∀ u, t.token = .ok u → u.IsNarrow) :
    σ.Agree (fun u u' => Retold σ u u' ∨ Spent σ u u') t.token t'.token := by
  have hsigned := isSigned_upcoming t
  simp only [token, upcoming_eq h hbreak hinside] at hnarrow ⊢
  have hretold {x x' : Except SyntaxError Tokenizer} (hagree : σ.Agree (Retold σ) x x') :
      σ.Agree (fun u u' => Retold σ u u' ∨ Spent σ u u') x x' :=
    agree_imp hagree fun _ _ => .inl
  cases hnext : t.upcoming with
  | streamEnd => exact agree_imp (agree_streamEnd h) fun _ _ => .inr
  | directive => exact hretold (agree_directive h hbreak)
  | documentStart =>
    rw [hnext] at hsigned
    exact hretold (agree_documentMark h _ (not_isBreak_of_atSign (by decide) hsigned))
  | documentEnd =>
    rw [hnext] at hsigned
    exact hretold (agree_documentEnd h (not_isBreak_of_atSign (by decide) hsigned))
  | flowStart token => exact hretold (agree_flowStart h token hbreak)
  | flowEnd token => exact hretold (agree_flowEnd h token hbreak)
  | flowEntry => exact hretold (agree_flowEntry h hbreak)
  | blockEntry => exact hretold (agree_blockEntry h hbreak)
  | explicitKey => exact hretold (agree_explicitKey h hbreak)
  | value => exact hretold (agree_value h hbreak)
  | «alias» => exact hretold (agree_named h _ hbreak)
  | anchor => exact hretold (agree_named h _ hbreak)
  | tag =>
    rw [hnext] at hsigned
    exact hretold (agree_tag h hsigned)
  | blockScalar style =>
    rw [hnext] at hsigned hnarrow
    exact hretold (agree_blockScalar h style (hsigned.imp And.left And.left) hbreak hnarrow)
  | quotedScalar quotes style => exact hretold (agree_quotedScalar h quotes style hbreak)
  | plainScalar => exact hretold (agree_plainScalar h hbreak)
  | refused fault => exact agree_refuse h.mark_eq fault

/-- Behind a token that is no end, something has been read. -/
theorem index_pos_of_token {u : Tokenizer} (hread : t.token = .ok u) (hended : u.ended = false) :
    0 < u.mark.index := by
  have hlt : u.cursor.left < t.cursor.left :=
    (left_token_lt hread).resolve_left (by simp [hended])
  have hleads : Cursor.Leads t.cursor u.cursor := by
    rcases keeps_token hread with hkeeps | hkeeps
    · exact hkeeps.leads
    · simpa using hkeeps.leads
  have := hleads.index
  unfold mark
  omega

/-- A look at the candidate changes nothing but the candidate. -/
theorem eq_of_dropStale (h : t.dropStale = .ok t') : t' = { t with candidate := t'.candidate } := by
  unfold dropStale at h
  split at h
  · simp only [Except.ok.injEq] at h
    rw [h]
  · split at h
    · split at h
      · simp at h
      · simp only [Except.ok.injEq] at h
        rw [← h]
    · simp only [Except.ok.injEq] at h
      rw [h]

/-- What follows the separation in a round is read alike. -/
theorem agree_separated (h : Retold σ t t') (hbreak : isBreak t.cursor.peek = false)
    (hinside : t.inFlow = true → 0 < t.mark.index)
    (hnarrow : σ.doubled = true → ∀ u,
      (t.dropStale >>= fun t₁ => (t₁.closeTo (t₁.mark.column + 1)).token) = .ok u → u.IsNarrow) :
    σ.Agree (Told σ) (t.dropStale >>= fun t₁ => (t₁.closeTo (t₁.mark.column + 1)).token)
      (t'.dropStale >>= fun t₁ => (t₁.closeTo (t₁.mark.column + 1)).token) := by
  refine agree_bind_of_eq (agree_dropStale h) fun t₁ t₁' hstale h₁ => ?_
  have hcursor := cursor_dropStale hstale
  have hinside₁ : (t₁.closeTo (t₁.mark.column + 1)).inFlow = true →
      0 < (t₁.closeTo (t₁.mark.column + 1)).mark.index := by
    rw [mark_closeTo, mark, hcursor, inFlow, outer_closeTo, eq_of_dropStale hstale]
    exact hinside
  rw [h₁.column_eq]
  have htoken := agree_token (h₁.closeTo _) (by rwa [cursor_closeTo, hcursor]) hinside₁
    fun hdoubled u hu => hnarrow hdoubled u (bind_eq_ok.mpr ⟨t₁, hstale, hu⟩)
  rcases cases_of_agree htoken with ⟨e, hread, hread'⟩ | ⟨u, u', hread, hread', hu⟩
  · rw [hread, hread']
    exact .error e
  · rw [hread, hread']
    refine .ok (hu.imp_left fun hu => ⟨hu, fun _ => ?_⟩)
    exact index_pos_of_token hread hu.ended.1

/-- A round is read alike if the separation in front of the token is. -/
theorem agree_round_of_separate (h : σ.Agree (Retold σ) t.separate t'.separate)
    (hinside : t.inFlow = true → 0 < t.mark.index)
    (hnarrow : σ.doubled = true → ∀ u, t.round = .ok u → u.IsNarrow) :
    σ.Agree (Told σ) t.round t'.round := by
  refine agree_bind_of_eq h fun t₁ t₁' hread h₁ => ?_
  have hnarrow₁ (hdoubled : σ.doubled = true) (u : Tokenizer) hu :=
    hnarrow hdoubled u (bind_eq_ok.mpr ⟨t₁, hread, hu⟩)
  have hle := (keeps_separate hread).leads.index_le
  simp only [separate, bind_eq_ok, pure_eq_ok, Except.ok.injEq] at hread
  rcases hread with ⟨⟨c, broken⟩, hread, rfl⟩
  refine agree_separated h₁ (Cursor.not_isBreak_of_separation hread) (fun hflow => ?_) hnarrow₁
  exact Nat.lt_of_lt_of_le (hinside hflow) hle

theorem agree_round (h : Retold σ t t') (hinside : t.inFlow = true → 0 < t.mark.index)
    (hnarrow : σ.doubled = true → ∀ u, t.round = .ok u → u.IsNarrow) :
    σ.Agree (Told σ) t.round t'.round :=
  agree_round_of_separate (agree_separate h) hinside hnarrow

end Tokenizer

/-! ### Streams -/

/-- What becomes of a token that is handed out. -/
def Retelling.delivered (σ : Retelling) (token : Delivered) : Delivered :=
  { σ.place token.toPlaced with reached := σ.mark token.reached }

/-- The token that every stream begins with. -/
def TokenStream.streamStart : Delivered :=
  { item := .streamStart, mark := Mark.start, reached := Mark.start }

/-- The tokens of the second stream are those of the first one, and so is the error behind them.
    But what comes behind enough tokens does not matter. -/
inductive TokenStream.Told (σ : Retelling) (enough : List Delivered → Prop) :
    TokenStream → TokenStream → Prop
  | whole (tokens : List Delivered) (error : SyntaxError) :
    Told σ enough { tokens, error } { tokens := tokens.map σ.delivered, error := σ.error error }
  | front (tokens : List Delivered) (henough : enough tokens) (behind behind' : TokenStream) :
    Told σ enough { tokens := tokens ++ behind.tokens, error := behind.error }
      { tokens := tokens.map σ.delivered ++ behind'.tokens, error := behind'.error }

/-- A step goes on with what is told anew, whether it hands out a token or not. -/
theorem TokenStream.Told.step {σ : Retelling} {enough : List Delivered → Prop}
    {found : Option Delivered} {stream stream' : TokenStream}
    (h : Told σ (fun tokens => enough (found.toList ++ tokens)) stream stream') :
    Told σ enough { tokens := found.toList ++ stream.tokens, error := stream.error }
      { tokens := (found.map σ.delivered).toList ++ stream'.tokens, error := stream'.error } := by
  have hmap : (found.map σ.delivered).toList = found.toList.map σ.delivered := by
    cases found <;> rfl
  cases h with
  | whole tokens error =>
    rw [hmap, ← List.map_append]
    exact .whole _ error
  | front tokens henough behind behind' =>
    rw [hmap, ← List.append_assoc, ← List.append_assoc, ← List.map_append]
    exact .front _ henough behind behind'

namespace Tokenizer

open Retelling

variable {σ : Retelling} {t t' : Tokenizer} {enough : List Delivered → Prop}

theorem Retold.isWaiting_eq (h : Retold σ t t') : t'.isWaiting = t.isWaiting := by
  have hnumber (k : Option Candidate) :
      (k.map σ.candidate).any (fun k => k.number = t.delivered) =
        k.any fun k => k.number = t.delivered := by
    cases k <;> rfl
  simp only [isWaiting, h.candidate_eq, h.outer_eq, h.delivered_eq, ← List.map_cons,
    List.any_map, Function.comp_def, hnumber]

theorem Retold.withoutFirst (h : Retold σ t t') : Retold σ t.withoutFirst t'.withoutFirst :=
  { h with
    queue_eq := by simp [Tokenizer.withoutFirst, h.queue_eq]
    delivered_eq := by simp [Tokenizer.withoutFirst, h.delivered_eq] }

/-- At the end nothing is left to do but to hand out what is in the queue. -/
theorem step_of_ended_of_cons {first : Placed Token} {rest : List (Placed Token)}
    (hended : t.ended = true) (hcandidate : t.candidate = none) (hqueue : t.queue = first :: rest) :
    t.step = .ok (some { toPlaced := first, reached := t.mark }, t.withoutFirst) := by
  have hstale : t.dropStale = .ok t := by rw [dropStale, hcandidate]
  simp [step, hqueue, hstale, bind, Except.bind, hended]

/-- The next step is the same: a round, or the same token handed out. -/
theorem agree_step (h : Told σ t t')
    (hnarrow : σ.doubled = true → ∀ r, t.step = .ok r → r.2.IsNarrow) :
    σ.Agree (fun r r' => r'.1 = r.1.map σ.delivered ∧ Told σ r.2 r'.2) t.step t'.step := by
  rcases h with ⟨h, hinside⟩ | h
  · cases hqueue : t.queue with
    | nil =>
      have hqueue' : t'.queue = [] := by rw [h.queue_eq, hqueue, List.map_nil]
      simp only [step, hqueue, hqueue', h.ended.1, h.ended.2, Bool.false_eq_true, if_false]
        at hnarrow ⊢
      refine agree_bind (agree_round h hinside fun hdoubled u hu => ?_) fun _ _ hu => .ok ⟨rfl, hu⟩
      exact hnarrow hdoubled (none, u) (bind_eq_ok.mpr ⟨u, hu, rfl⟩)
    | cons first rest =>
      have hqueue' : t'.queue = σ.place first :: rest.map σ.place := by
        rw [h.queue_eq, hqueue, List.map_cons]
      simp only [step, hqueue, hqueue'] at hnarrow ⊢
      refine agree_bind_of_eq (agree_dropStale h) fun t₁ t₁' hstale h₁ => ?_
      simp only [hstale, bind, Except.bind] at hnarrow
      have hinside₁ : t₁.inFlow = true → 0 < t₁.mark.index := by
        rw [eq_of_dropStale hstale]
        exact hinside
      simp only [h₁.isWaiting_eq, h₁.ended.1, h₁.ended.2, Bool.not_false, Bool.and_true]
      split
      · rename_i hwaiting
        refine agree_bind (agree_round h₁ hinside₁ fun hdoubled u hu => ?_)
          fun _ _ hu => .ok ⟨rfl, hu⟩
        refine hnarrow hdoubled (none, u) ?_
        simp [hwaiting, h₁.ended.1, hu]
      · rw [h₁.mark_eq]
        exact .ok ⟨rfl, .inl ⟨h₁.withoutFirst, hinside₁⟩⟩
  · cases hqueue : t.queue with
    | nil =>
      have hqueue' : t'.queue = [] := by rw [h.queue_eq, hqueue, List.map_nil]
      simp only [step, hqueue, hqueue', h.ended.1, h.ended.2, if_true]
      exact agree_refuse h.mark_eq _
    | cons first rest =>
      have hqueue' : t'.queue = σ.place first :: rest.map σ.place := by
        rw [h.queue_eq, hqueue, List.map_cons]
      rw [step_of_ended_of_cons h.ended.1 h.candidate_eq.1 hqueue,
        step_of_ended_of_cons h.ended.2 h.candidate_eq.2 hqueue', h.mark_eq]
      refine .ok ⟨rfl, .inr { h with queue_eq := ?_ }⟩
      simp [withoutFirst, hqueue, hqueue']

/-- No block scalar with a character of several bytes is read from here on before enough tokens
    have been handed out. -/
def StaysNarrowUntil (t : Tokenizer) (enough : List Delivered → Prop) : Prop :=
  ∀ tokens u r, Runs t tokens u → ¬enough tokens → u.step = .ok r → r.2.IsNarrow

theorem isNarrow_of_step {r : Option Delivered × Tokenizer} (h : t.StaysNarrowUntil enough)
    (henough : ¬enough []) (hstep : t.step = .ok r) : r.2.IsNarrow :=
  h [] t r (.none t) henough hstep

theorem staysNarrowUntil_of_step {r : Option Delivered × Tokenizer} (h : t.StaysNarrowUntil enough)
    (hstep : t.step = .ok r) :
    r.2.StaysNarrowUntil fun tokens => enough (r.1.toList ++ tokens) :=
  fun _ u r' hruns => h _ u r' (.more t r.2 u r.1 _ hstep hruns)

/-- What is still to come is told anew, if the next step is. -/
theorem told_stream
    (hagree : ¬enough [] →
      σ.Agree (fun r r' => r'.1 = r.1.map σ.delivered ∧ Told σ r.2 r'.2) t.step t'.step)
    (hnarrow : σ.doubled = true → t.StaysNarrowUntil enough) :
    TokenStream.Told σ enough (t.stream []) (t'.stream []) := by
  -- What is enough changes from step to step, by the token that has been handed out.
  induction t using induction_step generalizing t' enough with
  | refused t error hstep =>
    by_cases henough : enough []
    · exact .front [] henough _ _
    · rw [stream_of_step_error hstep,
        stream_of_step_error (eq_error_of_agree (hagree henough) hstep)]
      exact .whole [] error
  | more t found u hstep ih =>
    by_cases henough : enough []
    · exact .front [] henough _ _
    · rcases exists_ok_of_agree (hagree henough) hstep with ⟨⟨found', u'⟩, hstep', hfound, hu⟩
      have hfound : found' = found.map σ.delivered := hfound
      have hnarrow₁ (hdoubled : σ.doubled = true) :=
        staysNarrowUntil_of_step (hnarrow hdoubled) hstep
      have hstream := ih (fun hnot => agree_step hu fun hdoubled _ =>
        isNarrow_of_step (hnarrow₁ hdoubled) hnot) hnarrow₁
      rw [stream_of_step hstep, stream_of_step hstep', stream_eq_append u, stream_eq_append u',
        hfound]
      cases found <;> exact hstream.step

/-- The first token is handed out without reading anything. -/
theorem step_ofText (text : List Char) :
    (ofText text).step = .ok (some TokenStream.streamStart, (ofText text).withoutFirst) := rfl

/-- Two readers that have handed out no more than the first token. -/
theorem Retold.ofCursor {c c' : Cursor} (h : Cursor.Retold σ c c') (text text' : List Char) :
    Retold σ { (ofText text).withoutFirst with cursor := c }
      { (ofText text').withoutFirst with cursor := c' } where
  cursor := h
  queue_eq := rfl
  delivered_eq := rfl
  keyAllowed_eq := rfl
  candidate_eq := rfl
  outer_eq := rfl
  isPlace := by simp [Tokenizer.withoutFirst, ofText]
  levels_eq := rfl
  adjacent_eq := .inr ⟨rfl, rfl⟩
  inMapping_eq := rfl
  inPair_eq := rfl
  ended := ⟨rfl, rfl⟩

end Tokenizer

/-- The stream of a text is told anew by that of another one, if the first round is. -/
theorem TokenStream.told_ofText {σ : Retelling} {enough : List Delivered → Prop}
    {text text' : List Char}
    (hround : ¬enough [streamStart] →
      σ.Agree (Tokenizer.Told σ) (Tokenizer.ofText text).withoutFirst.round
        (Tokenizer.ofText text').withoutFirst.round)
    (hnarrow : σ.doubled = true → (Tokenizer.ofText text).StaysNarrowUntil enough) :
    ∃ stream stream', Told σ (fun tokens => enough (streamStart :: tokens)) stream stream' ∧
      ofText text = { tokens := streamStart :: stream.tokens, error := stream.error } ∧
      ofText text' = { tokens := streamStart :: stream'.tokens, error := stream'.error } := by
  have hstep (henough : ¬enough [streamStart]) :
      σ.Agree (fun r r' => r'.1 = r.1.map σ.delivered ∧ Tokenizer.Told σ r.2 r'.2)
        (Tokenizer.ofText text).withoutFirst.step (Tokenizer.ofText text').withoutFirst.step :=
    Retelling.agree_bind (hround henough) fun _ _ hu => .ok ⟨rfl, hu⟩
  have htold := Tokenizer.told_stream hstep fun hdoubled =>
    Tokenizer.staysNarrowUntil_of_step (hnarrow hdoubled) (Tokenizer.step_ofText text)
  refine ⟨_, _, htold, ?_, ?_⟩
  · rw [ofText, Tokenizer.stream_of_step (Tokenizer.step_ofText text), Tokenizer.stream_eq_append]
    rfl
  · rw [ofText, Tokenizer.stream_of_step (Tokenizer.step_ofText text'), Tokenizer.stream_eq_append]
    rfl

end Yaml

end YamlLocator
