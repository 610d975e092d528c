import YamlLocator.Proofs.Continuation.Tokens
import YamlLocator.Proofs.Retelling.Runs

/-!
# Runs over a Text That Goes On

The two runs go step by step together until the marker at the end of the document has been read.
Then there are tokens in the queue, and they are handed out as long as no candidate begins with
the next one. After that the reader has to read on, which is what it needs the rest of the text
for, so from there on the runs differ.

Outside flow collections there are no candidates behind the marker. Then the marker itself has been
handed out when the reader reads on. Inside a flow collection that is left open the tokens that a
candidate begins with are held back, and may be all that there are. A quote shows how far the
reader comes without reading on: it is refused if nothing closes it.

## Main definitions

* `Tokenizer.ReadsOn`: No token can be handed out without reading on.

## Theorems

* `Tokenizer.carries_step`: The next step is the same.
* `Tokenizer.stream_append`: The streams are the same, or the same up to the marker.
* `Tokenizer.exists_runs_of_isPast`: What is handed out behind the marker.
* `Tokenizer.stream_of_isPast`: What comes of the text that does not go on.
* `Tokenizer.exists_error_of_quote`: What comes of a quote behind the marker.
* `TokenStream.exists_append`: How long the two streams are the same.
-/

namespace YamlLocator

namespace Yaml

namespace Tokenizer

open Cursor

variable {t u : Tokenizer}

/-! ### Up to the marker -/

/-- The next step is the same, and leaves the line that ends the document ahead or reads it. -/
theorem carries_step (more : List Char) (h : t.IsAhead) :
    Carries (Prod.map id (append more)) (fun r => r.2.IsAhead ∨ r.2.IsJustPast) t.step
      (t.append more).step := by
  have hround {t : Tokenizer} (h : t.IsAhead) (hended : t.ended = false) :
      Carries (append more) (fun u => u.IsAhead ∨ u.IsJustPast) t.round (t.append more).round :=
    carries_round more (h.resolve_left (by simp [hended])) hended
  cases hqueue : t.queue with
  | nil =>
    simp only [step, queue_append, hqueue, ended_append]
    refine carries_ite (fun _ => carries_refuse _ _) fun hended => ?_
    refine carries_bind (hround h (by simpa using hended)) fun u _ hu => carries_ok rfl hu
  | cons first rest =>
    simp only [step, queue_append, hqueue]
    refine carries_bind (carries_dropStale more t) fun t₁ ht₁ h₁ => ?_
    have hahead : t₁.IsAhead := by
      rw [eq_of_dropStale ht₁]
      exact h
    have hwaiting : (t₁.append more).isWaiting = t₁.isWaiting := rfl
    simp only [hwaiting, ended_append]
    refine carries_ite (fun hwaits => ?_) fun _ => carries_ok rfl (.inl hahead)
    simp only [Bool.and_eq_true, Bool.not_eq_true'] at hwaits
    exact carries_bind (hround hahead hwaits.2) fun u _ hu => carries_ok rfl hu

/-- The two streams are the same, or they are up to the marker at the end of the document. -/
theorem stream_append (h : t.IsAhead) (given : List Delivered) :
    (∀ more, (t.append more).stream given = t.stream given) ∨
      ∃ tokens u, Runs t tokens u ∧ (∀ more, Runs (t.append more) tokens (u.append more)) ∧
        u.IsJustPast := by
  fun_induction stream t given with
  | case1 t given error hstep =>
    refine .inl fun more => ?_
    rw [stream_of_step_error (eq_error_of_carries (carries_step more h) hstep)]
  | case2 t given found t' hstep ih =>
    have hnext (more : List Char) : (t.append more).step = .ok (found, t'.append more) ∧
        (t'.IsAhead ∨ t'.IsJustPast) :=
      eq_ok_of_carries (carries_step more h) hstep
    rcases (hnext []).2 with hahead | hpast
    · rcases ih hahead with hsame | ⟨tokens, u, hruns, hruns', hu⟩
      · refine .inl fun more => ?_
        rw [stream_of_step (hnext more).1]
        exact hsame more
      · exact .inr ⟨_, u, runs_append (runs_of_step hstep) hruns,
          fun more => runs_append (runs_of_step (hnext more).1) (hruns' more), hu⟩
    · exact .inr ⟨_, t', runs_of_step hstep, fun more => runs_of_step (hnext more).1, hpast⟩

/-! ### Behind the marker -/

/-- No token can be handed out without reading on. -/
def ReadsOn (t : Tokenizer) : Prop := t.queue = [] ∨ t.isWaiting = true

/-- A token that no candidate begins with is handed out. -/
theorem step_of_not_isWaiting {first : Placed Token} {rest : List (Placed Token)}
    (hqueue : t.queue = first :: rest) (hcandidate : t.candidate = none)
    (hwaiting : t.isWaiting = false) :
    t.step = .ok (some { toPlaced := first, reached := t.mark }, t.withoutFirst) := by
  have hstale : t.dropStale = .ok t := by rw [dropStale, hcandidate]
  simp [step, hqueue, hstale, bind, Except.bind, hwaiting]

/-- Behind the marker the same tokens are handed out until the reader reads on. Outside flow
    collections these are all that there are. -/
theorem exists_runs_of_isPast (h : t.IsPast) :
    ∃ tokens u, Runs t tokens u ∧ (∀ more, Runs (t.append more) tokens (u.append more)) ∧
      u.IsPast ∧ u.ReadsOn ∧ u.outer = t.outer ∧
      (t.inFlow = false → u.queue = [] ∧ tokens.map Delivered.toPlaced = t.queue) := by
  induction hqueue : t.queue generalizing t with
  | nil =>
    exact ⟨[], t, .none t, fun _ => .none _, h, .inl hqueue, rfl, fun _ => ⟨hqueue, rfl⟩⟩
  | cons first rest ih =>
    cases hwaiting : t.isWaiting with
    | true =>
      refine ⟨[], t, .none t, fun _ => .none _, h, .inr hwaiting, rfl, fun hflow => ?_⟩
      have houter : t.outer = [] := by simpa [inFlow] using hflow
      simp [isWaiting, h.candidate_eq, houter] at hwaiting
    | false =>
      have hstep := step_of_not_isWaiting hqueue h.candidate_eq hwaiting
      have hstep' (more : List Char) : (t.append more).step =
          .ok (some { toPlaced := first, reached := t.mark }, t.withoutFirst.append more) :=
        step_of_not_isWaiting (t := t.append more) hqueue h.candidate_eq hwaiting
      have hrest : t.withoutFirst.queue = rest := by simp [withoutFirst, hqueue]
      have hpast : t.withoutFirst.IsPast :=
        ⟨h.rest_eq, h.candidate_eq, h.levels_eq, h.ended_eq⟩
      rcases ih hpast hrest with ⟨tokens, u, hruns, hruns', hu, hreads, houter, hall⟩
      refine ⟨_, u, runs_append (runs_of_step hstep) hruns,
        fun more => runs_append (runs_of_step (hstep' more)) (hruns' more), hu, hreads, houter,
        fun hflow => ?_⟩
      rcases hall hflow with ⟨hempty, htokens⟩
      exact ⟨hempty, by simp [htokens]⟩

theorem closeTo_of_levels (h : t.levels = []) (column : Nat) : t.closeTo column = t := by
  rcases t with ⟨⟩
  simp only at h
  subst h
  simp [closeTo, Layout.closeTo, Layout.closedTo]

/-- At the end of the text nothing but the end is put into the queue if nothing is open. -/
theorem exists_token_of_end (hpeek : t.cursor.peek = endMark) (hcandidate : t.candidate = none)
    (houter : t.outer = []) (hlevels : t.levels = []) :
    ∃ u mark, t.token = .ok u ∧ u.queue = t.queue ++ [{ item := .streamEnd, mark }] ∧
      u.candidate = none ∧ u.ended = true := by
  have hupcoming : t.upcoming = .streamEnd := isEnd_peek_iff.mp (by rw [hpeek]; decide)
  have hclosed : t.atLast.closeTo 0 = t.atLast := closeTo_of_levels (t := t.atLast) hlevels 0
  refine ⟨{ (t.atLast.allowKey false).push .streamEnd t.atLast.mark with ended := true },
    t.atLast.mark, ?_, rfl, rfl, rfl⟩
  rw [token, hupcoming]
  simp [streamEnd_eq, hcandidate, houter, hclosed]

/-- If there is no candidate to look at, a round goes on to the token. -/
theorem round_of_separate (h : t.separate = .ok u) (hcandidate : u.candidate = none) :
    t.round = (u.closeTo (u.mark.column + 1)).token := by
  have hstale : u.dropStale = .ok u := by rw [dropStale, hcandidate]
  simp [round, h, hstale, bind, Except.bind]

/-- The reader behind a line break, which lets a key begin outside flow collections. -/
def onNextLine (t : Tokenizer) : Tokenizer :=
  { t with cursor := t.cursor.lineBreak, keyAllowed := t.keyAllowed || !t.inFlow }

/-- A line break is passed to a token right behind it. -/
theorem separate_of_lineBreak (hpeek : t.cursor.peek = '\n')
    (hblank : isBlank t.cursor.lineBreak.peek = false)
    (hbreak : isBreak t.cursor.lineBreak.peek = false) (hcomment : t.cursor.lineBreak.peek ≠ '#') :
    t.separate = .ok t.onNextLine := by
  have hseparation : t.cursor.separation t.margin false = .ok (t.cursor.lineBreak, true) := by
    rw [separation, hpeek, if_neg (by decide), if_pos (by decide), separation, hblank, hbreak,
      if_neg (by decide), if_neg (by decide), if_neg hcomment]
  rw [separate, hseparation]
  rfl

/-- Behind the last line break there is nothing but the end. -/
theorem round_of_isPast (h : t.IsPast) (houter : t.outer = []) :
    ∃ u mark, t.round = .ok u ∧ u.queue = t.queue ++ [{ item := .streamEnd, mark }] ∧
      u.candidate = none ∧ u.ended = true := by
  have hlevels : t.levels = [] := h.levels_eq (by simp [inFlow, houter])
  have hbehind : t.cursor.lineBreak.rest = [] := by
    unfold Cursor.lineBreak
    simp [h.rest_eq, nextLine]
  have hpeek : t.cursor.peek = '\n' := by simp [peek, h.rest_eq]
  have hend : t.cursor.lineBreak.peek = endMark := by simp [peek, hbehind]
  have hseparate := separate_of_lineBreak hpeek (by rw [hend]; decide) (by rw [hend]; decide)
    (by rw [hend]; decide)
  rw [round_of_separate hseparate h.candidate_eq, closeTo_of_levels (t := t.onNextLine) hlevels]
  exact exists_token_of_end hend h.candidate_eq houter hlevels

/-- If the text does not go on, nothing but the end comes behind the marker outside flow
    collections. -/
theorem stream_of_isPast (h : t.IsPast) (hqueue : t.queue = []) (houter : t.outer = [])
    (given : List Delivered) :
    ∃ token error, token.item = .streamEnd ∧
      t.stream given = { tokens := given.reverse ++ [token], error } := by
  rcases round_of_isPast h houter with ⟨u, mark, hround, hu, hcandidate, hended⟩
  rw [hqueue, List.nil_append] at hu
  have hstep : t.step = .ok (none, u) := by
    simp [step, hqueue, h.ended_eq, hround, bind, Except.bind]
  have hlast := step_of_ended_of_cons hended hcandidate hu
  have herror : u.withoutFirst.step = .error { fault := .unexpectedEnd, mark := u.mark } := by
    simp only [step, withoutFirst, hu, hended, List.tail_cons, if_true]
    rfl
  refine ⟨{ item := .streamEnd, mark, reached := u.mark },
    { fault := .unexpectedEnd, mark := u.mark }, rfl, ?_⟩
  rw [stream_of_step hstep, stream_of_step hlast, stream_of_step_error herror]
  simp

/-- At a quote that nothing closes no token is read. -/
theorem exists_error_of_token (hrest : t.cursor.rest = ['"']) : ∃ e, t.token = .error e := by
  have hpeek : t.cursor.peek = '"' := by simp [peek, hrest]
  have hupcoming : t.upcoming = if t.mark.column + 1 < t.margin then
      .refused .wrongIndentation else .quotedScalar .double .doubleQuoted := by
    simp [upcoming, atSign, hpeek, indicated, isEnd, endMark]
  have hend : (t.cursor.advance 1).peek = endMark := by simp [peek, advance, blanks, hrest]
  have hmark : (t.cursor.advance 1).atDocumentMark = false := by
    simp [atDocumentMark, atSign, hend, endMark]
  have hread : Quoted.readQuoted .double t.margin t.mark [] .none (t.cursor.advance 1) =
      t.mark.refuse .endInQuoted := by
    rw [Quoted.readQuoted, hend, hmark, if_neg (by decide), if_neg (by decide),
      if_neg (by decide), if_pos (by decide)]
  split at hupcoming
  · exact ⟨_, by rw [token, hupcoming]; rfl⟩
  · exact ⟨_, by simp only [token, hupcoming, quotedScalar, hread]; rfl⟩

/-- A quote behind the marker that nothing closes is refused when the reader reads on. -/
theorem exists_error_of_quote (h : t.IsPast) (hreads : t.ReadsOn) :
    ∃ e, (t.append ['"']).step = .error e := by
  have hround : ∃ e, (t.append ['"']).round = .error e := by
    have hbehind : (t.append ['"']).cursor.lineBreak.rest = ['"'] := by
      unfold Cursor.lineBreak
      simp [h.rest_eq, nextLine]
    have hpeek : (t.append ['"']).cursor.peek = '\n' := by simp [peek, h.rest_eq]
    have hquote : (t.append ['"']).cursor.lineBreak.peek = '"' := by
      rw [peek, hbehind]
      rfl
    have hseparate := separate_of_lineBreak hpeek (by rw [hquote]; decide)
      (by rw [hquote]; decide) (by rw [hquote]; decide)
    rw [round_of_separate hseparate h.candidate_eq]
    exact exists_error_of_token (by rw [cursor_closeTo]; exact hbehind)
  rcases hround with ⟨e, he⟩
  refine ⟨e, ?_⟩
  cases hqueue : t.queue with
  | nil => simp [step, hqueue, h.ended_eq, he, bind, Except.bind]
  | cons first rest =>
    have hwaiting : (t.append ['"']).isWaiting = true := hreads.resolve_left (by simp [hqueue])
    have hstale : (t.append ['"']).dropStale = .ok (t.append ['"']) := by
      rw [dropStale, candidate_append, h.candidate_eq]
    simp [step, hqueue, hstale, hwaiting, h.ended_eq, he, bind, Except.bind]

/-- A stream begins with what has been handed out. -/
theorem exists_ofText_of_runs {text : List Char} {tokens : List Delivered}
    (hruns : Runs (ofText text) tokens t) :
    ∃ behind : TokenStream, TokenStream.ofText text =
      { tokens := tokens ++ behind.tokens, error := behind.error } := by
  refine ⟨t.stream [], ?_⟩
  rw [TokenStream.ofText, stream_of_runs hruns, stream_eq_append]
  simp

/-- A stream that ends where a step is refused is what has been handed out. -/
theorem ofText_of_runs_of_error {text : List Char} {tokens : List Delivered} {error : SyntaxError}
    (hruns : Runs (ofText text) tokens t) (herror : t.step = .error error) :
    TokenStream.ofText text = { tokens, error } := by
  rw [TokenStream.ofText, stream_of_runs hruns, stream_of_step_error herror]
  simp

end Tokenizer

/-- The stream of a text that goes on behind the line that ends a document is the same, or the two
    streams are the same up to where the reader reads on behind the marker. Outside flow
    collections these tokens end with the marker, and nothing but the end comes behind them if the
    text does not go on. -/
theorem TokenStream.exists_append {text : List Char} (hend : endLine <:+ text) :
    (∀ more, ofText (text ++ more) = ofText text) ∨ ∃ tokens t,
      Tokenizer.Runs (Tokenizer.ofText text) (streamStart :: tokens) t ∧
      (∀ more, Tokenizer.Runs (Tokenizer.ofText (text ++ more)) (streamStart :: tokens)
        (t.append more)) ∧
      t.IsPast ∧ t.ReadsOn ∧
      (t.inFlow = false →
        (∃ front last, tokens = front ++ [last] ∧ last.item = .documentEnd) ∧
          ∃ token error, token.item = .streamEnd ∧
            ofText text = { tokens := streamStart :: (tokens ++ [token]), error }) := by
  have hahead : (Tokenizer.ofText text).withoutFirst.IsAhead := .inr (.inl hend)
  have hstart := Tokenizer.step_ofText text
  have hstart' (more : List Char) : (Tokenizer.ofText (text ++ more)).step =
      .ok (some streamStart, (Tokenizer.ofText text).withoutFirst.append more) := rfl
  rcases Tokenizer.stream_append hahead [streamStart] with
    hsame | ⟨front, u, hfront, hfront', hu⟩
  · refine .inl fun more => ?_
    rw [ofText, ofText, Tokenizer.stream_of_step hstart, Tokenizer.stream_of_step (hstart' more)]
    exact hsame more
  · rcases Tokenizer.exists_runs_of_isPast hu.toIsPast with
      ⟨back, t, hback, hback', ht, hreads, houter, hall⟩
    have hruns : Tokenizer.Runs (Tokenizer.ofText text) (streamStart :: (front ++ back)) t :=
      Tokenizer.runs_append (Tokenizer.runs_of_step hstart) (Tokenizer.runs_append hfront hback)
    refine .inr ⟨front ++ back, t, hruns, fun more => ?_, ht, hreads, fun hflow => ?_⟩
    · exact Tokenizer.runs_append (Tokenizer.runs_of_step (hstart' more))
        (Tokenizer.runs_append (hfront' more) (hback' more))
    · have hdelivered : t.queue = [] ∧ back.map Delivered.toPlaced = u.queue :=
        hall (by rwa [Tokenizer.inFlow, ← houter])
      refine ⟨?_, ?_⟩
      · -- The last token that was handed out is the last one of the queue behind the marker.
        rcases hu.exists_last with ⟨inner, last, hqueue, hlast⟩
        rw [← hdelivered.2, List.map_eq_append_iff] at hqueue
        rcases hqueue with ⟨back₁, back₂, rfl, -, hback₂⟩
        rcases List.map_eq_singleton_iff.mp hback₂ with ⟨token, rfl, rfl⟩
        exact ⟨front ++ back₁, token, (List.append_assoc ..).symm, hlast⟩
      · have houter : t.outer = [] := by simpa [Tokenizer.inFlow] using hflow
        rcases Tokenizer.stream_of_isPast ht hdelivered.1 houter
          (streamStart :: (front ++ back)).reverse with ⟨token, error, htoken, hstream⟩
        refine ⟨token, error, htoken, ?_⟩
        rw [ofText, Tokenizer.stream_of_runs hruns, List.append_nil, hstream]
        simp

end Yaml

end YamlLocator
