import YamlLocator.Yaml.Token.Progress

/-!
# Streams of Tokens

All tokens of a text, in the order in which the grammar sees them, and the error
that ends them.

Every stream ends in an error. If the text has none, the tokens end with
`Token.streamEnd`, and the error is only met by asking for more. Otherwise the tokens
are those that can be handed out before the error is found. A reader that stops
earlier never sees it.

A token leaves the queue only when no candidate remains that begins with it. To find
out, the tokenizer may have to read on, so that it is further in the text than the
token. How far it has come is recorded with every token, since that is the mark of
the end of a pair in a flow sequence.

## Main definitions

* `Delivered`: A token, with the place the tokenizer had come to.
* `TokenStream`: The tokens of a text and the error behind them.
* `Tokenizer.isWaiting`: Whether something may still be put in front of the queue.
* `Tokenizer.step`: A round, or one token handed out.
* `TokenStream.ofText`: The stream of a text.

## Theorems

* `Tokenizer.step_decreases`: Steps come to an end.
-/

namespace YamlLocator

namespace Yaml

/-- A token that was handed out, with the place that the tokenizer had come to. -/
structure Delivered extends Placed Token where
  reached : Mark
deriving DecidableEq, Repr

/-- The tokens of a text and the error behind them. -/
structure TokenStream where
  tokens : List Delivered
  error : SyntaxError
deriving DecidableEq, Repr

namespace Tokenizer

/-- Whether the first token of the queue may turn out to begin a key. -/
def isWaiting (t : Tokenizer) : Bool :=
  (t.candidate :: t.outer).any fun candidate => candidate.any (·.number = t.delivered)

/-- The tokenizer without the first token of the queue. -/
def withoutFirst (t : Tokenizer) : Tokenizer :=
  { t with queue := t.queue.tail, delivered := t.delivered + 1 }

/-- One step: a round, or the first token of the queue handed out. -/
def step (t : Tokenizer) : Except SyntaxError (Option Delivered × Tokenizer) :=
  match t.queue with
  | [] =>
    if t.ended then
      t.mark.refuse .unexpectedEnd
    else do
      return (none, ← t.round)
  | first :: _ => do
    let t₁ ← t.dropStale
    if t₁.isWaiting && !t₁.ended then
      return (none, ← t₁.round)
    else
      return (some { toPlaced := first, reached := t₁.mark }, t₁.withoutFirst)

/-- Looking at the candidate changes neither the queue nor the work that is left. -/
theorem measure_dropStale {t t' : Tokenizer} (h : t.dropStale = .ok t') :
    t'.queue = t.queue ∧ t'.work = t.work := by
  unfold dropStale at h
  split at h
  · simp only [Except.ok.injEq] at h
    simp [h]
  · split at h
    · split at h
      · simp at h
      · simp only [Except.ok.injEq] at h
        rw [← h]
        exact ⟨rfl, rfl⟩
    · simp only [Except.ok.injEq] at h
      simp [h]

/-- A step leaves less work, or the same work and a shorter queue. -/
theorem step_decreases {t : Tokenizer} {r : Option Delivered × Tokenizer} (h : t.step = .ok r) :
    r.2.work < t.work ∨ (r.2.work = t.work ∧ r.2.queue.length < t.queue.length) := by
  unfold step at h
  split at h
  · split at h
    · simp at h
    · rename_i hended
      simp only [bind_eq_ok, pure_eq_ok, Except.ok.injEq] at h
      rcases h with ⟨t', hround, rfl⟩
      exact .inl (work_round_lt (by simpa using hended) hround)
  · rename_i first rest hqueue
    simp only [bind_eq_ok] at h
    rcases h with ⟨t₁, hstale, h⟩
    rcases measure_dropStale hstale with ⟨hq, hwork⟩
    split at h
    · rename_i hwaiting
      simp only [Bool.and_eq_true, Bool.not_eq_true'] at hwaiting
      simp only [bind_eq_ok, pure_eq_ok, Except.ok.injEq] at h
      rcases h with ⟨t', hround, rfl⟩
      left
      rw [← hwork]
      exact work_round_lt hwaiting.2 hround
    · -- A token handed out shortens the queue and leaves the rest alone.
      simp only [pure_eq_ok, Except.ok.injEq] at h
      rw [← h]
      right
      refine ⟨hwork, ?_⟩
      simp [withoutFirst, hq, hqueue]

/-- The stream of the tokens still to come, behind those that were handed out already,
    newest first. -/
def stream (t : Tokenizer) (tokens : List Delivered) : TokenStream :=
  match _step : t.step with
  | .error error => { tokens := tokens.reverse, error }
  | .ok (found, t') => t'.stream (found.toList ++ tokens)
termination_by (t.work, t.queue.length)
decreasing_by
  rcases step_decreases _step with h | ⟨h, hlt⟩
  · exact Prod.Lex.left _ _ h
  · rw [← h]
    exact Prod.Lex.right _ hlt

end Tokenizer

/-- The stream of a text. -/
def TokenStream.ofText (text : List Char) : TokenStream := (Tokenizer.ofText text).stream []

end Yaml

end YamlLocator
