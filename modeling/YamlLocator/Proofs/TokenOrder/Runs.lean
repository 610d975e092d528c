import YamlLocator.Proofs.TokenOrder.Reading

/-!
# Every Run Reads a Sound Row of Tokens

The ledger is kept by every step, and so by every run: whatever has been read of a text, the
tokens handed out and those in the queue form a sound row.

With a token its place is handed out that the tokenizer has come to. That place is never in front
of anything that has been read, so it is behind all tokens handed out so far.

## Main definitions

* `IsRegular`: What is kept up from step to step.
* `IsTimely`: Every token was handed out when the reader had passed the earlier ones.

## Theorems

* `isRegular_round`: A round keeps it up.
* `isBehind_of_runs`: What holds behind any steps.
* `exists_sound_ofText`: The tokens of a text are the beginning of a sound row.
-/

namespace YamlLocator

namespace Yaml

namespace Tokenizer

variable {done : List (Placed Token)} {t t' : Tokenizer}

/-! ### Rounds -/

/-- Behind a look at the candidate it is not stale, or it stands inside a flow collection. -/
theorem isStale_of_dropStale {k : Candidate} (h : t.dropStale = .ok t')
    (hk : t'.candidate = some k) (hflow : t'.inFlow = false) : k.isStale t'.mark = false := by
  unfold dropStale at h
  split at h
  · rename_i hnone
    simp only [Except.ok.injEq] at h
    simp [← h, hnone] at hk
  · rename_i k' hk'
    split at h
    · split at h
      · simp at h
      · simp only [Except.ok.injEq] at h
        simp [← h] at hk
    · rename_i hfresh
      simp only [Except.ok.injEq] at h
      rw [← h] at hk hflow ⊢
      rw [hk', Option.some.injEq] at hk
      simpa [hflow, hk] using hfresh

/-- What is kept up from step to step. -/
structure IsRegular (done : List (Placed Token)) (t : Tokenizer) : Prop where
  ledger : Ledger done 0 t
  aligned : t.IsAligned
  orderly : t.IsOrderly

theorem isRegular_dropStale (h : IsRegular done t) (hread : t.dropStale = .ok t') :
    IsRegular done t' where
  ledger := ledger_dropStale h.ledger hread
  aligned := isAligned_of_keeps (keeps_dropStale hread) h.aligned
  orderly := isOrderly_dropStale hread h.orderly

theorem isRegular_round (h : IsRegular done t) (hended : t.ended = false)
    (hread : t.round = .ok t') : IsRegular done t' := by
  have horderly := isOrderly_round hread hended h.orderly
  simp only [round, bind_eq_ok] at hread
  rcases hread with ⟨t₁, h₁, t₂, h₂, hread⟩
  have hledger := ledger_dropStale (ledger_separate h.ledger h₁) h₂
  have haligned : t₂.IsAligned :=
    isAligned_of_keeps ((keeps_separate h₁).trans (keeps_dropStale h₂)) h.aligned
  have hclosed : Ledger done 0 (t₂.closeTo (t₂.mark.column + 1)) := by
    cases hk : t₂.candidate with
    | none => exact ledger_closeTo hledger hk _
    | some k =>
      -- Nothing ends behind a candidate, be it inside flow collections or outside of them.
      have hqueue : (t₂.closeTo (t₂.mark.column + 1)).queue = t₂.queue := by
        cases hflow : t₂.inFlow with
        | true => rw [closeTo, if_pos hflow]
        | false =>
          exact queue_closeTo_of_candidate haligned hk (isStale_of_dropStale h₂ hk hflow)
      have hsame : ∃ levels queue, t₂.closeTo (t₂.mark.column + 1) =
          { t₂ with levels, queue } := by
        unfold closeTo
        split
        · exact ⟨t₂.levels, t₂.queue, rfl⟩
        · exact ⟨_, _, rfl⟩
      rcases hsame with ⟨levels, queue, hsame⟩
      rw [hsame] at hqueue ⊢
      exact ledger_of_same hledger hqueue rfl rfl rfl rfl (Nat.le_refl _) fun _ => id
  have hroom : (t₂.closeTo (t₂.mark.column + 1)).HasRoom :=
    hasRoom_of_extends ((extends_separate h₁).trans
      ((extends_dropStale h₂).trans (extends_closeTo t₂ _))) h.orderly.room
  refine ⟨ledger_token hroom hclosed hread, ?_, horderly⟩
  refine isAligned_token hread (isAligned_of_keeps (keeps_closeTo _ _) haligned) fun hflow => ?_
  have hmark : (t₂.closeTo (t₂.mark.column + 1)).mark = t₂.mark := by
    rw [mark, cursor_closeTo, mark]
  have hflow : t₂.inFlow = false := by rwa [inFlow, outer_closeTo] at hflow
  rw [hmark]
  exact margin_closeTo hflow _

/-- A token that is handed out moves from one part of the row to the other. -/
theorem ledger_withoutFirst (h : Ledger done 0 t) {first : Placed Token}
    {rest : List (Placed Token)} (hqueue : t.queue = first :: rest) :
    Ledger (done ++ [first]) 0 t.withoutFirst := by
  have hhistory : done ++ [first] ++ t.withoutFirst.queue = done ++ t.queue := by
    simp [withoutFirst, hqueue]
  refine ⟨by simp [withoutFirst, h.delivered], ?_, ?_, ?_, h.order, ?_⟩
  · rw [hhistory]
    exact h.sound
  · rw [hhistory]
    exact h.bounded
  · rw [hhistory]
    exact h.candidates
  · rw [hhistory]
    exact h.last

/-- Every token was handed out when the reader had passed it and the tokens before it. -/
def IsTimely (tokens : List Delivered) : Prop :=
  tokens.Pairwise (fun first second => first.mark.index ≤ second.reached.index) ∧
    ∀ token ∈ tokens, token.mark.index ≤ token.reached.index

/-- The tokens handed out and the state behind them. -/
structure IsBehind (given : List Delivered) (t : Tokenizer) : Prop where
  regular : IsRegular (given.map (·.toPlaced)) t
  timely : IsTimely given

theorem isBehind_step {given : List Delivered} {r : Option Delivered × Tokenizer}
    (h : IsBehind given t) (hstep : t.step = .ok r) : IsBehind (given ++ r.1.toList) r.2 := by
  unfold step at hstep
  split at hstep
  · split at hstep
    · simp at hstep
    · rename_i hended
      simp only [bind_eq_ok, pure_eq_ok, Except.ok.injEq] at hstep
      rcases hstep with ⟨t₁, hround, rfl⟩
      simpa using ⟨isRegular_round h.regular (by simpa using hended) hround, h.timely⟩
  · rename_i first rest hqueue
    simp only [bind_eq_ok] at hstep
    rcases hstep with ⟨t₁, hstale, hstep⟩
    have hregular := isRegular_dropStale h.regular hstale
    split at hstep
    · rename_i hwaiting
      simp only [Bool.and_eq_true, Bool.not_eq_true'] at hwaiting
      simp only [bind_eq_ok, pure_eq_ok, Except.ok.injEq] at hstep
      rcases hstep with ⟨t₂, hround, rfl⟩
      simpa using ⟨isRegular_round hregular hwaiting.2 hround, h.timely⟩
    · -- The reader has passed everything in the ledger.
      rename_i hwaiting
      simp only [pure_eq_ok, Except.ok.injEq] at hstep
      have hfirst : t₁.queue = first :: rest := by rw [(measure_dropStale hstale).1, hqueue]
      have hbounded := hregular.ledger.bounded
      rw [← hstep]
      refine ⟨⟨?_, ?_, ?_⟩, ?_, fun token hmem => ?_⟩
      · simpa using ledger_withoutFirst hregular.ledger hfirst
      · exact isAligned_of_keeps (t := t₁) (keeps_of_same (.refl _) rfl rfl rfl) hregular.aligned
      · exact isOrderly_withoutFirst (by simp [hfirst]) (by simpa using hwaiting) hregular.orderly
      · refine List.pairwise_append.mpr ⟨h.timely.1, by simp, fun token hmem other hmem' => ?_⟩
        simp only [Option.toList_some, List.mem_singleton] at hmem'
        rw [hmem']
        exact hbounded token.toPlaced (List.mem_append_left _ (List.mem_map_of_mem hmem))
      · simp only [Option.toList_some, List.mem_append, List.mem_singleton] at hmem
        rcases hmem with hmem | rfl
        · exact h.timely.2 token hmem
        · exact hbounded first (List.mem_append_right _ (by simp [hfirst]))

theorem isBehind_of_runs {given tokens : List Delivered} (h : IsBehind given t)
    (hruns : Runs t tokens t') : IsBehind (given ++ tokens) t' := by
  induction hruns generalizing given with
  | none t => simpa using h
  | more t t₁ t₂ found tokens hstep _ ih =>
    rw [← List.append_assoc]
    exact ih (isBehind_step h hstep)

theorem isBehind_ofText (text : List Char) : IsBehind [] (ofText text) where
  regular := by
    refine ⟨⟨rfl, isSound_singleton _ _, ?_, fun i k hk => ?_, ?_, ?_⟩, ⟨?_, ?_, ?_⟩,
      isOrderly_ofText text⟩
    · simp [ofText, mark, Cursor.ofText]
    · cases i <;> simp [ofText] at hk
    · simp [ofText]
    · simp [ofText, inFlow]
    · exact List.Pairwise.nil
    · simp [ground, ofText]
    · simp [ground, ofText]
  timely := ⟨.nil, by simp⟩

end Tokenizer

/-- The tokens of a text are the beginning of a sound row, and were handed out in time. -/
theorem TokenStream.exists_sound_ofText (text : List Char) :
    ∃ beyond, IsSound false ((ofText text).tokens.map (·.toPlaced) ++ beyond) ∧
      Tokenizer.IsTimely (ofText text).tokens := by
  rcases Tokenizer.exists_runs_of_stream (.ofText text) [] with ⟨tokens, t, hruns, htokens⟩
  have h := Tokenizer.isBehind_of_runs (Tokenizer.isBehind_ofText text) hruns
  rw [List.reverse_nil, List.nil_append] at htokens
  rw [List.nil_append] at h
  rw [ofText, htokens]
  exact ⟨t.queue, h.regular.ledger.sound, h.timely⟩

end Yaml

end YamlLocator
