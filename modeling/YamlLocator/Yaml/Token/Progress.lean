import YamlLocator.Yaml.Token.Tokenizer

/-!
# Reading Tokens Comes to an End

A round of the tokenizer takes at least one character from the text, unless it reads
the end of the text, after which there are no more rounds. That is what `work`
counts, and it is why the rounds come to an end.

Most of what a round does leaves the cursor alone: it works on the queue, the
candidates and the levels. The lemmas on `cursor` say so, and each kind of token
then rests on the lemma about the text that it reads.

## Main definitions

* `work`: How many rounds there can still be.

## Theorems

* `left_token_lt`: Reading a token takes something away.
* `work_round_lt`: A round leaves less work.
-/

namespace YamlLocator

namespace Yaml

namespace Tokenizer

/-- How many rounds there can still be: one for each character that is left, and one
    for the end of the text. -/
def work (t : Tokenizer) : Nat := if t.ended then 0 else t.cursor.left + 1

/-! ### What leaves the cursor alone -/

@[simp]
theorem cursor_push (t : Tokenizer) (token : Token) (mark : Mark) :
    (t.push token mark).cursor = t.cursor := rfl

@[simp]
theorem cursor_pushBefore (t : Tokenizer) (number : Nat) (token : Token) (mark : Mark) :
    (t.pushBefore number token mark).cursor = t.cursor := rfl

@[simp]
theorem cursor_saveCandidate (t : Tokenizer) : t.saveCandidate.cursor = t.cursor := by
  unfold saveCandidate
  split <;> rfl

@[simp]
theorem cursor_allowKey (t : Tokenizer) (allowed : Bool) :
    (t.allowKey allowed).cursor = t.cursor := rfl

@[simp]
theorem cursor_closeTo (t : Tokenizer) (column : Nat) : (t.closeTo column).cursor = t.cursor := by
  unfold closeTo
  split <;> rfl

@[simp]
theorem cursor_indent (t : Tokenizer) (column : Nat) (number : Option Nat) (token : Token)
    (mark : Mark) : (t.indent column number token mark).cursor = t.cursor := by
  simp only [indent]
  split
  · rfl
  · split
    · split <;> rfl
    · rfl

@[simp]
theorem cursor_addProvisional (t : Tokenizer) : t.addProvisional.cursor = t.cursor := by
  unfold addProvisional
  split <;> rfl

@[simp]
theorem cursor_dropProvisional (t : Tokenizer) : t.dropProvisional.cursor = t.cursor := rfl

@[simp]
theorem cursor_moveTo (t : Tokenizer) (cursor : Cursor) : (t.moveTo cursor).cursor = cursor := rfl

@[simp]
theorem cursor_leaveFlow (t : Tokenizer) : t.leaveFlow.cursor = t.cursor := by
  unfold leaveFlow
  split <;> rfl

@[simp]
theorem cursor_endPair (t : Tokenizer) : t.endPair.cursor = t.cursor := by
  unfold endPair
  split <;> rfl

theorem cursor_dropStale {t t' : Tokenizer} (h : t.dropStale = .ok t') : t'.cursor = t.cursor := by
  unfold dropStale at h
  split at h
  · simp only [Except.ok.injEq] at h
    rw [h]
  · split at h
    · split at h
      · simp [Mark.refuse] at h
      · simp only [Except.ok.injEq] at h
        rw [← h]
    · simp only [Except.ok.injEq] at h
      rw [h]

theorem cursor_dropCandidate {t t' : Tokenizer} (h : t.dropCandidate = .ok t') :
    t'.cursor = t.cursor := by
  unfold dropCandidate at h
  split at h
  · simp [Mark.refuse] at h
  · simp only [Except.ok.injEq] at h
    rw [← h]

theorem cursor_endDocument {t t' : Tokenizer} (h : t.endDocument = .ok t') :
    t'.cursor = t.cursor := by
  simp only [endDocument, bind_eq_ok, pure_eq_ok, Except.ok.injEq] at h
  rcases h with ⟨t₁, h₁, rfl⟩
  simp [cursor_dropCandidate h₁]

/-! ### What moves the cursor -/

theorem left_separate_le {t t' : Tokenizer} (h : t.separate = .ok t') :
    t'.cursor.left ≤ t.cursor.left := by
  simp only [separate, bind_eq_ok, pure_eq_ok, Except.ok.injEq] at h
  rcases h with ⟨⟨c, broken⟩, h₁, rfl⟩
  exact Cursor.left_separation_le h₁

theorem left_passSign_lt {t t' : Tokenizer} (hpos : 0 < t.cursor.left) (h : t.passSign = .ok t') :
    t'.cursor.left < t.cursor.left := by
  simp only [passSign, bind_eq_ok, pure_eq_ok, Except.ok.injEq] at h
  rcases h with ⟨c, h₁, rfl⟩
  have := Cursor.left_lineRest_le h₁
  simp only [Cursor.left_advance, cursor_moveTo] at this ⊢
  omega

theorem ended_streamEnd {t t' : Tokenizer} (h : t.streamEnd = .ok t') : t'.ended = true := by
  simp only [streamEnd] at h
  split at h
  · simp at h
  · simp only [bind_eq_ok, pure_eq_ok, Except.ok.injEq] at h
    rcases h with ⟨t₁, h₁, rfl⟩
    rfl

theorem left_directive_lt {t t' : Tokenizer} (hpos : 0 < t.cursor.left)
    (h : t.directive = .ok t') : t'.cursor.left < t.cursor.left := by
  simp only [directive, bind_eq_ok, pure_eq_ok, Except.ok.injEq] at h
  rcases h with ⟨t₁, h₁, ⟨d, c⟩, h₂, rfl⟩
  rw [cursor_endDocument h₁] at h₂
  exact Directive.left_readDirective_lt hpos h₂

theorem left_documentMark_lt {t t' : Tokenizer} {token : Token} (hpos : 0 < t.cursor.left)
    (h : t.documentMark token = .ok t') : t'.cursor.left < t.cursor.left := by
  simp only [documentMark, bind_eq_ok, pure_eq_ok, Except.ok.injEq] at h
  rcases h with ⟨t₁, h₁, rfl⟩
  simp only [cursor_push, cursor_moveTo, Cursor.left_advance, cursor_endDocument h₁]
  omega

theorem left_documentEnd_lt {t t' : Tokenizer} (hpos : 0 < t.cursor.left)
    (h : t.documentEnd = .ok t') : t'.cursor.left < t.cursor.left := by
  simp only [documentEnd, bind_eq_ok] at h
  rcases h with ⟨t₁, h₁, c, h₂, h⟩
  have hlt := left_documentMark_lt hpos h₁
  have hle := Cursor.left_lineRest_le h₂
  split at h
  · simp only [pure_eq_ok, Except.ok.injEq] at h
    rw [← h, cursor_moveTo]
    omega
  · simp at h

theorem left_flowStart_lt {t t' : Tokenizer} {token : Token} (hpos : 0 < t.cursor.left)
    (h : t.flowStart token = .ok t') : t'.cursor.left < t.cursor.left := by
  simp only [flowStart] at h
  split at h
  · simp at h
  · simp only [bind_eq_ok, pure_eq_ok, Except.ok.injEq] at h
    rcases h with ⟨t₁, h₁, rfl⟩
    simpa using left_passSign_lt (by simpa using hpos) h₁

theorem left_flowEnd_lt {t t' : Tokenizer} {token : Token} (hpos : 0 < t.cursor.left)
    (h : t.flowEnd token = .ok t') : t'.cursor.left < t.cursor.left := by
  simp only [flowEnd, bind_eq_ok, pure_eq_ok, Except.ok.injEq] at h
  rcases h with ⟨t₁, h₁, t₂, h₂, rfl⟩
  have hcursor := cursor_dropCandidate h₁
  simpa [hcursor] using left_passSign_lt (by simpa [hcursor] using hpos) h₂

theorem left_flowEntry_lt {t t' : Tokenizer} (hpos : 0 < t.cursor.left)
    (h : t.flowEntry = .ok t') : t'.cursor.left < t.cursor.left := by
  simp only [flowEntry, bind_eq_ok, pure_eq_ok, Except.ok.injEq] at h
  rcases h with ⟨t₁, h₁, t₂, h₂, rfl⟩
  have hcursor := cursor_dropCandidate h₁
  simpa [hcursor] using left_passSign_lt (by simpa [hcursor] using hpos) h₂

theorem cursor_blockEntryAt {t t' : Tokenizer} {c : Cursor} (h : t.blockEntryAt c = .ok t') :
    t'.cursor = c := by
  simp only [blockEntryAt, bind_eq_ok, pure_eq_ok, Except.ok.injEq] at h
  rcases h with ⟨t₁, h₁, rfl⟩
  rw [cursor_push, cursor_allowKey, cursor_dropCandidate h₁]
  split <;> simp

theorem left_blockEntry_lt {t t' : Tokenizer} (hpos : 0 < t.cursor.left)
    (h : t.blockEntry = .ok t') : t'.cursor.left < t.cursor.left := by
  unfold blockEntry at h
  split at h
  · simp at h
  · split at h
    · simp at h
    · simp only [bind_eq_ok] at h
      rcases h with ⟨_, _, c, h₁, h⟩
      have hle := Cursor.left_lineRest_le h₁
      rw [Cursor.left_advance] at hle
      split at h
      · simp at h
      · rw [cursor_blockEntryAt h]
        omega

theorem left_explicitKey_lt {t t' : Tokenizer} (hpos : 0 < t.cursor.left)
    (h : t.explicitKey = .ok t') : t'.cursor.left < t.cursor.left := by
  simp only [explicitKey] at h
  split at h
  · simp at h
  · simp only [bind_eq_ok, pure_eq_ok, Except.ok.injEq] at h
    rcases h with ⟨t₁, h₁, c, h₂, rfl⟩
    have hle := Cursor.left_keySeparation_le h₂
    have hcursor := cursor_dropCandidate h₁
    simp only [cursor_allowKey, hcursor, cursor_indent, Cursor.left_advance] at hle
    simp only [cursor_push, cursor_moveTo]
    omega

theorem left_passColon_lt {c c' : Cursor} (hpos : 0 < c.left) (h : passColon c = .ok c') :
    c'.left < c.left := by
  simp only [passColon] at h
  split at h
  · -- Behind a tab, blanks are gone over as well.
    simp only [bind_eq_ok] at h
    rcases h with ⟨c₁, h₁, h⟩
    have hle := Cursor.left_lineRest_le h₁
    simp only [Cursor.left_advance] at hle
    split at h
    · simp at h
    · simp only [pure_eq_ok, Except.ok.injEq] at h
      rw [← h]
      omega
  · simp only [Except.ok.injEq] at h
    rw [← h, Cursor.left_advance]
    omega

theorem cursor_startPair {t t' : Tokenizer} {k : Candidate} {colon : Mark}
    (h : t.startPair k colon = .ok t') : t'.cursor = t.cursor := by
  unfold startPair at h
  split at h
  · split at h
    · simp at h
    · simp only [Except.ok.injEq] at h
      rw [← h, cursor_pushBefore]
  · simp only [Except.ok.injEq] at h
    rw [h]

theorem cursor_valueOf {t t' : Tokenizer} {k : Candidate} {colon : Mark}
    (h : t.valueOf k colon = .ok t') : t'.cursor = t.cursor := by
  simp only [valueOf, bind_eq_ok, pure_eq_ok, Except.ok.injEq] at h
  rcases h with ⟨t₁, h₁, rfl⟩
  simp [cursor_startPair h₁]

@[simp]
theorem cursor_startKeylessPair (t : Tokenizer) : t.startKeylessPair.cursor = t.cursor := by
  unfold startKeylessPair
  split <;> rfl

theorem cursor_valueAlone {t t' : Tokenizer} {colon : Mark} (h : t.valueAlone colon = .ok t') :
    t'.cursor = t.cursor := by
  unfold valueAlone at h
  split at h
  · simp at h
  · simp only [Except.ok.injEq] at h
    rw [← h]
    simp

theorem left_value_lt {t t' : Tokenizer} (hpos : 0 < t.cursor.left) (h : t.value = .ok t') :
    t'.cursor.left < t.cursor.left := by
  simp only [value, bind_eq_ok] at h
  rcases h with ⟨c, h₁, h⟩
  have hlt := left_passColon_lt hpos h₁
  -- With or without a candidate, the colon is all that is read.
  split at h
  · rw [cursor_valueOf h]
    exact hlt
  · rw [cursor_valueAlone h]
    exact hlt

theorem left_named_lt {t t' : Tokenizer} {token : String → Token} (hpos : 0 < t.cursor.left)
    (h : t.named token = .ok t') : t'.cursor.left < t.cursor.left := by
  simp only [named, bind_eq_ok, pure_eq_ok, Except.ok.injEq] at h
  rcases h with ⟨⟨name, c⟩, h₁, rfl⟩
  exact Property.left_readName_lt hpos h₁

theorem left_tag_lt {t t' : Tokenizer} (hpos : 0 < t.cursor.left) (h : t.tag = .ok t') :
    t'.cursor.left < t.cursor.left := by
  simp only [tag, bind_eq_ok, pure_eq_ok, Except.ok.injEq] at h
  rcases h with ⟨⟨tag, c⟩, h₁, rfl⟩
  exact Property.left_readTag_lt hpos h₁

theorem left_blockScalar_lt {t t' : Tokenizer} {style : ScalarStyle} (hpos : 0 < t.cursor.left)
    (h : t.blockScalar style = .ok t') : t'.cursor.left < t.cursor.left := by
  simp only [blockScalar, bind_eq_ok, pure_eq_ok, Except.ok.injEq] at h
  rcases h with ⟨scalar, h₁, rfl⟩
  exact Block.left_readBlock_lt hpos h₁

theorem left_quotedScalar_lt {t t' : Tokenizer} {quotes : Quoted.Quotes} {style : ScalarStyle}
    (h : t.quotedScalar quotes style = .ok t') : t'.cursor.left < t.cursor.left := by
  simp only [quotedScalar, bind_eq_ok] at h
  rcases h with ⟨⟨text, closed⟩, h₁, behind, h₂, h⟩
  have hlt := Quoted.left_readQuoted_lt h₁
  have hle := Cursor.left_lineRest_le h₂
  split at h
  · -- What separates the scalar from the next token only adds to what was taken.
    simp only [bind_eq_ok, pure_eq_ok, Except.ok.injEq] at h
    rcases h with ⟨t₁, h₃, rfl⟩
    have hsep := left_separate_le h₃
    simp only [cursor_moveTo, Cursor.left_advance] at hsep hlt hle
    simp only [cursor_push]
    omega
  · simp at h

theorem left_plainScalar_lt {t t' : Tokenizer} (hpos : 0 < t.cursor.left)
    (h : t.plainScalar = .ok t') : t'.cursor.left < t.cursor.left := by
  simp only [plainScalar] at h
  split at h
  · simp at h
  · split at h
    · simp at h
    · simp only [bind_eq_ok, pure_eq_ok, Except.ok.injEq] at h
      rcases h with ⟨⟨text, c⟩, h₁, rfl⟩
      have hle := Plain.left_readPlain_le h₁
      simp only [Cursor.left_advance] at hle
      simp only [cursor_push, cursor_allowKey, cursor_moveTo]
      omega

/-! ### Rounds -/

/-- Something is left unless the end of the text is next. -/
theorem left_pos_of_upcoming {t : Tokenizer} (h : t.upcoming ≠ .streamEnd) : 0 < t.cursor.left := by
  refine Cursor.left_pos_of_peek_ne t.cursor fun hend => h ?_
  unfold upcoming
  rw [if_pos (by simp [isEnd, hend])]

/-- Reading a token takes something away, or reads the end of the text. -/
theorem left_token_lt {t t' : Tokenizer} (h : t.token = .ok t') :
    t'.ended = true ∨ t'.cursor.left < t.cursor.left := by
  by_cases hend : t.upcoming = .streamEnd
  · rw [token, hend] at h
    exact .inl (ended_streamEnd h)
  · -- Anything else is read with text in front of it.
    have hpos := left_pos_of_upcoming hend
    right
    unfold token at h
    split at h
    · exact absurd ‹_› hend
    · exact left_directive_lt hpos h
    · exact left_documentMark_lt hpos h
    · exact left_documentEnd_lt hpos h
    · exact left_flowStart_lt hpos h
    · exact left_flowEnd_lt hpos h
    · exact left_flowEntry_lt hpos h
    · exact left_blockEntry_lt hpos h
    · exact left_explicitKey_lt hpos h
    · exact left_value_lt hpos h
    · exact left_named_lt hpos h
    · exact left_named_lt hpos h
    · exact left_tag_lt hpos h
    · exact left_blockScalar_lt hpos h
    · exact left_quotedScalar_lt h
    · exact left_plainScalar_lt hpos h
    · simp at h

/-- A round leaves less work. -/
theorem work_round_lt {t t' : Tokenizer} (hended : t.ended = false) (h : t.round = .ok t') :
    t'.work < t.work := by
  simp only [round, bind_eq_ok] at h
  rcases h with ⟨t₁, h₁, t₂, h₂, h⟩
  have hle := left_separate_le h₁
  rw [← cursor_dropStale h₂] at hle
  have hwork : t.work = t.cursor.left + 1 := by simp [work, hended]
  rcases left_token_lt h with h | h
  · -- The end of the text was read, and nothing is left to do.
    simp [work, h, hended]
  · rw [cursor_closeTo] at h
    rw [hwork]
    unfold work
    split <;> omega

end Tokenizer

end Yaml

end YamlLocator
