import YamlLocator.Proofs.Journey
import YamlLocator.Proofs.Offsets
import YamlLocator.Proofs.Retelling.Basic

/-!
# Block Scalars of a Text Told Anew

Block scalars are read alike from two cursors that stand at the same place of two texts, with
one proviso. The mark behind a line of a block scalar depends on how much of the line had been
looked at before, and where line breaks are spelled in another way, that is not the same for
the two. It does not matter if the scalar holds only characters of one byte, since those count
the same whether they have been looked at or not.

## Main definitions

* `Text.IsNarrow`: Characters of one byte.
* `Block.ScalarRetold`: Two block scalars at the same place of the two texts.

## Theorems

* `Block.retold_contents`: The contents of a line lead to the same place.
* `Block.subset_text_readLines`: What was read stays in the text of the scalar.
* `Block.agree_readBlock`: Block scalars are read alike.
-/

namespace YamlLocator

/-- Each of the characters takes one byte. -/
def Text.IsNarrow (chars : List Char) : Prop := ∀ c ∈ chars, c.val < 128

namespace Yaml

open Retelling Cursor

variable {σ : Retelling} {c c' : Cursor} {start start' : Mark}

namespace Block

/-! ### Headers -/

/-- What a function makes of the next character, if line breaks mean nothing to it. -/
theorem apply_peek_eq {α : Type} (h : Retold σ c c') (f : Char → Option α) (hfeed : f '\n' = none)
    (hreturn : f '\r' = none) : f c'.peek = f c.peek := by
  rcases h.peek_eq_or with heq | ⟨hpeek, hpeek'⟩
  · rw [heq]
  · rw [hpeek, hpeek', hfeed, hreturn]

/-- What means something to the function is no line break. -/
theorem not_isBreak_of_apply {α : Type} {f : Char → Option α} (hfeed : f '\n' = none)
    (hreturn : f '\r' = none) {ch : Char} {a : α} (h : f ch = some a) : isBreak ch = false :=
  not_isBreak_of_class (fun ch => (f ch).isSome) (by simp [hfeed]) (by simp [hreturn])
    (by simp [h])

theorem agree_readIncrement (hstart : start' = σ.mark start) (h : Retold σ c c') :
    σ.Agree (RetoldWith σ) (Header.readIncrement start c) (Header.readIncrement start' c') := by
  simp only [Header.readIncrement, apply_peek_eq h Header.digit? (by decide) (by decide)]
  split
  · exact .ok ⟨rfl, h⟩
  · exact agree_refuse hstart _
  · rename_i increment _ hdigit
    exact .ok ⟨rfl, h.advance_one (not_isBreak_of_apply (by decide) (by decide) hdigit)⟩

theorem agree_readHeader (hstart : start' = σ.mark start) (h : Retold σ c c') :
    σ.Agree (RetoldWith σ) (Header.read start c) (Header.read start' c') := by
  simp only [Header.read, apply_peek_eq h Header.chomping? (by decide) (by decide)]
  split
  · rename_i chomping hsign
    refine agree_bind (agree_readIncrement hstart
      (h.advance_one (not_isBreak_of_apply (by decide) (by decide) hsign))) ?_
    rintro ⟨increment, c₁⟩ ⟨_, c₁'⟩ ⟨rfl, h₁⟩
    exact .ok ⟨rfl, h₁⟩
  · refine agree_bind (agree_readIncrement hstart h) ?_
    rintro ⟨increment, c₁⟩ ⟨_, c₁'⟩ ⟨rfl, h₁⟩
    simp only [apply_peek_eq h₁ Header.chomping? (by decide) (by decide)]
    split
    · rename_i hsign
      exact .ok ⟨rfl, h₁.advance_one (not_isBreak_of_apply (by decide) (by decide) hsign)⟩
    · exact .ok ⟨rfl, h₁⟩

/-! ### Indentation -/

theorem retold_indentation (h : Retold σ c c') (width : Nat) :
    Retold σ (indentation width c) (indentation width c') := by
  have hspaces := h.takeWhile_eq (· = ' ') (by decide) (by decide)
  simp only [indentation, hspaces, h.column_eq]
  refine { h.blanks fun ch hmem => ?_ with seen_eq := fun hdoubled => by rw [h.seen_eq hdoubled] }
  refine not_isBreak_of_mem_takeWhile (· = ' ') (by decide) (by decide)
    (List.take_subset_take_left _ ?_ hmem)
  exact Nat.min_le_left ..

theorem retold_skipIndent (h : Retold σ c c') (width breaks : Nat) :
    RetoldWith σ (skipIndent width breaks c) (skipIndent width breaks c') := by
  fun_induction skipIndent width breaks c generalizing c' with
  | case1 breaks c hbreak ih =>
    have hline := retold_indentation h width
    rw [skipIndent.eq_def width breaks c', if_pos (by rwa [hline.isBreak_peek])]
    exact ih hline.lineBreak
  | case2 breaks c hbreak =>
    have hline := retold_indentation h width
    rw [skipIndent.eq_def width breaks c', if_neg (by rwa [hline.isBreak_peek])]
    exact ⟨rfl, hline⟩

theorem retold_spaces (h : Retold σ c c') : Retold σ (spaces c) (spaces c') := by
  rw [spaces, spaces, h.takeWhile_eq (· = ' ') (by decide) (by decide)]
  exact h.blanks fun ch hmem => not_isBreak_of_mem_takeWhile _ (by decide) (by decide) hmem

theorem retold_skipFirstIndent (h : Retold σ c c') (widest breaks : Nat) :
    (skipFirstIndent widest breaks c').1 = (skipFirstIndent widest breaks c).1 ∧
      RetoldWith σ (skipFirstIndent widest breaks c).2 (skipFirstIndent widest breaks c').2 := by
  fun_induction skipFirstIndent widest breaks c generalizing c' with
  | case1 widest breaks c hbreak ih =>
    have hline := retold_spaces h
    rw [skipFirstIndent.eq_def widest breaks c', if_pos (by rwa [hline.isBreak_peek]),
      hline.column_eq]
    exact ih hline.lineBreak
  | case2 widest breaks c hbreak =>
    have hline := retold_spaces h
    rw [skipFirstIndent.eq_def widest breaks c', if_neg (by rwa [hline.isBreak_peek]),
      hline.column_eq]
    exact ⟨rfl, rfl, hline⟩

/-! ### Lines -/

theorem contentChars_eq (h : Retold σ c c') : contentChars c' = contentChars c :=
  h.takeWhile_eq _ (by decide) (by decide)

/-- The contents of a line are gone over character by character if each takes one byte. -/
theorem contents_eq_blanks (h : Text.IsNarrow (contentChars c)) :
    contents c = c.blanks (contentChars c).length := by
  have hbytes : Text.byteLength ((contentChars c).drop c.seen) =
      (contentChars c).length - c.seen := by
    rw [OffsetTable.byteLength_of_all_narrow fun ch hmem => h ch (List.mem_of_mem_drop hmem),
      List.length_drop]
  rw [contents, Cursor.blanks, hbytes]
  congr 2
  omega

/-- The contents of a line lead both cursors to the same place, if their characters count the
    same in both texts. -/
theorem retold_contents (h : Retold σ c c')
    (hnarrow : σ.doubled = true → Text.IsNarrow (contentChars c)) :
    Retold σ (contents c) (contents c') := by
  cases hdoubled : σ.doubled with
  | false =>
    rw [h.eq_of_not_doubled hdoubled]
    have hcontents : contents { c with mark := σ.mark c.mark } =
        { contents c with mark := σ.mark (contents c).mark } := by
      simp [contents, contentChars, Mark.right, Retelling.mark, Retelling.index, hdoubled,
        Nat.add_assoc]
    rw [hcontents]
    exact retold_of_not_doubled hdoubled
  | true =>
    have hchars := hnarrow hdoubled
    rw [contents_eq_blanks hchars, contents_eq_blanks (by rwa [contentChars_eq h]),
      contentChars_eq h]
    exact h.blanks fun ch hmem => not_isBreak_of_mem_takeWhile _ (by decide) (by decide) hmem

theorem retold_lineEnd (h : Retold σ c c') (width : Nat)
    (hnarrow : σ.doubled = true → Text.IsNarrow (contentChars c)) :
    Retold σ (lineEnd width c) (lineEnd width c') :=
  retold_contents (h.lookAt _) hnarrow

theorem continues_eq (h : Retold σ c c') (width : Nat) :
    continues width c' = continues width c := by
  simp only [continues, h.view, h.atSign_eq '.' (by decide)]

theorem readLine_eq (h : Retold σ c c') (fold : Bool) (p : Progress) :
    readLine fold p c' = readLine fold p c := by
  simp only [readLine, contentChars_eq h, h.isBlank_peek]

/-- What was read before stays when a line is added. -/
theorem subset_text_readLine (fold : Bool) (p : Progress) (c : Cursor) :
    p.text ⊆ (readLine fold p c).text := by
  intro ch hmem
  simp only [readLine, Progress.joined]
  refine List.mem_append_right _ ?_
  repeat' split
  all_goals simp [hmem]

theorem contentChars_subset_readLine (fold : Bool) (p : Progress) (c : Cursor) :
    contentChars c ⊆ (readLine fold p c).text := by
  intro ch hmem
  simp [readLine, hmem]

/-- What was read before stays when the lines are added. -/
theorem subset_text_readLines (fold : Bool) (width : Nat) (p : Progress) (c : Cursor) :
    p.text ⊆ (readLines fold width p c).1.text := by
  fun_induction readLines fold width p c with
  | case1 p c hcontinues hbreak empty c₁ hskip ih =>
    exact List.Subset.trans (subset_text_readLine fold p c) ih
  | case2 p c => exact subset_text_readLine fold p c
  | case3 p c => exact List.Subset.refl _

theorem retold_readLines (h : Retold σ c c') (fold : Bool) (width : Nat) (p : Progress)
    (hnarrow : σ.doubled = true → Text.IsNarrow (readLines fold width p c).1.text) :
    RetoldWith σ (readLines fold width p c) (readLines fold width p c') := by
  fun_induction readLines fold width p c generalizing c' with
  | case1 p c hcontinues hbreak empty c₁ hskip ih =>
    have hend := retold_lineEnd h width fun hdoubled ch hmem => hnarrow hdoubled ch <|
      subset_text_readLines _ _ _ _ (contentChars_subset_readLine fold p c hmem)
    have hnext := retold_skipIndent hend.lineBreak width 0
    rw [readLines.eq_def fold width p c', if_pos (by rwa [continues_eq h]),
      if_pos (by rwa [hend.isBreak_peek])]
    rw [hskip] at hnext
    split
    rename_i empty' c₁' hskip'
    rw [hskip'] at hnext
    rcases hnext with ⟨rfl, hnext⟩
    rw [readLine_eq h]
    exact ih hnext hnarrow
  | case2 p c hcontinues hbreak =>
    have hend := retold_lineEnd h width fun hdoubled ch hmem => hnarrow hdoubled ch <|
      contentChars_subset_readLine fold p c hmem
    rw [readLines.eq_def fold width p c', if_pos (by rwa [continues_eq h]),
      if_neg (by rwa [hend.isBreak_peek]), readLine_eq h]
    exact ⟨rfl, hend⟩
  | case3 p c hcontinues =>
    rw [readLines.eq_def fold width p c', if_neg (by rwa [continues_eq h])]
    exact ⟨rfl, h⟩

/-! ### Scalars -/

/-- Two block scalars with the same text, read from the same place of the two texts. -/
structure ScalarRetold (σ : Retelling) (r r' : Scalar) : Prop where
  text_eq : r'.text = r.text
  mark_eq : r'.mark = σ.mark r.mark
  behind : Retold σ r.behind r'.behind

theorem agree_readBody (h : Retold σ c c') (hstart : start' = σ.mark start) (fold : Bool)
    (margin : Nat) (chomping : Chomping) (width breaks : Nat)
    (hnarrow : σ.doubled = true → ∀ r,
      readBody fold margin start chomping width breaks c = .ok r → Text.IsNarrow r.text) :
    σ.Agree (ScalarRetold σ) (readBody fold margin start chomping width breaks c)
      (readBody fold margin start' chomping width breaks c') := by
  have hline : (c'.mark.line = start'.line) = (c.mark.line = start.line) := by
    rw [h.mark_eq, hstart, line_mark, line_mark, Nat.add_right_cancel_iff]
  simp only [readBody, h.view, emptyEnding, hline] at hnarrow ⊢
  split
  · exact .ok ⟨rfl, hstart, h⟩
  · rename_i hend
    rw [if_neg hend] at hnarrow
    split
    · exact agree_refuse h.mark_eq _
    · rename_i hindented
      rw [if_neg hindented] at hnarrow
      have hlines := retold_readLines h fold width (Progress.afterHeader breaks)
        fun hdoubled ch hmem => hnarrow hdoubled _ rfl ch (by simp [hmem])
      revert hlines
      rcases readLines fold width (Progress.afterHeader breaks) c with ⟨p, c₁⟩
      rcases readLines fold width (Progress.afterHeader breaks) c' with ⟨_, c₁'⟩
      rintro ⟨rfl, h₁⟩
      refine .ok ⟨?_, h.mark_eq, h₁⟩
      simp only [ending, h₁.view]

/-- Block scalars are read alike, if breaks are spelled as before or the scalar is ASCII. -/
theorem agree_readBlock (h : Retold σ c c') (hbreak : isBreak c.peek = false) (fold : Bool)
    (margin : Nat)
    (hnarrow : σ.doubled = true → ∀ r, readBlock fold margin c = .ok r → Text.IsNarrow r.text) :
    σ.Agree (ScalarRetold σ) (readBlock fold margin c) (readBlock fold margin c') := by
  simp only [readBlock] at hnarrow ⊢
  refine agree_bind_of_eq (agree_readHeader h.mark_eq ((h.lookAt 4).advance_one hbreak)) ?_
  rintro ⟨header, c₁⟩ ⟨_, c₁'⟩ hheader ⟨rfl, h₁⟩
  simp only [hheader, bind, Except.bind] at hnarrow
  refine agree_bind_of_eq h₁.lineRest fun c₂ c₂' hrest h₂ => ?_
  simp only [hrest] at hnarrow
  have hline := h₂.lineBreak
  simp only [h₂.isLineEnd_peek, hline.peek_eq_iff '\t' (by decide)]
  split
  · exact agree_refuse h.mark_eq _
  · rename_i hlineEnd
    rw [if_neg hlineEnd] at hnarrow
    split
    · exact agree_refuse h.mark_eq _
    · rename_i htab
      rw [if_neg htab] at hnarrow
      split
      · rename_i increment hincrement
        rcases retold_skipIndent hline (increment + (margin - 1)) 0 with ⟨hbreaks, hnext⟩
        rw [hbreaks]
        exact agree_readBody hnext h.mark_eq fold margin _ _ _ (by simpa [hincrement] using hnarrow)
      · rename_i hincrement
        rcases retold_skipFirstIndent hline 0 0 with ⟨hwidest, hbreaks, hnext⟩
        rw [hwidest, hbreaks]
        exact agree_readBody hnext h.mark_eq fold margin _ _ _ (by simpa [hincrement] using hnarrow)

end Block

end Yaml

end YamlLocator
