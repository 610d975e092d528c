import YamlLocator.Proofs.Continuation.Reading
import YamlLocator.Proofs.Places.Scalars

/-!
# Scalars in a Text That Goes On

A scalar may have many lines, but none of its styles lets it go on behind a line of three points
that stands at the beginning of a line. A plain scalar ends there, a quoted one is refused, and a
block scalar has no line that is not indented, unless it is one of no indentation at all, where the
points are looked for.

## Theorems

* `Plain.carries_readPlain`, `Quoted.carries_readQuoted`, `Block.carries_readBlock`: Scalars are
  read alike.
-/

namespace YamlLocator

namespace Yaml

open Cursor

variable {c : Cursor} (more : List Char)

/-! ### Plain scalars -/

namespace Plain

theorem atColon_append (h : c.IsBefore) (inFlow : Bool) :
    atColon inFlow (c.append more) = atColon inFlow c := by
  rw [atColon, atColon, h.peek_append, h.peekAt_append more (by decide : 1 ≤ 3)]

theorem isText_append (h : c.IsBefore) (inFlow : Bool) :
    isText inFlow (c.append more) = isText inFlow c := by
  rw [isText, isText, h.peek_append, atColon_append more h]

theorem endsBefore_append (h : c.IsBefore) (inFlow : Bool) (margin : Nat) :
    endsBefore inFlow margin (c.append more) = endsBefore inFlow margin c := by
  rw [endsBefore, endsBefore, column_append, h.atDocumentMark_append, h.peek_append]

theorem atFlowDash_append (h : c.IsBefore) (inFlow : Bool) :
    atFlowDash inFlow (c.append more) = atFlowDash inFlow c := by
  rw [atFlowDash, atFlowDash, h.peek_append, h.peekAt_append more (by decide : 1 ≤ 3)]

/-- A plain scalar is read alike. It comes to the line that ends the document only behind a
    break, and so there is a gap that it can end with. -/
theorem carries_readPlain (inFlow : Bool) (margin : Nat) (start : Mark) (chars : List Char)
    (gap : Gap) (h : c.IsBefore) (hgap : c.IsAtEnd → gap ≠ .none) :
    Carries (appendTo more) (fun r => r.2.IsBefore) (readPlain inFlow margin start chars gap c)
      (readPlain inFlow margin start chars gap (c.append more)) := by
  have hblanks {c : Cursor} (h : c.IsBefore) (hblank : isBlank c.peek = true) :
      c.IsInside ∧ c.Shows 1 :=
    ⟨h.isInside_of_class isBlank (by decide) hblank,
      shows_one_of_class isBlank (by decide) (by decide) (by decide) hblank⟩
  have hnotEnd {c : Cursor} (h : c.IsInside) (gap : Gap) : c.IsAtEnd → gap ≠ .none :=
    fun hend => absurd hend h.not_isAtEnd
  have hbroken {gap : Gap} (hgap : gap.isBroken = true) : gap ≠ .none := by
    rintro rfl
    exact absurd hgap (by decide)
  fun_induction readPlain inFlow margin start chars gap c with
  | case1 chars gap c hblank hindent ih =>
    rcases hblanks h hblank with ⟨hinside, hshows⟩
    rw [readPlain.eq_def inFlow margin start chars gap (c.append more), h.peek_append,
      if_pos hblank, indenting_append, if_pos hindent, blanks_append more hshows.le_left]
    exact ih (hinside.blanks hshows).isBefore (hnotEnd (hinside.blanks hshows) _)
  | case2 chars gap c hblank hindent htab hend ih =>
    have htail := (hblanks h hblank).1.along (along_lineTail c)
    rw [readPlain.eq_def inFlow margin start chars gap (c.append more), h.peek_append,
      if_pos hblank, indenting_append, if_neg hindent, column_append, if_pos htab,
      lineTail_append more h.mem, htail.isBefore.peek_append, if_pos hend]
    exact ih htail.isBefore (hnotEnd htail _)
  | case3 chars gap c hblank hindent htab hend =>
    have htail := (hblanks h hblank).1.along (along_lineTail c)
    rw [readPlain.eq_def inFlow margin start chars gap (c.append more), h.peek_append,
      if_pos hblank, indenting_append, if_neg hindent, column_append, if_pos htab,
      lineTail_append more h.mem, htail.isBefore.peek_append, if_neg hend]
    exact carries_refuse _ _
  | case4 chars gap c hblank hindent htab ih =>
    rcases hblanks h hblank with ⟨hinside, hshows⟩
    rw [readPlain.eq_def inFlow margin start chars gap (c.append more), h.peek_append,
      if_pos hblank, indenting_append, if_neg hindent, column_append, if_neg htab,
      blanks_append more hshows.le_left]
    exact ih (hinside.blanks hshows).isBefore (hnotEnd (hinside.blanks hshows) _)
  | case5 chars gap c hblank hbreak hhidden ih =>
    rw [readPlain.eq_def inFlow margin start chars gap (c.append more), h.peek_append,
      if_neg hblank, if_pos hbreak, indenting_append, if_pos hhidden, lineBreak_append more h]
    exact ih (h.isInside_of_class isBreak (by decide) hbreak).lineBreak fun _ => hbroken hhidden.1
  | case6 chars gap c hblank hbreak hhidden ih =>
    rw [readPlain.eq_def inFlow margin start chars gap (c.append more), h.peek_append,
      if_neg hblank, if_pos hbreak, indenting_append, if_neg hhidden, lineBreak_append more h]
    exact ih (h.isInside_of_class isBreak (by decide) hbreak).lineBreak
      fun _ => hbroken (isBroken_addBreak gap)
  | case7 chars gap c hblank hbreak hends =>
    rw [readPlain.eq_def inFlow margin start chars gap (c.append more), h.peek_append,
      if_neg hblank, if_neg hbreak, endsBefore_append more h, if_pos hends]
    exact .ok h
  | case8 chars gap c hblank hbreak hends hdash =>
    rw [readPlain.eq_def inFlow margin start chars gap (c.append more), h.peek_append,
      if_neg hblank, if_neg hbreak, endsBefore_append more h, if_neg hends,
      atFlowDash_append more h, if_pos hdash]
    exact carries_refuse _ _
  | case9 chars gap c hblank hbreak hends hdash htext ih =>
    -- At the line of points the scalar would have ended.
    have hinside : c.IsInside := h.resolve_right fun hend =>
      hends ⟨hgap hend, by simp [endsBefore, hend.atDocumentMark]⟩
    have hword : isGap c.peek = false := by
      simp only [isText, Bool.and_eq_true, Bool.not_eq_true'] at htext
      exact htext.1.1
    have hshows := shows_one_of_class (fun ch => !isGap ch) (by decide) (by decide) (by decide)
      (by simpa using hword)
    rw [readPlain.eq_def inFlow margin start chars gap (c.append more), h.peek_append,
      if_neg hblank, if_neg hbreak, endsBefore_append more h, if_neg hends,
      atFlowDash_append more h, if_neg hdash, isText_append more h, if_pos htext,
      advance_append more hshows.le_left]
    exact ih (hinside.advance hshows).isBefore (hnotEnd (hinside.advance hshows) _)
  | case10 chars gap c hblank hbreak hends hdash htext =>
    rw [readPlain.eq_def inFlow margin start chars gap (c.append more), h.peek_append,
      if_neg hblank, if_neg hbreak, endsBefore_append more h, if_neg hends,
      atFlowDash_append more h, if_neg hdash, isText_append more h, if_neg htext]
    exact .ok h

end Plain

/-! ### Quoted scalars -/

namespace Quoted

/-- A line break among the digits is no digit, whatever comes behind it. -/
theorem hexNumber?_take_append {chars : List Char} (h : endLine <:+ chars) (count : Nat) :
    (chars ++ more).take count = chars.take count ∨
      Text.hexNumber? ((chars ++ more).take count) = none ∧
        Text.hexNumber? (chars.take count) = none := by
  rcases Nat.le_total count chars.length with hle | hle
  · exact .inl (List.take_append_of_le_length hle)
  · have hnone {digits : List Char} (hmem : '\n' ∈ digits) : Text.hexNumber? digits = none := by
      cases hnumber : Text.hexNumber? digits with
      | none => rfl
      | some number =>
        have := Text.isSome_hexDigit?_of_mem hnumber _ hmem
        exact absurd this (by decide)
    have hfeed : '\n' ∈ chars := h.subset (by decide)
    refine .inr ⟨hnone ?_, hnone ?_⟩
    · rw [List.take_append, List.take_of_length_le hle]
      exact List.mem_append_left _ hfeed
    · rwa [List.take_of_length_le hle]

theorem carries_readEscape (h : c.IsInside) (hslash : c.Shows 1) (start : Mark) :
    Carries (appendTo more) (fun r => r.2.IsInside) (readEscape start c)
      (readEscape start (c.append more)) := by
  have halong (r : Char × Cursor) (hr : readEscape start c = .ok r) : r.2.IsInside := by
    have halong := of_yields_ok (yields_readEscape start hslash) hr
    exact h.along halong
  have hlong := h.isBefore.three_lt_left
  suffices heq : readEscape start (c.append more) = (readEscape start c).map (appendTo more) by
    rw [heq]
    cases hread : readEscape start c with
    | error e => exact .error e
    | ok r => exact .ok (halong r hread)
  simp only [readEscape, h.isBefore.peekAt_append more (by decide : 1 ≤ 3)]
  split
  · rw [advance_append more (by omega)]
    rfl
  · split
    · rfl
    · rename_i count hcount
      have hletter : c.Shows 2 := by
        refine hslash.succ (Block.not_isBreak_of_apply (by decide) (by decide) hcount) ?_
        rw [isEnd, decide_eq_false_iff_not]
        intro hend
        rw [hend] at hcount
        simp [escapeDigits?, endMark] at hcount
      rw [rest_append, List.drop_append_of_le_length hletter.le_left]
      rcases hexNumber?_take_append more (h.drop hletter) count with htake | ⟨hnone, hnone'⟩
      · rw [htake]
        split
        · rfl
        · split
          · rfl
          · rename_i hlength
            have hle : 2 + count ≤ c.left := by
              have := Nat.le_trans (Nat.not_lt.mp hlength) (List.length_take_le' _ _)
              have hletters := hletter.le_left
              rw [List.length_drop] at this
              unfold left at hletters ⊢
              omega
            rw [advance_append more hle]
            split <;> rfl
      · rw [hnone, hnone']
        rfl

/-! A cursor at a character of a quoted scalar stands at that character in the longer text, too,
and the line that ends the document is not next. -/

theorem AtWord.append {margin : Nat} (hword : AtWord margin c) (h : c.IsBefore) :
    AtWord margin (c.append more) where
  not_blank := by rw [h.peek_append]; exact hword.not_blank
  not_break := by rw [h.peek_append]; exact hword.not_break
  not_mark := by rw [h.atDocumentMark_append]; exact hword.not_mark
  not_end := by rw [h.peek_append]; exact hword.not_end
  behind_margin := by rw [column_append]; exact hword.behind_margin

theorem AtWord.isInside {margin : Nat} (hword : AtWord margin c) (h : c.IsBefore) : c.IsInside :=
  h.resolve_right fun hend => hword.not_mark hend.atDocumentMark

theorem AtWord.shows_one {margin : Nat} (hword : AtWord margin c) : c.Shows 1 :=
  Cursor.shows_one (Bool.eq_false_iff.mpr hword.not_break) (Bool.eq_false_iff.mpr hword.not_end)

/-- A quoted scalar is read alike. In front of the line that ends the document it is refused if
    it has not been closed. -/
theorem carries_readQuoted (quotes : Quotes) (margin : Nat) (start : Mark) (chars : List Char)
    (gap : Gap) (h : c.IsBefore) :
    Carries (appendTo more) (fun r => r.2.IsInside)
      (readQuoted quotes margin start chars gap c)
      (readQuoted quotes margin start chars gap (c.append more)) := by
  have hnext {c : Cursor} (h : c.IsBefore) : (c.append more).peekAt 1 = c.peekAt 1 :=
    h.peekAt_append more (by decide : 1 ≤ 3)
  fun_induction readQuoted quotes margin start chars gap c with
  | case1 chars gap c hblank htab =>
    rw [readQuoted.eq_def quotes margin start chars gap (c.append more), h.peek_append,
      if_pos hblank, column_append, if_pos htab]
    exact carries_refuse _ _
  | case2 chars gap c hblank htab ih =>
    have hshows := shows_one_of_class isBlank (by decide) (by decide) (by decide) hblank
    rw [readQuoted.eq_def quotes margin start chars gap (c.append more), h.peek_append,
      if_pos hblank, column_append, if_neg htab, blanks_append more hshows.le_left]
    exact ih ((h.isInside_of_class isBlank (by decide) hblank).blanks hshows).isBefore
  | case3 chars gap c hblank hbreak ih =>
    rw [readQuoted.eq_def quotes margin start chars gap (c.append more), h.peek_append,
      if_neg hblank, if_pos hbreak, lineBreak_append more h]
    exact ih (h.isInside_of_class isBreak (by decide) hbreak).lineBreak
  | case4 chars gap c hblank hbreak hmark =>
    rw [readQuoted.eq_def quotes margin start chars gap (c.append more), h.peek_append,
      if_neg hblank, if_neg hbreak, h.atDocumentMark_append, if_pos hmark]
    exact carries_refuse _ _
  | case5 chars gap c hblank hbreak hmark hend =>
    rw [readQuoted.eq_def quotes margin start chars gap (c.append more), h.peek_append,
      if_neg hblank, if_neg hbreak, h.atDocumentMark_append, if_neg hmark, if_pos hend]
    exact carries_refuse _ _
  | case6 chars gap c hblank hbreak hmark hend hmargin =>
    rw [readQuoted.eq_def quotes margin start chars gap (c.append more), h.peek_append,
      if_neg hblank, if_neg hbreak, h.atDocumentMark_append, if_neg hmark, if_neg hend,
      column_append, if_pos hmargin]
    exact carries_refuse _ _
  | case7 chars gap c hblank hbreak hmark hend hmargin hpair ih =>
    have hword : AtWord margin c := ⟨hblank, hbreak, hmark, hend, hmargin⟩
    have hshows : c.Shows 2 := hword.shows_one.succ
      (by rw [hpair.2.2]; decide) (by rw [hpair.2.2]; decide)
    rw [readQuoted_of_pair (hword.append more h) (by rwa [h.peek_append, hnext h]),
      advance_append more hshows.le_left]
    exact ih ((hword.isInside h).advance hshows).isBefore
  | case8 chars gap c hblank hbreak hmark hend hmargin hpair hclose =>
    have hword : AtWord margin c := ⟨hblank, hbreak, hmark, hend, hmargin⟩
    rw [readQuoted_of_sign (hword.append more h) (by rwa [h.peek_append, hnext h])
      (by rwa [h.peek_append]), advance_append more hword.shows_one.le_left]
    exact .ok ((hword.isInside h).advance hword.shows_one)
  | case9 chars gap c hblank hbreak hmark hend hmargin _ _ hdouble hescaped hclosed =>
    have hword : AtWord margin c := ⟨hblank, hbreak, hmark, hend, hmargin⟩
    have hbehind := ((hword.isInside h).advance hword.shows_one).isBefore
    have hline := ((hword.isInside h).advance hword.shows_one).lineBreak
    rcases hdouble with ⟨rfl, hslash⟩
    have hshows := shows_one_of_eq hclosed (by decide) (by decide)
    rw [readQuoted_of_escapedBreak (hword.append more h) (by rwa [h.peek_append])
      (by rwa [hnext h]), advance_append more hword.shows_one.le_left,
      lineBreak_append more hbehind, hline.peek_append, if_pos hclosed,
      advance_append more hshows.le_left]
    exact .ok ((hline.isInside (by rw [hclosed]; decide)).advance hshows)
  | case10 chars gap c hblank hbreak hmark hend hmargin _ _ hdouble hescaped hclosed ih =>
    have hword : AtWord margin c := ⟨hblank, hbreak, hmark, hend, hmargin⟩
    have hbehind := ((hword.isInside h).advance hword.shows_one).isBefore
    have hline := ((hword.isInside h).advance hword.shows_one).lineBreak
    rcases hdouble with ⟨rfl, hslash⟩
    rw [readQuoted_of_escapedBreak (hword.append more h) (by rwa [h.peek_append])
      (by rwa [hnext h]), advance_append more hword.shows_one.le_left,
      lineBreak_append more hbehind, hline.peek_append, if_neg hclosed]
    exact ih hline
  | case11 chars gap c hblank hbreak hmark hend hmargin _ _ hdouble hescaped e hread =>
    have hword : AtWord margin c := ⟨hblank, hbreak, hmark, hend, hmargin⟩
    have hescape := carries_readEscape more (hword.isInside h) hword.shows_one start
    rcases hdouble with ⟨rfl, hslash⟩
    rw [readQuoted_of_escape (hword.append more h) (by rwa [h.peek_append]) (by rwa [hnext h]),
      eq_error_of_carries hescape hread]
    exact .error e
  | case12 chars gap c hblank hbreak hmark hend hmargin _ _ hdouble hescaped ch c' hread ih =>
    have hword : AtWord margin c := ⟨hblank, hbreak, hmark, hend, hmargin⟩
    have hescape := carries_readEscape more (hword.isInside h) hword.shows_one start
    rcases hdouble with ⟨rfl, hslash⟩
    rcases eq_ok_of_carries hescape hread with ⟨hread', hbehind⟩
    rw [readQuoted_of_escape (hword.append more h) (by rwa [h.peek_append]) (by rwa [hnext h]),
      hread']
    exact ih hbehind.isBefore
  | case13 chars gap c hblank hbreak hmark hend hmargin hpair hclose hdouble ih =>
    have hword : AtWord margin c := ⟨hblank, hbreak, hmark, hend, hmargin⟩
    rw [readQuoted_of_letter (hword.append more h) (by rwa [h.peek_append, hnext h])
      (by rwa [h.peek_append]) (by rwa [h.peek_append]), h.peek_append,
      advance_append more hword.shows_one.le_left]
    exact ih ((hword.isInside h).advance hword.shows_one).isBefore

end Quoted

/-! ### Block scalars -/

namespace Block

theorem carries_readIncrement (h : c.IsInside) (start : Mark) :
    Carries (appendTo more) (fun r => r.2.IsInside) (Header.readIncrement start c)
      (Header.readIncrement start (c.append more)) := by
  have hlong := h.isBefore.three_lt_left
  have halong (r : Option Nat × Cursor) (hr : Header.readIncrement start c = .ok r) :
      r.2.IsInside := by
    have halong := of_yields_ok (yields_readIncrement start c) hr
    exact h.along halong
  unfold Header.readIncrement at halong ⊢
  rw [h.isBefore.peek_append]
  split
  · exact .ok h
  · exact carries_refuse _ _
  · rename_i increment hnonzero hdigit
    rw [advance_append more (by omega)]
    refine .ok (halong (some increment, c.advance 1) ?_)
    rw [hdigit]
    cases increment with
    | zero => exact absurd rfl hnonzero
    | succ increment => rfl

theorem carries_readHeader (h : c.IsInside) (start : Mark) :
    Carries (appendTo more) (fun r => r.2.IsInside) (Header.read start c)
      (Header.read start (c.append more)) := by
  simp only [Header.read, h.isBefore.peek_append]
  split
  · rename_i chomping hsign
    have hshows := shows_of_chomping? hsign
    rw [advance_append more hshows.le_left]
    refine carries_bind (carries_readIncrement more (h.advance hshows) start) ?_
    rintro ⟨increment, c₁⟩ - h₁
    exact .ok h₁
  · refine carries_bind (carries_readIncrement more h start) ?_
    rintro ⟨increment, c₁⟩ - (h₁ : c₁.IsInside)
    simp only [appendTo, h₁.isBefore.peek_append]
    split
    · rename_i hsign
      have hshows := shows_of_chomping? hsign
      rw [advance_append more hshows.le_left]
      exact .ok (h₁.advance hshows)
    · exact .ok h₁

theorem indentation_append (h : c.IsBefore) (width : Nat) :
    indentation width (c.append more) = (indentation width c).append more := by
  have hspaces := shows_takeWhile c (· = ' ') (by decide) (by decide)
  simp only [indentation, takeWhile_append more h.mem (· = ' ') (by decide), column_append]
  rw [blanks_append more (Nat.le_trans (Nat.min_le_left _ _) hspaces.le_left)]
  rfl

/-- No spaces are in front of the line that ends the document. -/
theorem isBefore_of_spaces (h : c.IsBefore) {c' : Cursor} {count : Nat}
    (hcount : count ≤ (c.rest.takeWhile (· = ' ')).length)
    (hrest : c'.rest = c.rest.drop count) (hmark : c'.mark = c.mark.right count) :
    c'.IsBefore := by
  have hspaces := shows_takeWhile c (· = ' ') (by decide) (by decide)
  rcases h with h | h
  · exact .inl (h.along ⟨count, hspaces.mono hcount, hrest, hmark⟩)
  · have hzero : count = 0 := by
      rw [h.rest_eq] at hcount
      exact Nat.le_zero.mp hcount
    subst hzero
    refine .inr ⟨by rw [hrest, h.rest_eq]; rfl, ?_⟩
    rw [Cursor.column, hmark]
    exact h.column_eq

theorem isBefore_indentation (h : c.IsBefore) (width : Nat) : (indentation width c).IsBefore :=
  isBefore_of_spaces h (Nat.min_le_left _ (width - c.column)) rfl rfl

/-- Indentation and empty lines are passed alike, up to the line that ends the document. -/
theorem skipIndent_append (h : c.IsBefore) (width breaks : Nat) :
    skipIndent width breaks (c.append more) = appendTo more (skipIndent width breaks c) ∧
      (skipIndent width breaks c).2.IsBefore := by
  fun_induction skipIndent width breaks c with
  | case1 breaks c hbreak ih =>
    have hspaces := isBefore_indentation h width
    rw [skipIndent.eq_def width breaks (c.append more), indentation_append more h,
      hspaces.peek_append, if_pos hbreak, lineBreak_append more hspaces]
    exact ih (hspaces.isInside_of_class isBreak (by decide) hbreak).lineBreak
  | case2 breaks c hbreak =>
    have hspaces := isBefore_indentation h width
    rw [skipIndent.eq_def width breaks (c.append more), indentation_append more h,
      hspaces.peek_append, if_neg hbreak]
    exact ⟨rfl, hspaces⟩

theorem spaces_append (h : c.IsBefore) : spaces (c.append more) = (spaces c).append more := by
  have hspaces := shows_takeWhile c (· = ' ') (by decide) (by decide)
  rw [spaces, takeWhile_append more h.mem (· = ' ') (by decide)]
  exact blanks_append more hspaces.le_left

theorem skipFirstIndent_append (h : c.IsBefore) (widest breaks : Nat) :
    skipFirstIndent widest breaks (c.append more) =
        ((skipFirstIndent widest breaks c).1, appendTo more (skipFirstIndent widest breaks c).2) ∧
      (skipFirstIndent widest breaks c).2.2.IsBefore := by
  have hbefore {c : Cursor} (h : c.IsBefore) : (spaces c).IsBefore :=
    isBefore_of_spaces h (Nat.le_refl _) rfl rfl
  fun_induction skipFirstIndent widest breaks c with
  | case1 widest breaks c hbreak ih =>
    have hspaces := hbefore h
    rw [skipFirstIndent.eq_def widest breaks (c.append more), spaces_append more h,
      hspaces.peek_append, if_pos hbreak, lineBreak_append more hspaces]
    exact ih (hspaces.isInside_of_class isBreak (by decide) hbreak).lineBreak
  | case2 widest breaks c hbreak =>
    have hspaces := hbefore h
    rw [skipFirstIndent.eq_def widest breaks (c.append more), spaces_append more h,
      hspaces.peek_append, if_neg hbreak]
    exact ⟨rfl, hspaces⟩

/-- A line of a block scalar is none that ends the document. -/
theorem isInside_of_continues (h : c.IsBefore) {width : Nat}
    (hcontinues : continues width c = true) : c.IsInside := by
  refine h.resolve_right fun hend => ?_
  simp only [continues, hend.column_eq, hend.atSign, Bool.and_eq_true, decide_eq_true_eq,
    Bool.and_true, Bool.not_eq_true', decide_eq_false_iff_not] at hcontinues
  exact hcontinues.2 hcontinues.1.1.symm

theorem contentChars_append (h : c.IsBefore) : contentChars (c.append more) = contentChars c :=
  takeWhile_append more h.mem _ (by decide)

theorem continues_append (h : c.IsBefore) (width : Nat) :
    continues width (c.append more) = continues width c := by
  rw [continues, continues, column_append, h.peek_append, h.atSign_append]

theorem readLine_append (h : c.IsBefore) (fold : Bool) (p : Progress) :
    readLine fold p (c.append more) = readLine fold p c := by
  rw [readLine, readLine, h.peek_append, contentChars_append more h]

theorem contents_append (h : c.IsBefore) :
    contents (c.append more) = (contents c).append more := by
  have hle : (contentChars c).length ≤ c.rest.length := (List.takeWhile_prefix _).length_le
  rw [contents, contentChars_append more h, rest_append, List.drop_append_of_le_length hle]
  rfl

theorem lineEnd_append (h : c.IsInside) (width : Nat) :
    lineEnd width (c.append more) = (lineEnd width c).append more ∧
      (lineEnd width c).IsInside := by
  have hlooked (count : Nat) : (c.lookAt count).IsInside := h.of_eq rfl
  refine ⟨?_, h.drop (shows_takeWhile c (fun ch => !isLineEnd ch) (by decide) (by decide))⟩
  rw [lineEnd, lookAt_append, contents_append more (hlooked _).isBefore]
  rfl

theorem readLines_append (h : c.IsBefore) (fold : Bool) (width : Nat) (p : Progress) :
    readLines fold width p (c.append more) = appendTo more (readLines fold width p c) ∧
      (readLines fold width p c).2.IsBefore := by
  fun_induction readLines fold width p c with
  | case1 p c hcontinues hbreak empty c' hskip ih =>
    rcases lineEnd_append more (isInside_of_continues h hcontinues) width with ⟨hend, hinside⟩
    rcases skipIndent_append more hinside.lineBreak width 0 with ⟨hskip', hbefore⟩
    rw [hskip] at hskip' hbefore
    rw [readLines.eq_def fold width p (c.append more), continues_append more h, if_pos hcontinues,
      hend, hinside.isBefore.peek_append, if_pos hbreak, lineBreak_append more hinside.isBefore,
      hskip', readLine_append more h]
    exact ih hbefore
  | case2 p c hcontinues hbreak =>
    rcases lineEnd_append more (isInside_of_continues h hcontinues) width with ⟨hend, hinside⟩
    rw [readLines.eq_def fold width p (c.append more), continues_append more h, if_pos hcontinues,
      hend, hinside.isBefore.peek_append, if_neg hbreak, readLine_append more h]
    exact ⟨rfl, hinside.isBefore⟩
  | case3 p c hcontinues =>
    rw [readLines.eq_def fold width p (c.append more), continues_append more h,
      if_neg hcontinues]
    exact ⟨rfl, h⟩

/-- The scalar with the cursor behind it in the text that goes on. -/
def Scalar.append (r : Scalar) : Scalar := { r with behind := r.behind.append more }

theorem carries_readBody (h : c.IsBefore) (fold : Bool) (margin : Nat) (start : Mark)
    (chomping : Chomping) (width breaks : Nat) :
    Carries (Scalar.append more) (fun r => r.behind.IsBefore)
      (readBody fold margin start chomping width breaks c)
      (readBody fold margin start chomping width breaks (c.append more)) := by
  rcases readLines_append more h fold width (Progress.afterHeader breaks) with ⟨hlines, hbefore⟩
  simp only [readBody, h.peek_append, column_append, hlines]
  refine carries_ite (fun _ => .ok h) fun _ => carries_ite (fun _ => carries_refuse _ _) fun _ => ?_
  have hending (width : Nat) (p : Progress) (c' : Cursor) (h : c'.IsBefore) :
      ending chomping width p (c'.append more) = ending chomping width p c' := by
    rw [ending.eq_def, ending.eq_def, h.peek_append, column_append]
  simp only [appendTo, hending _ _ _ hbefore]
  exact .ok hbefore

/-- A block scalar is read alike. -/
theorem carries_readBlock (h : c.IsInside) (hsign : c.Shows 1) (fold : Bool) (margin : Nat) :
    Carries (Scalar.append more) (fun r => r.behind.IsBefore) (readBlock fold margin c)
      (readBlock fold margin (c.append more)) := by
  have hlooked : (c.lookAt 4).IsInside := h
  have hshows : (c.lookAt 4).Shows 1 := ⟨hsign.le_left, hsign.not_isBreak⟩
  simp only [readBlock, lookAt_append, advance_append more hshows.le_left]
  refine carries_bind (carries_readHeader more (hlooked.advance hshows) c.mark) ?_
  rintro ⟨⟨chomping, increment⟩, c₁⟩ - (h₁ : c₁.IsInside)
  refine carries_bind (carries_lineRest more h₁) fun c₂ _ h₂ => ?_
  simp only [appendTo, mark_append, h₂.isBefore.peek_append, lineBreak_append more h₂.isBefore,
    h₂.lineBreak.peek_append]
  refine carries_ite (fun _ => carries_refuse _ _) fun _ => ?_
  refine carries_ite (fun _ => carries_refuse _ _) fun _ => ?_
  cases increment with
  | some increment =>
    rcases skipIndent_append more h₂.lineBreak (increment + (margin - 1)) 0 with ⟨hskip, hbefore⟩
    simp only [hskip, appendTo]
    exact carries_readBody more hbefore _ _ _ _ _ _
  | none =>
    rcases skipFirstIndent_append more h₂.lineBreak 0 0 with ⟨hskip, hbefore⟩
    simp only [hskip, appendTo]
    exact carries_readBody more hbefore _ _ _ _ _ _

end Block

end Yaml

end YamlLocator
