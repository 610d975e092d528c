import YamlLocator.Proofs.Retelling.Reading

/-!
# Scalars of a Text Told Anew

Quoted and plain scalars are read alike from two cursors that stand at the same place of two
texts. Both readers decide by the next character and a few behind it, and whenever they look
further than the next one, the characters in between are no line breaks.

## Theorems

* `Quoted.agree_readQuoted`, `Plain.agree_readPlain`: Such scalars are read alike.
-/

namespace YamlLocator

namespace Yaml

open Retelling Cursor

variable {σ : Retelling} {c c' : Cursor} {start start' : Mark}

/-! ### Quoted scalars -/

namespace Quoted

theorem isBreak_sign (quotes : Quotes) : isBreak quotes.sign = false := by
  cases quotes <;> decide

theorem agree_readEscape (hstart : start' = σ.mark start) (h : Retold σ c c')
    (hpeek : isBreak c.peek = false) (hletter : isBreak (c.peekAt 1) = false) :
    σ.Agree (RetoldWith σ) (readEscape start c) (readEscape start' c') := by
  have hone := not_isBreak_of_mem_take_one hpeek
  have htwo := not_isBreak_of_mem_take_succ hone hletter
  have hrest : c'.rest.drop 2 = σ.spell (c.rest.drop 2) := (h.blanks htwo).rest_eq
  simp only [readEscape, h.peekAt_eq hone hletter, hrest]
  split
  · exact .ok ⟨rfl, h.advance htwo⟩
  · split
    · exact agree_refuse hstart _
    · rename_i count _
      cases hbreak : ((c.rest.drop 2).take count).any isBreak with
      | true =>
        -- A line break among the digits is found in both texts.
        rw [Property.hexNumber?_of_isBreak hbreak,
          Property.hexNumber?_of_isBreak (by rw [any_take_spell, hbreak])]
        exact agree_refuse hstart _
      | false =>
        have hdigits : ∀ ch ∈ (c.rest.drop 2).take count, isBreak ch = false := by
          simpa using hbreak
        rw [take_spell hdigits]
        split
        · exact agree_refuse hstart _
        · split
          · exact agree_refuse hstart _
          · split
            · exact .ok ⟨rfl, h.advance (not_isBreak_of_mem_take_add htwo hdigits)⟩
            · exact agree_refuse hstart _

/-! A cursor at a character of a quoted scalar stands at that character in the other text, too. -/

theorem AtWord.retold {margin : Nat} (hword : AtWord margin c) (h : Retold σ c c') :
    AtWord margin c' where
  not_blank := by rw [h.isBlank_peek]; exact hword.not_blank
  not_break := by rw [h.isBreak_peek]; exact hword.not_break
  not_mark := by rw [h.atDocumentMark_eq]; exact hword.not_mark
  not_end := by rw [h.isEnd_peek]; exact hword.not_end
  behind_margin := by rw [h.column_eq]; exact hword.behind_margin

theorem AtWord.peek_eq {margin : Nat} (hword : AtWord margin c) (h : Retold σ c c') :
    c'.peek = c.peek :=
  h.peek_eq (Bool.eq_false_iff.mpr hword.not_break)

theorem AtWord.isBreak_next {margin : Nat} (hword : AtWord margin c) (h : Retold σ c c') :
    isBreak (c'.peekAt 1) = isBreak (c.peekAt 1) :=
  (h.blanks_one (Bool.eq_false_iff.mpr hword.not_break)).isBreak_peek

theorem AtWord.pair_iff {margin : Nat} (hword : AtWord margin c) (h : Retold σ c c')
    (quotes : Quotes) :
    (quotes = .single ∧ c'.peek = '\'' ∧ c'.peekAt 1 = '\'') ↔
      (quotes = .single ∧ c.peek = '\'' ∧ c.peekAt 1 = '\'') := by
  have hnext : c'.peekAt 1 = '\'' ↔ c.peekAt 1 = '\'' :=
    (h.blanks_one (Bool.eq_false_iff.mpr hword.not_break)).peek_eq_iff _ (by decide)
  rw [hword.peek_eq h, hnext]

theorem agree_readQuoted (hstart : start' = σ.mark start) (quotes : Quotes) (margin : Nat)
    (text : List Char) (gap : Gap) (h : Retold σ c c') :
    σ.Agree (RetoldWith σ) (readQuoted quotes margin start text gap c)
      (readQuoted quotes margin start' text gap c') := by
  fun_induction readQuoted quotes margin start text gap c generalizing c' with
  | case1 text gap c hblank htab =>
    rw [readQuoted.eq_def quotes margin start' text gap c']
    rw [if_pos (by rwa [h.isBlank_peek]),
      if_pos (by rwa [h.peek_eq_iff _ (by decide), h.column_eq])]
    exact agree_refuse h.mark_eq _
  | case2 text gap c hblank htab ih =>
    have hbreak := not_isBreak_of_class _ (by decide) (by decide) hblank
    rw [readQuoted.eq_def quotes margin start' text gap c']
    simp only [h.view, h.peek_eq hbreak, hblank, htab, if_true, if_false]
    exact ih (h.blanks_one hbreak)
  | case3 text gap c hblank hbreak ih =>
    rw [readQuoted.eq_def quotes margin start' text gap c']
    simp only [h.view, hblank, hbreak, if_true]
    exact ih h.lineBreak
  | case4 text gap c hblank hbreak hmark =>
    rw [readQuoted.eq_def quotes margin start' text gap c']
    simp only [h.view, hblank, hbreak, hmark, if_true]
    exact agree_refuse hstart _
  | case5 text gap c hblank hbreak hmark hend =>
    rw [readQuoted.eq_def quotes margin start' text gap c']
    simp only [h.view, hblank, hbreak, hmark, hend, if_true]
    exact agree_refuse hstart _
  | case6 text gap c hblank hbreak hmark hend hmargin =>
    rw [readQuoted.eq_def quotes margin start' text gap c']
    simp only [h.view, hblank, hbreak, hmark, hend, hmargin, if_true]
    exact agree_refuse hstart _
  | case7 text gap c hblank hbreak hmark hend hmargin hpair ih =>
    have hword : AtWord margin c := ⟨hblank, hbreak, hmark, hend, hmargin⟩
    have hone := not_isBreak_of_mem_take_one (c := c) (by simpa using hbreak)
    rw [readQuoted_of_pair (hword.retold h) ((hword.pair_iff h quotes).mpr hpair)]
    exact ih (h.advance (not_isBreak_of_mem_take_succ hone (by rw [hpair.2.2]; decide)))
  | case8 text gap c hblank hbreak hmark hend hmargin hpair hsign =>
    have hword : AtWord margin c := ⟨hblank, hbreak, hmark, hend, hmargin⟩
    rw [readQuoted_of_sign (hword.retold h) (by rwa [hword.pair_iff h])
      (by rwa [hword.peek_eq h])]
    exact .ok ⟨rfl, h.advance_one (by simpa using hbreak)⟩
  | case9 text gap c hblank hbreak hmark hend hmargin _ _ hdouble hescaped hclosed =>
    have hword : AtWord margin c := ⟨hblank, hbreak, hmark, hend, hmargin⟩
    have hline := (h.advance_one (by simpa using hbreak)).lineBreak
    rcases hdouble with ⟨rfl, hslash⟩
    rw [readQuoted_of_escapedBreak (hword.retold h) (by rwa [hword.peek_eq h])
      (by rwa [hword.isBreak_next h]), if_pos (by rwa [hline.peek_eq_iff _ (isBreak_sign _)])]
    exact .ok ⟨rfl, hline.advance_one (by rw [hclosed, isBreak_sign])⟩
  | case10 text gap c hblank hbreak hmark hend hmargin _ _ hdouble hescaped hclosed ih =>
    have hword : AtWord margin c := ⟨hblank, hbreak, hmark, hend, hmargin⟩
    have hline := (h.advance_one (by simpa using hbreak)).lineBreak
    rcases hdouble with ⟨rfl, hslash⟩
    rw [readQuoted_of_escapedBreak (hword.retold h) (by rwa [hword.peek_eq h])
      (by rwa [hword.isBreak_next h]), if_neg (by rwa [hline.peek_eq_iff _ (isBreak_sign _)])]
    exact ih hline
  | case11 text gap c hblank hbreak hmark hend hmargin _ _ hdouble hescaped e hread =>
    have hword : AtWord margin c := ⟨hblank, hbreak, hmark, hend, hmargin⟩
    have hescape := agree_readEscape hstart h (by simpa using hbreak) (by simpa using hescaped)
    rcases hdouble with ⟨rfl, hslash⟩
    rw [readQuoted_of_escape (hword.retold h) (by rwa [hword.peek_eq h])
      (by rwa [hword.isBreak_next h]), eq_error_of_agree hescape hread]
    exact .error e
  | case12 text gap c hblank hbreak hmark hend hmargin _ _ hdouble hescaped ch c₁ hread ih =>
    have hword : AtWord margin c := ⟨hblank, hbreak, hmark, hend, hmargin⟩
    have hescape := agree_readEscape hstart h (by simpa using hbreak) (by simpa using hescaped)
    rcases hdouble with ⟨rfl, hslash⟩
    rcases exists_ok_of_agree hescape hread with ⟨⟨_, c₁'⟩, hread', rfl, h₁⟩
    rw [readQuoted_of_escape (hword.retold h) (by rwa [hword.peek_eq h])
      (by rwa [hword.isBreak_next h]), hread']
    exact ih h₁
  | case13 text gap c hblank hbreak hmark hend hmargin hpair hsign hdouble ih =>
    have hword : AtWord margin c := ⟨hblank, hbreak, hmark, hend, hmargin⟩
    rw [readQuoted_of_letter (hword.retold h) (by rwa [hword.pair_iff h])
      (by rwa [hword.peek_eq h]) (by rwa [hword.peek_eq h]), hword.peek_eq h]
    exact ih (h.advance_one (by simpa using hbreak))

end Quoted

/-! ### Plain scalars -/

namespace Plain

theorem atColon_eq (h : Retold σ c c') (inFlow : Bool) : atColon inFlow c' = atColon inFlow c := by
  simp only [atColon, h.peek_eq_iff ':' (by decide)]
  by_cases hcolon : c.peek = ':'
  · have hnext := h.blanks_one (by rw [hcolon]; decide)
    have hgap : isGap (c'.peekAt 1) = isGap (c.peekAt 1) := hnext.isGap_peek
    have hflow : isFlow (c'.peekAt 1) = isFlow (c.peekAt 1) := hnext.isFlow_peek
    rw [hgap, hflow]
  · simp [hcolon]

theorem isText_eq (h : Retold σ c c') (inFlow : Bool) : isText inFlow c' = isText inFlow c := by
  rw [isText, isText, h.isGap_peek, atColon_eq h, h.isFlow_peek]

theorem endsBefore_eq (h : Retold σ c c') (inFlow : Bool) (margin : Nat) :
    endsBefore inFlow margin c' = endsBefore inFlow margin c := by
  simp only [endsBefore, h.view, h.peek_eq_iff '#' (by decide)]

theorem atFlowDash_eq (h : Retold σ c c') (inFlow : Bool) :
    atFlowDash inFlow c' = atFlowDash inFlow c := by
  simp only [atFlowDash, h.peek_eq_iff '-' (by decide)]
  by_cases hdash : c.peek = '-'
  · have hflow : isFlow (c'.peekAt 1) = isFlow (c.peekAt 1) :=
      (h.blanks_one (by rw [hdash]; decide)).isFlow_peek
    rw [hflow]
  · simp [hdash]

theorem agree_readPlain (hstart : start' = σ.mark start) (inFlow : Bool) (margin : Nat)
    (text : List Char) (gap : Gap) (h : Retold σ c c') :
    σ.Agree (RetoldWith σ) (readPlain inFlow margin start text gap c)
      (readPlain inFlow margin start' text gap c') := by
  have htab {c c' : Cursor} (h : Retold σ c c') : c'.peek = '\t' ↔ c.peek = '\t' :=
    h.peek_eq_iff _ (by decide)
  fun_induction readPlain inFlow margin start text gap c generalizing c' with
  | case1 text gap c hblank hindent ih =>
    have hbreak := not_isBreak_of_class _ (by decide) (by decide) hblank
    rw [readPlain.eq_def inFlow margin start' text gap c']
    simp only [h.view, h.peek_eq hbreak, hblank, hindent, if_true]
    exact ih (h.blanks_one hbreak)
  | case2 text gap c hblank hindent htabbed hend ih =>
    rw [readPlain.eq_def inFlow margin start' text gap c']
    rw [if_pos (by rwa [h.isBlank_peek]), if_neg (by rwa [h.indenting_eq]),
      if_pos (by rwa [htab h, h.column_eq]), h.lineTail.isLineEnd_peek]
    rw [if_pos hend]
    exact ih h.lineTail
  | case3 text gap c hblank hindent htabbed hend =>
    rw [readPlain.eq_def inFlow margin start' text gap c']
    rw [if_pos (by rwa [h.isBlank_peek]), if_neg (by rwa [h.indenting_eq]),
      if_pos (by rwa [htab h, h.column_eq]), h.lineTail.isLineEnd_peek]
    rw [if_neg hend]
    exact agree_refuse hstart _
  | case4 text gap c hblank hindent htabbed ih =>
    have hbreak := not_isBreak_of_class _ (by decide) (by decide) hblank
    rw [readPlain.eq_def inFlow margin start' text gap c']
    simp only [h.view, htab h, hblank, hindent, htabbed, if_true, if_false]
    exact ih (h.blanks_one hbreak)
  | case5 text gap c hblank hbreak hhidden ih =>
    rw [readPlain.eq_def inFlow margin start' text gap c']
    simp only [h.view, hblank, hbreak, if_true]
    rw [if_pos hhidden]
    exact ih h.lineBreak
  | case6 text gap c hblank hbreak hhidden ih =>
    rw [readPlain.eq_def inFlow margin start' text gap c']
    simp only [h.view, hblank, hbreak, hhidden, if_true, if_false]
    exact ih h.lineBreak
  | case7 text gap c hblank hbreak hends =>
    rw [readPlain.eq_def inFlow margin start' text gap c']
    simp only [h.view, hblank, hbreak, endsBefore_eq h]
    rw [if_pos hends]
    exact .ok ⟨rfl, h⟩
  | case8 text gap c hblank hbreak hends hdash =>
    rw [readPlain.eq_def inFlow margin start' text gap c']
    simp only [h.view, hblank, hbreak, endsBefore_eq h, hends, atFlowDash_eq h, if_false]
    rw [if_pos hdash]
    exact agree_refuse h.mark_eq _
  | case9 text gap c hblank hbreak hends hdash htext ih =>
    have hnext : isBreak c.peek = false := by simpa using hbreak
    rw [readPlain.eq_def inFlow margin start' text gap c']
    simp only [h.view, h.peek_eq hnext, hblank, hbreak, endsBefore_eq h, hends, atFlowDash_eq h,
      hdash, isText_eq h, htext, if_true, if_false]
    exact ih (h.advance_one hnext)
  | case10 text gap c hblank hbreak hends hdash htext =>
    rw [readPlain.eq_def inFlow margin start' text gap c']
    simp only [h.view, hblank, hbreak, endsBefore_eq h, hends, atFlowDash_eq h, hdash, isText_eq h,
      htext, if_false]
    exact .ok ⟨rfl, h⟩

end Plain

end Yaml

end YamlLocator
