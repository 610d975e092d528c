import YamlLocator.Proofs.Retelling.Basic
import YamlLocator.Yaml.Cursor.Separation
import YamlLocator.Yaml.Directive
import YamlLocator.Yaml.Scalar.Plain
import YamlLocator.Yaml.Scalar.Quoted

/-!
# Reading a Text Told Anew

What lies between tokens, properties and directives are read alike from two cursors that stand at
the same place of two texts.

## Theorems

* `Cursor.agree_separation`, `Cursor.agree_keySeparation`: What separates tokens is passed alike.
* `Property.agree_readName`, `Property.agree_readTag`: Names and tags are read alike.
* `Directive.agree_readDirective`: Directives are read alike.
-/

namespace YamlLocator

namespace Yaml

open Retelling

variable {σ : Retelling} {c c' : Cursor}

namespace Cursor

/-! ### Separation -/

/-- Both cursors go on to the next token, and the same line breaks are met on the way. -/
theorem agree_separation (h : Retold σ c c') (margin : Nat) (broken broken' : Bool) :
    σ.Agree (fun r r' => Retold σ r.1 r'.1 ∧ (broken' = broken → r'.2 = r.2))
      (separation margin broken c) (separation margin broken' c') := by
  have htab {c c' : Cursor} (h : Retold σ c c') :
      (c'.peek = '\t' ∧ c'.indenting = true ∧ c'.column + 1 < margin) ↔
        (c.peek = '\t' ∧ c.indenting = true ∧ c.column + 1 < margin) := by
    rw [h.peek_eq_iff _ (by decide), h.indenting_eq, h.column_eq]
  fun_induction separation margin broken c generalizing c' broken' with
  | case1 broken c hblank htabbed hend ih =>
    rw [separation.eq_def margin broken' c', if_pos (by rwa [h.isBlank_peek]),
      if_pos ((htab h).mpr htabbed), if_pos (by rwa [h.lineTail.isLineEnd_peek])]
    exact ih h.lineTail broken'
  | case2 broken c hblank htabbed hend =>
    rw [separation.eq_def margin broken' c', if_pos (by rwa [h.isBlank_peek]),
      if_pos ((htab h).mpr htabbed), if_neg (by rwa [h.lineTail.isLineEnd_peek])]
    exact agree_refuse h.lineTail.mark_eq _
  | case3 broken c hblank htabbed ih =>
    rw [separation.eq_def margin broken' c', if_pos (by rwa [h.isBlank_peek]),
      if_neg (by rwa [htab h])]
    exact ih (h.blanks_one (not_isBreak_of_class _ (by decide) (by decide) hblank)) broken'
  | case4 broken c hblank hbreak ih =>
    rw [separation.eq_def margin broken' c', if_neg (by rwa [h.isBlank_peek]),
      if_pos (by rwa [h.isBreak_peek])]
    exact agree_imp (ih h.lineBreak true) fun _ _ hr => ⟨hr.1, fun _ => hr.2 rfl⟩
  | case5 broken c hblank hbreak hcomment ih =>
    rw [separation.eq_def margin broken' c', if_neg (by rwa [h.isBlank_peek]),
      if_neg (by rwa [h.isBreak_peek]), if_pos (by rwa [h.peek_eq_iff _ (by decide)])]
    exact ih h.comment broken'
  | case6 broken c hblank hbreak hcomment =>
    rw [separation.eq_def margin broken' c', if_neg (by rwa [h.isBlank_peek]),
      if_neg (by rwa [h.isBreak_peek]), if_neg (by rwa [h.peek_eq_iff _ (by decide)])]
    exact .ok ⟨h, id⟩

theorem Retold.keyGap_eq (h : Retold σ c c') : Retold σ c.keyGap c'.keyGap := by
  fun_induction keyGap c generalizing c' with
  | case1 c hspace ih =>
    rw [keyGap.eq_def c', if_pos (by rwa [h.peek_eq_iff _ (by decide)])]
    exact ih (h.blanks_one (by rw [hspace]; decide))
  | case2 c hspace hbreak ih =>
    rw [keyGap.eq_def c', if_neg (by rwa [h.peek_eq_iff _ (by decide)]),
      if_pos (by rwa [h.isBreak_peek])]
    exact ih h.lineBreak
  | case3 c hspace hbreak hcomment ih =>
    rw [keyGap.eq_def c', if_neg (by rwa [h.peek_eq_iff _ (by decide)]),
      if_neg (by rwa [h.isBreak_peek]), if_pos (by rwa [h.peek_eq_iff _ (by decide)])]
    exact ih h.comment
  | case4 c hspace hbreak hcomment =>
    rw [keyGap.eq_def c', if_neg (by rwa [h.peek_eq_iff _ (by decide)]),
      if_neg (by rwa [h.isBreak_peek]), if_neg (by rwa [h.peek_eq_iff _ (by decide)])]
    exact h

theorem agree_keySeparation (h : Retold σ c c') :
    σ.Agree (Retold σ) c.keySeparation c'.keySeparation := by
  simp only [keySeparation, h.peek_eq_iff ' ' (by decide), h.isBreak_peek,
    h.keyGap_eq.peek_eq_iff '\t' (by decide)]
  split
  · split
    · exact agree_refuse h.keyGap_eq.mark_eq _
    · exact .ok h.keyGap_eq
  · exact agree_refuse h.mark_eq _

end Cursor

open Cursor

/-! ### Properties -/

namespace Property

theorem agree_readName (h : Retold σ c c') (hbreak : isBreak c.peek = false) :
    σ.Agree (RetoldWith σ) (readName c) (readName c') := by
  have hname := h.advance_one hbreak
  simp only [readName, hname.takeWhile_eq isAnchorChar (by decide) (by decide)]
  split
  · exact agree_refuse h.mark_eq _
  · exact .ok ⟨rfl, hname.advance fun ch hmem =>
      not_isBreak_of_mem_takeWhile _ (by decide) (by decide) hmem⟩

/-- A line break is no digit. -/
theorem hexNumber?_of_isBreak {digits : List Char} (h : digits.any isBreak = true) :
    Text.hexNumber? digits = none := by
  suffices hfold : ∀ number, digits.foldlM (m := Option)
      (fun number c => (Text.hexDigit? c).map (number * 16 + ·)) number = none from hfold 0
  induction digits with
  | nil => simp at h
  | cons c rest ih =>
    intro number
    rw [List.any_cons, Bool.or_eq_true] at h
    rw [List.foldlM_cons]
    rcases h with hbreak | hrest
    · have hdigit : Text.hexDigit? c = none := by
        simp only [isBreak, Bool.or_eq_true, decide_eq_true_eq] at hbreak
        rcases hbreak with rfl | rfl <;> decide
      rw [hdigit]
      rfl
    · cases Text.hexDigit? c with
      | none => rfl
      | some digit => exact ih hrest _

/-- The same byte is escaped, on one line. -/
theorem octet?_eq (h : Retold σ c c') : octet? c' = octet? c := by
  unfold octet?
  rw [if_congr (h.peek_eq_iff _ (by decide)) rfl rfl]
  split
  · rename_i hpeek
    have hone := not_isBreak_of_mem_take_one (c := c) (by rw [hpeek]; decide)
    have hfirst : isBreak (c'.peekAt 1) = isBreak (c.peekAt 1) := (h.blanks hone).isBreak_peek
    cases hbreak : isBreak (c.peekAt 1) with
    | true =>
      rw [hbreak] at hfirst
      rw [hexNumber?_of_isBreak (by simp [hfirst]), hexNumber?_of_isBreak (by simp [hbreak])]
    | false =>
      have htwo := not_isBreak_of_mem_take_succ hone hbreak
      have hsecond : isBreak (c'.peekAt 2) = isBreak (c.peekAt 2) := (h.blanks htwo).isBreak_peek
      rw [h.peekAt_eq hone hbreak]
      cases hbreak' : isBreak (c.peekAt 2) with
      | true =>
        rw [hbreak'] at hsecond
        rw [hexNumber?_of_isBreak (by simp [hsecond]), hexNumber?_of_isBreak (by simp [hbreak'])]
      | false => rw [h.peekAt_eq htwo hbreak']
  · rfl

/-- No line break is among the characters of an escaped byte. -/
theorem not_isBreak_of_octet? {octet : Nat} (h : octet? c = some octet) :
    ∀ ch ∈ c.rest.take 3, isBreak ch = false := by
  unfold octet? at h
  split at h
  · rename_i hpeek
    have hbreak (ch : Char) (hmem : ch ∈ [c.peekAt 1, c.peekAt 2]) : isBreak ch = false := by
      refine Bool.eq_false_iff.mpr fun hbreak => ?_
      rw [hexNumber?_of_isBreak (List.any_eq_true.mpr ⟨ch, hmem, hbreak⟩)] at h
      simp at h
    have hone := not_isBreak_of_mem_take_one (c := c) (by rw [hpeek]; decide)
    have htwo := not_isBreak_of_mem_take_succ hone (hbreak _ (by simp))
    exact not_isBreak_of_mem_take_succ htwo (hbreak _ (by simp))
  · simp at h

theorem agree_readOctets {start start' : Mark} (hstart : start' = σ.mark start) (count number : Nat)
    (h : Retold σ c c') :
    σ.Agree (RetoldWith σ) (readOctets start count number c)
      (readOctets start' count number c') := by
  induction count generalizing number c c' with
  | zero => exact .ok ⟨rfl, h⟩
  | succ count ih =>
    simp only [readOctets, octet?_eq h]
    split
    · exact agree_refuse hstart _
    · rename_i octet hoctet
      split
      · exact ih _ (h.advance (not_isBreak_of_octet? hoctet))
      · exact agree_refuse hstart _

theorem agree_readEscaped {start start' : Mark} (hstart : start' = σ.mark start)
    (h : Retold σ c c') :
    σ.Agree (RetoldWith σ) (readEscaped start c) (readEscaped start' c') := by
  simp only [readEscaped, octet?_eq h]
  split
  · exact agree_refuse hstart _
  · rename_i octet hoctet
    split
    · exact agree_refuse hstart _
    · rename_i width _
      rcases cases_of_agree (agree_readOctets hstart (width - 1) octet
        (h.advance (not_isBreak_of_octet? hoctet))) with
        ⟨e, hread, hread'⟩ | ⟨⟨number, c₁⟩, ⟨_, c₁'⟩, hread, hread', rfl, hr⟩
      · rw [hread, hread']
        exact .error e
      · rw [hread, hread']
        simp only
        split
        · exact .ok ⟨rfl, hr⟩
        · exact agree_refuse hstart _

theorem agree_readUri {start start' : Mark} (hstart : start' = σ.mark start)
    {inClass : Char → Bool} (hfeed : inClass '\n' = false) (hreturn : inClass '\r' = false)
    (text : List Char) (h : Retold σ c c') :
    σ.Agree (RetoldWith σ) (readUri start inClass text c) (readUri start' inClass text c') := by
  have hclass {c c' : Cursor} (h : Retold σ c c') :
      (inClass c'.peek = true ∧ (!isEnd c'.peek) = true) ↔
        (inClass c.peek = true ∧ (!isEnd c.peek) = true) := by
    rw [h.class_peek inClass (by rw [hfeed, hreturn]), h.isEnd_peek]
  fun_induction readUri start inClass text c generalizing c' with
  | case1 text c hin hescape e hread =>
    rw [readUri_of_escape ((hclass h).mpr hin) (by rwa [h.peek_eq_iff _ (by decide)]),
      eq_error_of_agree (agree_readEscaped hstart h) hread]
    exact .error e
  | case2 text c hin hescape ch c₁ hread ih =>
    rcases exists_ok_of_agree (agree_readEscaped hstart h) hread with ⟨⟨_, c₁'⟩, hread', rfl, h₁⟩
    rw [readUri_of_escape ((hclass h).mpr hin) (by rwa [h.peek_eq_iff _ (by decide)]), hread']
    exact ih h₁
  | case3 text c hin hescape ih =>
    have hbreak := not_isBreak_of_class _ hfeed hreturn hin.1
    rw [readUri.eq_def start' inClass text c', if_pos ((hclass h).mpr hin),
      if_neg (by rwa [h.peek_eq_iff _ (by decide)]), h.peek_eq hbreak]
    exact ih (h.advance_one hbreak)
  | case4 text c hin =>
    rw [readUri.eq_def start' inClass text c', if_neg (by rwa [hclass h])]
    exact .ok ⟨rfl, h⟩

/-- The same handle is ahead. -/
theorem handleAhead_eq (h : Retold σ c c') (hbreak : isBreak c.peek = false) :
    handleAhead c' = handleAhead c := by
  have hname := h.blanks_one hbreak
  have hword := hname.takeWhile_eq isWord (by decide) (by decide)
  simp only [Cursor.blanks] at hword
  have hmark : c'.peekAt (1 + ((c.rest.drop 1).takeWhile isWord).length) = '!' ↔
      c.peekAt (1 + ((c.rest.drop 1).takeWhile isWord).length) = '!' :=
    (h.blanks (not_isBreak_of_mem_take_add (not_isBreak_of_mem_take_one hbreak) fun ch hmem =>
      not_isBreak_of_mem_takeWhile _ (by decide) (by decide) hmem)).peek_eq_iff _ (by decide)
  simp only [handleAhead, hword, hmark]

/-- No line break is among the characters of a handle. -/
theorem not_isBreak_of_handleAhead (hbreak : isBreak c.peek = false) :
    ∀ ch ∈ c.rest.take (handleAhead c).length, isBreak ch = false := by
  have hname := not_isBreak_of_mem_take_add (not_isBreak_of_mem_take_one hbreak)
    fun ch hmem => not_isBreak_of_mem_takeWhile isWord (by decide) (by decide) hmem
  simp only [handleAhead]
  split
  · rename_i hmark
    have := not_isBreak_of_mem_take_succ hname (by
      simp only [Cursor.blanks]
      rw [hmark]
      decide)
    simpa [Cursor.blanks, Nat.add_comm] using this
  · simpa [Cursor.blanks, Nat.add_comm] using hname

theorem agree_endTag {start start' : Mark} (hstart : start' = σ.mark start) (inFlow : Bool)
    (tag : Tag) (h : Retold σ c c') :
    σ.Agree (RetoldWith σ) (endTag start inFlow tag c) (endTag start' inFlow tag c') := by
  simp only [endTag, h.isGap_peek, h.isFlow_peek]
  split
  · exact .ok ⟨rfl, h⟩
  · exact agree_refuse hstart _

theorem agree_readTag (inFlow : Bool) (h : Retold σ c c') (hpeek : c.peek = '!') :
    σ.Agree (RetoldWith σ) (readTag inFlow c) (readTag inFlow c') := by
  have hbreak : isBreak c.peek = false := by rw [hpeek]; decide
  have hone := not_isBreak_of_mem_take_one hbreak
  have hbracket : c'.peekAt 1 = '<' ↔ c.peekAt 1 = '<' := (h.blanks hone).peek_eq_iff _ (by decide)
  simp only [readTag, hbracket, handleAhead_eq h hbreak]
  split
  · rename_i hverbatim
    have htwo := not_isBreak_of_mem_take_succ hone (by rw [hverbatim]; decide)
    simp only [readVerbatim]
    refine agree_bind (agree_readUri h.mark_eq (by decide) (by decide) [] (h.advance htwo)) ?_
    rintro ⟨suffix, c₁⟩ ⟨_, c₁'⟩ ⟨rfl, hr⟩
    simp only [hr.peek_eq_iff '>' (by decide)]
    split
    · rename_i hclose
      exact agree_endTag h.mark_eq _ _ (hr.advance_one (by rw [hclose]; decide))
    · exact agree_refuse h.mark_eq _
  · split
    · simp only [readHandled]
      refine agree_bind (agree_readUri h.mark_eq (by decide) (by decide) []
        (h.advance (not_isBreak_of_handleAhead hbreak))) ?_
      rintro ⟨suffix, c₁⟩ ⟨_, c₁'⟩ ⟨rfl, hr⟩
      simp only
      split
      · exact agree_refuse h.mark_eq _
      · exact agree_endTag h.mark_eq _ _ hr
    · have hlength : 1 + ((handleAhead c).drop 1).length = (handleAhead c).length := by
        simp only [handleAhead]
        split <;> simp <;> omega
      simp only [readLocal, hlength]
      refine agree_bind (agree_readUri h.mark_eq (by decide) (by decide) _
        (h.advance (not_isBreak_of_handleAhead hbreak))) ?_
      rintro ⟨suffix, c₁⟩ ⟨_, c₁'⟩ ⟨rfl, hr⟩
      exact agree_endTag h.mark_eq _ _ hr

end Property

/-! ### Directives -/

namespace Directive

variable {start start' : Mark}

theorem agree_readNumber (hstart : start' = σ.mark start) (h : Retold σ c c') :
    σ.Agree (RetoldWith σ) (readNumber start c) (readNumber start' c') := by
  simp only [readNumber, h.takeWhile_eq Char.isDigit (by decide) (by decide)]
  split
  · exact agree_refuse hstart _
  · split
    · exact agree_refuse hstart _
    · exact .ok ⟨rfl, h.advance fun ch hmem =>
        not_isBreak_of_mem_takeWhile _ (by decide) (by decide) hmem⟩

theorem agree_readVersion (hstart : start' = σ.mark start) (h : Retold σ c c') :
    σ.Agree (RetoldWith σ) (readVersion start c) (readVersion start' c') := by
  simp only [readVersion]
  refine agree_bind (agree_readNumber hstart h.skipBlanks) ?_
  rintro ⟨major, c₁⟩ ⟨_, c₁'⟩ ⟨rfl, h₁⟩
  simp only [h₁.peek_eq_iff '.' (by decide)]
  split
  · rename_i hpoint
    refine agree_bind (agree_readNumber hstart (h₁.advance_one (by rw [hpoint]; decide))) ?_
    rintro ⟨minor, c₂⟩ ⟨_, c₂'⟩ ⟨rfl, h₂⟩
    exact .ok ⟨rfl, h₂⟩
  · exact agree_refuse hstart _

theorem agree_readTagStart (hstart : start' = σ.mark start) (h : Retold σ c c') :
    σ.Agree (RetoldWith σ) (readTagStart start c) (readTagStart start' c') := by
  simp only [readTagStart, h.peek_eq_iff '!' (by decide),
    h.class_peek isTagChar (by decide)]
  split
  · rename_i hmark
    exact Property.agree_readUri hstart (by decide) (by decide) _
      (h.advance_one (by rw [hmark]; decide))
  · split
    · exact Property.agree_readUri hstart (by decide) (by decide) _ h
    · exact agree_refuse hstart _

theorem agree_readTagMeaning (hstart : start' = σ.mark start) (h : Retold σ c c') :
    σ.Agree (RetoldWith σ) (readTagMeaning start c) (readTagMeaning start' c') := by
  have h₁ := h.skipBlanks
  simp only [readTagMeaning, ne_eq, h₁.peek_eq_iff '!' (by decide)]
  split
  · exact agree_refuse hstart _
  · rename_i hmark
    have hbreak : isBreak c.skipBlanks.peek = false := by
      rw [Decidable.not_not.mp hmark]
      decide
    rw [Property.handleAhead_eq h₁ hbreak]
    split
    · exact agree_refuse hstart _
    · rcases cases_of_agree (agree_readTagStart hstart
        (h₁.advance (Property.not_isBreak_of_handleAhead hbreak)).skipBlanks) with
        ⟨e, hread, hread'⟩ | ⟨⟨text, c₂⟩, ⟨_, c₂'⟩, hread, hread', rfl, h₂⟩
      · rw [hread, hread']
        exact .error e
      · rw [hread, hread']
        simp only [h₂.isGap_peek]
        split
        · exact .ok ⟨rfl, h₂⟩
        · exact agree_refuse hstart _

theorem agree_readMeaning (hstart : start' = σ.mark start) (name : List Char)
    (h : Retold σ c c') :
    σ.Agree (RetoldWith σ) (readMeaning start name c) (readMeaning start' name c') := by
  unfold readMeaning
  split
  · exact agree_readVersion hstart h
  · split
    · exact agree_readTagMeaning hstart h
    · exact .ok ⟨rfl, h.comment⟩

theorem agree_readDirective (h : Retold σ c c') (hbreak : isBreak c.peek = false) :
    σ.Agree (RetoldWith σ) (readDirective c) (readDirective c') := by
  have hname := h.advance_one hbreak
  simp only [readDirective, hname.takeWhile_eq isWord (by decide) (by decide)]
  have hend := hname.advance fun ch hmem =>
    not_isBreak_of_mem_takeWhile isWord (by decide) (by decide) hmem
  split
  · exact agree_refuse hname.mark_eq _
  · rw [hend.isGap_peek]
    split
    · exact agree_refuse hname.mark_eq _
    · refine agree_bind (agree_readMeaning h.mark_eq _ hend) ?_
      rintro ⟨directive, c₁⟩ ⟨_, c₁'⟩ ⟨rfl, h₁⟩
      refine agree_bind h₁.lineRest fun c₂ c₂' h₂ => ?_
      rw [h₂.isLineEnd_peek]
      split
      · exact .ok ⟨rfl, h₂.lineBreak⟩
      · exact agree_refuse h.mark_eq _

end Directive

end Yaml

end YamlLocator
