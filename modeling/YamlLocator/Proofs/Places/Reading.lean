import YamlLocator.Proofs.Places.Basic
import YamlLocator.Yaml.Cursor.Separation
import YamlLocator.Yaml.Directive

/-!
# Readers That Stay on a Line

The names of anchors, tags, and what a directive says are read without leaving the line. Whatever
such a reader looks at before it goes over it, it goes over characters that are there and are no
line breaks, so it ends further along the line; and if it refuses what it finds, it does so for
the mark at which it was begun.

What separates tokens may take several lines, and so may a directive with the break behind it. Of
these it is said only that they lead from place to place.

## Theorems

* `yields_readName`, `yields_readTag`: Properties stay on the line.
* `yields_readMeaning`: So does what a directive says.
* `yields_separation`, `yields_keySeparation`, `yields_readDirective`: What takes several lines
  leads from place to place.
-/

namespace YamlLocator

/-- All characters of a number are digits. -/
theorem Text.isSome_hexDigit?_of_mem {digits : List Char} {number : Nat}
    (h : hexNumber? digits = some number) : ∀ c ∈ digits, (hexDigit? c).isSome = true := by
  suffices hfold : ∀ start, digits.foldlM (m := Option)
      (fun number c => (hexDigit? c).map (number * 16 + ·)) start = some number →
      ∀ c ∈ digits, (hexDigit? c).isSome = true from hfold 0 h
  clear h
  induction digits with
  | nil => simp
  | cons c rest ih =>
    intro start hstart ch hmem
    rw [List.foldlM_cons] at hstart
    cases hdigit : hexDigit? c with
    | none => simp [hdigit] at hstart
    | some digit =>
      rcases List.mem_cons.mp hmem with rfl | hmem
      · simp [hdigit]
      · exact ih _ (by simpa [hdigit] using hstart) ch hmem

/-- A hexadecimal digit is neither a break nor the end. -/
theorem Text.not_isBreak_of_hexDigit? {c : Char} (h : (hexDigit? c).isSome = true) :
    Yaml.isBreak c = false ∧ Yaml.isEnd c = false := by
  refine ⟨Yaml.Retelling.not_isBreak_of_class (fun c => (hexDigit? c).isSome) (by decide)
    (by decide) h, Bool.eq_false_iff.mpr fun hend => ?_⟩
  rw [Yaml.isEnd, decide_eq_true_eq] at hend
  rw [hend] at h
  exact absurd h (by decide)

namespace Yaml

open Cursor

variable {text : List Char} {c : Cursor} {start : Mark}

/-! ### Separation -/

namespace Cursor

theorem yields_separation (h : c.Stands text) (margin : Nat) (broken : Bool) :
    Yields (fun r => r.1.Stands text) (Text.IsPlace text) (separation margin broken c) := by
  fun_induction separation margin broken c with
  | case1 broken c hblank htab hend ih => exact ih (h.along (along_lineTail c))
  | case2 broken c hblank htab hend =>
    exact yields_refuse (Text.isPlace_of_stands (h.along (along_lineTail c))) _
  | case3 broken c hblank htab ih =>
    exact ih (h.along (along_blanks
      (shows_one_of_class isBlank (by decide) (by decide) (by decide) hblank)))
  | case4 broken c hblank hbreak ih => exact ih h.lineBreak
  | case5 broken c hblank hbreak hcomment ih => exact ih (h.along (along_comment c))
  | case6 broken c => exact yields_ok h

theorem stands_keyGap (h : c.Stands text) : c.keyGap.Stands text := by
  fun_induction keyGap c with
  | case1 c hspace ih =>
    exact ih (h.along (along_blanks (shows_one_of_eq hspace (by decide) (by decide))))
  | case2 c hspace hbreak ih => exact ih h.lineBreak
  | case3 c hspace hbreak hcomment ih => exact ih (h.along (along_comment c))
  | case4 c => exact h

theorem yields_keySeparation (h : c.Stands text) :
    Yields (Stands text) (Text.IsPlace text) c.keySeparation := by
  unfold keySeparation
  split
  · split
    · exact yields_refuse (Text.isPlace_of_stands (stands_keyGap h)) _
    · exact yields_ok (stands_keyGap h)
  · exact yields_refuse (Text.isPlace_of_stands h) _

end Cursor

/-! ### Properties -/

namespace Property

theorem yields_readName (h : c.Shows 1) :
    Yields (fun r => Along c r.2) (fun m => m = c.mark) (readName c) := by
  simp only [readName]
  split
  · refine yields_refuse ?_ _
    rfl
  · exact yields_ok ((along_advance h).trans
      (along_advance (shows_takeWhile _ isAnchorChar (by decide) (by decide))))

/-- The three characters of an escaped byte are there. -/
theorem shows_of_octet? {octet : Nat} (h : octet? c = some octet) : c.Shows 3 := by
  unfold octet? at h
  split at h
  · rename_i hpeek
    have hdigits := Text.isSome_hexDigit?_of_mem h
    have hfirst := Text.not_isBreak_of_hexDigit? (hdigits (c.peekAt 1) (by simp))
    have hsecond := Text.not_isBreak_of_hexDigit? (hdigits (c.peekAt 2) (by simp))
    exact ((shows_one_of_eq hpeek (by decide) (by decide)).succ hfirst.1 hfirst.2).succ
      hsecond.1 hsecond.2
  · simp at h

theorem yields_readOctets (start : Mark) (count number : Nat) (c : Cursor) :
    Yields (fun r => Along c r.2) (fun m => m = start) (readOctets start count number c) := by
  induction count generalizing number c with
  | zero => exact yields_ok (.refl c)
  | succ count ih =>
    simp only [readOctets]
    split
    · refine yields_refuse ?_ _
      rfl
    · rename_i octet hoctet
      split
      · refine yields_imp (ih _ _) (fun r hr => ?_) (fun _ => id)
        exact (along_advance (shows_of_octet? hoctet)).trans hr
      · refine yields_refuse ?_ _
        rfl

theorem yields_readEscaped (start : Mark) (c : Cursor) :
    Yields (fun r => Along c r.2) (fun m => m = start) (readEscaped start c) := by
  unfold readEscaped
  split
  · refine yields_refuse ?_ _
    rfl
  · rename_i octet hoctet
    split
    · refine yields_refuse ?_ _
      rfl
    · rename_i width _
      have hrest := yields_readOctets start (width - 1) octet (c.advance 3)
      split
      · rename_i e he
        exact of_yields_error hrest he
      · rename_i number c' hr
        have hrest := of_yields_ok hrest hr
        split
        · exact yields_ok ((along_advance (shows_of_octet? hoctet)).trans hrest)
        · refine yields_refuse ?_ _
          rfl

theorem yields_readUri (start : Mark) (inClass : Char → Bool) (hfeed : inClass '\n' = false)
    (hreturn : inClass '\r' = false) (chars : List Char) (c : Cursor) :
    Yields (fun r => Along c r.2) (fun m => m = start) (readUri start inClass chars c) := by
  fun_induction readUri start inClass chars c with
  | case1 chars c hclass hescape e hread => exact of_yields_error (yields_readEscaped start c) hread
  | case2 chars c hclass hescape ch c' hread ih =>
    have hescaped := of_yields_ok (yields_readEscaped start c) hread
    exact yields_imp ih (fun r hr => Along.trans hescaped hr) (fun _ => id)
  | case3 chars c hclass hescape ih =>
    refine yields_imp ih (fun r hr => ?_) (fun _ => id)
    refine (along_advance (shows_one ?_ (by simpa using hclass.2))).trans hr
    exact Retelling.not_isBreak_of_class inClass hfeed hreturn hclass.1
  | case4 chars c => exact yields_ok (.refl c)

/-- A handle is as long as there are characters of it. -/
theorem shows_handleAhead (hpeek : c.peek = '!') : c.Shows (handleAhead c).length := by
  have hone : c.Shows 1 := shows_one_of_eq hpeek (by decide) (by decide)
  have hname : c.Shows (1 + ((c.rest.drop 1).takeWhile isWord).length) :=
    hone.add (shows_takeWhile (c.blanks 1) isWord (by decide) (by decide))
  simp only [handleAhead]
  split
  · rename_i hclosed
    have := hname.succ (by rw [hclosed]; decide) (by rw [hclosed]; decide)
    simpa [Nat.add_comm, Nat.add_left_comm] using this
  · simpa [Nat.add_comm] using hname

theorem yields_endTag (start : Mark) (inFlow : Bool) (tag : Tag) (c : Cursor) :
    Yields (fun r => Along c r.2) (fun m => m = start) (endTag start inFlow tag c) := by
  unfold endTag
  split
  · exact yields_ok (.refl c)
  · refine yields_refuse ?_ _
    rfl

/-- A tag ends further along the line. -/
theorem yields_readTag (inFlow : Bool) (hpeek : c.peek = '!') :
    Yields (fun r => Along c r.2) (fun m => m = c.mark) (readTag inFlow c) := by
  have hone : c.Shows 1 := shows_one_of_eq hpeek (by decide) (by decide)
  have hhandle := shows_handleAhead hpeek
  -- Behind the characters of the tag it has to end.
  have hend {c₁ : Cursor} (h₁ : Along c c₁) (tag : Tag) :
      Yields (fun r => Along c r.2) (fun m => m = c.mark) (endTag c.mark inFlow tag c₁) :=
    yields_imp (yields_endTag _ _ _ _) (fun _ hr => h₁.trans hr) (fun _ => id)
  have huri (inClass : Char → Bool) (hfeed : inClass '\n' = false) (hreturn : inClass '\r' = false)
      (chars : List Char) {count : Nat} (h : c.Shows count) :
      Yields (fun r => Along c r.2) (fun m => m = c.mark)
        (readUri c.mark inClass chars (c.advance count)) :=
    yields_imp (yields_readUri _ _ hfeed hreturn _ _) (fun _ hr => (along_advance h).trans hr)
      (fun _ => id)
  unfold readTag
  split
  · rename_i hsign
    have htwo : c.Shows 2 := hone.succ (by rw [hsign]; decide) (by rw [hsign]; decide)
    refine yields_bind (huri isUriChar (by decide) (by decide) [] htwo) ?_
    rintro ⟨suffix, c'⟩ - h'
    simp only
    split
    · rename_i hclosed
      have hclosed := shows_one_of_eq hclosed (by decide) (by decide)
      exact hend (Along.trans h' (along_advance hclosed)) _
    · refine yields_refuse ?_ _
      rfl
  · split
    · refine yields_bind (huri isTagChar (by decide) (by decide) [] hhandle) ?_
      rintro ⟨suffix, c'⟩ - h'
      simp only
      split
      · refine yields_refuse ?_ _
        rfl
      · exact hend h' _
    · have hname : c.Shows (1 + ((handleAhead c).drop 1).length) := by
        refine hhandle.mono ?_
        have : 0 < (handleAhead c).length := by
          simp only [handleAhead]
          split <;> simp
        rw [List.length_drop]
        omega
      refine yields_bind (huri isTagChar (by decide) (by decide) _ hname) ?_
      rintro ⟨suffix, c'⟩ - h'
      exact hend h' _

end Property

/-! ### Directives -/

namespace Directive

theorem yields_readNumber (start : Mark) (c : Cursor) :
    Yields (fun r => Along c r.2) (fun m => m = start) (readNumber start c) := by
  simp only [readNumber]
  split
  · refine yields_refuse ?_ _
    rfl
  · split
    · refine yields_refuse ?_ _
      rfl
    · exact yields_ok (along_advance (shows_takeWhile c _ (by decide) (by decide)))

theorem yields_readVersion (start : Mark) (c : Cursor) :
    Yields (fun r => Along c r.2) (fun m => m = start) (readVersion start c) := by
  refine yields_bind (yields_readNumber start c.skipBlanks) ?_
  rintro ⟨major, c₁⟩ - h₁
  have h₁ : Along c c₁ := (along_skipBlanks c).trans h₁
  simp only
  split
  · rename_i hpoint
    have hpoint := along_advance (shows_one_of_eq hpoint (by decide) (by decide))
    refine yields_bind (yields_readNumber start (c₁.advance 1)) ?_
    rintro ⟨minor, c₂⟩ - h₂
    exact yields_ok (h₁.trans (hpoint.trans h₂))
  · refine yields_refuse ?_ _
    rfl

theorem yields_readTagStart (start : Mark) (c : Cursor) :
    Yields (fun r => Along c r.2) (fun m => m = start) (readTagStart start c) := by
  unfold readTagStart
  split
  · rename_i hsign
    have hsign := along_advance (shows_one_of_eq hsign (by decide) (by decide))
    exact yields_imp (Property.yields_readUri _ _ (by decide) (by decide) _ _)
      (fun _ hr => hsign.trans hr) (fun _ => id)
  · split
    · exact Property.yields_readUri _ _ (by decide) (by decide) _ _
    · refine yields_refuse ?_ _
      rfl

theorem yields_readTagMeaning (start : Mark) (c : Cursor) :
    Yields (fun r => Along c r.2) (fun m => m = start) (readTagMeaning start c) := by
  simp only [readTagMeaning]
  split
  · refine yields_refuse ?_ _
    rfl
  · rename_i hsign
    have hhandle : Along c (c.skipBlanks.advance (Property.handleAhead c.skipBlanks).length) :=
      (along_skipBlanks c).trans
        (along_advance (Property.shows_handleAhead (Decidable.not_not.mp hsign)))
    generalize Property.handleAhead c.skipBlanks = handle at hhandle ⊢
    have htext := yields_readTagStart start (c.skipBlanks.advance handle.length).skipBlanks
    split
    · refine yields_refuse ?_ _
      rfl
    · split
      · rename_i e he
        exact of_yields_error htext he
      · rename_i chars c₂ hread
        have htext := of_yields_ok htext hread
        split
        · exact yields_ok (hhandle.trans ((along_skipBlanks _).trans htext))
        · refine yields_refuse ?_ _
          rfl

/-- What a directive says ends further along the line. -/
theorem yields_readMeaning (start : Mark) (name : List Char) (c : Cursor) :
    Yields (fun r => Along c r.2) (fun m => m = start) (readMeaning start name c) := by
  unfold readMeaning
  split
  · exact yields_readVersion start c
  · split
    · exact yields_readTagMeaning start c
    · exact yields_ok (along_comment c)

/-- A directive leads to a place on the next line. -/
theorem yields_readDirective (h : c.Stands text) (hsign : c.Shows 1) :
    Yields (fun r => r.2.Stands text) (Text.IsPlace text) (readDirective c) := by
  have hname : Along c (c.advance 1) := along_advance hsign
  have hend : Along c ((c.advance 1).advance ((c.advance 1).rest.takeWhile isWord).length) :=
    hname.trans (along_advance (shows_takeWhile _ isWord (by decide) (by decide)))
  have hplace : Text.IsPlace text c.mark := Text.isPlace_of_stands h
  have hnamePlace : Text.IsPlace text (c.advance 1).mark := Text.isPlace_of_stands (h.along hname)
  simp only [readDirective]
  split
  · exact yields_refuse hnamePlace _
  · split
    · exact yields_refuse hnamePlace _
    · refine yields_bind (P := fun r => r.2.Stands text) ?_ ?_
      · exact yields_imp (yields_readMeaning c.mark _ _) (fun r hr => h.along (hend.trans hr))
          (fun m hm => hm ▸ hplace)
      · rintro ⟨directive, c₁⟩ - h₁
        refine yields_bind (P := Stands text) ?_ fun c₂ _ h₂ => ?_
        · exact yields_imp (yields_lineRest c₁) (fun _ hr => h₁.along hr)
            (fun m hm => hm ▸ Text.isPlace_of_stands h₁)
        · split
          · exact yields_ok h₂.lineBreak
          · exact yields_refuse hplace _

end Directive

end Yaml

end YamlLocator
