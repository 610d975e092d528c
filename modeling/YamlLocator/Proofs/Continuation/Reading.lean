import YamlLocator.Proofs.Continuation.Basic
import YamlLocator.Proofs.Places.Reading

/-!
# Reading a Text That Goes On

What lies between tokens may lead to the line that ends the document, and ends there. Properties
and directives belong to a line of their own in front of it.

## Main definitions

* `Cursor.appendTo`: Something that was read, with the cursor in the text that goes on.

## Theorems

* `Cursor.carries_separation`, `Cursor.carries_keySeparation`: What separates tokens is passed
  alike.
* `Property.carries_readName`, `Property.carries_readTag`: Names and tags are read alike.
* `Directive.carries_readDirective`: Directives are read alike.
-/

namespace YamlLocator

namespace Yaml

open Cursor

variable {c : Cursor} (more : List Char)

namespace Cursor

/-- Something that was read, with the cursor behind it in the text that goes on. -/
def appendTo {α : Type} (r : α × Cursor) : α × Cursor := (r.1, r.2.append more)

/-! ### Separation -/

theorem carries_separation (h : c.IsBefore) (margin : Nat) (broken : Bool) :
    Carries (fun r => (r.1.append more, r.2)) (fun r => r.1.IsBefore)
      (separation margin broken c) (separation margin broken (c.append more)) := by
  have hinside {c : Cursor} (h : c.IsBefore) (hblank : isBlank c.peek = true) : c.IsInside :=
    h.isInside_of_class isBlank (by decide) hblank
  have htail {c : Cursor} (h : c.IsBefore) (hblank : isBlank c.peek = true) :
      c.lineTail.IsBefore := ((hinside h hblank).along (along_lineTail c)).isBefore
  fun_induction separation margin broken c with
  | case1 broken c hblank htab hend ih =>
    rw [separation.eq_def margin broken (c.append more), h.peek_append, if_pos hblank,
      indenting_append, column_append, if_pos htab, lineTail_append more h.mem,
      (htail h hblank).peek_append, if_pos hend]
    exact ih (htail h hblank)
  | case2 broken c hblank htab hend =>
    rw [separation.eq_def margin broken (c.append more), h.peek_append, if_pos hblank,
      indenting_append, column_append, if_pos htab, lineTail_append more h.mem,
      (htail h hblank).peek_append, if_neg hend]
    exact carries_refuse _ _
  | case3 broken c hblank htab ih =>
    rw [separation.eq_def margin broken (c.append more), h.peek_append, if_pos hblank,
      indenting_append, column_append, if_neg htab]
    have hshows := shows_one_of_class isBlank (by decide) (by decide) (by decide) hblank
    rw [blanks_append more hshows.le_left]
    exact ih ((hinside h hblank).blanks hshows).isBefore
  | case4 broken c hblank hbreak ih =>
    rw [separation.eq_def margin broken (c.append more), h.peek_append, if_neg hblank,
      if_pos hbreak, lineBreak_append more h]
    exact ih (h.isInside_of_class isBreak (by decide) hbreak).lineBreak
  | case5 broken c hblank hbreak hcomment ih =>
    rw [separation.eq_def margin broken (c.append more), h.peek_append, if_neg hblank,
      if_neg hbreak, if_pos hcomment, comment_append more h.mem]
    exact ih ((h.isInside (by rw [hcomment]; decide)).along (along_comment c)).isBefore
  | case6 broken c hblank hbreak hcomment =>
    rw [separation.eq_def margin broken (c.append more), h.peek_append, if_neg hblank,
      if_neg hbreak, if_neg hcomment]
    exact .ok h

theorem keyGap_append (h : c.IsBefore) :
    (c.append more).keyGap = c.keyGap.append more ∧ c.keyGap.IsBefore := by
  fun_induction keyGap c with
  | case1 c hspace ih =>
    have hshows := shows_one_of_eq hspace (by decide) (by decide)
    rw [keyGap.eq_def (c.append more), h.peek_append, if_pos hspace,
      blanks_append more hshows.le_left]
    exact ih ((h.isInside (by rw [hspace]; decide)).blanks hshows).isBefore
  | case2 c hspace hbreak ih =>
    rw [keyGap.eq_def (c.append more), h.peek_append, if_neg hspace, if_pos hbreak,
      lineBreak_append more h]
    exact ih (h.isInside_of_class isBreak (by decide) hbreak).lineBreak
  | case3 c hspace hbreak hcomment ih =>
    rw [keyGap.eq_def (c.append more), h.peek_append, if_neg hspace, if_neg hbreak,
      if_pos hcomment, comment_append more h.mem]
    exact ih ((h.isInside (by rw [hcomment]; decide)).along (along_comment c)).isBefore
  | case4 c hspace hbreak hcomment =>
    rw [keyGap.eq_def (c.append more), h.peek_append, if_neg hspace, if_neg hbreak,
      if_neg hcomment]
    exact ⟨rfl, h⟩

theorem carries_keySeparation (h : c.IsBefore) :
    Carries (append more) IsBefore c.keySeparation (c.append more).keySeparation := by
  rcases keyGap_append more h with ⟨hgap, hbefore⟩
  simp only [keySeparation, h.peek_append, hgap, hbefore.peek_append]
  refine carries_ite (fun _ => ?_) fun _ => carries_refuse _ _
  exact carries_ite (fun _ => carries_refuse _ _) fun _ => .ok hbefore

end Cursor

/-! ### Properties -/

namespace Property

theorem carries_readName (h : c.IsInside) (hsign : c.Shows 1) :
    Carries (appendTo more) (fun r => r.2.IsInside) (readName c) (readName (c.append more)) := by
  have hname := h.advance hsign
  have hlength := shows_takeWhile (c.advance 1) isAnchorChar (by decide) (by decide)
  simp only [readName, advance_append more hsign.le_left,
    takeWhile_append more hname.isBefore.mem isAnchorChar (by decide)]
  refine carries_ite (fun _ => carries_refuse _ _) fun _ => ?_
  rw [advance_append more hlength.le_left]
  exact .ok (hname.advance hlength)

theorem octet?_append (h : c.IsInside) : octet? (c.append more) = octet? c := by
  rw [octet?, octet?, h.isBefore.peek_append, h.isBefore.peekAt_append more (by decide : 1 ≤ 3),
    h.isBefore.peekAt_append more (by decide : 2 ≤ 3)]

theorem carries_readOctets (h : c.IsInside) (start : Mark) (count number : Nat) :
    Carries (appendTo more) (fun r => r.2.IsInside) (readOctets start count number c)
      (readOctets start count number (c.append more)) := by
  induction count generalizing number c with
  | zero => exact .ok h
  | succ count ih =>
    simp only [readOctets, octet?_append more h]
    split
    · exact carries_refuse _ _
    · rename_i octet hoctet
      have hshows := shows_of_octet? hoctet
      rw [advance_append more hshows.le_left]
      exact carries_ite (fun _ => ih (h.advance hshows) _) fun _ => carries_refuse _ _

theorem carries_readEscaped (h : c.IsInside) (start : Mark) :
    Carries (appendTo more) (fun r => r.2.IsInside) (readEscaped start c)
      (readEscaped start (c.append more)) := by
  simp only [readEscaped, octet?_append more h]
  split
  · exact carries_refuse _ _
  · rename_i octet hoctet
    split
    · exact carries_refuse _ _
    · rename_i width _
      have hshows := shows_of_octet? hoctet
      rw [advance_append more hshows.le_left]
      rcases cases_of_carries (carries_readOctets more (h.advance hshows) start (width - 1) octet)
        with ⟨e, hread, hread'⟩ | ⟨⟨number, c₁⟩, hread, hread', h₁⟩
      · rw [hread, hread']
        exact .error e
      · rw [hread, hread']
        exact carries_ite (fun _ => .ok h₁) fun _ => carries_refuse _ _

theorem carries_readUri (h : c.IsInside) (start : Mark) (inClass : Char → Bool)
    (hfeed : inClass '\n' = false) (hreturn : inClass '\r' = false) (chars : List Char) :
    Carries (appendTo more) (fun r => r.2.IsInside) (readUri start inClass chars c)
      (readUri start inClass chars (c.append more)) := by
  fun_induction readUri start inClass chars c with
  | case1 chars c hclass hescape e hread =>
    rw [readUri_of_escape (by rwa [h.isBefore.peek_append]) (by rwa [h.isBefore.peek_append]),
      eq_error_of_carries (carries_readEscaped more h start) hread]
    exact .error e
  | case2 chars c hclass hescape ch c' hread ih =>
    rcases eq_ok_of_carries (carries_readEscaped more h start) hread with ⟨hread', h'⟩
    rw [readUri_of_escape (c := c.append more) (by rwa [h.isBefore.peek_append])
      (by rwa [h.isBefore.peek_append]), hread']
    exact ih h'
  | case3 chars c hclass hescape ih =>
    have hshows : c.Shows 1 :=
      shows_one (Retelling.not_isBreak_of_class inClass hfeed hreturn hclass.1)
        (by simpa using hclass.2)
    rw [readUri.eq_def start inClass chars (c.append more), h.isBefore.peek_append,
      if_pos hclass, if_neg hescape, advance_append more hshows.le_left]
    exact ih (h.advance hshows)
  | case4 chars c hclass =>
    rw [readUri.eq_def start inClass chars (c.append more), h.isBefore.peek_append,
      if_neg hclass]
    exact .ok h

theorem handleAhead_append (h : c.IsInside) (hpeek : c.peek = '!') :
    handleAhead (c.append more) = handleAhead c := by
  have hone := shows_one_of_eq hpeek (by decide) (by decide)
  have hname := h.blanks hone
  have hlength := shows_takeWhile (c.blanks 1) isWord (by decide) (by decide)
  have htake : ((c.append more).rest.drop 1).takeWhile isWord =
      (c.rest.drop 1).takeWhile isWord := by
    have := takeWhile_append more hname.isBefore.mem isWord (by decide)
    rwa [← blanks_append more hone.le_left] at this
  -- The character behind the name is there, as the line that ends the document is behind it.
  have hbehind : (c.append more).peekAt (1 + ((c.rest.drop 1).takeWhile isWord).length) =
      c.peekAt (1 + ((c.rest.drop 1).takeWhile isWord).length) := by
    refine peekAt_append more ?_
    have hlong := (hname.blanks hlength).isBefore.three_lt_left
    simp only [left_blanks] at hlong
    have hle := hlength.le_left
    rw [left_blanks] at hle
    simp only [Cursor.blanks] at hlong hle
    omega
  simp only [handleAhead, htake, hbehind]

theorem carries_endTag (h : c.IsInside) (start : Mark) (inFlow : Bool) (tag : Tag) :
    Carries (appendTo more) (fun r => r.2.IsInside) (endTag start inFlow tag c)
      (endTag start inFlow tag (c.append more)) := by
  simp only [endTag, h.isBefore.peek_append]
  exact carries_ite (fun _ => .ok h) fun _ => carries_refuse _ _

/-- The characters of a tag are read alike behind its sign. -/
theorem carries_readUri_advance (h : c.IsInside) {count : Nat} (hshows : c.Shows count)
    (start : Mark) (inClass : Char → Bool) (hfeed : inClass '\n' = false)
    (hreturn : inClass '\r' = false) (chars : List Char) :
    Carries (appendTo more) (fun r => r.2.IsInside) (readUri start inClass chars (c.advance count))
      (readUri start inClass chars ((c.append more).advance count)) := by
  rw [advance_append more hshows.le_left]
  exact carries_readUri more (h.advance hshows) start inClass hfeed hreturn chars

theorem carries_readTag (h : c.IsInside) (inFlow : Bool) (hpeek : c.peek = '!') :
    Carries (appendTo more) (fun r => r.2.IsInside) (readTag inFlow c)
      (readTag inFlow (c.append more)) := by
  have hone : c.Shows 1 := shows_one_of_eq hpeek (by decide) (by decide)
  have hhandle := shows_handleAhead hpeek
  simp only [readTag, h.isBefore.peekAt_append more (by decide : 1 ≤ 3),
    handleAhead_append more h hpeek]
  refine carries_ite (fun hsign => ?_) fun _ => carries_ite (fun _ => ?_) fun _ => ?_
  · have htwo : c.Shows 2 := hone.succ (by rw [hsign]; decide) (by rw [hsign]; decide)
    refine carries_bind (carries_readUri_advance more h htwo c.mark isUriChar (by decide)
      (by decide) []) ?_
    rintro ⟨suffix, c'⟩ - (h' : c'.IsInside)
    simp only [appendTo, h'.isBefore.peek_append]
    refine carries_ite (fun hclosed => ?_) fun _ => carries_refuse _ _
    have hclosed := shows_one_of_eq hclosed (by decide) (by decide)
    rw [advance_append more hclosed.le_left]
    exact carries_endTag more (h'.advance hclosed) _ _ _
  · refine carries_bind (carries_readUri_advance more h hhandle c.mark isTagChar (by decide)
      (by decide) []) ?_
    rintro ⟨suffix, c'⟩ - (h' : c'.IsInside)
    exact carries_ite (fun _ => carries_refuse _ _) fun _ => carries_endTag more h' _ _ _
  · have hname : c.Shows (1 + ((handleAhead c).drop 1).length) := by
      refine hhandle.mono ?_
      have : 0 < (handleAhead c).length := by
        simp only [handleAhead]
        split <;> simp
      rw [List.length_drop]
      omega
    refine carries_bind (carries_readUri_advance more h hname c.mark isTagChar (by decide)
      (by decide) _) ?_
    rintro ⟨suffix, c'⟩ - (h' : c'.IsInside)
    exact carries_endTag more h' _ _ _

end Property

/-! ### Directives -/

namespace Directive

theorem carries_readNumber (h : c.IsInside) (start : Mark) :
    Carries (appendTo more) (fun r => r.2.IsInside) (readNumber start c)
      (readNumber start (c.append more)) := by
  have hshows := shows_takeWhile c Char.isDigit (by decide) (by decide)
  simp only [readNumber, takeWhile_append more h.isBefore.mem Char.isDigit (by decide),
    advance_append more hshows.le_left]
  refine carries_ite (fun _ => carries_refuse _ _) fun _ => ?_
  exact carries_ite (fun _ => carries_refuse _ _) fun _ => .ok (h.advance hshows)

theorem carries_readVersion (h : c.IsInside) (start : Mark) :
    Carries (appendTo more) (fun r => r.2.IsInside) (readVersion start c)
      (readVersion start (c.append more)) := by
  simp only [readVersion, skipBlanks_append more h.isBefore.mem]
  refine carries_bind (carries_readNumber more (h.along (along_skipBlanks c)) start) ?_
  rintro ⟨major, c₁⟩ - (h₁ : c₁.IsInside)
  simp only [appendTo, h₁.isBefore.peek_append]
  refine carries_ite (fun hpoint => ?_) fun _ => carries_refuse _ _
  have hpoint := shows_one_of_eq hpoint (by decide) (by decide)
  rw [advance_append more hpoint.le_left]
  refine carries_bind (carries_readNumber more (h₁.advance hpoint) start) ?_
  rintro ⟨minor, c₂⟩ - h₂
  exact .ok h₂

theorem carries_readTagStart (h : c.IsInside) (start : Mark) :
    Carries (appendTo more) (fun r => r.2.IsInside) (readTagStart start c)
      (readTagStart start (c.append more)) := by
  simp only [readTagStart, h.isBefore.peek_append]
  refine carries_ite (fun hsign => ?_) fun _ => carries_ite (fun _ => ?_) fun _ => ?_
  · exact Property.carries_readUri_advance more h (shows_one_of_eq hsign (by decide) (by decide))
      start isUriChar (by decide) (by decide) _
  · exact Property.carries_readUri more h start isUriChar (by decide) (by decide) _
  · exact carries_refuse _ _

theorem carries_readTagMeaning (h : c.IsInside) (start : Mark) :
    Carries (appendTo more) (fun r => r.2.IsInside) (readTagMeaning start c)
      (readTagMeaning start (c.append more)) := by
  have h₀ := h.along (along_skipBlanks c)
  simp only [readTagMeaning, skipBlanks_append more h.isBefore.mem, h₀.isBefore.peek_append]
  refine carries_ite (fun _ => carries_refuse _ _) fun hsign => ?_
  have hsign : c.skipBlanks.peek = '!' := Decidable.not_not.mp hsign
  have hhandle := Property.shows_handleAhead hsign
  rw [Property.handleAhead_append more h₀ hsign]
  refine carries_ite (fun _ => carries_refuse _ _) fun _ => ?_
  have h₁ := h₀.advance hhandle
  rw [advance_append more hhandle.le_left, skipBlanks_append more h₁.isBefore.mem]
  rcases cases_of_carries (carries_readTagStart more (h₁.along (along_skipBlanks _)) start) with
    ⟨e, hread, hread'⟩ | ⟨⟨chars, c₂⟩, hread, hread', (h₂ : c₂.IsInside)⟩
  · rw [hread, hread']
    exact .error e
  · rw [hread, hread']
    simp only [appendTo, h₂.isBefore.peek_append]
    exact carries_ite (fun _ => .ok h₂) fun _ => carries_refuse _ _

theorem carries_readMeaning (h : c.IsInside) (start : Mark) (name : List Char) :
    Carries (appendTo more) (fun r => r.2.IsInside) (readMeaning start name c)
      (readMeaning start name (c.append more)) := by
  unfold readMeaning
  refine carries_ite (fun _ => carries_readVersion more h start) fun _ => ?_
  refine carries_ite (fun _ => carries_readTagMeaning more h start) fun _ => ?_
  rw [comment_append more h.isBefore.mem]
  exact .ok (h.along (along_comment c))

/-- A directive is read alike, up to the next line. -/
theorem carries_readDirective (h : c.IsInside) (hsign : c.Shows 1) :
    Carries (appendTo more) (fun r => r.2.IsBefore) (readDirective c)
      (readDirective (c.append more)) := by
  have hname := h.advance hsign
  have hlength := shows_takeWhile (c.advance 1) isWord (by decide) (by decide)
  have hend := hname.advance hlength
  simp only [readDirective, advance_append more hsign.le_left,
    takeWhile_append more hname.isBefore.mem isWord (by decide),
    advance_append more hlength.le_left, hend.isBefore.peek_append]
  refine carries_ite (fun _ => carries_refuse _ _) fun _ => ?_
  refine carries_ite (fun _ => carries_refuse _ _) fun _ => ?_
  refine carries_bind (carries_readMeaning more hend c.mark _) ?_
  rintro ⟨directive, c₁⟩ - (h₁ : c₁.IsInside)
  refine carries_bind (carries_lineRest more h₁) fun c₂ _ h₂ => ?_
  rw [h₂.isBefore.peek_append, lineBreak_append more h₂.isBefore]
  exact carries_ite (fun _ => .ok h₂.lineBreak) fun _ => carries_refuse _ _

end Directive

end Yaml

end YamlLocator
