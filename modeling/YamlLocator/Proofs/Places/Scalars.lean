import YamlLocator.Proofs.Journey
import YamlLocator.Proofs.Places.Basic
import YamlLocator.Proofs.Places.Reading
import YamlLocator.Proofs.Retelling.BlockScalars
import YamlLocator.Yaml.Token.Basic

/-!
# What Stands Where a Scalar Begins

The mark of a scalar is the place of its first character: of its first letter if it is plain, of
its quote, or of the first character of the contents if it is a block scalar. Only a block scalar
without contents is placed at its sign instead.

A scalar that nothing was folded or escaped in is written out there, letter by letter. Whether
something was folded can be told from the value, because folding leaves a space or a line feed in
it. While a plain scalar is read, this is an invariant: as long as no line break was gone over,
what was read and the blanks behind it are what the text begins with.

Block scalars lead from place to place only if their contents are ASCII, since other characters
in them are not counted as they should be. They begin at a place in any case, and what is read
behind them is marked further on.

## Main definitions

* `Cursor.Reads`: A value is written out at a cursor, unless something was folded in it.
* `Cursor.Begins`: A scalar of a style and with a value begins at a cursor.
* `Plain.Follows`: What was read of a plain scalar follows its first character.

## Theorems

* `Plain.yields_readPlain`: A plain scalar is written out where it begins.
* `Quoted.yields_readQuoted`: A quoted scalar leads to a place.
* `Block.yields_readBlock`: A block scalar of one line is written out where it begins.
-/

namespace YamlLocator

namespace Yaml

open Cursor

/-- The value is written out at the cursor, if it holds neither a space nor a line feed. -/
def Cursor.Reads (c : Cursor) (value : List Char) : Prop :=
  ' ' ∉ value → '\n' ∉ value → value <+: c.rest

/-- A scalar of a style and with a value begins at the cursor. -/
def Cursor.Begins (c : Cursor) (style : ScalarStyle) (value : List Char) : Prop :=
  match style with
  | .plain => isGap c.peek = false ∧ c.Reads value
  | .singleQuoted => c.peek = '\''
  | .doubleQuoted => c.peek = '"'
  | .literal => isLineEnd c.peek = false ∧ (c.peek = '|' ∨ c.Reads value)
  | .folded => isLineEnd c.peek = false ∧ (c.peek = '>' ∨ c.Reads value)

/-- A scalar does not begin at the end of a line. -/
theorem Cursor.isLineEnd_of_begins {c : Cursor} {style : ScalarStyle} {value : List Char}
    (h : c.Begins style value) : isLineEnd c.peek = false := by
  cases style with
  | plain => exact (Bool.or_eq_false_iff.mp h.1).2
  | singleQuoted => rw [show c.peek = '\'' from h]; decide
  | doubleQuoted => rw [show c.peek = '"' from h]; decide
  | literal => exact h.1
  | folded => exact h.1

variable {text : List Char} {c : Cursor} {start : Mark}

/-- What is left begins with the next character, if there is one. -/
theorem Cursor.rest_eq_of_shows (h : c.Shows 1) : c.rest = c.peek :: (c.advance 1).rest := by
  have hpos := h.le_left
  rw [left] at hpos
  cases hrest : c.rest with
  | nil => simp [hrest] at hpos
  | cons next rest => simp [peek, advance, blanks, hrest]

/-! ### Plain scalars -/

namespace Plain

/-- What was read of a plain scalar follows its first character, and so do the blanks behind it
    as long as no line break was among them. -/
structure Follows (first : Cursor) (chars : List Char) (gap : Gap) (c : Cursor) : Prop where
  reads : first.Reads chars.reverse
  /-- Nothing is skipped within a line. -/
  rest : gap.isBroken = false → c.indenting = false ∧
    (' ' ∉ chars → '\n' ∉ chars → first.rest = chars.reverse ++ (gap.text.reverse ++ c.rest))
  /-- A line break leaves something in the value. -/
  folded : gap.isBroken = true → ' ' ∈ gap.text ∨ '\n' ∈ gap.text

variable {first : Cursor} {chars : List Char} {gap : Gap}

/-- Behind a line break it does not matter where the reader goes. -/
theorem Follows.of_isBroken (h : Follows first chars gap c) {gap' : Gap}
    (hbroken : gap'.isBroken = true) (hfolded : ' ' ∈ gap'.text ∨ '\n' ∈ gap'.text)
    (c' : Cursor) : Follows first chars gap' c' where
  reads := h.reads
  rest := fun hwhole => by simp [hbroken] at hwhole
  folded := fun _ => hfolded

theorem isBroken_addBreak (gap : Gap) : gap.addBreak.isBroken = true := by
  cases gap <;> rfl

theorem folded_addBreak (gap : Gap) : ' ' ∈ gap.addBreak.text ∨ '\n' ∈ gap.addBreak.text := by
  cases gap <;> simp [Gap.addBreak, Gap.text]

/-- A blank within a line becomes part of the gap. -/
theorem Follows.addBlank (h : Follows first chars gap c) (hindent : c.indenting = false)
    (hshows : c.Shows 1) : Follows first chars (gap.addBlank c.peek) (c.blanks 1) := by
  cases hbroken : gap.isBroken with
  | true =>
    have hsame : gap.addBlank c.peek = gap := by
      cases gap <;> simp_all [Gap.isBroken, Gap.addBlank]
    rw [hsame]
    exact h.of_isBroken hbroken (h.folded hbroken) _
  | false =>
    have htext : (gap.addBlank c.peek).text = c.peek :: gap.text := by
      cases gap <;> simp_all [Gap.isBroken, Gap.addBlank, Gap.text]
    refine ⟨h.reads, fun _ => ⟨hindent, fun hspace hfeed => ?_⟩, fun hbroken' => ?_⟩
    · have hrest : c.rest = c.peek :: (c.blanks 1).rest := rest_eq_of_shows hshows
      rw [(h.rest hbroken).2 hspace hfeed, htext, List.reverse_cons, List.append_assoc,
        List.singleton_append, ← hrest]
    · cases gap <;> simp_all [Gap.isBroken, Gap.addBlank]

/-- A character of the scalar is read behind the gap. -/
theorem Follows.read (h : Follows first chars gap c) (hshows : c.Shows 1) :
    Follows first (c.peek :: gap.text ++ chars) .none (c.advance 1) := by
  -- If a break was gone over, the value tells.
  have hrest (hspace : ' ' ∉ c.peek :: gap.text ++ chars)
      (hfeed : '\n' ∉ c.peek :: gap.text ++ chars) :
      first.rest = (c.peek :: gap.text ++ chars).reverse ++ (c.advance 1).rest := by
    simp only [List.cons_append, List.mem_cons, List.mem_append, not_or] at hspace hfeed
    cases hbroken : gap.isBroken with
    | true =>
      rcases h.folded hbroken with hmem | hmem
      · exact absurd hmem hspace.2.1
      · exact absurd hmem hfeed.2.1
    | false =>
      rw [(h.rest hbroken).2 hspace.2.2 hfeed.2.2]
      nth_rewrite 1 [rest_eq_of_shows hshows]
      simp
  refine ⟨fun hspace hfeed => ?_, fun _ => ⟨rfl, fun hspace hfeed => ?_⟩, fun hbroken => ?_⟩
  · exact ⟨_, (hrest (fun hmem => hspace (List.mem_reverse.mpr hmem))
      (fun hmem => hfeed (List.mem_reverse.mpr hmem))).symm⟩
  · simpa [Gap.text] using hrest hspace hfeed
  · simp [Gap.isBroken] at hbroken

/-- A plain scalar leads to a place, and is written out where it begins. -/
theorem yields_readPlain (inFlow : Bool) (margin : Nat) (h : c.Stands text)
    (hstart : Text.IsPlace text start) (hfollows : Follows first chars gap c) :
    Yields (fun r => r.2.Stands text ∧ first.Reads r.1.reverse) (Text.IsPlace text)
      (readPlain inFlow margin start chars gap c) := by
  fun_induction readPlain inFlow margin start chars gap c with
  | case1 chars gap c hblank hindent ih =>
    have hshows := shows_one_of_class isBlank (by decide) (by decide) (by decide) hblank
    exact ih (h.along (along_blanks hshows)) (hfollows.addBlank (by simpa using hindent) hshows)
  | case2 chars gap c hblank hindent htab hend ih =>
    have hbroken : gap.isBroken = true := by
      by_contra hwhole
      exact hindent (by simp [(hfollows.rest (by simpa using hwhole)).1])
    exact ih (h.along (along_lineTail c))
      (hfollows.of_isBroken hbroken (hfollows.folded hbroken) _)
  | case3 => exact yields_refuse hstart _
  | case4 chars gap c hblank hindent htab ih =>
    have hbroken : gap.isBroken = true := by
      by_contra hwhole
      exact hindent (by simp [(hfollows.rest (by simpa using hwhole)).1])
    exact ih (h.along (along_blanks
      (shows_one_of_class isBlank (by decide) (by decide) (by decide) hblank)))
      (hfollows.of_isBroken hbroken (hfollows.folded hbroken) _)
  | case5 chars gap c hblank hbreak hhidden ih =>
    exact ih h.lineBreak (hfollows.of_isBroken hhidden.1 (hfollows.folded hhidden.1) _)
  | case6 chars gap c hblank hbreak hhidden ih =>
    exact ih h.lineBreak (hfollows.of_isBroken (isBroken_addBreak gap) (folded_addBreak gap) _)
  | case7 chars gap c => exact yields_ok ⟨h, hfollows.reads⟩
  | case8 chars gap c => exact yields_refuse (Text.isPlace_of_stands h) _
  | case9 chars gap c hblank hbreak hends hdash htext ih =>
    have hgap : isGap c.peek = false := by
      simp only [isText, Bool.and_eq_true, Bool.not_eq_true'] at htext
      exact htext.1.1
    have hshows := shows_one_of_class (fun ch => !isGap ch) (by decide) (by decide) (by decide)
      (by simpa using hgap)
    exact ih (h.along (along_advance hshows)) (hfollows.read hshows)
  | case10 chars gap c => exact yields_ok ⟨h, hfollows.reads⟩

/-- The first character of a plain scalar follows itself. -/
theorem follows_advance (h : c.Shows 1) : Follows c [c.peek] .none (c.advance 1) := by
  have hrest := rest_eq_of_shows h
  refine ⟨fun _ _ => ⟨_, hrest.symm⟩, fun _ => ⟨rfl, fun _ _ => by simpa [Gap.text] using hrest⟩,
    fun hbroken => ?_⟩
  simp [Gap.isBroken] at hbroken

end Plain

/-! ### Quoted scalars -/

namespace Quoted

/-- The characters of an escape are there. -/
theorem yields_readEscape (start : Mark) (h : c.Shows 1) :
    Yields (fun r => Along c r.2) (fun m => m = start) (readEscape start c) := by
  simp only [readEscape]
  split
  · rename_i ch hletter
    refine yields_ok (along_advance (h.succ ?_ ?_))
    · exact Block.not_isBreak_of_apply (by decide) (by decide) hletter
    · rw [isEnd, decide_eq_false_iff_not]
      intro hend
      rw [hend] at hletter
      simp [letterEscape?, endMark] at hletter
  · split
    · refine yields_refuse ?_ _
      rfl
    · rename_i count hcount
      split
      · refine yields_refuse ?_ _
        rfl
      · rename_i number hnumber
        split
        · refine yields_refuse ?_ _
          rfl
        · rename_i hlength
          split
          · -- The letter is there because the digits are, and these belong to the line.
            have hdigits := Text.isSome_hexDigit?_of_mem hnumber
            have hletter : c.Shows 2 := by
              refine h.succ (Block.not_isBreak_of_apply (by decide) (by decide) hcount) ?_
              rw [isEnd, decide_eq_false_iff_not]
              intro hend
              rw [hend] at hcount
              simp [escapeDigits?, endMark] at hcount
            refine yields_ok (along_advance (hletter.add ⟨?_, fun ch hmem => ?_⟩))
            · exact Nat.le_trans (Nat.not_lt.mp hlength) (List.length_take_le' _ _)
            · exact (Text.not_isBreak_of_hexDigit? (hdigits ch hmem)).1
          · refine yields_refuse ?_ _
            rfl

/-- A quoted scalar leads to a place. -/
theorem yields_readQuoted (quotes : Quotes) (margin : Nat) (chars : List Char) (gap : Gap)
    (h : c.Stands text) (hstart : Text.IsPlace text start) :
    Yields (fun r => r.2.Stands text) (Text.IsPlace text)
      (readQuoted quotes margin start chars gap c) := by
  have hsign (quotes : Quotes) : isBreak quotes.sign = false ∧ isEnd quotes.sign = false := by
    cases quotes <;> decide
  fun_induction readQuoted quotes margin start chars gap c with
  | case1 chars gap c => exact yields_refuse (Text.isPlace_of_stands h) _
  | case2 chars gap c hblank htab ih =>
    exact ih (h.along (along_blanks
      (shows_one_of_class isBlank (by decide) (by decide) (by decide) hblank)))
  | case3 chars gap c hblank hbreak ih => exact ih h.lineBreak
  | case4 => exact yields_refuse hstart _
  | case5 => exact yields_refuse hstart _
  | case6 => exact yields_refuse hstart _
  | case7 chars gap c hblank hbreak hmark hend hmargin hsingle ih =>
    rcases hsingle with ⟨-, hquote, hquote'⟩
    exact ih (h.along (along_advance ((shows_one_of_eq hquote (by decide) (by decide)).succ
      (by rw [hquote']; decide) (by rw [hquote']; decide))))
  | case8 chars gap c hblank hbreak hmark hend hmargin hsingle hclose =>
    exact yields_ok (h.along (along_advance
      (shows_one_of_eq hclose (hsign quotes).1 (hsign quotes).2)))
  | case9 chars gap c hblank hbreak hmark hend hmargin hsingle hclose hdouble hescaped hnext =>
    have hslash := along_advance (shows_one_of_eq hdouble.2 (by decide) (by decide))
    exact yields_ok ((h.along hslash).lineBreak.along (along_advance
      (shows_one_of_eq hnext (hsign quotes).1 (hsign quotes).2)))
  | case10 chars gap c hblank hbreak hmark hend hmargin hsingle hclose hdouble hescaped hnext ih =>
    have hslash := along_advance (shows_one_of_eq hdouble.2 (by decide) (by decide))
    exact ih (h.along hslash).lineBreak
  | case11 chars gap c hblank hbreak hmark hend hmargin hsingle hclose hdouble hescaped e hread =>
    have hmark := of_yields_error
      (yields_readEscape start (shows_one_of_eq hdouble.2 (by decide) (by decide))) hread
    rw [← hmark] at hstart
    exact hstart
  | case12 chars gap c hblank hbreak hmark hend hmargin hsingle hclose hdouble hescaped ch c' hread
      ih =>
    have hrest := of_yields_ok
      (yields_readEscape start (shows_one_of_eq hdouble.2 (by decide) (by decide))) hread
    exact ih (h.along hrest)
  | case13 chars gap c hblank hbreak hmark hend hmargin hsingle hclose hdouble ih =>
    exact ih (h.along (along_advance
      (shows_one (Bool.eq_false_iff.mpr hbreak) (Bool.eq_false_iff.mpr hend))))

end Quoted

/-! ### Block scalars -/

namespace Block

theorem yields_readIncrement (start : Mark) (c : Cursor) :
    Yields (fun r => Along c r.2) (fun m => m = start) (Header.readIncrement start c) := by
  have hdigit {digit : Nat} (h : Header.digit? c.peek = some digit) : c.Shows 1 := by
    refine shows_one_of_class (fun ch => (Header.digit? ch).isSome) (by decide) (by decide)
      (by decide) ?_
    rw [h, Option.isSome_some]
  unfold Header.readIncrement
  split
  · exact yields_ok (.refl c)
  · refine yields_refuse ?_ _
    rfl
  · rename_i increment _ hincrement
    exact yields_ok (along_advance (hdigit hincrement))

theorem shows_of_chomping? {chomping : Chomping} (h : Header.chomping? c.peek = some chomping) :
    c.Shows 1 := by
  refine shows_one_of_class (fun ch => (Header.chomping? ch).isSome) (by decide) (by decide)
    (by decide) ?_
  rw [h, Option.isSome_some]

theorem yields_readHeader (start : Mark) (c : Cursor) :
    Yields (fun r => Along c r.2) (fun m => m = start) (Header.read start c) := by
  simp only [Header.read]
  split
  · rename_i chomping hsign
    refine yields_bind (yields_readIncrement start (c.advance 1)) ?_
    rintro ⟨increment, c₁⟩ - h₁
    exact yields_ok ((along_advance (shows_of_chomping? hsign)).trans h₁)
  · refine yields_bind (yields_readIncrement start c) ?_
    rintro ⟨increment, c₁⟩ - h₁
    simp only
    split
    · rename_i hsign
      exact yields_ok (Along.trans h₁ (along_advance (shows_of_chomping? hsign)))
    · exact yields_ok h₁

theorem along_indentation (width : Nat) (c : Cursor) : Along c (indentation width c) := by
  have hspaces := shows_takeWhile c (· = ' ') (by decide) (by decide)
  exact (along_blanks (hspaces.mono (Nat.min_le_left _ (width - c.column)))).trans (.of_eq rfl rfl)

theorem stands_skipIndent (h : c.Stands text) (width breaks : Nat) :
    (skipIndent width breaks c).2.Stands text ∧
      isBreak (skipIndent width breaks c).2.peek = false := by
  fun_induction skipIndent width breaks c with
  | case1 breaks c hbreak ih => exact ih (h.along (along_indentation width c)).lineBreak
  | case2 breaks c hbreak =>
    exact ⟨h.along (along_indentation width c), Bool.eq_false_iff.mpr hbreak⟩

theorem stands_skipFirstIndent (h : c.Stands text) (widest breaks : Nat) :
    (skipFirstIndent widest breaks c).2.2.Stands text ∧
      isBreak (skipFirstIndent widest breaks c).2.2.peek = false := by
  have hspaces (c : Cursor) : Along c (spaces c) :=
    along_blanks (shows_takeWhile c (· = ' ') (by decide) (by decide))
  fun_induction skipFirstIndent widest breaks c with
  | case1 widest breaks c hbreak ih => exact ih (h.along (hspaces c)).lineBreak
  | case2 widest breaks c hbreak => exact ⟨h.along (hspaces c), Bool.eq_false_iff.mpr hbreak⟩

theorem along_lineEnd (width : Nat) (hnarrow : Text.IsNarrow (contentChars c)) :
    Along c (lineEnd width c) := by
  have hchars : contentChars (c.lookAt (if width = 0 then 4 else 1)) = contentChars c := rfl
  rw [lineEnd, contents_eq_blanks (by rwa [hchars])]
  exact (along_lookAt c _).trans (along_blanks (shows_takeWhile _ _ (by decide) (by decide)))

theorem stands_readLines (h : c.Stands text) (fold : Bool) (width : Nat) (p : Progress)
    (hnarrow : Text.IsNarrow (readLines fold width p c).1.text) :
    (readLines fold width p c).2.Stands text := by
  fun_induction readLines fold width p c with
  | case1 p c hcontinues hbreak empty c' hskip ih =>
    have hend := along_lineEnd width fun ch hmem => hnarrow ch <|
      subset_text_readLines _ _ _ _ (contentChars_subset_readLine fold p c hmem)
    have hnext := (stands_skipIndent (h.along hend).lineBreak width 0).1
    rw [hskip] at hnext
    exact ih hnext hnarrow
  | case2 p c hcontinues hbreak =>
    exact h.along (along_lineEnd width fun ch hmem => hnarrow ch <|
      contentChars_subset_readLine fold p c hmem)
  | case3 p c => exact h

/-- The value of a block scalar is folded: a line break was gone over inside it. -/
def IsFolded (chars : List Char) : Prop := ' ' ∈ chars ∨ '\n' ∈ chars

theorem isFolded_of_subset {chars chars' : List Char} (h : chars ⊆ chars')
    (hfolded : IsFolded chars) : IsFolded chars' :=
  hfolded.imp (h ·) (h ·)

theorem isFolded_lineFeeds {breaks : Nat} (h : breaks ≠ 0) (chars : List Char) :
    IsFolded (lineFeeds breaks ++ chars) :=
  .inr (by simp [lineFeeds, h])

/-- What is joined behind a line break is folded. -/
theorem isFolded_joined {p : Progress} (h : p.broken = true) (fold blank : Bool) :
    IsFolded (p.joined fold blank) := by
  unfold Progress.joined
  split
  · split
    · exact .inl (by simp)
    · rename_i hempty
      exact isFolded_lineFeeds hempty _
  · exact isFolded_lineFeeds (by simp [h]) _

/-- Behind a line break either no line follows or something was folded. -/
theorem text_readLines_of_broken {p : Progress} (h : p.broken = true) (fold : Bool) (width : Nat)
    (c : Cursor) :
    (readLines fold width p c).1.text = p.text ∨ IsFolded (readLines fold width p c).1.text := by
  have hline (p : Progress) (c : Cursor) (h : p.broken = true) :
      IsFolded (readLine fold p c).text :=
    isFolded_of_subset (by simp [readLine]) (isFolded_joined h fold (isBlank c.peek))
  rw [readLines]
  split
  · split
    · exact .inr (isFolded_of_subset (subset_text_readLines _ _ _ _) (hline p c h))
    · exact .inr (hline p c h)
  · exact .inl rfl

/-- The lines of a scalar are folded, or they are the contents of the first line, or nothing. -/
theorem text_readLines_afterHeader (fold : Bool) (width breaks : Nat) (c : Cursor) :
    (readLines fold width (.afterHeader breaks) c).1.text = [] ∨
      (readLines fold width (.afterHeader breaks) c).1.text = (contentChars c).reverse ∨
        IsFolded (readLines fold width (.afterHeader breaks) c).1.text := by
  have hfirst : (readLine fold (.afterHeader breaks) c).text = (contentChars c).reverse ∨
      IsFolded (readLine fold (.afterHeader breaks) c).text := by
    have htext : (readLine fold (.afterHeader breaks) c).text =
        (contentChars c).reverse ++ lineFeeds breaks := by
      simp [readLine, Progress.joined, Progress.afterHeader]
    rw [htext]
    rcases Nat.eq_zero_or_pos breaks with rfl | hpos
    · exact .inl (by simp [lineFeeds])
    · refine .inr (.inr (List.mem_append_right _ ?_))
      simp [lineFeeds, Nat.ne_of_gt hpos]
  rw [readLines]
  split
  · split
    · -- More lines may follow.
      rcases text_readLines_of_broken
        (p := { readLine fold (.afterHeader breaks) c with
          broken := true
          empty := (skipIndent width 0 (lineEnd width c).lineBreak).1 })
        rfl fold width (skipIndent width 0 (lineEnd width c).lineBreak).2 with hsame | hfolded
      · rw [hsame]
        exact .inr hfirst
      · exact .inr (.inr hfolded)
    · exact .inr hfirst
  · exact .inl rfl

/-- What was read of the lines is written out at the cursor, whatever line breaks are added. -/
theorem reads_readLines (fold : Bool) (width breaks ending : Nat) (c : Cursor) :
    c.Reads
      (lineFeeds ending ++ (readLines fold width (.afterHeader breaks) c).1.text).reverse := by
  intro hspace hfeed
  rcases Nat.eq_zero_or_pos ending with rfl | hpos
  · rcases text_readLines_afterHeader fold width breaks c with htext | htext | hfolded
    · simp [htext, lineFeeds]
    · simpa [htext, lineFeeds, contentChars] using List.takeWhile_prefix _
    · rcases hfolded with hmem | hmem
      · exact absurd (by simp [hmem]) hspace
      · exact absurd (by simp [hmem]) hfeed
  · exact absurd (by simp [lineFeeds, Nat.ne_of_gt hpos]) hfeed

/-- Where no character is gone over, nothing but line feeds is read. -/
theorem isNarrow_readLines_of_left (fold : Bool) (width breaks : Nat) (c : Cursor)
    (h : c.left ≤ (readLines fold width (.afterHeader breaks) c).2.left) :
    Text.IsNarrow (readLines fold width (.afterHeader breaks) c).1.text := by
  rw [readLines] at h ⊢
  split at h
  · rename_i hcontinues
    rw [if_pos hcontinues]
    split at h
    · rename_i hbreak
      have h₁ := left_lineEnd_le width c
      have h₂ := left_lineBreak_lt (lineEnd width c) hbreak
      have h₃ := left_skipIndent_le width 0 (lineEnd width c).lineBreak
      have h₄ := Nat.le_trans h (left_readLines_le ..)
      omega
    · rename_i hbreak
      rw [if_neg hbreak]
      have hlength : (contentChars c).length ≤ c.left := (List.takeWhile_prefix _).length_le
      have hchars : contentChars (c.lookAt (if width = 0 then 4 else 1)) = contentChars c := rfl
      simp only [lineEnd, left_contents, hchars, left_lookAt] at h
      have hnil : contentChars c = [] := List.eq_nil_of_length_eq_zero (by omega)
      intro ch hmem
      simp only [readLine, hnil, Progress.joined, Progress.afterHeader, lineFeeds] at hmem
      simp_all
  · rename_i hcontinues
    rw [if_neg hcontinues]
    simp [Text.IsNarrow, Progress.afterHeader]

/-- A block scalar in a text: its contents begin where it is placed, which may be its sign. It leads
    to a place, or a character of several bytes in it leads the reader astray. -/
structure IsPlaced (text : List Char) (sign : Char) (r : Scalar) : Prop where
  begins : ∃ c, Stands text c ∧ c.mark = r.mark ∧ isLineEnd c.peek = false ∧
    (c.peek = sign ∨ c.Reads r.text)
  behind : r.behind.Stands text ∨
    (¬Text.IsNarrow r.text ∧ r.mark.index < r.behind.mark.index)

theorem yields_readBody {sign : Char} {first : Cursor} (hfirst : first.Stands text)
    (hsign : first.peek = sign) (hlineEnd : isLineEnd sign = false) (h : c.Stands text)
    (hbreak : isBreak c.peek = false) (fold : Bool) (margin : Nat) (chomping : Chomping)
    (width breaks : Nat) :
    Yields (IsPlaced text sign) (Text.IsPlace text)
      (readBody fold margin first.mark chomping width breaks c) := by
  simp only [readBody]
  split
  · exact yields_ok ⟨⟨first, hfirst, rfl, by rwa [hsign], .inl hsign⟩, .inl h⟩
  · rename_i hend
    split
    · exact yields_refuse (Text.isPlace_of_stands h) _
    · have hlineEnd : isLineEnd c.peek = false := by
        rw [isLineEnd, hbreak, Bool.eq_false_iff.mpr hend, Bool.or_false]
      have hreads := reads_readLines fold width breaks
        (ending chomping width (readLines fold width (.afterHeader breaks) c).1
          (readLines fold width (.afterHeader breaks) c).2) c
      refine yields_ok ⟨⟨c, h, rfl, hlineEnd, .inr hreads⟩, ?_⟩
      by_cases hnarrow : Text.IsNarrow (readLines fold width (.afterHeader breaks) c).1.text
      · exact .inl (stands_readLines h fold width _ hnarrow)
      · -- Something was read, so the reader is behind the beginning.
        refine .inr ⟨fun hall => hnarrow fun ch hmem => hall ch (by simp [hmem]), ?_⟩
        have hleads := leads_readLines fold width (.afterHeader breaks) c
        have hlt : (readLines fold width (.afterHeader breaks) c).2.left < c.left :=
          Nat.lt_of_not_le fun hle => hnarrow (isNarrow_readLines_of_left fold width breaks c hle)
        have := hleads.index
        simp only
        omega

/-- A block scalar is placed where its contents begin, or at its sign. -/
theorem yields_readBlock {sign : Char} (h : c.Stands text) (hsign : c.peek = sign)
    (hlineEnd : isLineEnd sign = false) (fold : Bool) (margin : Nat) :
    Yields (IsPlaced text sign) (Text.IsPlace text) (readBlock fold margin c) := by
  have hplace : Text.IsPlace text c.mark := Text.isPlace_of_stands h
  rcases Bool.or_eq_false_iff.mp hlineEnd with ⟨hbreak, hend⟩
  have hbehind : Along c ((c.lookAt 4).advance 1) :=
    (along_lookAt c 4).trans (along_advance (shows_one_of_eq (c := c.lookAt 4) hsign hbreak hend))
  simp only [readBlock]
  refine yields_bind (P := fun r => r.2.Stands text) ?_ ?_
  · exact yields_imp (yields_readHeader c.mark _) (fun r hr => h.along (hbehind.trans hr))
      (fun m hm => hm ▸ hplace)
  · rintro ⟨header, c₁⟩ - h₁
    simp only at h₁ ⊢
    refine yields_bind (P := Stands text) ?_ fun c₂ _ h₂ => ?_
    · exact yields_imp (yields_lineRest c₁) (fun _ hr => Stands.along h₁ hr)
        (fun m hm => hm ▸ Text.isPlace_of_stands h₁)
    · split
      · exact yields_refuse hplace _
      · split
        · exact yields_refuse hplace _
        · split
          · rename_i increment _
            rcases stands_skipIndent h₂.lineBreak (increment + (margin - 1)) 0 with ⟨h₃, hbreak₃⟩
            exact yields_readBody h hsign hlineEnd h₃ hbreak₃ fold margin _ _ _
          · rcases stands_skipFirstIndent h₂.lineBreak 0 0 with ⟨h₃, hbreak₃⟩
            exact yields_readBody h hsign hlineEnd h₃ hbreak₃ fold margin _ _ _

end Block

end Yaml

end YamlLocator
