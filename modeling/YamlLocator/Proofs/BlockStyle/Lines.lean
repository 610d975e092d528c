import YamlLocator.Proofs.BlockStyle.Basic
import YamlLocator.Yaml.Cursor.Separation
import YamlLocator.Yaml.Scalar.Quoted

/-!
# Going over Lines in Block Style

What the moves of a cursor do on the lines of a document in block style. There are two of
them that matter. Between two rows lies a line feed and the indentation of the second one,
which separation goes over. Inside a row stand quoted strings, which are read back as what
they were before they were quoted.

Blanks inside a quoted string are held back until the next character comes, so the lemma
about it is stated for any blanks that are held back already. It needs the cursor behind the
first column, since a line inside quotes may otherwise look like a marker between documents.

## Theorems

* `separation_of_stop`: Nothing separates a cursor from a token that it stands at.
* `separation_lineFeed`: Separation goes over a line feed and the indentation behind it.
* `readQuoted_quoted`: A quoted string is read back.
-/

namespace YamlLocator

namespace Yaml

theorem Mark.right_right (mark : Mark) (m n : Nat) :
    (mark.right m).right n = mark.right (m + n) := by
  simp [right, Nat.add_assoc]

namespace Cursor

@[simp]
theorem rest_blanks (c : Cursor) (n : Nat) : (c.blanks n).rest = c.rest.drop n := rfl

@[simp]
theorem mark_blanks (c : Cursor) (n : Nat) : (c.blanks n).mark = c.mark.right n := rfl

@[simp]
theorem rest_advance (c : Cursor) (n : Nat) : (c.advance n).rest = c.rest.drop n := rfl

@[simp]
theorem mark_advance (c : Cursor) (n : Nat) : (c.advance n).mark = c.mark.right n := rfl

theorem blanks_zero (c : Cursor) : c.blanks 0 = c := by
  simp [blanks, Mark.right]

theorem blanks_blanks (c : Cursor) (m n : Nat) : (c.blanks m).blanks n = c.blanks (m + n) := by
  simp [blanks, Mark.right_right, Nat.sub_sub]

theorem peek_cons {c : Cursor} {ch : Char} {rest : List Char} (h : c.rest = ch :: rest) :
    c.peek = ch := by
  simp [peek, h]

theorem peek_nil {c : Cursor} (h : c.rest = []) : c.peek = endMark := by
  simp [peek, h]

/-- Whether a character begins a token rather than lying between two. -/
def isStop (ch : Char) : Bool := !isBlank ch && !isBreak ch && ch ≠ '#'

/-- Nothing separates a cursor from a token that it stands at. -/
theorem separation_of_stop (margin : Nat) (broken : Bool) {c : Cursor}
    (h : isStop c.peek = true) : c.separation margin broken = .ok (c, broken) := by
  simp only [isStop, Bool.and_eq_true, Bool.not_eq_true', decide_eq_true_eq] at h
  rw [separation, if_neg (by simp [h.1.1]), if_neg (by simp [h.1.2]), if_neg h.2]

/-- Separation goes over blanks. The margin only matters for tabs. -/
theorem separation_blanks (margin : Nat) (broken : Bool) (front : List Char) {c : Cursor}
    {rest : List Char} (hblank : ∀ ch ∈ front, isBlank ch = true)
    (htab : '\t' ∈ front → margin = 0) (h : c.rest = front ++ rest) :
    c.separation margin broken = (c.blanks front.length).separation margin broken := by
  induction front generalizing c with
  | nil => rw [List.length_nil, blanks_zero]
  | cons ch front ih =>
    have hpeek : c.peek = ch := peek_cons h
    have hrest : (c.blanks 1).rest = front ++ rest := by
      simp [blanks, h]
    have hmargin : ¬(ch = '\t' ∧ c.indenting = true ∧ c.column + 1 < margin) := by
      rintro ⟨rfl, _, hlt⟩
      have := htab List.mem_cons_self
      omega
    rw [separation, hpeek, if_pos (hblank ch List.mem_cons_self), if_neg hmargin,
      ih (fun ch hmem => hblank ch (List.mem_cons_of_mem _ hmem))
        (fun hmem => htab (List.mem_cons_of_mem _ hmem)) hrest,
      blanks_blanks, List.length_cons, Nat.add_comm]

/-- Separation goes over spaces. -/
theorem separation_spaces (margin : Nat) (broken : Bool) (n : Nat) {c : Cursor}
    {rest : List Char} (h : c.rest = List.replicate n ' ' ++ rest) :
    c.separation margin broken = (c.blanks n).separation margin broken := by
  have hspace (ch : Char) (hmem : ch ∈ List.replicate n ' ') : ch = ' ' :=
    List.eq_of_mem_replicate hmem
  have := separation_blanks margin broken (List.replicate n ' ')
    (fun ch hmem => by rw [hspace ch hmem]; decide)
    (fun hmem => absurd (hspace _ hmem) (by decide)) h
  rwa [List.length_replicate] at this

/-- Separation goes over a line feed and the indentation behind it, up to a token. -/
theorem separation_lineFeed (margin : Nat) (broken : Bool) (n : Nat) {c : Cursor}
    {rest : List Char} (h : c.rest = '\n' :: (List.replicate n ' ' ++ rest))
    (hstop : isStop (rest.headD endMark) = true) :
    c.separation margin broken = .ok (c.nextLine.blanks n, true) := by
  have hpeek : c.peek = '\n' := peek_cons h
  have hbreak : c.lineBreak = c.nextLine := by
    rw [lineBreak, h]
    rfl
  have hrest : c.nextLine.rest = List.replicate n ' ' ++ rest := by
    simp [nextLine, h]
  have hpeek' : (c.nextLine.blanks n).peek = rest.headD endMark := by
    simp [peek, blanks, hrest]
  rw [separation, hpeek, if_neg (by decide), if_pos (by decide), hbreak,
    separation_spaces margin true n hrest, separation_of_stop margin true (by rwa [hpeek'])]

/-- Nothing but the token itself is gone over if neither blanks nor a comment follow it. -/
theorem lineRest_of_ne {c : Cursor} (hblank : isBlank c.peek = false) (hcomment : c.peek ≠ '#') :
    c.lineRest = .ok c := by
  have hskip : c.skipBlanks = c := by
    have hnone : c.rest.takeWhile isBlank = [] := by
      rcases hrest : c.rest with _ | ⟨ch, rest⟩
      · rfl
      · rw [peek_cons hrest] at hblank
        rw [List.takeWhile_cons_of_neg (by simp [hblank])]
    rw [skipBlanks, hnone, List.length_nil, blanks_zero]
  simp only [lineRest, lineTail, hskip, hcomment, if_false]

end Cursor

namespace BlockStyle

open Quoted

theorem text_addBlank {gap : Gap} (h : gap.isBroken = false) (blank : Char) :
    (gap.addBlank blank).text = blank :: gap.text ∧ (gap.addBlank blank).isBroken = false := by
  cases gap with
  | none => exact ⟨rfl, rfl⟩
  | blanks run => exact ⟨rfl, rfl⟩
  | folded more => simp [Gap.isBroken] at h
  | escaped more => simp [Gap.isBroken] at h

/-- Behind the first column no marker between documents can stand. -/
theorem not_atDocumentMark {c : Cursor} (h : 0 < c.mark.column) : ¬c.atDocumentMark = true := by
  simp [Cursor.atDocumentMark, Cursor.atSign, Cursor.column, Nat.ne_of_gt h]

theorem atWord_of_peek {margin : Nat} {c : Cursor} {ch : Char} (hpeek : c.peek = ch)
    (hblank : ¬isBlank ch = true) (hline : isLineEnd ch = false) (hcolumn : 0 < c.mark.column)
    (hmargin : margin ≤ c.mark.column + 1) : AtWord margin c := by
  have hch : ¬isBreak ch = true ∧ ¬isEnd ch = true := by
    simpa [isLineEnd] using hline
  subst hpeek
  exact ⟨hblank, hch.1, not_atDocumentMark hcolumn, hch.2, Nat.not_lt_of_le hmargin⟩

/-- A character that is spelled between quotes is read. If it is a blank, it is held back. -/
theorem readQuoted_spelled {margin : Nat} (start : Mark) {ch : Char} (text rest : List Char)
    {gap : Gap} {c : Cursor} (hline : isLineEnd ch = false) (hrest : c.rest = spelled ch ++ rest)
    (hgap : gap.isBroken = false) (hcolumn : 0 < c.mark.column)
    (hmargin : margin ≤ c.mark.column + 1) :
    ∃ text' gap' c', readQuoted .single margin start text gap c =
        readQuoted .single margin start text' gap' c' ∧
      gap'.text ++ text' = ch :: (gap.text ++ text) ∧ gap'.isBroken = false ∧
      c'.rest = rest ∧ c'.mark = c.mark.right (spelled ch).length := by
  by_cases hquote : ch = '\''
  · -- A quote in the string is a pair of quotes in the text.
    rw [spelled, if_pos hquote] at hrest ⊢
    have hpeek : c.peek = '\'' := Cursor.peek_cons hrest
    have hnext : c.peekAt 1 = '\'' := by
      simp [Cursor.peekAt, hrest]
    have hword : AtWord margin c := atWord_of_peek hpeek (by decide) (by decide) hcolumn hmargin
    refine ⟨'\'' :: gap.text ++ text, .none, c.advance 2,
      readQuoted_of_pair hword ⟨rfl, hpeek, hnext⟩, ?_, rfl, ?_, rfl⟩
    · rw [hquote]
      rfl
    · simp [hrest]
  · rw [spelled, if_neg hquote] at hrest ⊢
    have hpeek : c.peek = ch := Cursor.peek_cons hrest
    by_cases hblank : isBlank ch = true
    · -- A blank is held back until the next character comes.
      rcases text_addBlank hgap ch with ⟨htext, hbroken⟩
      refine ⟨text, gap.addBlank ch, c.blanks 1, ?_, ?_, hbroken, ?_, rfl⟩
      · rw [readQuoted, hpeek, if_pos hblank, if_neg (by simp [hgap])]
      · rw [htext]
        rfl
      · simp [hrest]
    · -- Any other character is taken, behind the blanks that were held back.
      have hword : AtWord margin c := atWord_of_peek hpeek hblank hline hcolumn hmargin
      refine ⟨ch :: gap.text ++ text, .none, c.advance 1, ?_, rfl, rfl, ?_, rfl⟩
      · rw [readQuoted_of_letter hword (by simp [hpeek, hquote]) (by rwa [hpeek, Quotes.sign])
          (by simp), hpeek]
      · simp [hrest]

/-- The quote that closes a string ends it. -/
theorem readQuoted_close {margin : Nat} (start : Mark) (text suffix : List Char) (gap : Gap)
    {c : Cursor} (hrest : c.rest = '\'' :: suffix) (hsuffix : suffix.headD endMark ≠ '\'')
    (hcolumn : 0 < c.mark.column) (hmargin : margin ≤ c.mark.column + 1) :
    readQuoted .single margin start text gap c = .ok (gap.text ++ text, c.advance 1) := by
  have hpeek : c.peek = '\'' := Cursor.peek_cons hrest
  -- No second quote follows, so this one is not part of a pair.
  have hnext : c.peekAt 1 ≠ '\'' := by
    rwa [Cursor.peekAt, hrest, List.drop_succ_cons, List.drop_zero]
  have hword : AtWord margin c := atWord_of_peek hpeek (by decide) (by decide) hcolumn hmargin
  exact readQuoted_of_sign hword (fun hpair => hnext hpair.2.2) hpeek

/-- A quoted string is read back, up to the quote that closes it, behind what has been read
    already. -/
theorem readQuoted_chars {margin : Nat} (start : Mark) (chars text suffix : List Char) (gap : Gap)
    (c : Cursor) (hline : ∀ ch ∈ chars, isLineEnd ch = false)
    (hrest : c.rest = chars.flatMap spelled ++ '\'' :: suffix)
    (hsuffix : suffix.headD endMark ≠ '\'') (hgap : gap.isBroken = false)
    (hcolumn : 0 < c.mark.column) (hmargin : margin ≤ c.mark.column + 1) :
    ∃ c', readQuoted .single margin start text gap c =
        .ok (chars.reverse ++ (gap.text ++ text), c') ∧
      c'.rest = suffix ∧ c'.mark = c.mark.right ((chars.flatMap spelled).length + 1) := by
  induction chars generalizing text gap c with
  | nil =>
    refine ⟨c.advance 1, readQuoted_close start text suffix gap hrest hsuffix hcolumn hmargin, ?_,
      rfl⟩
    simp [hrest]
  | cons ch chars ih =>
    rw [List.flatMap_cons, List.append_assoc] at hrest
    rcases readQuoted_spelled start text _ (hline ch List.mem_cons_self) hrest hgap hcolumn hmargin
      with ⟨text₁, gap₁, c₁, hread, htext, hgap₁, hrest₁, hmark₁⟩
    -- The cursor has moved to the right, so it is still behind the margin.
    have hright : c.mark.column ≤ c₁.mark.column := by
      rw [hmark₁]
      exact Nat.le_add_right _ _
    rcases ih text₁ gap₁ c₁ (fun ch hmem => hline ch (List.mem_cons_of_mem _ hmem)) hrest₁ hgap₁
      (by omega) (by omega) with ⟨c', hread', hrest', hmark'⟩
    refine ⟨c', ?_, hrest', ?_⟩
    · rw [hread, hread', htext]
      simp
    · rw [hmark', hmark₁, Mark.right_right, List.flatMap_cons, List.length_append, Nat.add_assoc]

/-- A quoted string is read back. -/
theorem readQuoted_quoted {margin : Nat} (start : Mark) (text : LineText) (suffix : List Char)
    {c : Cursor} (hrest : c.rest = quoted text.text.toList ++ suffix)
    (hsuffix : suffix.headD endMark ≠ '\'') (hmargin : margin ≤ c.mark.column + 2) :
    ∃ c', readQuoted .single margin start [] .none (c.advance 1) =
        .ok (text.text.toList.reverse, c') ∧
      c'.rest = suffix ∧ c'.mark = c.mark.right (quoted text.text.toList).length := by
  have hrest' : (c.advance 1).rest = text.text.toList.flatMap spelled ++ '\'' :: suffix := by
    simp [hrest, quoted]
  rcases readQuoted_chars start _ [] suffix .none (c.advance 1) text.isLine hrest' hsuffix rfl
    (Nat.succ_pos _) hmargin with ⟨c', hread, hsuffix', hmark⟩
  refine ⟨c', ?_, hsuffix', ?_⟩
  · rw [hread]
    simp [Gap.text]
  · rw [hmark, Cursor.mark_advance, Mark.right_right, quoted, List.length_cons, List.length_append]
    congr 1
    exact Nat.add_comm _ _

end BlockStyle

end Yaml

end YamlLocator
