import YamlLocator.Yaml.Scalar.Folding
import YamlLocator.Yaml.Cursor.Progress

/-!
# Plain Scalars

Scalars without quotes. Where such a scalar ends is decided by what comes next: a
colon that could follow a key, an indicator of a flow collection inside one, a
comment, a marker between documents, or a line that is not indented enough.

The words of the scalar and the gaps between them are read in one loop. A word goes
on as long as its characters are text; the other reasons to end are looked for
only where a word begins behind a gap, and the gap is then left out. A tab in
the indentation of a further line is allowed if nothing but a comment follows it.
Such a comment hides the line break behind it, which then does not count.

## Main definitions

* `isText`: Whether the next character can be part of a plain scalar.
* `endsBefore`: Whether a plain scalar ends in front of what stands behind a gap.
* `readPlain`: The text of a plain scalar.

## Theorems

* `left_readPlain_le`: Reading a plain scalar gives nothing back.
-/

namespace YamlLocator

namespace Yaml

namespace Plain

/-- Whether a colon that could follow a key is next. -/
def atColon (inFlow : Bool) (c : Cursor) : Bool :=
  c.peek = ':' && (isGap (c.peekAt 1) || (inFlow && isFlow (c.peekAt 1)))

/-- Whether the next character can be part of a plain scalar. -/
def isText (inFlow : Bool) (c : Cursor) : Bool :=
  !isGap c.peek && !atColon inFlow c && !(inFlow && isFlow c.peek)

/-- Whether a plain scalar ends in front of what stands behind a gap. -/
def endsBefore (inFlow : Bool) (margin : Nat) (c : Cursor) : Bool :=
  (!inFlow && c.column < margin) || c.atDocumentMark || c.peek = '#'

/-- Whether a hyphen is next that no word in a flow collection may begin with. -/
def atFlowDash (inFlow : Bool) (c : Cursor) : Bool :=
  inFlow && c.peek = '-' && isFlow (c.peekAt 1)

/-- The text of a plain scalar, newest first and in front of what was read already,
    with the cursor behind the gap that it ends with. The gap is what lies between
    the text and the cursor. -/
def readPlain (inFlow : Bool) (margin : Nat) (start : Mark) (text : List Char) (gap : Gap)
    (c : Cursor) : Except SyntaxError (List Char × Cursor) :=
  if isBlank c.peek then
    if !c.indenting then
      readPlain inFlow margin start text (gap.addBlank c.peek) (c.blanks 1)
    else if c.peek = '\t' ∧ c.column < margin then
      if isLineEnd c.lineTail.peek then
        readPlain inFlow margin start text gap c.lineTail
      else
        start.refuse .tabInPlain
    else
      readPlain inFlow margin start text gap (c.blanks 1)
  else if isBreak c.peek then
    if gap.isBroken ∧ !c.indenting then
      readPlain inFlow margin start text gap c.lineBreak
    else
      readPlain inFlow margin start text gap.addBreak c.lineBreak
  else if gap ≠ .none ∧ endsBefore inFlow margin c then
    .ok (text, c)
  else if gap ≠ .none ∧ atFlowDash inFlow c then
    c.mark.refuse .plainStartsWithDash
  else if isText inFlow c then
    readPlain inFlow margin start (c.peek :: gap.text ++ text) .none (c.advance 1)
  else
    .ok (text, c)
termination_by c.left
decreasing_by
  · have := Cursor.left_pos_of_class c isBlank (by decide) ‹_›
    simp only [Cursor.left_blanks]
    omega
  · exact Cursor.left_lineTail_lt c ‹_›
  · have := Cursor.left_pos_of_class c isBlank (by decide) ‹_›
    simp only [Cursor.left_blanks]
    omega
  · exact Cursor.left_lineBreak_lt c ‹_›
  · exact Cursor.left_lineBreak_lt c ‹_›
  · rename_i htext
    have hgap : isGap c.peek = false := by
      simp only [isText, Bool.and_eq_true, Bool.not_eq_true'] at htext
      exact htext.1.1
    have := Cursor.left_pos_of_class c (fun ch => !isGap ch) (by decide) (by simp [hgap])
    simp only [Cursor.left_advance]
    omega

theorem left_readPlain_le {inFlow : Bool} {margin : Nat} {start : Mark} {text : List Char}
    {gap : Gap} {c : Cursor} {r : List Char × Cursor}
    (h : readPlain inFlow margin start text gap c = .ok r) : r.2.left ≤ c.left := by
  fun_induction readPlain inFlow margin start text gap c with
  | case1 text gap c hblank hindent ih => exact Nat.le_trans (ih h) (by simp)
  | case2 text gap c hblank hindent htab hend ih =>
    exact Nat.le_trans (ih h) (Cursor.left_lineTail_le c)
  | case3 => simp [Mark.refuse] at h
  | case4 text gap c hblank hindent htab ih => exact Nat.le_trans (ih h) (by simp)
  | case5 text gap c hblank hbreak hhidden ih =>
    exact Nat.le_trans (ih h) (Cursor.left_lineBreak_le c)
  | case6 text gap c hblank hbreak hhidden ih =>
    exact Nat.le_trans (ih h) (Cursor.left_lineBreak_le c)
  | case7 =>
    simp only [Except.ok.injEq] at h
    exact Nat.le_of_eq (by rw [← h])
  | case8 => simp [Mark.refuse] at h
  | case9 text gap c hblank hbreak hends hdash htext ih => exact Nat.le_trans (ih h) (by simp)
  | case10 =>
    simp only [Except.ok.injEq] at h
    exact Nat.le_of_eq (by rw [← h])

end Plain

end Yaml

end YamlLocator
