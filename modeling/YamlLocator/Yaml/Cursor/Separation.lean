import YamlLocator.Yaml.Cursor.Progress

/-!
# Separation between Tokens

What lies between two tokens: blanks, comments and line breaks, in any order and
number. Two things about it matter to what comes after. Whether a line break was
among it decides if a new key may begin, and a tab may not be among the blanks by
which a line is indented, unless nothing else stands on that line.

How far a line has to be indented is given by `margin`, the least column at which
the contents of the innermost open block collection may stand, or zero if no block
collection is open.

## Main definitions

* `Cursor.separation`: Go over what separates two tokens.
* `Cursor.keySeparation`: Go over what separates an explicit key from its sign.

## Theorems

* `left_separation_le`, `left_keySeparation_le`: Neither gives anything back.
-/

namespace YamlLocator

namespace Yaml

namespace Cursor

/-- Go over blanks, comments and line breaks to the next token. The second
    component says whether a line break was among them, or `broken` held already. -/
def separation (margin : Nat) (broken : Bool) (c : Cursor) :
    Except SyntaxError (Cursor × Bool) :=
  if isBlank c.peek then
    if c.peek = '\t' ∧ c.indenting ∧ c.column + 1 < margin then
      if isLineEnd c.lineTail.peek then
        separation margin broken c.lineTail
      else
        c.lineTail.mark.refuse .tabInBlockIndentation
    else
      separation margin broken (c.blanks 1)
  else if isBreak c.peek then
    separation margin true c.lineBreak
  else if c.peek = '#' then
    separation margin broken c.comment
  else
    .ok (c, broken)
termination_by c.left
decreasing_by
  · rename_i h _ _
    exact left_lineTail_lt c h
  · rename_i h _
    have := left_pos_of_class c isBlank (by decide) h
    rw [left_blanks]
    omega
  · rename_i h
    exact left_lineBreak_lt c h
  · rename_i h
    exact left_comment_lt c h

/-- Go over spaces, comments and line breaks. -/
def keyGap (c : Cursor) : Cursor :=
  if c.peek = ' ' then
    keyGap (c.blanks 1)
  else if isBreak c.peek then
    keyGap c.lineBreak
  else if c.peek = '#' then
    keyGap c.comment
  else
    c
termination_by c.left
decreasing_by
  · rename_i h
    have := left_pos_of_peek_ne c (by rw [h]; decide)
    rw [left_blanks]
    omega
  · rename_i h
    exact left_lineBreak_lt c h
  · rename_i h
    exact left_comment_lt c h

/-- Go over what separates the sign of an explicit key from the key: at least one
    space or line break, and no tab in front of the key. -/
def keySeparation (c : Cursor) : Except SyntaxError Cursor :=
  if c.peek = ' ' ∨ isBreak c.peek then
    if c.keyGap.peek = '\t' then
      c.keyGap.mark.refuse .tabAfterKey
    else
      .ok c.keyGap
  else
    c.mark.refuse .whitespaceExpected

theorem left_separation_le {margin : Nat} {broken broken' : Bool} {c c' : Cursor}
    (h : separation margin broken c = .ok (c', broken')) : c'.left ≤ c.left := by
  fun_induction separation margin broken c with
  | case1 broken c hblank htab hend ih =>
    exact Nat.le_trans (ih h) (left_lineTail_le c)
  | case2 => simp [Mark.refuse] at h
  | case3 broken c hblank htab ih =>
    exact Nat.le_trans (ih h) (by simp)
  | case4 broken c hblank hbreak ih =>
    exact Nat.le_trans (ih h) (left_lineBreak_le c)
  | case5 broken c hblank hbreak hcomment ih =>
    exact Nat.le_trans (ih h) (left_comment_le c)
  | case6 =>
    simp only [Except.ok.injEq, Prod.mk.injEq] at h
    exact Nat.le_of_eq (by rw [h.1])

theorem left_keyGap_le (c : Cursor) : c.keyGap.left ≤ c.left := by
  fun_induction keyGap c with
  | case1 c hspace ih => exact Nat.le_trans ih (by simp)
  | case2 c hspace hbreak ih => exact Nat.le_trans ih (left_lineBreak_le c)
  | case3 c hspace hbreak hcomment ih => exact Nat.le_trans ih (left_comment_le c)
  | case4 => exact Nat.le_refl _

theorem left_keySeparation_le {c c' : Cursor} (h : keySeparation c = .ok c') :
    c'.left ≤ c.left := by
  unfold keySeparation at h
  split at h
  · split at h
    · simp [Mark.refuse] at h
    · simp only [Except.ok.injEq] at h
      rw [← h]
      exact left_keyGap_le c
  · simp [Mark.refuse] at h

end Cursor

end Yaml

end YamlLocator
