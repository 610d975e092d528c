import YamlLocator.Yaml.Cursor.Basic

/-!
# How Far a Move Goes

Reading a token is a loop over moves, and such a loop ends because every round
takes something away from the text that is left. This module says so for each
move: no move gives anything back, and a move that is made because the next
character is of some class takes at least that character.

The end of the text is what makes the second part worth stating. A cursor at the
end still shows a next character, `endMark`, so a class promises progress only if
`endMark` is not in it.

## Theorems

* `left_blanks`, `left_advance`, `left_nextLine`: What the plain moves leave.
* `left_pos_of_class`: Something is left where a character of a class is next.
* `left_lineBreak_lt`: A line break takes something away.
* `left_advanceWhile_lt`: So does going over a class that the next character is in.
* `left_comment_lt`, `left_lineTail_lt`: So do comments, and blanks at the end of a
  line.
-/

namespace YamlLocator

namespace Yaml

namespace Cursor

@[simp]
theorem left_blanks (c : Cursor) (count : Nat) : (c.blanks count).left = c.left - count := by
  simp [left, blanks]

@[simp]
theorem left_advance (c : Cursor) (count : Nat) : (c.advance count).left = c.left - count := by
  simp [left, advance, blanks]

@[simp]
theorem left_nextLine (c : Cursor) : c.nextLine.left = c.left - 1 := by
  simp [left, nextLine]

@[simp]
theorem left_lookAt (c : Cursor) (count : Nat) : (c.lookAt count).left = c.left := rfl

/-- Something is left where a character other than the end is next. -/
theorem left_pos_of_peek_ne (c : Cursor) (h : c.peek ≠ endMark) : 0 < c.left := by
  rcases hr : c.rest with _ | ⟨ch, rest⟩
  · simp [peek, hr] at h
  · simp [left, hr]

/-- Something is left where the next character is of a class without the end. -/
theorem left_pos_of_class (c : Cursor) (inClass : Char → Bool) (hend : inClass endMark = false)
    (h : inClass c.peek = true) : 0 < c.left := by
  refine left_pos_of_peek_ne c fun he => ?_
  rw [he, hend] at h
  exact absurd h (by simp)

theorem left_lineBreak_le (c : Cursor) : c.lineBreak.left ≤ c.left := by
  unfold lineBreak
  split
  · rw [left_nextLine, left_blanks]
    omega
  · simp
  · simp
  · exact Nat.le_refl _

/-- A line break takes something away. -/
theorem left_lineBreak_lt (c : Cursor) (h : isBreak c.peek = true) : c.lineBreak.left < c.left := by
  have hpos := left_pos_of_class c isBreak (by decide) h
  rcases hr : c.rest with _ | ⟨ch, rest⟩
  · simp [left, hr] at hpos
  · have hch : ch = '\n' ∨ ch = '\r' := by simpa [peek, hr, isBreak] using h
    unfold lineBreak
    rcases hch with rfl | rfl
    · rw [hr]
      simp
      omega
    · rw [hr]
      split
      · rw [left_nextLine, left_blanks]
        omega
      · simp_all
      · rw [left_nextLine]
        omega
      · simp_all

theorem left_advanceWhile_le (c : Cursor) (inClass : Char → Bool) :
    (c.advanceWhile inClass).left ≤ c.left := by
  simp [advanceWhile]

/-- Going over a class takes something away if the next character belongs to it. -/
theorem left_advanceWhile_lt (c : Cursor) (inClass : Char → Bool) (hend : inClass endMark = false)
    (h : inClass c.peek = true) : (c.advanceWhile inClass).left < c.left := by
  have hpos := left_pos_of_class c inClass hend h
  rcases hr : c.rest with _ | ⟨ch, rest⟩
  · simp [left, hr] at hpos
  · have hch : inClass ch = true := by simpa only [peek, hr, List.headD_cons] using h
    have hlen : 0 < (c.rest.takeWhile inClass).length := by simp [hr, hch]
    rw [advanceWhile, left_advance]
    omega

theorem left_skipBlanks_le (c : Cursor) : c.skipBlanks.left ≤ c.left := by
  simp [skipBlanks]

theorem left_skipBlanks_lt (c : Cursor) (h : isBlank c.peek = true) :
    c.skipBlanks.left < c.left := left_advanceWhile_lt c isBlank (by decide) h

theorem left_comment_le (c : Cursor) : c.comment.left ≤ c.left := left_advanceWhile_le ..

theorem left_comment_lt (c : Cursor) (h : c.peek = '#') : c.comment.left < c.left :=
  left_advanceWhile_lt c _ (by decide) (by rw [h]; decide)

theorem left_lineTail_le (c : Cursor) : c.lineTail.left ≤ c.left := by
  have h := left_skipBlanks_le c
  simp only [lineTail]
  split
  · exact Nat.le_trans (left_comment_le _) h
  · exact h

theorem left_lineTail_lt (c : Cursor) (h : isBlank c.peek = true) : c.lineTail.left < c.left := by
  have h := left_skipBlanks_lt c h
  simp only [lineTail]
  split
  · exact Nat.lt_of_le_of_lt (left_comment_le _) h
  · exact h

theorem left_lineRest_le {c c' : Cursor} (h : c.lineRest = .ok c') : c'.left ≤ c.left := by
  unfold lineRest at h
  split at h
  · simp [Mark.refuse] at h
  · simp only [Except.ok.injEq] at h
    rw [← h]
    exact left_lineTail_le c

end Cursor

end Yaml

end YamlLocator
