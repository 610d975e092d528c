import YamlLocator.Proofs.Places.Basic

/-!
# Texts That Go On

A line of three points ends a document, and what may stand behind it is of no concern to what is
in front of it. The reader finds that line without looking any further: it looks a few characters
ahead at most, everything that it goes over at once belongs to one line, and at the beginning of
the line of points every loop over lines comes to its end.

So as long as the line is ahead, a text that goes on behind it is read as if it did not. `Carries`
says so of results that may fail: they are the same error, or the second one is the first one with
more text left to read. Along with it goes what keeps the line ahead for the next reader.

## Main definitions

* `Carries`: A result is carried over to the text that goes on.
* `endLine`: The line that ends a document, with the break in front of it.
* `Cursor.append`: The cursor in the text that goes on.
* `Cursor.IsInside`, `Cursor.IsAtEnd`: The line is ahead with its break, or begins here.

## Theorems

* `Cursor.IsInside.along`: The line stays ahead of a cursor that moves along another line.
* `Cursor.IsInside.lineBreak`: Behind a break it is ahead, or begins there.
* `Cursor.carries_lineRest`: The rest of a line is passed alike.
-/

namespace YamlLocator

namespace Yaml

/-- The line that ends a document, with the line break in front of it. -/
def endLine : List Char := ['\n', '.', '.', '.', '\n']

/-! ### Outcomes -/

/-- Two results are the same error, or the second one comes of the first, which satisfies a
    condition. -/
inductive Carries {α : Type} (g : α → α) (P : α → Prop) :
    Except SyntaxError α → Except SyntaxError α → Prop
  | ok {a : α} (h : P a) : Carries g P (.ok a) (.ok (g a))
  | error (e : SyntaxError) : Carries g P (.error e) (.error e)

section

variable {α β : Type} {g : α → α} {g' : β → β} {P P' : α → Prop} {R : β → Prop}
  {x x' y y' : Except SyntaxError α}

theorem carries_refuse (m : Mark) (fault : Fault) :
    Carries g P (m.refuse fault) (m.refuse fault) := .error { fault, mark := m }

/-- Two values of which the second one comes of the first. -/
theorem carries_ok {a b : α} (hb : b = g a) (h : P a) : Carries g P (.ok a) (.ok b) := by
  rw [hb]
  exact .ok h

theorem carries_bind {f f' : α → Except SyntaxError β} (hx : Carries g P x x')
    (hf : ∀ a, x = .ok a → P a → Carries g' R (f a) (f' (g a))) :
    Carries g' R (x >>= f) (x' >>= f') := by
  cases hx with
  | ok h => exact hf _ rfl h
  | error e => exact .error e

theorem carries_imp (h : Carries g P x x') (himp : ∀ a, x = .ok a → P a → P' a) :
    Carries g P' x x' := by
  cases h with
  | ok h => exact .ok (himp _ rfl h)
  | error e => exact .error e

theorem carries_ite {p : Prop} [Decidable p] (hx : p → Carries g P x x')
    (hy : ¬p → Carries g P y y') : Carries g P (if p then x else y) (if p then x' else y') := by
  split
  · exact hx ‹_›
  · exact hy ‹_›

/-- Two results of which one is carried over are two errors or two values. -/
theorem cases_of_carries (h : Carries g P x x') :
    (∃ e, x = .error e ∧ x' = .error e) ∨ ∃ a, x = .ok a ∧ x' = .ok (g a) ∧ P a := by
  cases h with
  | ok h => exact .inr ⟨_, rfl, rfl, h⟩
  | error e => exact .inl ⟨e, rfl, rfl⟩

/-- An error is carried over as it is. -/
theorem eq_error_of_carries {e : SyntaxError} (h : Carries g P x x') (hx : x = .error e) :
    x' = .error e := by
  cases h with
  | ok h => cases hx
  | error e' => exact hx

/-- A value is carried over to the value that goes on. -/
theorem eq_ok_of_carries {a : α} (h : Carries g P x x') (hx : x = .ok a) :
    x' = .ok (g a) ∧ P a := by
  cases h with
  | ok h =>
    cases hx
    exact ⟨rfl, h⟩
  | error e => cases hx

end

namespace Cursor

variable {c c' : Cursor} {count : Nat}

/-! ### Where the line is -/

/-- The line that ends the document is ahead, with the break in front of it. -/
def IsInside (c : Cursor) : Prop := endLine <:+ c.rest

/-- The line that ends the document begins here. -/
structure IsAtEnd (c : Cursor) : Prop where
  rest_eq : c.rest = endLine.tail
  column_eq : c.column = 0

/-- The line that ends the document is ahead or begins here. -/
def IsBefore (c : Cursor) : Prop := c.IsInside ∨ c.IsAtEnd

theorem IsInside.isBefore (h : c.IsInside) : c.IsBefore := .inl h

theorem IsBefore.three_lt_left (h : c.IsBefore) : 3 < c.left := by
  rcases h with ⟨front, hfront⟩ | h
  · rw [left, ← hfront, List.length_append]
    exact Nat.lt_of_lt_of_le (by decide : 3 < endLine.length) (Nat.le_add_left ..)
  · rw [left, h.rest_eq]
    decide

/-- The line that ends the document is itself ended. -/
theorem IsBefore.mem (h : c.IsBefore) : '\n' ∈ c.rest := by
  rcases h with ⟨front, hfront⟩ | h
  · rw [← hfront]
    exact List.mem_append_right _ (by decide)
  · rw [h.rest_eq]
    decide

/-- The line is not both ahead with its break and here. -/
theorem IsInside.not_isAtEnd (h : c.IsInside) : ¬c.IsAtEnd := by
  intro hend
  have hlong := h.length_le
  rw [hend.rest_eq] at hlong
  exact absurd hlong (by decide)

theorem IsAtEnd.peek_eq (h : c.IsAtEnd) : c.peek = '.' := by
  rw [peek, h.rest_eq]
  rfl

theorem IsAtEnd.atSign (h : c.IsAtEnd) : c.atSign '.' = true := by
  simp only [Cursor.atSign, h.column_eq, peek, peekAt, h.rest_eq]
  decide

theorem IsAtEnd.atDocumentMark (h : c.IsAtEnd) : c.atDocumentMark = true := by
  rw [Cursor.atDocumentMark, h.atSign, Bool.or_true]

/-- Another character than a point shows that the line is still ahead. -/
theorem IsBefore.isInside (h : c.IsBefore) (hpeek : c.peek ≠ '.') : c.IsInside :=
  h.resolve_right fun hend => hpeek hend.peek_eq

theorem IsBefore.isInside_of_class (h : c.IsBefore) (inClass : Char → Bool)
    (hpoint : inClass '.' = false) (hclass : inClass c.peek = true) : c.IsInside := by
  refine h.isInside fun hpeek => ?_
  rw [hpeek, hpoint] at hclass
  exact absurd hclass (by simp)

theorem IsInside.of_eq (h : c.IsInside) (hrest : c'.rest = c.rest) : c'.IsInside := by
  rwa [IsInside, hrest]

/-! ### Moves -/

/-- The line stays ahead if some characters of another line are passed. -/
theorem IsInside.drop (h : c.IsInside) (hshows : c.Shows count) :
    endLine <:+ c.rest.drop count := by
  rcases h with ⟨front, hfront⟩
  rcases Nat.lt_or_ge front.length count with hlt | hle
  · -- The break in front of the line would be one of the characters.
    have hmem : '\n' ∈ c.rest.take count := by
      rw [← hfront, List.take_append, List.mem_append]
      refine .inr ?_
      obtain ⟨more, hmore⟩ := Nat.exists_eq_add_of_lt hlt
      rw [show count - front.length = more + 1 by omega]
      exact List.mem_cons_self
    exact absurd (hshows.not_isBreak _ hmem) (by decide)
  · rw [← hfront, List.drop_append_of_le_length hle]
    exact List.suffix_append _ _

theorem IsInside.blanks (h : c.IsInside) (hshows : c.Shows count) : (c.blanks count).IsInside :=
  h.drop hshows

theorem IsInside.advance (h : c.IsInside) (hshows : c.Shows count) : (c.advance count).IsInside :=
  h.drop hshows

/-- The line stays ahead of a cursor that moves along another line. -/
theorem IsInside.along (h : c.IsInside) (halong : Along c c') : c'.IsInside := by
  rcases halong with ⟨count, hshows, hrest, -⟩
  rw [IsInside, hrest]
  exact h.drop hshows

/-- Behind a break the line is ahead, or begins there. -/
theorem IsInside.lineBreak (h : c.IsInside) : c.lineBreak.IsBefore := by
  rcases h with ⟨front, hfront⟩
  unfold Cursor.lineBreak
  split
  · rename_i rest hrest
    rw [hrest] at hfront
    rcases front with _ | ⟨first, _ | ⟨second, front⟩⟩
    · simp [endLine] at hfront
    · refine .inr ⟨?_, rfl⟩
      simp only [List.singleton_append, List.cons.injEq] at hfront
      rw [nextLine, Cursor.blanks, hrest, ← hfront.2]
      rfl
    · refine .inl ⟨front, ?_⟩
      simp only [List.cons_append, List.cons.injEq] at hfront
      rw [nextLine, Cursor.blanks, hrest, ← hfront.2.2]
      rfl
  · rename_i rest hrest
    rw [hrest] at hfront
    rcases front with _ | ⟨first, front⟩
    · refine .inr ⟨?_, rfl⟩
      rw [nextLine, hrest, ← hfront]
      rfl
    · refine .inl ⟨front, ?_⟩
      simp only [List.cons_append, List.cons.injEq] at hfront
      rw [nextLine, hrest, ← hfront.2]
      rfl
  · rename_i rest hpair hrest
    rw [hrest] at hfront
    rcases front with _ | ⟨first, front⟩
    · simp [endLine] at hfront
    · refine .inl ⟨front, ?_⟩
      simp only [List.cons_append, List.cons.injEq] at hfront
      rw [nextLine, hrest, ← hfront.2]
      rfl
  · exact .inl ⟨front, hfront⟩

/-! ### The text that goes on -/

/-- The cursor in the text that goes on. -/
def append (more : List Char) (c : Cursor) : Cursor := { c with rest := c.rest ++ more }

variable (more : List Char)

@[simp]
theorem rest_append (c : Cursor) : (c.append more).rest = c.rest ++ more := rfl

@[simp]
theorem mark_append (c : Cursor) : (c.append more).mark = c.mark := rfl

@[simp]
theorem indenting_append (c : Cursor) : (c.append more).indenting = c.indenting := rfl

@[simp]
theorem seen_append (c : Cursor) : (c.append more).seen = c.seen := rfl

@[simp]
theorem column_append (c : Cursor) : (c.append more).column = c.column := rfl

@[simp]
theorem lookAt_append (c : Cursor) (count : Nat) :
    (c.append more).lookAt count = (c.lookAt count).append more := rfl

theorem peekAt_append (h : count < c.left) : (c.append more).peekAt count = c.peekAt count := by
  rw [peekAt, peekAt, rest_append, List.drop_append_of_le_length (Nat.le_of_lt h)]
  cases hrest : c.rest.drop count with
  | nil =>
    rw [List.drop_eq_nil_iff] at hrest
    exact absurd h (Nat.not_lt.mpr hrest)
  | cons next rest => rfl

theorem peek_append (h : 0 < c.left) : (c.append more).peek = c.peek := peekAt_append more h

theorem IsBefore.peek_append (h : c.IsBefore) : (c.append more).peek = c.peek :=
  Cursor.peek_append more (Nat.lt_of_le_of_lt (Nat.zero_le 3) h.three_lt_left)

theorem IsBefore.peekAt_append (h : c.IsBefore) (hcount : count ≤ 3) :
    (c.append more).peekAt count = c.peekAt count :=
  Cursor.peekAt_append more (Nat.lt_of_le_of_lt hcount h.three_lt_left)

theorem IsBefore.atSign_append (h : c.IsBefore) (sign : Char) :
    (c.append more).atSign sign = c.atSign sign := by
  rw [Cursor.atSign, Cursor.atSign, column_append, h.peek_append,
    h.peekAt_append more (by decide : 1 ≤ 3), h.peekAt_append more (by decide : 2 ≤ 3),
    h.peekAt_append more (Nat.le_refl 3)]

theorem IsBefore.atDocumentMark_append (h : c.IsBefore) :
    (c.append more).atDocumentMark = c.atDocumentMark := by
  simp only [Cursor.atDocumentMark, h.atSign_append]

/-- What is ahead on a line does not depend on what is behind the line. -/
theorem takeWhile_append (h : '\n' ∈ c.rest) (inClass : Char → Bool)
    (hfeed : inClass '\n' = false) :
    (c.append more).rest.takeWhile inClass = c.rest.takeWhile inClass := by
  rw [rest_append, List.takeWhile_append, if_neg]
  intro hlength
  have hall := (List.takeWhile_prefix inClass).eq_of_length hlength
  rw [← hall] at h
  have := List.mem_takeWhile_imp h
  simp [hfeed] at this

theorem blanks_append (h : count ≤ c.left) :
    (c.append more).blanks count = (c.blanks count).append more := by
  simp only [Cursor.blanks, append, List.drop_append_of_le_length h]

theorem advance_append (h : count ≤ c.left) :
    (c.append more).advance count = (c.advance count).append more := by
  rw [Cursor.advance, blanks_append more h]
  rfl

theorem nextLine_append (h : 0 < c.left) :
    (c.append more).nextLine = c.nextLine.append more := by
  simp only [nextLine, append, List.drop_append_of_le_length (show 1 ≤ c.rest.length from h)]

theorem advanceWhile_append (h : '\n' ∈ c.rest) (inClass : Char → Bool)
    (hfeed : inClass '\n' = false) :
    (c.append more).advanceWhile inClass = (c.advanceWhile inClass).append more := by
  rw [advanceWhile, takeWhile_append more h inClass hfeed]
  exact advance_append more (List.takeWhile_prefix inClass).length_le

theorem skipBlanks_append (h : '\n' ∈ c.rest) :
    (c.append more).skipBlanks = c.skipBlanks.append more := by
  rw [skipBlanks, takeWhile_append more h isBlank (by decide)]
  exact blanks_append more (List.takeWhile_prefix isBlank).length_le

theorem comment_append (h : '\n' ∈ c.rest) :
    (c.append more).comment = c.comment.append more :=
  advanceWhile_append more h _ (by decide)

/-- The end of the line stays ahead of a cursor that moves along it. -/
theorem mem_of_along (h : '\n' ∈ c.rest) (halong : Along c c') : '\n' ∈ c'.rest := by
  rcases halong with ⟨count, hshows, hrest, -⟩
  rw [← List.take_append_drop count c.rest, List.mem_append] at h
  rw [hrest]
  exact h.resolve_left fun hmem => absurd (hshows.not_isBreak _ hmem) (by decide)

theorem left_pos_of_mem (h : '\n' ∈ c.rest) : 0 < c.left := List.length_pos_of_mem h

theorem lineTail_append (h : '\n' ∈ c.rest) :
    (c.append more).lineTail = c.lineTail.append more := by
  have hmem := mem_of_along h (along_skipBlanks c)
  simp only [lineTail, skipBlanks_append more h,
    Cursor.peek_append more (left_pos_of_mem hmem), comment_append more hmem]
  split <;> rfl

/-- The rest of a line is passed alike. -/
theorem carries_lineRest_of_mem (h : '\n' ∈ c.rest) :
    Carries (append more) (Along c) c.lineRest (c.append more).lineRest := by
  simp only [lineRest, Cursor.peek_append more (left_pos_of_mem h), lineTail_append more h]
  exact carries_ite (fun _ => carries_refuse _ _) fun _ => .ok (along_lineTail c)

theorem carries_lineRest (h : c.IsInside) :
    Carries (append more) IsInside c.lineRest (c.append more).lineRest :=
  carries_imp (carries_lineRest_of_mem more h.isBefore.mem) fun _ _ halong => h.along halong

/-- A line break is told by the next two characters. -/
theorem lineBreak_eq (c : Cursor) :
    c.lineBreak = if c.peek = '\r' ∧ c.peekAt 1 = '\n' then (c.blanks 1).nextLine
      else if isBreak c.peek then c.nextLine else c := by
  unfold Cursor.lineBreak
  split
  · rename_i rest hrest
    simp [peek, peekAt, hrest]
  · rename_i rest hrest
    simp [peek, peekAt, hrest, isBreak]
  · rename_i rest hpair hrest
    have hsecond : rest.headD endMark ≠ '\n' := by
      cases rest with
      | nil => decide
      | cons second rest => exact fun heq => hpair rest (by rw [show second = '\n' from heq])
    rw [if_neg fun h => hsecond (by simpa [peekAt, hrest] using h.2)]
    simp [peek, hrest, isBreak]
  · rename_i hpair hfeed hreturn
    have hbreak : isBreak c.peek = false := by
      refine Bool.eq_false_iff.mpr fun hbreak => ?_
      obtain ⟨rest, hrest | hrest⟩ := exists_rest_of_isBreak hbreak
      · exact hfeed rest hrest
      · exact hreturn rest hrest
    have hpeek : c.peek ≠ '\r' := by
      intro hpeek
      simp [hpeek, isBreak] at hbreak
    rw [if_neg fun h => hpeek h.1, if_neg (by simp [hbreak])]

theorem lineBreak_append (h : c.IsBefore) :
    (c.append more).lineBreak = c.lineBreak.append more := by
  have hlong := h.three_lt_left
  rw [lineBreak_eq, lineBreak_eq, h.peek_append, h.peekAt_append more (by decide),
    blanks_append more (by omega), nextLine_append more (by rw [left_blanks]; omega),
    nextLine_append more (by omega)]
  split
  · rfl
  · split <;> rfl

end Cursor

end Yaml

end YamlLocator
