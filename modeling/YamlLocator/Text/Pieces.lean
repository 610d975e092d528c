/-!
# Pieces of a Text

A text cut at every occurrence of one character, and put together again. Lines
are the pieces between line feeds, and the segments of a key path are the pieces
between full stops, so both rest on this module.

`n` separators make `n + 1` pieces: an empty text is one empty piece, and a
separator at either end leaves an empty piece there. With that convention
cutting loses nothing, which is `glue_pieces`, and gluing is undone by cutting
whenever no piece holds the separator itself, which is `pieces_glue`.

## Main definitions

* `pieces`: The parts of a text between the occurrences of a separator.
* `glue`: Parts put together with the separator between them.

## Theorems

* `glue_pieces`: Gluing the pieces of a text gives the text back.
* `pieces_glue`: Cutting glued parts gives the parts back, if none of them holds
  the separator and there is at least one.
* `not_mem_of_mem_pieces`: No piece holds the separator.
* `pieces_append_separator`, `glue_append`: Cutting and gluing at one of the separators.
-/

namespace YamlLocator

namespace Text

/-- The parts of a text between the occurrences of a separator, in order. -/
def pieces (separator : Char) : List Char → List (List Char)
  | [] => [[]]
  | c :: rest =>
    if c = separator then
      [] :: pieces separator rest
    else
      match pieces separator rest with
      | [] => [[c]]
      | piece :: more => (c :: piece) :: more

/-- The parts put together, with the separator between neighbours. -/
def glue (separator : Char) : List (List Char) → List Char
  | [] => []
  | [piece] => piece
  | piece :: next :: more => piece ++ separator :: glue separator (next :: more)

/-- There is always at least one piece. -/
theorem pieces_ne_nil (separator : Char) (text : List Char) : pieces separator text ≠ [] := by
  cases text with
  | nil => simp [pieces]
  | cons c rest =>
    simp only [pieces]
    split
    · simp
    · split <;> simp

/-- Gluing the pieces of a text gives the text back. -/
theorem glue_pieces (separator : Char) (text : List Char) :
    glue separator (pieces separator text) = text := by
  induction text with
  | nil => rfl
  | cons c rest ih =>
    simp only [pieces]
    rcases h : pieces separator rest with _ | ⟨piece, more⟩
    · exact absurd h (pieces_ne_nil separator rest)
    · rw [h] at ih
      split
      · rename_i hc
        simp [glue, ih, hc]
      · -- The character joins the first piece, whether or not another one follows.
        cases more with
        | nil => simp only [glue] at ih ⊢; rw [ih]
        | cons next tail => simp only [glue, List.cons_append] at ih ⊢; rw [ih]

/-- No piece holds the separator. -/
theorem not_mem_of_mem_pieces {separator : Char} {text piece : List Char}
    (h : piece ∈ pieces separator text) : separator ∉ piece := by
  induction text generalizing piece with
  | nil =>
    simp only [pieces, List.mem_singleton] at h
    simp [h]
  | cons c rest ih =>
    simp only [pieces] at h
    split at h
    · rcases List.mem_cons.mp h with rfl | h
      · simp
      · exact ih h
    · rename_i hc
      split at h
      · rename_i hp
        exact absurd hp (pieces_ne_nil separator rest)
      · rename_i first more hp
        rcases List.mem_cons.mp h with rfl | h
        · have := @ih first (by simp [hp])
          simp only [List.mem_cons, not_or]
          exact ⟨fun e => hc e.symm, this⟩
        · exact ih (by simp [hp, h])

/-- A text without the separator is a single piece. -/
theorem pieces_of_not_mem {separator : Char} {text : List Char} (h : separator ∉ text) :
    pieces separator text = [text] := by
  induction text with
  | nil => rfl
  | cons c rest ih =>
    simp only [List.mem_cons, not_or] at h
    simp [pieces, ih h.2, Ne.symm h.1]

/-- The pieces of a text are those in front of one of its separators and those behind it. -/
theorem pieces_append_separator (separator : Char) (front back : List Char) :
    pieces separator (front ++ separator :: back) =
      pieces separator front ++ pieces separator back := by
  induction front with
  | nil => simp [pieces]
  | cons c rest ih =>
    by_cases hc : c = separator
    · simp [pieces, hc, ih]
    · -- The character joins the first piece of the rest, which is there on both sides.
      rcases List.exists_cons_of_ne_nil (pieces_ne_nil separator rest) with ⟨piece, more, hrest⟩
      simp [pieces, hc, ih, hrest]

/-- A part without the separator, put in front, becomes the first piece. -/
theorem pieces_append_cons {separator : Char} {piece : List Char} (h : separator ∉ piece)
    (rest : List Char) :
    pieces separator (piece ++ separator :: rest) = piece :: pieces separator rest := by
  rw [pieces_append_separator, pieces_of_not_mem h, List.singleton_append]

/-- Two rows of pieces, one behind the other, have one separator between them. -/
theorem glue_append {separator : Char} {front back : List (List Char)}
    (hfront : front ≠ []) (hback : back ≠ []) :
    glue separator (front ++ back) = glue separator front ++ separator :: glue separator back := by
  fun_induction glue separator front with
  | case1 => exact absurd rfl hfront
  | case2 piece =>
    rcases List.exists_cons_of_ne_nil hback with ⟨next, more, rfl⟩
    rfl
  | case3 piece next more ih =>
    have hmore := ih (List.cons_ne_nil next more)
    rw [List.cons_append] at hmore
    rw [List.cons_append, List.cons_append, glue, hmore, List.append_assoc, List.cons_append]

/-- Cutting glued parts gives the parts back, if there is one and none of them
    holds the separator. -/
theorem pieces_glue {separator : Char} {parts : List (List Char)} (hne : parts ≠ [])
    (h : ∀ part ∈ parts, separator ∉ part) : pieces separator (glue separator parts) = parts := by
  fun_induction glue separator parts with
  | case1 => exact absurd rfl hne
  | case2 piece => exact pieces_of_not_mem (h piece (by simp))
  | case3 piece next more ih =>
    rw [pieces_append_cons (h piece (by simp)), ih (by simp) fun part hp => h part (by simp [hp])]

end Text

end YamlLocator
