import Mathlib.Data.List.TakeWhile
import YamlLocator.Yaml.Cursor.Progress

/-!
# Texts Told Anew

Two runs of the reader on two texts that say the same. The second text holds the characters of
the first one, perhaps behind further lines and perhaps with other line breaks. What is read
from it is the same then, except that every mark is another one, and which one it is can be
told from the mark in the first text: it is further down by a number of lines, as many columns
to the right as before, and its index is the one that the character has now.

A `Retelling` says what became of a text, and a cursor is `Retold` by another one if the two
stand at the same place of the two texts. No move over characters that are no line breaks
tells the two apart, and neither does the move over a line break. Results of functions that
may fail `Agree` if they are related, or are the same error at marks that belong together.

## Main definitions

* `Retelling`: What became of a text.
* `Retelling.spell`, `Retelling.mark`: What becomes of characters and marks.
* `Cursor.Retold`: Two cursors at the same place of the two texts.
* `Retelling.Agree`: Two results that say the same.

## Theorems

* `Cursor.Retold.class_peek`, `Cursor.Retold.takeWhile_eq`: What is seen from the two cursors.
* `Cursor.Retold.blanks`, `Cursor.Retold.advance`, `Cursor.Retold.lineBreak`: Where the moves
  lead to.
-/

namespace YamlLocator

/-- The characters with a carriage return in front of every line feed. -/
def Text.withReturns (text : List Char) : List Char :=
  text.flatMap fun c => if c = '\n' then ['\r', '\n'] else [c]

/-- What is behind does not matter if it does not begin with the class. -/
theorem Text.takeWhile_append_of_eq_nil {α : Type} {inClass : α → Bool} (front : List α)
    {back : List α} (h : back.takeWhile inClass = []) :
    (front ++ back).takeWhile inClass = front.takeWhile inClass := by
  rw [List.takeWhile_append]
  split
  · rename_i hall
    rw [h, List.append_nil, (List.takeWhile_prefix inClass).eq_of_length hall]
  · rfl

namespace Yaml

/-- What became of a text: it stands behind other lines, or its line breaks are spelled with
    two characters. -/
structure Retelling where
  /-- The text that is told anew. -/
  text : List Char
  /-- The number of characters in front of it now. -/
  offset : Nat
  /-- The number of lines in front of it now. -/
  lines : Nat
  /-- Whether a carriage return was put in front of every line feed. -/
  doubled : Bool
  /-- Only line feeds break the lines of a text whose breaks are doubled. -/
  plain : doubled = true → '\r' ∉ text

namespace Retelling

/-- What becomes of some characters. -/
def spell (σ : Retelling) (chars : List Char) : List Char :=
  if σ.doubled then Text.withReturns chars else chars

/-- What becomes of the index of a character: it grows by the characters that are in front of
    it now and have not been there before. -/
def index (σ : Retelling) (i : Nat) : Nat :=
  σ.offset + i + if σ.doubled then (σ.text.take i).count '\n' else 0

/-- What becomes of a mark. -/
def mark (σ : Retelling) (m : Mark) : Mark :=
  { index := σ.index m.index, line := m.line + σ.lines, column := m.column }

/-- What becomes of an error. -/
def error (σ : Retelling) (e : SyntaxError) : SyntaxError := { e with mark := σ.mark e.mark }

/-- A mark is that of a character, as far as the line is concerned: the line is told by the
    line feeds in front of it. It is needed only where breaks are doubled. -/
def IsPlace (σ : Retelling) (m : Mark) : Prop :=
  σ.doubled = true → m.line = (σ.text.take m.index).count '\n' + 1

/-- Two results are related, or they are the same error at marks that belong together. -/
inductive Agree {α β : Type} (σ : Retelling) (R : α → β → Prop) :
    Except SyntaxError α → Except SyntaxError β → Prop
  | ok {a : α} {b : β} (h : R a b) : Agree σ R (.ok a) (.ok b)
  | error (e : SyntaxError) : Agree σ R (.error e) (.error (σ.error e))

variable {σ : Retelling} {α β γ δ : Type} {R : α → β → Prop} {S : γ → δ → Prop}

theorem agree_refuse {m m' : Mark} (hm : m' = σ.mark m) (fault : Fault) :
    σ.Agree R (m.refuse fault) (m'.refuse fault) := by
  subst hm
  exact .error { fault, mark := m }

theorem agree_bind {x : Except SyntaxError α} {x' : Except SyntaxError β}
    {f : α → Except SyntaxError γ} {f' : β → Except SyntaxError δ} (hx : σ.Agree R x x')
    (hf : ∀ a b, R a b → σ.Agree S (f a) (f' b)) : σ.Agree S (x >>= f) (x' >>= f') := by
  cases hx with
  | ok h => exact hf _ _ h
  | error e => exact .error e

/-- The same for steps of which something else is known. -/
theorem agree_bind_of_eq {x : Except SyntaxError α} {x' : Except SyntaxError β}
    {f : α → Except SyntaxError γ} {f' : β → Except SyntaxError δ} (hx : σ.Agree R x x')
    (hf : ∀ a b, x = .ok a → R a b → σ.Agree S (f a) (f' b)) :
    σ.Agree S (x >>= f) (x' >>= f') := by
  cases hx with
  | ok h => exact hf _ _ rfl h
  | error e => exact .error e

theorem agree_imp {R' : α → β → Prop} {x : Except SyntaxError α} {x' : Except SyntaxError β}
    (h : σ.Agree R x x') (himp : ∀ a b, R a b → R' a b) : σ.Agree R' x x' := by
  cases h with
  | ok h => exact .ok (himp _ _ h)
  | error e => exact .error e

theorem agree_ite {p : Prop} [Decidable p] {x y : Except SyntaxError α}
    {x' y' : Except SyntaxError β} (hx : σ.Agree R x x') (hy : σ.Agree R y y') :
    σ.Agree R (if p then x else y) (if p then x' else y') := by
  split
  · exact hx
  · exact hy

/-- Two results that agree are two errors or two values. -/
theorem cases_of_agree {x : Except SyntaxError α} {x' : Except SyntaxError β}
    (h : σ.Agree R x x') :
    (∃ e, x = .error e ∧ x' = .error (σ.error e)) ∨ ∃ a b, x = .ok a ∧ x' = .ok b ∧ R a b := by
  cases h with
  | ok h => exact .inr ⟨_, _, rfl, rfl, h⟩
  | error e => exact .inl ⟨e, rfl, rfl⟩

/-- What agrees with an error is that error at the mark that belongs to it. -/
theorem eq_error_of_agree {x : Except SyntaxError α} {x' : Except SyntaxError β} {e : SyntaxError}
    (h : σ.Agree R x x') (hx : x = .error e) : x' = .error (σ.error e) := by
  cases h with
  | ok h => cases hx
  | error e' =>
    cases hx
    rfl

/-- What agrees with a value is a value that is related to it. -/
theorem exists_ok_of_agree {x : Except SyntaxError α} {x' : Except SyntaxError β} {a : α}
    (h : σ.Agree R x x') (hx : x = .ok a) : ∃ b, x' = .ok b ∧ R a b := by
  cases h with
  | ok h =>
    cases hx
    exact ⟨_, rfl, h⟩
  | error e => cases hx

/-! ### Characters -/

@[simp]
theorem spell_nil (σ : Retelling) : σ.spell [] = [] := by
  simp [spell, Text.withReturns]

theorem spell_cons_of_ne (σ : Retelling) {c : Char} (hc : c ≠ '\n') (rest : List Char) :
    σ.spell (c :: rest) = c :: σ.spell rest := by
  simp only [spell, Text.withReturns, List.flatMap_cons, if_neg hc]
  split <;> rfl

theorem ne_of_not_isBreak {c : Char} (hc : isBreak c = false) : c ≠ '\n' := by
  rintro rfl
  exact absurd hc (by decide)

/-- Characters without a line break keep their places. -/
theorem drop_spell {chars : List Char} {count : Nat}
    (h : ∀ c ∈ chars.take count, isBreak c = false) :
    (σ.spell chars).drop count = σ.spell (chars.drop count) := by
  induction chars generalizing count with
  | nil => simp
  | cons c rest ih =>
    cases count with
    | zero => rfl
    | succ count =>
      rw [spell_cons_of_ne σ (ne_of_not_isBreak (h c (by simp)))]
      exact ih fun c hmem => h c (by simp [hmem])

theorem takeWhile_spell {inClass : Char → Bool} (hfeed : inClass '\n' = false)
    (hreturn : inClass '\r' = false) (chars : List Char) :
    (σ.spell chars).takeWhile inClass = chars.takeWhile inClass := by
  induction chars with
  | nil => simp
  | cons c rest ih =>
    by_cases hc : c = '\n'
    · subst hc
      simp only [spell, Text.withReturns, List.flatMap_cons, if_true, List.takeWhile_cons, hfeed]
      split <;> simp [hfeed, hreturn]
    · rw [spell_cons_of_ne σ hc, List.takeWhile_cons, List.takeWhile_cons, ih]

/-- Whether there is a line break among the first characters stays as it is. -/
theorem any_take_spell (chars : List Char) (count : Nat) :
    ((σ.spell chars).take count).any isBreak = (chars.take count).any isBreak := by
  induction chars generalizing count with
  | nil => simp
  | cons c rest ih =>
    cases count with
    | zero => rfl
    | succ count =>
      by_cases hc : c = '\n'
      · subst hc
        simp only [spell, Text.withReturns, List.flatMap_cons, if_true]
        split <;> simp [isBreak]
      · rw [spell_cons_of_ne σ hc, List.take_succ_cons, List.take_succ_cons, List.any_cons,
          List.any_cons, ih]

theorem take_spell {chars : List Char} {count : Nat}
    (h : ∀ c ∈ chars.take count, isBreak c = false) :
    (σ.spell chars).take count = chars.take count := by
  induction chars generalizing count with
  | nil => simp
  | cons c rest ih =>
    cases count with
    | zero => rfl
    | succ count =>
      rw [spell_cons_of_ne σ (ne_of_not_isBreak (h c (by simp))), List.take_succ_cons,
        List.take_succ_cons, ih fun c hmem => h c (by simp [hmem])]

/-- No line break is in a class that neither of the two is in. -/
theorem not_isBreak_of_class (inClass : Char → Bool) (hfeed : inClass '\n' = false)
    (hreturn : inClass '\r' = false) {c : Char} (h : inClass c = true) : isBreak c = false := by
  refine Bool.eq_false_iff.mpr fun hbreak => ?_
  simp only [isBreak, Bool.or_eq_true, decide_eq_true_eq] at hbreak
  rcases hbreak with rfl | rfl
  · simp [hfeed] at h
  · simp [hreturn] at h

theorem not_isBreak_of_mem_takeWhile (inClass : Char → Bool) (hfeed : inClass '\n' = false)
    (hreturn : inClass '\r' = false) {chars : List Char} {c : Char}
    (h : c ∈ chars.take (chars.takeWhile inClass).length) : isBreak c = false := by
  rw [← List.prefix_iff_eq_take.mp (List.takeWhile_prefix inClass)] at h
  exact not_isBreak_of_class _ hfeed hreturn (List.mem_takeWhile_imp h)

/-! ### Marks -/

@[simp]
theorem column_mark (σ : Retelling) (m : Mark) : (σ.mark m).column = m.column := rfl

@[simp]
theorem line_mark (σ : Retelling) (m : Mark) : (σ.mark m).line = m.line + σ.lines := rfl

/-- Indices keep their order. -/
theorem index_lt (σ : Retelling) {i j : Nat} (h : i < j) : σ.index i < σ.index j := by
  have := ((List.take_prefix_take_left (l := σ.text) (Nat.le_of_lt h)).sublist).count_le '\n'
  simp only [index]
  split <;> omega

theorem index_inj {i j : Nat} : σ.index i = σ.index j ↔ i = j := by
  refine ⟨fun h => ?_, fun h => by rw [h]⟩
  rcases Nat.lt_trichotomy i j with hlt | heq | hlt
  · exact absurd (index_lt σ hlt) (by omega)
  · exact heq
  · exact absurd (index_lt σ hlt) (by omega)

/-- No line feed stands between the marks of two characters of one line, so that the number of
    characters between them stays as it is. -/
theorem index_sub_of_isPlace {m n : Mark} (hm : σ.IsPlace m) (hn : σ.IsPlace n)
    (hline : m.line = n.line) : (σ.index n.index : Int) - σ.index m.index = n.index - m.index := by
  simp only [index]
  split
  · rename_i hdoubled
    have hm := hm hdoubled
    have hn := hn hdoubled
    omega
  · omega

theorem line_le_of_isPlace (hdoubled : σ.doubled = true) {m n : Mark} (hm : σ.IsPlace m)
    (hn : σ.IsPlace n) (hle : m.index ≤ n.index) : m.line ≤ n.line := by
  have := ((List.take_prefix_take_left (l := σ.text) hle).sublist).count_le '\n'
  have hm := hm hdoubled
  have hn := hn hdoubled
  omega

end Retelling

/-- Two cursors at the same place of the two texts. What has been looked at is the same where
    the breaks are. -/
structure Cursor.Retold (σ : Retelling) (c c' : Cursor) : Prop where
  rest_eq : c'.rest = σ.spell c.rest
  mark_eq : c'.mark = σ.mark c.mark
  indenting_eq : c'.indenting = c.indenting
  seen_eq : σ.doubled = false → c'.seen = c.seen
  left_eq : σ.doubled = true → c.rest = σ.text.drop c.mark.index
  isPlace : σ.IsPlace c.mark

namespace Cursor

open Retelling

variable {σ : Retelling} {c c' : Cursor}

/-- Where breaks are doubled, no carriage return is left. -/
theorem Retold.not_mem (h : Retold σ c c') (hdoubled : σ.doubled = true) : '\r' ∉ c.rest := by
  rw [h.left_eq hdoubled]
  exact fun hmem => σ.plain hdoubled (List.mem_of_mem_drop hmem)

/-! ### What is seen -/

/-- The next characters are equal, or both are line breaks. -/
theorem Retold.peek_eq_or (h : Retold σ c c') :
    c'.peek = c.peek ∨ (c.peek = '\n' ∧ c'.peek = '\r') := by
  rw [peek, peek, h.rest_eq]
  cases c.rest with
  | nil => exact .inl (by simp)
  | cons ch rest =>
    by_cases hch : ch = '\n'
    · subst hch
      simp only [spell, Text.withReturns, List.flatMap_cons, if_true]
      split
      · exact .inr ⟨rfl, rfl⟩
      · exact .inl rfl
    · rw [spell_cons_of_ne σ hch]
      exact .inl rfl

/-- A class that does not tell the two line breaks apart holds of both characters or of
    none. -/
theorem Retold.class_peek (h : Retold σ c c') (inClass : Char → Bool)
    (hclass : inClass '\r' = inClass '\n') : inClass c'.peek = inClass c.peek := by
  rcases h.peek_eq_or with heq | ⟨hfeed, hreturn⟩
  · rw [heq]
  · rw [hfeed, hreturn, hclass]

theorem Retold.peek_eq_iff (h : Retold σ c c') (ch : Char) (hch : isBreak ch = false) :
    c'.peek = ch ↔ c.peek = ch := by
  have hne : '\r' ≠ ch ∧ '\n' ≠ ch := by
    constructor <;> (rintro rfl; exact absurd hch (by decide))
  have := h.class_peek (fun next => next = ch) (by simp [hne.1, hne.2])
  simpa using this

/-- Apart from line breaks the next characters are equal. -/
theorem Retold.peek_eq (h : Retold σ c c') (hbreak : isBreak c.peek = false) :
    c'.peek = c.peek := by
  rcases h.peek_eq_or with heq | ⟨hfeed, _⟩
  · exact heq
  · exact absurd hfeed (ne_of_not_isBreak hbreak)

theorem Retold.isBlank_peek (h : Retold σ c c') : isBlank c'.peek = isBlank c.peek :=
  h.class_peek isBlank (by decide)

theorem Retold.isBreak_peek (h : Retold σ c c') : isBreak c'.peek = isBreak c.peek :=
  h.class_peek isBreak (by decide)

theorem Retold.isEnd_peek (h : Retold σ c c') : isEnd c'.peek = isEnd c.peek :=
  h.class_peek isEnd (by decide)

theorem Retold.isLineEnd_peek (h : Retold σ c c') : isLineEnd c'.peek = isLineEnd c.peek :=
  h.class_peek isLineEnd (by decide)

theorem Retold.isGap_peek (h : Retold σ c c') : isGap c'.peek = isGap c.peek :=
  h.class_peek isGap (by decide)

theorem Retold.isFlow_peek (h : Retold σ c c') : isFlow c'.peek = isFlow c.peek :=
  h.class_peek isFlow (by decide)

theorem Retold.column_eq (h : Retold σ c c') : c'.column = c.column := by
  rw [column, column, h.mark_eq, column_mark]

theorem Retold.takeWhile_eq (h : Retold σ c c') (inClass : Char → Bool)
    (hfeed : inClass '\n' = false) (hreturn : inClass '\r' = false) :
    c'.rest.takeWhile inClass = c.rest.takeWhile inClass := by
  rw [h.rest_eq, takeWhile_spell hfeed hreturn]

/-- Two values that were read, with the cursors behind them. -/
def RetoldWith {α : Type} (σ : Retelling) (r r' : α × Cursor) : Prop :=
  r'.1 = r.1 ∧ Retold σ r.2 r'.2

/-! ### Moves -/

/-- The marks some characters further on, none of which is a line break, belong together. -/
theorem Retold.mark_right (h : Retold σ c c') {count : Nat}
    (hcount : ∀ ch ∈ c.rest.take count, isBreak ch = false) :
    (c.mark.right count |> σ.mark) = (σ.mark c.mark).right count ∧
      σ.IsPlace (c.mark.right count) := by
  have hfeeds (hdoubled : σ.doubled = true) :
      (σ.text.take (c.mark.index + count)).count '\n' =
        (σ.text.take c.mark.index).count '\n' := by
    rw [List.take_add, List.count_append, ← h.left_eq hdoubled, Nat.add_eq_left,
      List.count_eq_zero]
    exact fun hmem => ne_of_not_isBreak (hcount _ hmem) rfl
  refine ⟨?_, fun hdoubled => ?_⟩
  · simp only [Retelling.mark, Mark.right, Retelling.index]
    split
    · rename_i hdoubled
      simp only [hfeeds hdoubled, Mark.mk.injEq, and_true]
      omega
    · simp only [Mark.mk.injEq, and_true]
      omega
  · simp only [Mark.right]
    rw [hfeeds hdoubled]
    exact h.isPlace hdoubled

/-- Both cursors go on over characters that are no line breaks. -/
theorem Retold.blanks (h : Retold σ c c') {count : Nat}
    (hcount : ∀ ch ∈ c.rest.take count, isBreak ch = false) :
    Retold σ (c.blanks count) (c'.blanks count) where
  rest_eq := by simp only [Cursor.blanks, h.rest_eq, drop_spell hcount]
  mark_eq := by simp only [Cursor.blanks, h.mark_eq, (h.mark_right hcount).1]
  indenting_eq := h.indenting_eq
  seen_eq hdoubled := by simp only [Cursor.blanks, h.seen_eq hdoubled]
  left_eq hdoubled := by
    simp only [Cursor.blanks, Mark.right, h.left_eq hdoubled, List.drop_drop]
  isPlace := (h.mark_right hcount).2

theorem Retold.advance (h : Retold σ c c') {count : Nat}
    (hcount : ∀ ch ∈ c.rest.take count, isBreak ch = false) :
    Retold σ (c.advance count) (c'.advance count) :=
  { h.blanks hcount with indenting_eq := rfl }

/-- What is next, if it is no line break, is the only character of the next one. -/
theorem not_isBreak_of_mem_take_one (hbreak : isBreak c.peek = false) :
    ∀ ch ∈ c.rest.take 1, isBreak ch = false := by
  intro ch hmem
  rw [peek] at hbreak
  cases hrest : c.rest with
  | nil => simp [hrest] at hmem
  | cons first rest =>
    simp only [hrest, List.take_succ_cons, List.take_zero, List.mem_singleton] at hmem
    simpa [hrest, hmem] using hbreak

theorem Retold.blanks_one (h : Retold σ c c') (hbreak : isBreak c.peek = false) :
    Retold σ (c.blanks 1) (c'.blanks 1) :=
  h.blanks (not_isBreak_of_mem_take_one hbreak)

theorem Retold.advance_one (h : Retold σ c c') (hbreak : isBreak c.peek = false) :
    Retold σ (c.advance 1) (c'.advance 1) :=
  h.advance (not_isBreak_of_mem_take_one hbreak)

/-- The characters of two stretches, one behind the other. -/
theorem not_isBreak_of_mem_take_add {count more : Nat}
    (hcount : ∀ ch ∈ c.rest.take count, isBreak ch = false)
    (hmore : ∀ ch ∈ (c.blanks count).rest.take more, isBreak ch = false) :
    ∀ ch ∈ c.rest.take (count + more), isBreak ch = false := by
  intro ch hmem
  rw [List.take_add, List.mem_append] at hmem
  exact hmem.elim (hcount ch) (hmore ch)

/-- The characters up to the one that is seen at a distance, if that is no line break either. -/
theorem not_isBreak_of_mem_take_succ {count : Nat}
    (hcount : ∀ ch ∈ c.rest.take count, isBreak ch = false)
    (hbreak : isBreak (c.peekAt count) = false) :
    ∀ ch ∈ c.rest.take (count + 1), isBreak ch = false :=
  not_isBreak_of_mem_take_add hcount (not_isBreak_of_mem_take_one (c := c.blanks count) hbreak)

/-- What is seen at a distance is equal if no line break is among the characters up to it. -/
theorem Retold.peekAt_eq (h : Retold σ c c') {count : Nat}
    (hcount : ∀ ch ∈ c.rest.take count, isBreak ch = false)
    (hbreak : isBreak (c.peekAt count) = false) : c'.peekAt count = c.peekAt count :=
  (h.blanks hcount).peek_eq hbreak

/-- Whether a marker between documents stands here is the same for both cursors. -/
theorem Retold.atSign_eq (h : Retold σ c c') (sign : Char) (hsign : isBreak sign = false) :
    c'.atSign sign = c.atSign sign := by
  have hfirst := h.peek_eq_iff _ hsign
  simp only [atSign, h.column_eq, hfirst]
  by_cases h₀ : c.peek = sign
  · have hone := not_isBreak_of_mem_take_one (c := c) (by rw [h₀, hsign])
    have hsecond : c'.peekAt 1 = sign ↔ c.peekAt 1 = sign := (h.blanks hone).peek_eq_iff _ hsign
    rw [decide_eq_decide.mpr hsecond]
    by_cases h₁ : c.peekAt 1 = sign
    · have htwo := not_isBreak_of_mem_take_succ hone (by rw [h₁, hsign])
      have hthird : c'.peekAt 2 = sign ↔ c.peekAt 2 = sign := (h.blanks htwo).peek_eq_iff _ hsign
      rw [decide_eq_decide.mpr hthird]
      by_cases h₂ : c.peekAt 2 = sign
      · have hthree := not_isBreak_of_mem_take_succ htwo (by rw [h₂, hsign])
        have hgap : isGap (c'.peekAt 3) = isGap (c.peekAt 3) := (h.blanks hthree).isGap_peek
        rw [hgap]
      · simp [h₂]
    · simp [h₁]
  · simp [h₀]

theorem Retold.atDocumentMark_eq (h : Retold σ c c') : c'.atDocumentMark = c.atDocumentMark := by
  rw [atDocumentMark, atDocumentMark, h.atSign_eq _ (by decide), h.atSign_eq _ (by decide)]

/-- What the two cursors see alike wherever they stand. -/
theorem Retold.view (h : Retold σ c c') :
    isBlank c'.peek = isBlank c.peek ∧ isBreak c'.peek = isBreak c.peek ∧
      isEnd c'.peek = isEnd c.peek ∧ isLineEnd c'.peek = isLineEnd c.peek ∧
        c'.column = c.column ∧ c'.indenting = c.indenting ∧
          c'.atDocumentMark = c.atDocumentMark :=
  ⟨h.isBlank_peek, h.isBreak_peek, h.isEnd_peek, h.isLineEnd_peek, h.column_eq, h.indenting_eq,
    h.atDocumentMark_eq⟩

/-- Both cursors go on over the characters of a class without line breaks. -/
theorem Retold.advanceWhile (h : Retold σ c c') (inClass : Char → Bool)
    (hfeed : inClass '\n' = false) (hreturn : inClass '\r' = false) :
    Retold σ (c.advanceWhile inClass) (c'.advanceWhile inClass) := by
  rw [Cursor.advanceWhile, Cursor.advanceWhile, h.takeWhile_eq inClass hfeed hreturn]
  exact h.advance fun ch hmem => not_isBreak_of_mem_takeWhile _ hfeed hreturn hmem

theorem Retold.skipBlanks (h : Retold σ c c') : Retold σ c.skipBlanks c'.skipBlanks := by
  rw [Cursor.skipBlanks, Cursor.skipBlanks, h.takeWhile_eq isBlank (by decide) (by decide)]
  exact h.blanks fun ch hmem => not_isBreak_of_mem_takeWhile _ (by decide) (by decide) hmem

theorem Retold.comment (h : Retold σ c c') : Retold σ c.comment c'.comment :=
  h.advanceWhile _ (by decide) (by decide)

theorem Retold.lineTail (h : Retold σ c c') : Retold σ c.lineTail c'.lineTail := by
  simp only [Cursor.lineTail, h.skipBlanks.peek_eq_iff '#' (by decide)]
  split
  · exact h.skipBlanks.comment
  · exact h.skipBlanks

theorem Retold.lineRest (h : Retold σ c c') : σ.Agree (Retold σ) c.lineRest c'.lineRest := by
  simp only [Cursor.lineRest, h.peek_eq_iff '#' (by decide)]
  split
  · exact agree_refuse h.mark_eq _
  · exact .ok h.lineTail

theorem Retold.lookAt (h : Retold σ c c') (count : Nat) :
    Retold σ (c.lookAt count) (c'.lookAt count) :=
  { h with seen_eq := fun hdoubled => by simp only [Cursor.lookAt, h.seen_eq hdoubled] }

/-- Where the breaks are not doubled, the second cursor is the first one at another mark. -/
theorem Retold.eq_of_not_doubled (h : Retold σ c c') (hdoubled : σ.doubled = false) :
    c' = { c with mark := σ.mark c.mark } := by
  rcases c' with ⟨rest, mark, indenting, seen⟩
  have hrest := h.rest_eq
  have hmark := h.mark_eq
  have hindenting := h.indenting_eq
  have hseen := h.seen_eq hdoubled
  simp only [spell, hdoubled] at hrest hmark hindenting hseen
  simp [hrest, hmark, hindenting, hseen]

theorem retold_of_not_doubled (hdoubled : σ.doubled = false) :
    Retold σ c { c with mark := σ.mark c.mark } where
  rest_eq := by simp [spell, hdoubled]
  mark_eq := rfl
  indenting_eq := rfl
  seen_eq _ := rfl
  left_eq h := by simp [hdoubled] at h
  isPlace h := by simp [hdoubled] at h

theorem lineBreak_of_not_isBreak (h : isBreak c.peek = false) : c.lineBreak = c := by
  unfold lineBreak
  split <;> simp_all [peek, isBreak]

theorem exists_rest_of_isBreak (h : isBreak c.peek = true) :
    ∃ rest, c.rest = '\n' :: rest ∨ c.rest = '\r' :: rest := by
  cases hrest : c.rest with
  | nil => simp [peek, hrest, isBreak, endMark] at h
  | cons ch rest =>
    simp only [peek, hrest, List.headD_cons, isBreak, Bool.or_eq_true, decide_eq_true_eq] at h
    exact ⟨rest, h.imp (by rw [·]) (by rw [·])⟩

/-- The mark of a line feed is followed by that of the next line, in the text with doubled
    breaks behind two characters. -/
theorem Retold.mark_nextLine (h : Retold σ c c') (hdoubled : σ.doubled = true)
    {rest : List Char} (hrest : c.rest = '\n' :: rest) :
    σ.mark c.mark.nextLine = ((σ.mark c.mark).right 1).nextLine ∧
      σ.IsPlace c.mark.nextLine := by
  have hfeeds : (σ.text.take (c.mark.index + 1)).count '\n' =
      (σ.text.take c.mark.index).count '\n' + 1 := by
    rw [List.take_add, List.count_append, ← h.left_eq hdoubled, hrest]
    simp
  refine ⟨?_, fun _ => ?_⟩
  · simp only [Retelling.mark, Mark.right, Mark.nextLine, Retelling.index, hdoubled, if_true,
      hfeeds, Mark.mk.injEq, and_true]
    omega
  · rw [Mark.nextLine, hfeeds, h.isPlace hdoubled]

/-- Both cursors go on to the next line. A carriage return that was put in front of a line feed
    is part of the break. -/
theorem Retold.lineBreak (h : Retold σ c c') : Retold σ c.lineBreak c'.lineBreak := by
  cases hdoubled : σ.doubled with
  | false =>
    rw [h.eq_of_not_doubled hdoubled]
    have hbreak : Cursor.lineBreak { c with mark := σ.mark c.mark } =
        { c.lineBreak with mark := σ.mark c.lineBreak.mark } := by
      simp only [Cursor.lineBreak]
      split <;> simp [nextLine, Cursor.blanks, Mark.right, Mark.nextLine, Retelling.mark,
        Retelling.index, hdoubled] <;> omega
    rw [hbreak]
    exact retold_of_not_doubled hdoubled
  | true =>
    cases hbreak : isBreak c.peek with
    | false =>
      have hbreak' : isBreak c'.peek = false := by rw [h.isBreak_peek, hbreak]
      rw [lineBreak_of_not_isBreak hbreak, lineBreak_of_not_isBreak hbreak']
      exact h
    | true =>
      -- The break is a line feed, since no carriage return is left.
      rcases exists_rest_of_isBreak hbreak with ⟨rest, hrest | hrest⟩
      · have hrest' : c'.rest = '\r' :: '\n' :: σ.spell rest := by
          rw [h.rest_eq, hrest]
          simp [spell, hdoubled, Text.withReturns]
        rcases h.mark_nextLine hdoubled hrest with ⟨hmark, hplace⟩
        simp only [Cursor.lineBreak, hrest, hrest']
        exact
          { rest_eq := by simp [nextLine, Cursor.blanks, hrest, hrest']
            mark_eq := by simp only [nextLine, Cursor.blanks, h.mark_eq, hmark]
            indenting_eq := rfl
            seen_eq := by simp [hdoubled]
            left_eq := fun _ => by
              simp only [nextLine, Mark.nextLine, h.left_eq hdoubled, List.drop_drop]
            isPlace := hplace }
      · exact absurd (by rw [hrest]; exact List.mem_cons_self) (h.not_mem hdoubled)

end Cursor

end Yaml

end YamlLocator
