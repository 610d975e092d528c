import Mathlib.Data.List.Basic
import Mathlib.Data.List.TakeWhile
import YamlLocator.Proofs.Retelling.Basic

/-!
# Places in a Text

A mark is the place of a character if its index, its line and its column are those of the
character: as many characters are in front of it, as many line breaks, and as many characters
behind the last of these. A cursor stands in a text if what is left of the text begins at the
place that the cursor is marked with. Every move that goes over what is really there keeps a
cursor standing, provided that line breaks are taken for breaks and nothing else is, and that a
break of two characters is never taken apart.

Readers are compositions of such moves. `Yields` says of a reader what its result satisfies and
what the mark satisfies that it refuses the text at, so that one statement covers both of its
outcomes.

## Main definitions

* `Text.lines`, `Text.countBreaks`: The lines of a text and the breaks between them.
* `Yields`: What holds of a result, or of the mark of an error.
* `Cursor.Shows`: The next characters are there and belong to the line.
* `Cursor.Along`: A cursor further on the same line.
* `Mark.past`: The mark behind some characters.
* `Cursor.Stands`: The cursor is marked with the place where it is.
* `Text.IsPlace`: The mark of a place in a text, or of the line behind its end.

## Theorems

* `Cursor.Stands.along`, `Cursor.Stands.lineBreak`: Moves keep a cursor standing.
* `Text.line_of_isPlace`: A place lies in a line of the text, or behind the last one.
-/

namespace YamlLocator

open Yaml (isBreak isEnd Mark Cursor SyntaxError Fault)

namespace Text

/-- The lines of a text, without their breaks. A carriage return and a line feed behind it are
    one break. -/
def lines : List Char → List (List Char)
  | [] => [[]]
  | '\r' :: '\n' :: rest => [] :: lines rest
  | c :: rest => if isBreak c then [] :: lines rest else (lines rest).modifyHead (c :: ·)

/-- The number of line breaks in a text. -/
def countBreaks : List Char → Nat
  | [] => 0
  | '\r' :: '\n' :: rest => countBreaks rest + 1
  | c :: rest => if isBreak c then countBreaks rest + 1 else countBreaks rest

/-- There is one line more than there are breaks. -/
theorem length_lines (text : List Char) : (lines text).length = countBreaks text + 1 := by
  fun_induction lines text with
  | case1 => rfl
  | case2 rest ih => simp [countBreaks, ih]
  | case3 c rest hpair hbreak ih =>
    rw [countBreaks.eq_3 c rest hpair, if_pos hbreak, List.length_cons, ih]
  | case4 c rest hpair hbreak ih =>
    rw [countBreaks.eq_3 c rest hpair, if_neg hbreak, List.length_modifyHead, ih]

/-- No break of two characters is cut by a cut through the text. -/
def Splits (front back : List Char) : Prop :=
  front.getLast? = some '\r' → back.head? ≠ some '\n'

theorem splits_nil (back : List Char) : Splits [] back := by simp [Splits]

theorem splits_of_cons {c : Char} {front back : List Char} (h : Splits (c :: front) back) :
    Splits front back := by
  intro hlast
  cases front with
  | nil => simp at hlast
  | cons next rest => exact h (by simpa using hlast)

/-- What is no break of two characters is none with more text behind it. -/
theorem not_pair_append {c : Char} {front back : List Char} (h : Splits (c :: front) back)
    (hpair : ∀ tail, c = '\r' → front = '\n' :: tail → False) :
    ∀ tail, c = '\r' → front ++ back = '\n' :: tail → False := by
  intro tail hreturn htail
  cases front with
  | nil =>
    rw [List.nil_append] at htail
    exact h (by simp [hreturn]) (by simp [htail])
  | cons next rest =>
    simp only [List.cons_append, List.cons.injEq] at htail
    exact hpair rest hreturn (by rw [htail.1])

end Text

namespace Yaml

/-! ### Outcomes -/

/-- The result satisfies one condition, or the mark of the error the other. -/
def Yields {α : Type} (P : α → Prop) (Q : Mark → Prop) : Except SyntaxError α → Prop
  | .ok a => P a
  | .error e => Q e.mark

section

variable {α β : Type} {P P' : α → Prop} {R : β → Prop} {Q Q' : Mark → Prop}
  {x : Except SyntaxError α} {f : α → Except SyntaxError β}

theorem yields_ok {a : α} (h : P a) : Yields P Q (.ok a) := h

theorem yields_refuse {m : Mark} (h : Q m) (fault : Fault) : Yields P Q (m.refuse fault) := h

theorem of_yields_ok {a : α} (h : Yields P Q x) (hx : x = .ok a) : P a := by
  rwa [hx] at h

theorem of_yields_error {e : SyntaxError} (h : Yields P Q x) (hx : x = .error e) : Q e.mark := by
  rwa [hx] at h

theorem yields_bind (hx : Yields P Q x) (hf : ∀ a, x = .ok a → P a → Yields R Q (f a)) :
    Yields R Q (x >>= f) := by
  cases x with
  | error e => exact hx
  | ok a => exact hf a rfl hx

theorem yields_imp (h : Yields P Q x) (himp : ∀ a, P a → P' a) (hmark : ∀ m, Q m → Q' m) :
    Yields P' Q' x := by
  cases x with
  | error e => exact hmark _ h
  | ok a => exact himp a h

end

/-! ### Along a line -/

namespace Cursor

/-- The next characters are there, and no line break is among them. -/
structure Shows (c : Cursor) (count : Nat) : Prop where
  le_left : count ≤ c.left
  not_isBreak : ∀ ch ∈ c.rest.take count, isBreak ch = false

theorem shows_zero (c : Cursor) : c.Shows 0 := ⟨Nat.zero_le _, by simp⟩

theorem Shows.add {c : Cursor} {count more : Nat} (h : c.Shows count)
    (h' : (c.blanks count).Shows more) : c.Shows (count + more) where
  le_left := by
    have := h.le_left
    have := h'.le_left
    rw [left_blanks] at this
    omega
  not_isBreak := not_isBreak_of_mem_take_add h.not_isBreak h'.not_isBreak

/-- The next character is there if it is not the end, and belongs to the line if it is no
    break. -/
theorem shows_one {c : Cursor} (hbreak : isBreak c.peek = false) (hend : isEnd c.peek = false) :
    c.Shows 1 :=
  ⟨left_pos_of_peek_ne c (by simpa [isEnd] using hend), not_isBreak_of_mem_take_one hbreak⟩

/-- One character more, which is seen at a distance. -/
theorem Shows.succ {c : Cursor} {count : Nat} (h : c.Shows count)
    (hbreak : isBreak (c.peekAt count) = false) (hend : isEnd (c.peekAt count) = false) :
    c.Shows (count + 1) :=
  h.add (shows_one (c := c.blanks count) hbreak hend)

/-- A character of a class without breaks and without the end. -/
theorem shows_one_of_class {c : Cursor} (inClass : Char → Bool) (hfeed : inClass '\n' = false)
    (hreturn : inClass '\r' = false) (hend : inClass endMark = false)
    (h : inClass c.peek = true) : c.Shows 1 :=
  ⟨left_pos_of_class c inClass hend h,
    not_isBreak_of_mem_take_one (Retelling.not_isBreak_of_class inClass hfeed hreturn h)⟩

theorem shows_one_of_eq {c : Cursor} {sign : Char} (h : c.peek = sign)
    (hbreak : isBreak sign = false) (hend : isEnd sign = false) : c.Shows 1 :=
  shows_one (by rwa [h]) (by rwa [h])

/-- The characters of a class without breaks. -/
theorem shows_takeWhile (c : Cursor) (inClass : Char → Bool) (hfeed : inClass '\n' = false)
    (hreturn : inClass '\r' = false) : c.Shows (c.rest.takeWhile inClass).length :=
  ⟨(List.takeWhile_prefix _).length_le,
    fun _ hmem => Retelling.not_isBreak_of_mem_takeWhile inClass hfeed hreturn hmem⟩

theorem Shows.mono {c : Cursor} {count less : Nat} (h : c.Shows count) (hle : less ≤ count) :
    c.Shows less :=
  ⟨Nat.le_trans hle h.le_left,
    fun ch hmem => h.not_isBreak ch (List.take_subset_take_left _ hle hmem)⟩

/-- The second cursor stands some characters further on the same line. -/
def Along (c c' : Cursor) : Prop :=
  ∃ count, c.Shows count ∧ c'.rest = c.rest.drop count ∧ c'.mark = c.mark.right count

namespace Along

variable {c c' c'' : Cursor}

theorem refl (c : Cursor) : Along c c := ⟨0, shows_zero c, rfl, rfl⟩

theorem trans (h : Along c c') (h' : Along c' c'') : Along c c'' := by
  rcases h with ⟨count, hshows, hrest, hmark⟩
  rcases h' with ⟨more, hshows', hrest', hmark'⟩
  refine ⟨count + more, hshows.add ⟨?_, ?_⟩, ?_, ?_⟩
  · simpa only [left, blanks, hrest] using hshows'.le_left
  · simpa [blanks, hrest] using hshows'.not_isBreak
  · rw [hrest', hrest, List.drop_drop]
  · simp [hmark', hmark, Mark.right, Nat.add_assoc]

/-- A cursor at the same place with the same text left. -/
theorem of_eq (hrest : c'.rest = c.rest) (hmark : c'.mark = c.mark) : Along c c' :=
  ⟨0, shows_zero c, hrest, hmark⟩

end Along

variable {c : Cursor} {count : Nat}

theorem along_blanks (h : c.Shows count) : Along c (c.blanks count) := ⟨count, h, rfl, rfl⟩

theorem along_advance (h : c.Shows count) : Along c (c.advance count) := ⟨count, h, rfl, rfl⟩

theorem along_lookAt (c : Cursor) (count : Nat) : Along c (c.lookAt count) := .of_eq rfl rfl

theorem along_advanceWhile (c : Cursor) (inClass : Char → Bool) (hfeed : inClass '\n' = false)
    (hreturn : inClass '\r' = false) : Along c (c.advanceWhile inClass) :=
  along_advance (shows_takeWhile c inClass hfeed hreturn)

theorem along_skipBlanks (c : Cursor) : Along c c.skipBlanks :=
  along_blanks (shows_takeWhile c isBlank (by decide) (by decide))

theorem along_comment (c : Cursor) : Along c c.comment :=
  along_advanceWhile c _ (by decide) (by decide)

theorem along_lineTail (c : Cursor) : Along c c.lineTail := by
  simp only [lineTail]
  split
  · exact (along_skipBlanks c).trans (along_comment _)
  · exact along_skipBlanks c

/-- Behind a token the rest of the line is passed, or a comment is refused where it begins. -/
theorem yields_lineRest (c : Cursor) : Yields (Along c) (· = c.mark) c.lineRest := by
  unfold lineRest
  split
  · refine yields_refuse ?_ _
    rfl
  · exact yields_ok (along_lineTail c)

end Cursor

/-! ### Marks -/

/-- The mark behind some characters. -/
def Mark.past : Mark → List Char → Mark
  | m, [] => m
  | m, '\r' :: '\n' :: rest => (m.right 1).nextLine.past rest
  | m, c :: rest => if isBreak c then m.nextLine.past rest else (m.right 1).past rest

namespace Mark

theorem past_append {front back : List Char} (m : Mark) (h : Text.Splits front back) :
    m.past (front ++ back) = (m.past front).past back := by
  fun_induction past m front with
  | case1 m => rfl
  | case2 m rest ih => exact ih (Text.splits_of_cons (Text.splits_of_cons h))
  | case3 m c rest hpair hbreak ih =>
    rw [List.cons_append, past.eq_3 m c _ (Text.not_pair_append h hpair), if_pos hbreak]
    exact ih (Text.splits_of_cons h)
  | case4 m c rest hpair hbreak ih =>
    rw [List.cons_append, past.eq_3 m c _ (Text.not_pair_append h hpair), if_neg hbreak]
    exact ih (Text.splits_of_cons h)

/-- Characters without a break take the mark along the line. -/
theorem past_of_not_isBreak {chars : List Char} (m : Mark)
    (h : ∀ c ∈ chars, isBreak c = false) : m.past chars = m.right chars.length := by
  induction chars generalizing m with
  | nil => rfl
  | cons c rest ih =>
    have hc := h c List.mem_cons_self
    have hpair : ∀ tail, c = '\r' → rest = '\n' :: tail → False := by
      rintro tail rfl -
      exact absurd hc (by decide)
    rw [past.eq_3 m c rest hpair, if_neg (by simp [hc]),
      ih _ fun ch hmem => h ch (List.mem_cons_of_mem _ hmem)]
    simp [right, Nat.add_assoc, Nat.add_comm 1]

theorem index_past (m : Mark) (chars : List Char) :
    (m.past chars).index = m.index + chars.length := by
  fun_induction past m chars <;> simp_all [right, nextLine] <;> omega

/-- The mark lies in the line with that number of lines in front of it, in a text that begins in
    the line of another mark. -/
def LiesIn (m : Mark) (start : Mark) (lines : List (List Char)) : Prop :=
  start.line ≤ m.line ∧ ∃ line, lines[m.line - start.line]? = some line ∧
    m.column ≤ (if m.line = start.line then start.column else 0) + line.length

/-- A line in front of the others. -/
theorem liesIn_cons {m start next : Mark} {line : List Char} {lines : List (List Char)}
    (hline : next.line = start.line + 1) (hcolumn : next.column = 0) (h : m.LiesIn next lines) :
    m.LiesIn start (line :: lines) := by
  rcases h with ⟨hle, found, hfound, hwidth⟩
  refine ⟨by omega, found, ?_, ?_⟩
  · rw [show m.line - start.line = m.line - next.line + 1 by omega, List.getElem?_cons_succ, hfound]
  · rw [if_neg (by omega)]
    rw [hcolumn, ite_self] at hwidth
    exact hwidth

/-- The mark behind some characters lies in a line of the whole text. -/
theorem liesIn_past (m : Mark) {front back : List Char} (h : Text.Splits front back) :
    (m.past front).LiesIn m (Text.lines (front ++ back)) := by
  fun_induction past m front with
  | case1 m =>
    have hlength := Text.length_lines back
    exact ⟨Nat.le_refl _, (Text.lines back)[0], by simp, by simp⟩
  | case2 m rest ih =>
    exact liesIn_cons rfl rfl (ih (Text.splits_of_cons (Text.splits_of_cons h)))
  | case3 m c rest hpair hbreak ih =>
    rw [List.cons_append, Text.lines.eq_3 c _ (Text.not_pair_append h hpair), if_pos hbreak]
    exact liesIn_cons rfl rfl (ih (Text.splits_of_cons h))
  | case4 m c rest hpair hbreak ih =>
    rw [List.cons_append, Text.lines.eq_3 c _ (Text.not_pair_append h hpair), if_neg hbreak]
    rcases ih (Text.splits_of_cons h) with ⟨hle, line, hline, hcolumn⟩
    refine ⟨hle, ?_⟩
    rcases Nat.eq_or_lt_of_le hle with heq | hlt
    · -- The character belongs to the line that the mark lies in.
      have hsame : ((m.right 1).past rest).line = m.line := heq.symm
      refine ⟨c :: line, ?_, ?_⟩
      · rw [← heq, Nat.sub_self] at hline
        rw [hsame, Nat.sub_self, List.getElem?_modifyHead_zero, hline, Option.map_some]
      · rw [if_pos heq.symm] at hcolumn
        rw [if_pos hsame, List.length_cons]
        have : (m.right 1).column = m.column + 1 := rfl
        omega
    · have hbehind : m.line < ((m.right 1).past rest).line := hlt
      have hnotfirst : ((m.right 1).past rest).line - m.line ≠ 0 := by omega
      refine ⟨line, ?_, ?_⟩
      · rw [List.getElem?_modifyHead, if_neg hnotfirst]
        exact hline
      · rw [if_neg (Nat.ne_of_gt hlt)] at hcolumn
        rwa [if_neg (Nat.ne_of_gt hbehind)]

end Mark

/-! ### Places -/

/-- What is left of the text begins at the place that the cursor is marked with. -/
def Cursor.Stands (text : List Char) (c : Cursor) : Prop :=
  ∃ front, text = front ++ c.rest ∧ Text.Splits front c.rest ∧ c.mark = Mark.start.past front

namespace Cursor

variable {text : List Char} {c c' : Cursor}

theorem stands_ofText (text : List Char) : (ofText text).Stands text :=
  ⟨[], rfl, Text.splits_nil _, rfl⟩

/-- A move along the line keeps a cursor standing. -/
theorem Stands.along (h : c.Stands text) (halong : Along c c') : c'.Stands text := by
  rcases h with ⟨front, htext, hsplits, hmark⟩
  rcases halong with ⟨count, ⟨hle, hbreak⟩, hrest, hmark'⟩
  have hcut : Text.Splits front (c.rest.take count) := by
    intro hlast hhead
    refine hsplits hlast ?_
    rw [← List.take_append_drop count c.rest, List.head?_append, hhead, Option.some_or]
  refine ⟨front ++ c.rest.take count, ?_, ?_, ?_⟩
  · rw [hrest, List.append_assoc, List.take_append_drop, htext]
  · rw [hrest]
    intro hlast
    rcases List.eq_nil_or_concat (c.rest.take count) with hnil | ⟨init, last, hinit⟩
    · rw [hnil, List.append_nil] at hlast
      rcases List.take_eq_nil_iff.mp hnil with rfl | hnil
      · exact hsplits hlast
      · simp [hnil]
    · -- The last character that was gone over is no carriage return.
      rw [List.concat_eq_append] at hinit
      rw [hinit, ← List.append_assoc, List.getLast?_concat, Option.some.injEq] at hlast
      have hnot := hbreak last (by simp [hinit])
      rw [hlast] at hnot
      exact absurd hnot (by decide)
  · rw [Mark.past_append _ hcut, ← hmark, Mark.past_of_not_isBreak _ hbreak, List.length_take,
      show c.rest.length = c.left from rfl, Nat.min_eq_left hle, hmark']

/-- So does a move over a line break, be it one of two characters. -/
theorem Stands.lineBreak (h : c.Stands text) : c.lineBreak.Stands text := by
  rcases h with ⟨front, htext, hsplits, hmark⟩
  have hover {chars : List Char} (hchars : chars.head? = c.rest.head?) :
      Mark.start.past (front ++ chars) = c.mark.past chars := by
    rw [hmark, Mark.past_append]
    rwa [Text.Splits, hchars]
  unfold Cursor.lineBreak
  split
  · rename_i rest hrest
    refine ⟨front ++ ['\r', '\n'], ?_, by simp [Text.Splits], ?_⟩
    · simp [nextLine, blanks, hrest, htext]
    · rw [hover (by simp [hrest])]
      rfl
  · rename_i rest hrest
    refine ⟨front ++ ['\n'], ?_, by simp [Text.Splits], ?_⟩
    · simp [nextLine, hrest, htext]
    · rw [hover (by simp [hrest])]
      rfl
  · rename_i rest hpair hrest
    refine ⟨front ++ ['\r'], ?_, ?_, ?_⟩
    · simp [nextLine, hrest, htext]
    · intro _ hhead
      simp only [nextLine, hrest, List.drop_one, List.tail_cons] at hhead
      cases rest with
      | nil => simp at hhead
      | cons next rest =>
        rw [List.head?_cons, Option.some.injEq] at hhead
        exact hpair rest (by rw [hhead])
    · rw [hover (by simp [hrest])]
      rfl
  · exact ⟨front, htext, hsplits, hmark⟩

end Cursor

end Yaml

open Yaml

/-- The mark of a place in the text, or of the line behind its end. -/
def Text.IsPlace (text : List Char) (m : Mark) : Prop :=
  ∃ c, Cursor.Stands text c ∧
    (m = c.mark ∨ (isEnd c.peek = true ∧ m = { c.mark with line := c.mark.line + 1, column := 0 }))

namespace Text

variable {text : List Char}

theorem isPlace_of_stands {c : Cursor} (h : c.Stands text) : IsPlace text c.mark :=
  ⟨c, h, .inl rfl⟩

/-- No more characters are in front of a place than there are in the text. -/
theorem index_le_of_isPlace {m : Mark} (h : IsPlace text m) : m.index ≤ text.length := by
  rcases h with ⟨c, ⟨front, htext, -, hmark⟩, hm⟩
  have hindex : c.mark.index = front.length := by
    rw [hmark, Mark.index_past, Mark.start, Nat.zero_add]
  have hlength : front.length ≤ text.length := by simp [htext]
  rcases hm with rfl | ⟨-, rfl⟩ <;> simpa only [hindex] using hlength

/-- A place lies in a line of the text, or at the beginning of the line behind the last one. -/
theorem line_of_isPlace {m : Mark} (h : IsPlace text m) :
    1 ≤ m.line ∧ m.line ≤ countBreaks text + 2 ∧
      (m.line ≤ countBreaks text + 1 →
        ∃ line, (lines text)[m.line - 1]? = some line ∧ m.column ≤ line.length) ∧
      (m.line = countBreaks text + 2 → m.column = 0) := by
  rcases h with ⟨c, ⟨front, htext, hsplits, hmark⟩, hm⟩
  have hlies := Mark.liesIn_past Mark.start hsplits
  rw [← hmark, ← htext] at hlies
  rcases hlies with ⟨hle, line, hline, hcolumn⟩
  have hlength := length_lines text
  have hlast : c.mark.line - 1 < (lines text).length := (List.getElem?_eq_some_iff.mp hline).1
  have hstart : Mark.start.line = 1 := rfl
  rcases hm with rfl | ⟨-, rfl⟩
  · rw [show Mark.start.column = 0 from rfl, ite_self, Nat.zero_add] at hcolumn
    exact ⟨hle, by omega, fun _ => ⟨line, hline, hcolumn⟩, fun _ => by omega⟩
  · -- Nothing is in front of the mark on its line.
    refine ⟨by simp, by simp only; omega, fun hin => ?_, fun _ => rfl⟩
    have hlt : c.mark.line + 1 - 1 < (lines text).length := by
      simp only at hin
      omega
    exact ⟨(lines text)[c.mark.line + 1 - 1], by simp, Nat.zero_le _⟩

end Text

end YamlLocator
