import YamlLocator.Lookup
import YamlLocator.Proofs.BlockStyle.Lines
import YamlLocator.Proofs.EnoughTokens
import YamlLocator.Proofs.Offsets
import YamlLocator.Proofs.Retelling.Trees

/-!
# Lines on Top of a Text

Lines that hold nothing but blanks and comments say nothing, and a text says the same with such
lines on top of it. The tree is the same, with spans that lie further on by the length of the
lines, and so is an error, with a line that lies further down by their number. What is told of
a key is the same but for its line.

The reader goes over the lines in front of its first token, without a token, a level or a
candidate to show for it. From there on it reads the text as it would have done from the
beginning, at other marks: the indices are larger by the characters of the lines, line
numbers by their number, and columns are the same.

## Main definitions

* `BareLine`: A line of blanks, perhaps with a comment.
* `preamble`: Some lines of that kind.

## Theorems

* `Cursor.separation_preamble`: Separation goes over such lines.
* `OffsetTable.matches_preamble`: Spans lie further on behind such lines.
* `Location.ofSpan_shift`: Lines and columns behind lines on top.
* `Document.parse_preamble_append`: What such lines do to trees, errors and answers.
-/

namespace YamlLocator

/-- A line of blanks, perhaps with a comment, which no end of the text is in. -/
structure BareLine where
  blanks : List Char
  comment : Option (List Char)
  isBlank_of_mem : ∀ c ∈ blanks, Yaml.isBlank c = true
  isWithin_of_mem : ∀ chars, comment = some chars → ∀ c ∈ chars, Yaml.isLineEnd c = false

namespace BareLine

/-- What is behind the blanks of a line. -/
def remark (line : BareLine) : List Char :=
  match line.comment with
  | none => []
  | some chars => '#' :: chars

/-- The characters of a line, the line feed included. -/
def text (line : BareLine) : List Char := line.blanks ++ line.remark ++ ['\n']

end BareLine

/-- The characters of some lines. -/
def preamble (lines : List BareLine) : List Char := lines.flatMap BareLine.text

/-- A span some bytes further on. -/
def Span.shift (count : Nat) (span : Span) : Span :=
  { start := span.start + count, stop := span.stop + count }

/-- A location some lines further down. -/
def Location.below (lines : Nat) (location : Location) : Location :=
  { location with line := location.line + lines }

namespace Yaml

/-! ### Going over the lines -/

namespace Cursor

/-- Separation goes over a line feed. -/
theorem separation_of_lineFeed (margin : Nat) (broken : Bool) {c : Cursor} {rest : List Char}
    (h : c.rest = '\n' :: rest) :
    c.separation margin broken = c.nextLine.separation margin true := by
  have hbreak : c.lineBreak = c.nextLine := by
    rw [lineBreak, h]
    rfl
  rw [separation, peek_cons h, if_neg (by decide), if_pos (by decide), hbreak]

/-- Separation goes over the remark of a line and over the end of the line. -/
theorem separation_remark (line : BareLine) (margin : Nat) (broken : Bool) {c : Cursor}
    {rest : List Char} (h : c.rest = line.remark ++ '\n' :: rest) :
    c.separation margin broken =
      (c.blanks line.remark.length).nextLine.separation margin true := by
  cases hcomment : line.comment with
  | none =>
    have hremark : line.remark = [] := by rw [BareLine.remark, hcomment]
    rw [hremark, List.nil_append] at h
    rw [separation_of_lineFeed margin broken h, hremark, List.length_nil, blanks_zero]
  | some chars =>
    have hremark : line.remark = '#' :: chars := by rw [BareLine.remark, hcomment]
    have hwithin : ∀ ch ∈ '#' :: chars, (!isLineEnd ch) = true := by
      intro ch hmem
      rcases List.mem_cons.mp hmem with rfl | hmem
      · decide
      · rw [line.isWithin_of_mem chars hcomment ch hmem, Bool.not_false]
    rw [hremark] at h
    have htake : c.rest.takeWhile (fun ch => !isLineEnd ch) = '#' :: chars := by
      rw [h, List.takeWhile_append_of_pos hwithin, List.takeWhile_cons_of_neg (by decide),
        List.append_nil]
    have hpassed : c.comment = c.advance line.remark.length := by
      rw [comment, advanceWhile, htake, hremark]
    have hrest : c.comment.rest = '\n' :: rest := by
      rw [hpassed, rest_advance, h, hremark, List.drop_left]
    rw [separation, peek_cons h, if_neg (by decide), if_neg (by decide), if_pos rfl,
      separation_of_lineFeed margin broken hrest, hpassed]
    rfl

/-- Separation goes over a bare line. -/
theorem separation_bareLine (line : BareLine) (broken : Bool) {c : Cursor} {rest : List Char}
    (h : c.rest = line.text ++ rest) :
    c.separation 0 broken =
      Cursor.separation 0 true
        { rest
          mark := { index := c.mark.index + line.text.length, line := c.mark.line + 1, column := 0 }
          indenting := true
          seen := c.seen - line.text.length } := by
  have hblanks : c.rest = line.blanks ++ (line.remark ++ '\n' :: rest) := by
    rw [h, BareLine.text]
    simp
  have hremark : (c.blanks line.blanks.length).rest = line.remark ++ '\n' :: rest := by
    simp [blanks, hblanks]
  rw [separation_blanks 0 broken line.blanks line.isBlank_of_mem (fun _ => rfl) hblanks,
    separation_remark line 0 broken hremark, blanks_blanks]
  congr 1
  simp only [nextLine, blanks, Mark.nextLine, Mark.right, hblanks, BareLine.text]
  simp [Nat.add_assoc, Nat.sub_sub]

/-- Separation goes over bare lines. -/
theorem separation_preamble (lines : List BareLine) (rest : List Char) (mark : Mark)
    (hcolumn : mark.column = 0) (broken : Bool) :
    ∃ broken', Cursor.separation 0 broken
        { rest := preamble lines ++ rest, mark, indenting := true, seen := 0 } =
      Cursor.separation 0 broken'
        { rest
          mark :=
            { index := mark.index + (preamble lines).length
              line := mark.line + lines.length
              column := 0 }
          indenting := true
          seen := 0 } := by
  induction lines generalizing mark broken with
  | nil =>
    rcases mark with ⟨index, line, column⟩
    subst hcolumn
    exact ⟨broken, rfl⟩
  | cons line lines ih =>
    have hrest : preamble (line :: lines) ++ rest = line.text ++ (preamble lines ++ rest) := by
      simp [preamble]
    rcases ih { index := mark.index + line.text.length, line := mark.line + 1, column := 0 } rfl
      true with ⟨broken', hlines⟩
    refine ⟨broken', ?_⟩
    rw [separation_bareLine line broken hrest, Nat.zero_sub, hlines]
    simp [preamble, Nat.add_assoc, Nat.add_comm, Nat.add_left_comm]

end Cursor

/-! ### Reading the text behind the lines -/

/-- What becomes of a text behind bare lines. -/
def Retelling.behind (lines : List BareLine) : Retelling where
  text := []
  offset := (preamble lines).length
  lines := lines.length
  doubled := false
  plain := by simp

namespace Tokenizer

open Retelling

/-- The first round goes over the lines and then reads the text alike. -/
theorem agree_round_behind (lines : List BareLine) (text : List Char) :
    (Retelling.behind lines).Agree (Told (Retelling.behind lines))
      (ofText text).withoutFirst.round (ofText (preamble lines ++ text)).withoutFirst.round := by
  refine agree_round_of_separate ?_ (by simp [inFlow, withoutFirst, ofText]) (by simp [behind])
  rcases Cursor.separation_preamble lines text Mark.start rfl false with ⟨broken, hlines⟩
  have hcursor := Cursor.retold_of_not_doubled (σ := Retelling.behind lines)
    (c := Cursor.ofText text) rfl
  have hmark : (Retelling.behind lines).mark Mark.start =
      { index := Mark.start.index + (preamble lines).length
        line := Mark.start.line + lines.length
        column := 0 } := by
    simp [behind, Retelling.mark, Retelling.index, Mark.start]
  have hagree := Cursor.agree_separation hcursor 0 false broken
  simp only [Cursor.ofText, hmark] at hagree
  rw [← hlines] at hagree
  refine agree_bind hagree ?_
  rintro ⟨c, found⟩ ⟨c', found'⟩ ⟨hc, -⟩
  exact .ok (.ofCursor hc text (preamble lines ++ text))

end Tokenizer

end Yaml

/-! ### Spans and locations behind the lines -/

theorem OffsetTable.byteAt_ofText_append_add (front back : List Char) (i : Nat) :
    (ofText (front ++ back)).byteAt (front.length + i) =
      (ofText back).byteAt i + Text.byteLength front := by
  rw [byteAt_ofText, byteAt_ofText, List.take_length_add_append, Text.byteLength_append,
    Nat.add_comm]

/-- Spans lie further on behind bare lines. -/
theorem OffsetTable.matches_preamble (lines : List BareLine) (text : List Char) :
    (Yaml.Retelling.behind lines).Matches (ofText text) (ofText (preamble lines ++ text))
      (Span.shift (Text.byteLength (preamble lines))) id := by
  have hindex (i : Nat) : (Yaml.Retelling.behind lines).index i = (preamble lines).length + i := by
    simp [Yaml.Retelling.behind, Yaml.Retelling.index]
  constructor
  · intro first last
    simp only [Yaml.Assembly.spanBetween, Yaml.Retelling.mark, hindex, byteAt_ofText_append_add,
      Span.shift, id]
  · intro mark style text'
    simp only [Yaml.Assembly.scalarSpan, Yaml.Retelling.mark, hindex, Nat.add_assoc,
      byteAt_ofText_append_add, Span.shift, id]

/-- A cut behind some characters is a cut of what follows them. -/
theorem Text.cutAtByte_add_append (front back : List Char) (offset : Nat) :
    cutAtByte (byteLength front + offset) (front ++ back) =
      (front ++ (cutAtByte offset back).1, (cutAtByte offset back).2) := by
  induction front with
  | nil => simp
  | cons c front ih =>
    have hle : c.utf8Size ≤ byteLength (c :: front) + offset := by
      rw [byteLength_cons]
      omega
    have hsub : byteLength (c :: front) + offset - c.utf8Size = byteLength front + offset := by
      rw [byteLength_cons]
      omega
    rw [List.cons_append, cutAtByte, if_pos hle, hsub, ih]
    rfl

/-- A bare line has one line feed, at its end. -/
theorem count_text (line : BareLine) : line.text.count '\n' = 1 := by
  have hblanks : line.blanks.count '\n' = 0 :=
    List.count_eq_zero.mpr fun hmem => absurd (line.isBlank_of_mem _ hmem) (by decide)
  have hremark : line.remark.count '\n' = 0 := by
    unfold BareLine.remark
    split
    · rfl
    · rename_i chars hcomment
      have hwithin : '\n' ∉ chars := fun hmem =>
        absurd (line.isWithin_of_mem chars hcomment _ hmem) (by decide)
      exact List.count_eq_zero.mpr (by simpa using hwithin)
  rw [BareLine.text, List.count_append, List.count_append, hblanks, hremark]
  rfl

theorem count_preamble (lines : List BareLine) : (preamble lines).count '\n' = lines.length := by
  induction lines with
  | nil => rfl
  | cons line lines ih =>
    rw [preamble, List.flatMap_cons, List.count_append, count_text, ← preamble, ih,
      List.length_cons, Nat.add_comm]

/-- The last of some bare lines is over. -/
theorem takeWhile_reverse_preamble (lines : List BareLine) :
    (preamble lines).reverse.takeWhile (· ≠ '\n') = [] := by
  rcases List.eq_nil_or_concat lines with rfl | ⟨front, last, rfl⟩
  · rfl
  · simp [preamble, BareLine.text]

/-- Lines and columns behind bare lines. -/
theorem Location.ofSpan_shift (lines : List BareLine) (text file : String) (span : Span)
    (withColumn : Bool) :
    ofSpan (String.ofList (preamble lines) ++ text)
        (span.shift (Text.byteLength (preamble lines))) file withColumn =
      (ofSpan text span file withColumn).below lines.length := by
  have htext : (String.ofList (preamble lines) ++ text).toList = preamble lines ++ text.toList := by
    simp
  have hcut := Text.cutAtByte_add_append (preamble lines) text.toList span.start
  rw [Nat.add_comm] at hcut
  have hline : Position.lineNumber (String.ofList (preamble lines) ++ text)
      (span.start + Text.byteLength (preamble lines)) =
        Position.lineNumber text span.start + lines.length := by
    simp only [Position.lineNumber, htext, hcut, List.count_append, count_preamble]
    omega
  have hchars : Position.lineText (String.ofList (preamble lines) ++ text)
      (span.start + Text.byteLength (preamble lines)) = Position.lineText text span.start := by
    simp only [Position.lineText, Position.lineChars, htext, hcut, List.reverse_append,
      Text.takeWhile_append_of_eq_nil _ (takeWhile_reverse_preamble lines)]
  simp only [ofSpan, Span.shift, hline, hchars, below]

/-- Bare lines on top of a text change no more than where things stand. -/
theorem Yaml.Document.parse_preamble_append (lines : List BareLine) (text : String) :
    parse (String.ofList (preamble lines) ++ text) =
        ((parse text).map
          (Option.map (Node.mapSpans (Span.shift (Text.byteLength (preamble lines)))))).mapError
          (ParseError.below lines.length) ∧
      ∀ (path : KeyPath) (file : String) (withColumn : Bool),
        (path.find (String.ofList (preamble lines) ++ text)).map (Option.map fun found =>
            found.report (String.ofList (preamble lines) ++ text) file withColumn) =
          ((path.find text).map (Option.map fun found =>
            (found.report text file withColumn).map id (Location.below lines.length))).mapError
            (ParseError.below lines.length) := by
  have htext : (String.ofList (preamble lines) ++ text).toList = preamble lines ++ text.toList := by
    simp
  have hevents := agree_events (fun _ => Tokenizer.agree_round_behind lines text.toList)
    (by simp [Retelling.behind])
  have hspans := OffsetTable.matches_preamble lines text.toList
  rw [← htext] at hevents hspans
  have hid {α : Type} (result : Except ParseError (Option α)) :
      result.map (Option.map id) = result := by
    rcases result with _ | _ | _ <;> rfl
  have hnode : Node.mapSpans id = id := funext Node.mapSpans_id
  have hmatch : KeyMatch.mapSpan id = id := funext fun found => by cases found <;> rfl
  have hparse := mapSpans_parse hevents hspans
  refine ⟨?_, fun path file withColumn => ?_⟩
  · rwa [hnode, hid] at hparse
  · have hfind := KeyPath.mapSpan_find hparse path
    rw [hmatch, hid] at hfind
    rw [hfind]
    rcases path.find text with error | _ | found
    · rfl
    · rfl
    · have hlocation := Location.ofSpan_shift lines text file found.span withColumn
      have hreport : (found.mapSpan (Span.shift (Text.byteLength (preamble lines)))).report
          (String.ofList (preamble lines) ++ text) file withColumn =
            (found.report text file withColumn).map id (Location.below lines.length) := by
        cases found <;> exact Prod.ext rfl hlocation
      exact congrArg (Except.ok ∘ some) hreport

end YamlLocator
