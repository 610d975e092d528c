import Mathlib.Data.List.Induction
import YamlLocator.Lookup
import YamlLocator.Proofs.EnoughTokens
import YamlLocator.Proofs.Evaluation
import YamlLocator.Proofs.Offsets
import YamlLocator.Proofs.Retelling.Trees

/-!
# Line Breaks of Two Characters

A text whose lines end with a carriage return and a line feed, rather than with a line feed
alone, says the same. The trees have the same shape, kinds and values, errors are the same
down to their places, and keys are told to stand in the same lines and columns.

There is one exception, and it is not intended. Behind a line of a block scalar that had not been
looked at, indices go up by bytes instead of characters, and how much of a line is looked at
depends on the line breaks. So a text with characters of several bytes in a block scalar may have
its keys reported in other lines, one way or the other; `report_ne_of_wide` is such a text. That
goes for block scalars that are read before the events of the document are found out, and for no
others.

## Main definitions

* `Text.withReturns`: A text with a carriage return in front of every line feed.
* `Span.forget`: A span of which nothing is told.

## Theorems

* `Text.take_withReturns`: Where the characters are found again.
* `OffsetTable.matches_withReturns`: Spans start at the same characters.
* `Location.ofSpan_withReturns`: Lines and columns stay.
* `Document.parse_withReturns`: Trees, errors and answers stay.
-/

namespace YamlLocator

namespace Text

theorem withReturns_append (front back : List Char) :
    withReturns (front ++ back) = withReturns front ++ withReturns back :=
  List.flatMap_append

theorem withReturns_cons_lineFeed (rest : List Char) :
    withReturns ('\n' :: rest) = '\r' :: '\n' :: withReturns rest := rfl

theorem withReturns_cons_of_ne {c : Char} (hc : c ≠ '\n') (rest : List Char) :
    withReturns (c :: rest) = c :: withReturns rest := by
  rw [withReturns, List.flatMap_cons, if_neg hc]
  rfl

theorem length_withReturns (text : List Char) :
    (withReturns text).length = text.length + text.count '\n' := by
  induction text with
  | nil => rfl
  | cons c rest ih =>
    by_cases hc : c = '\n'
    · subst hc
      simp only [withReturns_cons_lineFeed, List.length_cons, List.count_cons_self, ih]
      omega
    · simp only [withReturns_cons_of_ne hc, List.length_cons, List.count_cons_of_ne hc, ih]
      omega

theorem count_withReturns (text : List Char) :
    (withReturns text).count '\n' = text.count '\n' := by
  induction text with
  | nil => rfl
  | cons c rest ih =>
    by_cases hc : c = '\n'
    · subst hc
      rw [withReturns_cons_lineFeed, List.count_cons_of_ne (by decide), List.count_cons_self,
        List.count_cons_self, ih]
    · rw [withReturns_cons_of_ne hc, List.count_cons_of_ne hc, List.count_cons_of_ne hc, ih]

/-- The characters of a beginning are found again at the beginning. -/
theorem take_withReturns (text : List Char) (i : Nat) :
    (withReturns text).take (i + (text.take i).count '\n') = withReturns (text.take i) := by
  have hsplit : withReturns text = withReturns (text.take i) ++ withReturns (text.drop i) := by
    rw [← withReturns_append, List.take_append_drop]
  have hlength := length_withReturns (text.take i)
  rw [List.length_take] at hlength
  rcases Nat.le_total i text.length with hle | hge
  · rw [hsplit, List.take_left' (by omega)]
  · -- There is nothing behind the text.
    rw [List.drop_eq_nil_of_le hge, show withReturns [] = [] from rfl, List.append_nil] at hsplit
    rw [hsplit, List.take_of_length_le (by omega)]

/-- The last line of a text, from behind its last line feed. -/
theorem takeWhile_reverse_withReturns (text : List Char) :
    (withReturns text).reverse.takeWhile (· ≠ '\n') = text.reverse.takeWhile (· ≠ '\n') := by
  induction text using List.reverseRecOn with
  | nil => rfl
  | append_singleton front c ih =>
    by_cases hc : c = '\n'
    · subst hc
      simp [withReturns]
    · have hlast : withReturns [c] = [c] := withReturns_cons_of_ne hc []
      rw [withReturns_append, hlast, List.reverse_append, List.reverse_append,
        List.reverse_singleton, List.singleton_append, List.singleton_append,
        List.takeWhile_cons_of_pos (by simpa using hc),
        List.takeWhile_cons_of_pos (by simpa using hc), ih]

/-- The first line of a text ends with a carriage return now, unless it is the last one. -/
theorem takeWhile_withReturns (text : List Char) :
    (withReturns text).takeWhile (· ≠ '\n') =
      text.takeWhile (· ≠ '\n') ++ if '\n' ∈ text then ['\r'] else [] := by
  induction text with
  | nil => rfl
  | cons c rest ih =>
    by_cases hc : c = '\n'
    · subst hc
      simp [withReturns_cons_lineFeed]
    · rw [withReturns_cons_of_ne hc, List.takeWhile_cons_of_pos (by simpa using hc),
        List.takeWhile_cons_of_pos (by simpa using hc), ih]
      simp [Ne.symm hc]

end Text

/-- A span of which nothing is told but that there is one. -/
def Span.forget (_ : Span) : Span := { start := 0, stop := 0 }

theorem Span.forget_eq (span span' : Span) : span.forget = span'.forget := rfl

namespace Yaml

/-- What becomes of a text without carriage returns if its line breaks are spelled with two
    characters. -/
def Retelling.withReturns (text : List Char) (hreturn : '\r' ∉ text) : Retelling where
  text
  offset := 0
  lines := 0
  doubled := true
  plain _ := hreturn

variable {text : List Char} (hreturn : '\r' ∉ text)

/-- The first round reads the two texts alike. -/
theorem Tokenizer.agree_round_withReturns (hnarrow : Document.StaysNarrow text)
    (hdecided : ¬Document.IsDecidedBy text [TokenStream.streamStart]) :
    (Retelling.withReturns text hreturn).Agree (Told (Retelling.withReturns text hreturn))
      (ofText text).withoutFirst.round (ofText (Text.withReturns text)).withoutFirst.round := by
  have hround (u : Tokenizer) (hu : (ofText text).withoutFirst.round = .ok u) : u.IsNarrow :=
    isNarrow_of_step (r := (none, u)) (staysNarrowUntil_of_step hnarrow (step_ofText text))
      hdecided (bind_eq_ok.mpr ⟨u, hu, rfl⟩)
  refine agree_round ?_ (by simp [inFlow, withoutFirst, ofText]) fun _ => hround
  have hcursor : Cursor.Retold (Retelling.withReturns text hreturn) (.ofText text)
      (.ofText (Text.withReturns text)) :=
    { rest_eq := rfl
      mark_eq := rfl
      indenting_eq := rfl
      seen_eq := fun _ => rfl
      left_eq := fun _ => rfl
      isPlace := fun _ => rfl }
  exact .ofCursor hcursor text (Text.withReturns text)

end Yaml

/-! ### Spans and locations -/

/-- Only the start of a span, at the byte where the character at that place is now. -/
def Span.startWithReturns (text : List Char) (span : Span) : Span :=
  { start := Text.byteLength (Text.withReturns (Text.cutAtByte span.start text).1), stop := 0 }

/-- Only the start of a span. -/
def Span.startOnly (span : Span) : Span := { start := span.start, stop := 0 }

/-- Spans start at the same characters. -/
theorem OffsetTable.matches_withReturns {text : List Char} (hreturn : '\r' ∉ text) :
    (Yaml.Retelling.withReturns text hreturn).Matches (ofText text)
      (ofText (Text.withReturns text)) (Span.startWithReturns text) Span.startOnly := by
  have hstart (i : Nat) :
      (ofText (Text.withReturns text)).byteAt ((Yaml.Retelling.withReturns text hreturn).index i) =
        Text.byteLength (Text.withReturns
          (Text.cutAtByte ((ofText text).byteAt i) text).1) := by
    have hindex : (Yaml.Retelling.withReturns text hreturn).index i =
        i + (text.take i).count '\n' := by
      simp [Yaml.Retelling.index, Yaml.Retelling.withReturns]
    have hcut : Text.cutAtByte (Text.byteLength (text.take i)) text =
        (text.take i, text.drop i) := by
      have := Text.cutAtByte_byteLength_append (text.take i) (text.drop i)
      rwa [List.take_append_drop] at this
    rw [byteAt_ofText, byteAt_ofText, hindex, Text.take_withReturns, hcut]
  constructor
  · intro first last
    simp only [Yaml.Assembly.spanBetween, Yaml.Retelling.mark, Span.startOnly,
      Span.startWithReturns, hstart]
  · intro mark style text'
    simp only [Yaml.Assembly.scalarSpan, Yaml.Retelling.mark, Span.startOnly,
      Span.startWithReturns, hstart]

/-- Lines and columns stay. The carriage return at the end of a line is no blank. -/
theorem Location.ofSpan_withReturns (text file : String) (span : Span) (withColumn : Bool) :
    ofSpan (String.ofList (Text.withReturns text.toList)) (span.startWithReturns text.toList) file
        withColumn =
      ofSpan text span file withColumn := by
  have hcut : Text.cutAtByte (span.startWithReturns text.toList).start
      (Text.withReturns text.toList) =
        (Text.withReturns (Text.cutAtByte span.start text.toList).1,
          Text.withReturns (Text.cutAtByte span.start text.toList).2) := by
    have := Text.cutAtByte_byteLength_append
      (Text.withReturns (Text.cutAtByte span.start text.toList).1)
      (Text.withReturns (Text.cutAtByte span.start text.toList).2)
    rwa [← Text.withReturns_append, Text.cutAtByte_append] at this
  have hreturn : (if '\n' ∈ (Text.cutAtByte span.start text.toList).2 then ['\r'] else []).takeWhile
      (fun c => decide (c = ' ' ∨ c = '\t')) = [] := by
    split <;> rfl
  have hline : Position.lineNumber (String.ofList (Text.withReturns text.toList))
      (span.startWithReturns text.toList).start = Position.lineNumber text span.start := by
    simp only [Position.lineNumber, String.toList_ofList, hcut, Text.count_withReturns]
  have hcolumn : Position.indentation (Position.lineText
      (String.ofList (Text.withReturns text.toList)) (span.startWithReturns text.toList).start) =
        Position.indentation (Position.lineText text span.start) := by
    simp only [Position.lineText, Position.lineChars, String.toList_ofList, hcut,
      Text.takeWhile_reverse_withReturns, Text.takeWhile_withReturns, ← List.append_assoc,
      Position.indentation, Text.takeWhile_append_of_eq_nil _ hreturn]
  simp only [ofSpan, hline, hcolumn]

/-- Answers that are changed twice, if there are any. -/
theorem map_map_map {ε α β γ : Type} (f : α → β) (g : β → γ) (result : Except ε (Option α)) :
    (result.map (Option.map f)).map (Option.map g) = result.map (Option.map fun a => g (f a)) := by
  rcases result with _ | _ | _ <;> rfl

/-- Line breaks of two characters change nothing of what is told, unless a block scalar with a
    character of several bytes is read before all of it is found out. -/
theorem Yaml.Document.parse_withReturns (text : String) (hreturn : '\r' ∉ text.toList)
    (hnarrow : StaysNarrow text.toList) :
    (parse (String.ofList (Text.withReturns text.toList))).map
          (Option.map (Node.mapSpans Span.forget)) =
        (parse text).map (Option.map (Node.mapSpans Span.forget)) ∧
      ∀ (path : KeyPath) (file : String) (withColumn : Bool),
        (path.find (String.ofList (Text.withReturns text.toList))).map (Option.map fun found =>
            found.report (String.ofList (Text.withReturns text.toList)) file withColumn) =
          (path.find text).map (Option.map fun found => found.report text file withColumn) := by
  have hevents := agree_events (Tokenizer.agree_round_withReturns hreturn hnarrow)
    fun _ => hnarrow
  have hspans := OffsetTable.matches_withReturns hreturn
  rw [← String.toList_ofList (l := Text.withReturns text.toList)] at hevents hspans
  have hforget : (Retelling.withReturns text.toList hreturn).Matches (.ofText text.toList)
      (.ofText (String.ofList (Text.withReturns text.toList)).toList) Span.forget Span.forget :=
    ⟨fun _ _ => Span.forget_eq _ _, fun _ _ _ => Span.forget_eq _ _⟩
  have hlines : (Retelling.withReturns text.toList hreturn).lines = 0 := rfl
  have hbelow₀ {α : Type} (result : Except ParseError α) :
      result.mapError (ParseError.below 0) = result := by
    rcases result with (_ | _) | _ <;> rfl
  refine ⟨?_, fun path file withColumn => ?_⟩
  · have hparse := mapSpans_parse hevents hforget
    rwa [hlines, hbelow₀] at hparse
  · have hfind := KeyPath.mapSpan_find (mapSpans_parse hevents hspans) path
    rw [hlines, hbelow₀] at hfind
    have hreport (found : KeyMatch) :
        (found.mapSpan (Span.startWithReturns text.toList)).report
          (String.ofList (Text.withReturns text.toList)) file withColumn =
            found.report text file withColumn := by
      have hlocation := Location.ofSpan_withReturns text file found.span withColumn
      cases found <;> exact Prod.ext rfl hlocation
    have hstart (found : KeyMatch) (source : String) :
        (found.mapSpan Span.startOnly).report source file withColumn =
          found.report source file withColumn := by
      cases found <;> rfl
    calc (path.find (String.ofList (Text.withReturns text.toList))).map (Option.map fun found =>
            found.report (String.ofList (Text.withReturns text.toList)) file withColumn)
        = ((path.find (String.ofList (Text.withReturns text.toList))).map
            (Option.map (KeyMatch.mapSpan Span.startOnly))).map (Option.map fun found =>
              found.report (String.ofList (Text.withReturns text.toList)) file withColumn) := by
          rw [map_map_map]
          simp only [hstart]
      _ = ((path.find text).map
            (Option.map (KeyMatch.mapSpan (Span.startWithReturns text.toList)))).map
              (Option.map fun found =>
                found.report (String.ofList (Text.withReturns text.toList)) file withColumn) := by
          rw [hfind]
      _ = (path.find text).map (Option.map fun found => found.report text file withColumn) := by
          rw [map_map_map]
          simp only [hreport]

/-- A block scalar between characters of two bytes, and a key below it. There are such characters in
    the block scalar of the next document. -/
theorem Yaml.Document.parse_withReturns_of_literal :
    '\r' ∉ "é: |\n x\nb: é\n...\n|\n é\n".toList ∧
      StaysNarrow "é: |\n x\nb: é\n...\n|\n é\n".toList ∧
      ((⟨["b"], by decide, by decide⟩ : KeyPath).find
          (String.ofList (Text.withReturns "é: |\n x\nb: é\n...\n|\n é\n".toList))).map
        (Option.map fun found =>
          found.report
            (String.ofList (Text.withReturns "é: |\n x\nb: é\n...\n|\n é\n".toList)) "f" true) =
        .ok (some (true, { path := "f", line := 3, column := some 0 })) := by
  have hfind : (⟨["b"], by decide, by decide⟩ : KeyPath).find "é: |\n x\nb: é\n...\n|\n é\n" =
      .ok (some (.exact ⟨9, 10⟩)) := KeyPath.find_of_parseWithin 40 (by decide +kernel)
  have hnarrow : StaysNarrow "é: |\n x\nb: é\n...\n|\n é\n".toList :=
    staysNarrow_of_holdsWithin 40 40 (by decide +kernel)
  refine ⟨by decide, hnarrow, ?_⟩
  rw [(parse_withReturns "é: |\n x\nb: é\n...\n|\n é\n" (by decide) hnarrow).2, hfind]
  decide +kernel

/-- A text with a block scalar of characters of four bytes, and two keys below it. The first of
    them stands in the third line, and is told to stand in the fourth one, unless the lines end
    with two characters. -/
theorem report_ne_of_wide :
    ((⟨["b"], by decide, by decide⟩ : KeyPath).find "a: |\n 😀😀\nb:\nc:\n").map
        (Option.map fun found => found.report "a: |\n 😀😀\nb:\nc:\n" "f" true) =
        .ok (some (true, { path := "f", line := 4, column := some 0 })) ∧
      ((⟨["b"], by decide, by decide⟩ : KeyPath).find
          (String.ofList (Text.withReturns "a: |\n 😀😀\nb:\nc:\n".toList))).map
        (Option.map fun found =>
          found.report (String.ofList (Text.withReturns "a: |\n 😀😀\nb:\nc:\n".toList)) "f" true) =
        .ok (some (true, { path := "f", line := 3, column := some 0 })) := by
  have hfind : (⟨["b"], by decide, by decide⟩ : KeyPath).find "a: |\n 😀😀\nb:\nc:\n" =
      .ok (some (.exact ⟨18, 19⟩)) := KeyPath.find_of_parseWithin 30 (by decide +kernel)
  have hfind' : (⟨["b"], by decide, by decide⟩ : KeyPath).find
      (String.ofList (Text.withReturns "a: |\n 😀😀\nb:\nc:\n".toList)) =
        .ok (some (.exact ⟨20, 21⟩)) := KeyPath.find_of_parseWithin 30 (by decide +kernel)
  rw [hfind, hfind']
  decide +kernel

end YamlLocator
