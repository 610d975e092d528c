import YamlLocator.Proofs.Evaluation
import YamlLocator.Proofs.Places.Events

/-!
# Where Errors Are Reported

A text that is refused is refused at a place: in one of its lines, at most right behind the last
character of that line, or at the beginning of the line that would follow the last one.

The exception is the same as for keys. Behind a block scalar with characters of several bytes the
reader takes itself to be further along the line than it is, and so the column that it reports
may lie behind the end of the line; `column_lt_of_wide` is such a text. Block scalars that are not
read before the error is found do not matter.

## Theorems

* `Document.line_of_malformed`: The line and the column of an error lie in the text, or directly
  behind it.
-/

namespace YamlLocator

namespace Yaml

namespace Document

/-- An error is reported for a line of the text, or for the first column of the line behind the
    last one. In a line of the text, no more characters are in front of it than there are. Only a
    block scalar with characters of several bytes that is read before the error is found may change
    that. -/
theorem line_of_malformed (text : String) (hnarrow : StaysNarrow text.toList) (message : String)
    (line column : Nat) (h : parse text = .error (.malformed message line column)) :
    1 ≤ line ∧ line ≤ Text.countBreaks text.toList + 2 ∧ 1 ≤ column ∧
      (line ≤ Text.countBreaks text.toList + 1 →
        ∃ content, (Text.lines text.toList)[line - 1]? = some content ∧
          column - 1 ≤ content.length) ∧
      (line = Text.countBreaks text.toList + 2 → column = 1) := by
  rcases exists_error_of_malformed h with ⟨e, hevents, hshown⟩
  have hplace := of_yields_error (yields_events hnarrow) hevents
  rw [ParseError.ofSyntaxError, ParseError.malformed.injEq] at hshown
  rcases hshown with ⟨-, rfl, rfl⟩
  rcases Text.line_of_isPlace hplace with ⟨hpos, hle, hin, hbehind⟩
  refine ⟨hpos, hle, by omega, fun hline => ?_, fun hline => ?_⟩
  · simpa using hin hline
  · rw [hbehind hline]

/-- A brace that closes nothing, in a line of letters of two bytes between two block scalars. The
    one behind it is not ASCII. -/
theorem line_of_malformed_of_bracket :
    StaysNarrow "é: |\n x\nñ: [é\x7d]\nb: |\n é\n".toList ∧
      parse "é: |\n x\nñ: [é\x7d]\nb: |\n é\n" =
        .error (.malformed "while parsing a flow sequence, expected ',' or ']'" 3 6) ∧
      3 ≤ Text.countBreaks "é: |\n x\nñ: [é\x7d]\nb: |\n é\n".toList + 2 ∧
        ∃ content, (Text.lines "é: |\n x\nñ: [é\x7d]\nb: |\n é\n".toList)[3 - 1]? = some content ∧
          6 - 1 ≤ content.length := by
  have hparse : parse "é: |\n x\nñ: [é\x7d]\nb: |\n é\n" =
      .error (.malformed "while parsing a flow sequence, expected ',' or ']'" 3 6) :=
    parse_of_parseWithin 40 (by decide +kernel)
  have hnarrow : StaysNarrow "é: |\n x\nñ: [é\x7d]\nb: |\n é\n".toList :=
    staysNarrow_of_holdsWithin 40 40 (by decide +kernel)
  rcases line_of_malformed _ hnarrow _ _ _ hparse with ⟨-, hle, -, hin, -⟩
  exact ⟨hnarrow, hparse, hle, hin (by decide)⟩

/-- A text with a block scalar of characters of four bytes. Its last line has three characters, and
    the error is reported for the seventh column of that line. -/
theorem column_lt_of_wide :
    parse "a: b\n|\n 😀😀" = .error (.malformed "simple key expect ':'" 3 7) ∧
      (Text.lines "a: b\n|\n 😀😀".toList)[3 - 1]? = some [' ', '😀', '😀'] ∧
      [' ', '😀', '😀'].length < 7 - 1 := by
  exact ⟨parse_of_parseWithin 40 (by decide +kernel), by decide, by decide⟩

end Document

end Yaml

end YamlLocator
