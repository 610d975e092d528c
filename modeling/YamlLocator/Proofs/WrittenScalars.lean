import YamlLocator.Proofs.ErrorPlaces
import YamlLocator.Proofs.Places.Trees

/-!
# Scalars That Are Written Out

The end of a scalar is guessed from the length of its value. The guess is right for every scalar
that is written out letter by letter, and whether one is can be told from what is known of it
afterwards: its value holds neither a space nor a line feed, so that nothing was folded, and it
does not begin with a quote or with the sign of a block scalar. The text of its span is its value
then. That goes for keys as well, which is why the text of the span of an exact match is the last
segment of the path.

Behind a block scalar with characters of several bytes, spans start further on than they should;
`text?_ne_of_wide` is a key that is taken for its value. Such a scalar does no harm to what stands
in front of it.

## Theorems

* `text?_of_part`: The text of a scalar that is written out is its value.
-/

namespace YamlLocator

namespace Yaml

/-- The text of a scalar that is written out at a cursor is its value. -/
theorem text?_scalarSpan {text : String} {c : Cursor} (h : c.Stands text.toList) {value : String}
    (hvalue : value.toList <+: c.rest) {style : ScalarStyle}
    (hquotes : Assembly.quoteCount style = 0) :
    (Assembly.scalarSpan (.ofText text.toList) c.mark style value).text? text = some value := by
  rcases Cursor.exists_of_stands h with ⟨front, htext, hstart⟩
  rcases hvalue with ⟨back, hback⟩
  have hindex : c.mark.index = front.length := by
    rcases h with ⟨front', htext', -, hmark⟩
    rw [htext'] at htext
    rw [hmark, Mark.index_past, List.append_cancel_right htext, Mark.start, Nat.zero_add]
  have hstop : (OffsetTable.ofText text.toList).byteAt (c.mark.index + value.length) =
      Text.byteLength front + Text.byteLength value.toList := by
    have hlength : front.length + value.length = (front ++ value.toList).length := by
      rw [List.length_append, String.length_toList]
    rw [hindex, hlength, htext, ← hback, ← List.append_assoc, OffsetTable.byteAt_ofText_append,
      Text.byteLength_append]
  have hcovered := Span.text?_of_append front value.toList back
  rw [hback, ← htext, String.ofList_toList, String.ofList_toList] at hcovered
  rw [Assembly.scalarSpan, hquotes, Nat.add_zero, hstart, hstop]
  exact hcovered

/-- The text of a scalar that is left out is empty, as its value is. -/
theorem text?_emptyScalar (text : String) (m : Mark) :
    (Assembly.scalarSpan (.ofText text.toList) m .plain "").text? text = some "" := by
  have hcovered := Span.text?_of_append (text.toList.take m.index) [] (text.toList.drop m.index)
  rw [List.nil_append, List.take_append_drop, String.ofList_toList] at hcovered
  rw [Assembly.scalarSpan, OffsetTable.byteAt_ofText, OffsetTable.byteAt_ofText]
  exact hcovered

/-- Whether a character begins a scalar whose value is not written out: a quote, or the sign of a
    block scalar. -/
def isScalarSign (c : Char) : Bool := c = '\'' || c = '"' || c = '|' || c = '>'

/-- A scalar whose value is not changed, and which begins with no sign, is written out where it
    begins. -/
theorem reads_of_begins {c : Cursor} {style : ScalarStyle} {value : List Char}
    (h : c.Begins style value) (hsign : isScalarSign c.peek = false) :
    c.Reads value ∧ Assembly.quoteCount style = 0 := by
  simp only [isScalarSign, Bool.or_eq_false_iff, decide_eq_false_iff_not] at hsign
  rcases hsign with ⟨⟨⟨hsingle, hdouble⟩, hliteral⟩, hfolded⟩
  cases style with
  | plain => exact ⟨h.2, rfl⟩
  | singleQuoted => exact absurd h hsingle
  | doubleQuoted => exact absurd h hdouble
  | literal => exact ⟨h.2.resolve_left hliteral, rfl⟩
  | folded => exact ⟨h.2.resolve_left hfolded, rfl⟩

/-- The next character of a cursor that stands in the text is the one at its offset. -/
theorem charAt?_of_stands {text : List Char} {c : Cursor} (h : c.Stands text)
    (hend : isEnd c.peek = false) :
    Text.charAt? ((OffsetTable.ofText text).byteAt c.mark.index) text = some c.peek := by
  rcases Cursor.exists_of_stands h with ⟨front, htext, hstart⟩
  rw [hstart, Text.charAt?, htext, Text.cutAtByte_byteLength_append]
  cases hrest : c.rest with
  | nil => simp [Cursor.peek, hrest, isEnd] at hend
  | cons next rest => simp [Cursor.peek, hrest]

/-- Every scalar in the tree of a text has a span. If its value holds neither a space nor a line
    feed and the character at the start of the span is neither a quote nor the sign of a block
    scalar, the text of the span is the value, unless a block scalar with characters of several
    bytes is in front of it. In particular, the text of an exact match is the last segment of the
    path, if that holds of it. -/
theorem text?_of_part (text : String) :
    (∀ root, Document.parse text = .ok (some root) →
      ∀ value kind span, Node.Part (.scalar value kind span) root →
        ∃ range, span = some range ∧
          (Text.IsNarrowBefore text.toList range.start →
            ' ' ∉ value.toList → '\n' ∉ value.toList →
            (∀ c, Text.charAt? range.start text.toList = some c → isScalarSign c = false) →
            range.text? text = some value)) ∧
      (∀ path : KeyPath, ∀ range, path.find text = .ok (some (.exact range)) →
        ∃ name, path.segments.getLast? = some name ∧
          (Text.IsNarrowBefore text.toList range.start →
            ' ' ∉ name.toList → '\n' ∉ name.toList →
            (∀ c, Text.charAt? range.start text.toList = some c → isScalarSign c = false) →
            range.text? text = some name)) := by
  have hparts (root : Node) (hparse : Document.parse text = .ok (some root)) (value : String)
      (kind : ScalarKind) (span : Option Span) (hpart : Node.Part (.scalar value kind span) root) :
      ∃ range, span = some range ∧
        (Text.IsNarrowBefore text.toList range.start →
          ' ' ∉ value.toList → '\n' ∉ value.toList →
          (∀ c, Text.charAt? range.start text.toList = some c → isScalarSign c = false) →
          range.text? text = some value) := by
    rcases exists_begins_of_part hparse hpart with
      ⟨found, -, event, -, style, hitem, -, range, hrange, hspan, hbegins⟩
    refine ⟨range, hspan, fun hnarrow hspace hfeed hsign => ?_⟩
    rcases hbegins with hempty | hbegins
    · -- A node that is left out has no text, and neither has its span.
      rw [hempty] at hitem
      simp only [Event.emptyScalar, Event.scalar.injEq] at hitem
      rcases hitem with ⟨rfl, rfl⟩
      rw [hrange]
      exact text?_emptyScalar text event.mark
    · rcases hbegins hnarrow with ⟨c, hstands, hmark, hbegins⟩
      have hend := (Bool.or_eq_false_iff.mp (Cursor.isLineEnd_of_begins hbegins)).2
      rw [hrange, ← hmark] at hsign ⊢
      rcases reads_of_begins hbegins (hsign _ (charAt?_of_stands hstands hend)) with
        ⟨hreads, hquotes⟩
      exact text?_scalarSpan hstands (hreads hspace hfeed) hquotes
  refine ⟨hparts, fun path range hfind => ?_⟩
  rcases KeyPath.exists_part_of_find hfind with ⟨root, hparse, name, -, hpart, hlast⟩
  rcases hparts root hparse name .string _ hpart with ⟨range', hrange, htext⟩
  simp only [KeyMatch.span, Option.some.injEq] at hrange
  rw [← hrange] at htext
  exact ⟨name, hlast rfl, htext⟩

/-- A key of one letter of two bytes between two block scalars, of which the one behind it is
    not ASCII. -/
theorem text?_of_part_of_literal :
    Text.IsNarrowBefore "é: |\n x\nñ: |\n é\n".toList 9 ∧
      (⟨["ñ"], by decide, by decide⟩ : KeyPath).find "é: |\n x\nñ: |\n é\n" =
        .ok (some (.exact ⟨9, 11⟩)) ∧
      (⟨9, 11⟩ : Span).text? "é: |\n x\nñ: |\n é\n" = some "ñ" := by
  have hnarrow : Text.IsNarrowBefore "é: |\n x\nñ: |\n é\n".toList 9 :=
    Text.isNarrowBefore_of_holdsWithin 40 (by decide +kernel)
  have hfind : (⟨["ñ"], by decide, by decide⟩ : KeyPath).find "é: |\n x\nñ: |\n é\n" =
      .ok (some (.exact ⟨9, 11⟩)) := KeyPath.find_of_parseWithin 40 (by decide +kernel)
  rcases (text?_of_part _).2 _ _ hfind with ⟨name, hname, htext⟩
  have hsame : name = "ñ" := by simpa using hname.symm
  subst hsame
  refine ⟨hnarrow, hfind, htext hnarrow (by decide) (by decide) fun c hc => ?_⟩
  have hfirst : Text.charAt? 9 "é: |\n x\nñ: |\n é\n".toList = some 'ñ' := by decide
  rw [hfirst, Option.some.injEq] at hc
  rw [← hc]
  decide

/-- A key below a block scalar of characters of four bytes. The span of the key covers its value. -/
theorem text?_ne_of_wide :
    (⟨["b"], by decide, by decide⟩ : KeyPath).find "a: |\n 😀😀\nb: c\n" =
        .ok (some (.exact ⟨18, 19⟩)) ∧
      Text.charAt? 18 "a: |\n 😀😀\nb: c\n".toList = some 'c' ∧
      (⟨18, 19⟩ : Span).text? "a: |\n 😀😀\nb: c\n" = some "c" := by
  exact ⟨KeyPath.find_of_parseWithin 40 (by decide +kernel), by decide, by decide⟩

end Yaml

end YamlLocator
