import YamlLocator.Proofs.Evaluation
import YamlLocator.Proofs.Offsets
import YamlLocator.Proofs.Spans
import YamlLocator.Proofs.TokenOrder.Collections

/-!
# Spans Within the Text

The span of every node of a tree covers a stretch of the text that the tree was read from. A
span is computed from two counts of characters, of which the second one is not smaller than
the first: a scalar ends some characters behind its start, and a collection ends at a mark
that is not in front of that of its start. From there on it does not matter whether the counts
are those of characters that exist. The table of offsets takes a count behind the text for the
end of the text, and any other count for a boundary between two characters, in the order of
the counts.

## Main definitions

* `Text.IsBoundary`: No character of the text lies on both sides of an offset.
* `Span.Fits`: A span covers a stretch of a text.

## Theorems

* `Span.text?_of_append`: The text of a span that covers a stretch is that stretch.
* `OffsetTable.fits_byteAt`: Two counts in order give a span that fits.
* `exists_span_of_part`: Every node in the tree of a text has a span that fits the text.
-/

namespace YamlLocator

/-- The offset is the length of a beginning of the text. -/
def Text.IsBoundary (offset : Nat) (text : List Char) : Prop :=
  ∃ front back, text = front ++ back ∧ byteLength front = offset

namespace Span

/-- The span covers a stretch of the text. -/
def Fits (text : List Char) (span : Span) : Prop :=
  ∃ front stretch back, text = front ++ (stretch ++ back) ∧
    span.start = Text.byteLength front ∧
      span.stop = Text.byteLength front + Text.byteLength stretch

/-- The text of a span that covers a stretch is that stretch. -/
theorem text?_of_append (front stretch back : List Char) :
    Span.text? ⟨Text.byteLength front, Text.byteLength front + Text.byteLength stretch⟩
      (String.ofList (front ++ (stretch ++ back))) = some (String.ofList stretch) := by
  simp [text?, Text.sliceBytes?, Text.cutAtByte_byteLength_append]

variable {text : List Char} {span : Span}

theorem isBoundary_of_fits (h : span.Fits text) :
    Text.IsBoundary span.start text ∧ Text.IsBoundary span.stop text := by
  rcases h with ⟨front, stretch, back, rfl, hstart, hstop⟩
  exact ⟨⟨front, stretch ++ back, rfl, hstart.symm⟩,
    ⟨front ++ stretch, back, by simp, by rw [Text.byteLength_append, hstop]⟩⟩

theorem le_of_fits (h : span.Fits text) :
    span.start ≤ span.stop ∧ span.stop ≤ Text.byteLength text := by
  rcases h with ⟨front, stretch, back, rfl, hstart, hstop⟩
  simp only [Text.byteLength_append]
  omega

theorem exists_text?_of_fits {text : String} (h : span.Fits text.toList) :
    ∃ covered, span.text? text = some covered := by
  rcases h with ⟨front, stretch, back, htext, hstart, hstop⟩
  have := text?_of_append front stretch back
  rw [← htext, String.ofList_toList, ← hstop, ← hstart] at this
  exact ⟨String.ofList stretch, this⟩

end Span

/-- Two counts of characters, in order, give a span that fits the text. -/
theorem OffsetTable.fits_byteAt (text : List Char) {i j : Nat} (h : i ≤ j) :
    Span.Fits text ⟨(ofText text).byteAt i, (ofText text).byteAt j⟩ := by
  rcases Nat.exists_eq_add_of_le h with ⟨extent, rfl⟩
  refine ⟨text.take i, (text.drop i).take extent, (text.drop i).drop extent, ?_, ?_, ?_⟩
  · rw [List.take_append_drop, List.take_append_drop]
  · simp only [byteAt_ofText]
  · simp only [byteAt_ofText, List.take_add, Text.byteLength_append]

namespace Yaml

/-- All spans in the tree of a text fit the text. -/
theorem fits_of_parse {text : String} {root : Node}
    (hparse : Document.parse text = .ok (some root)) : root.IsSpanned (Span.Fits text.toList) :=
  isSpanned_of_parse (R := Derivation.InOrder) hparse
    (fun _ => OffsetTable.fits_byteAt _ (Nat.le_refl _))
    (fun _ _ _ => OffsetTable.fits_byteAt _ (by omega))
    (fun _ _ hle => OffsetTable.fits_byteAt _ hle)
    (fun _ => isMatched_of_events)

/-- Every node in the tree of a text has a span. It does not run backwards, ends within the
    text, and both of its ends are boundaries between characters, so that there is a text
    which it covers. -/
theorem exists_span_of_part (text : String) (root : Node)
    (hparse : Document.parse text = .ok (some root)) (node : Node) (hpart : Node.Part node root) :
    ∃ span, node.span = some span ∧
      span.start ≤ span.stop ∧ span.stop ≤ Text.byteLength text.toList ∧
        Text.IsBoundary span.start text.toList ∧ Text.IsBoundary span.stop text.toList ∧
          ∃ covered, span.text? text = some covered := by
  rcases fits_of_parse hparse node hpart with ⟨span, hspan, hfits⟩
  rcases Span.le_of_fits hfits with ⟨hle, hlength⟩
  rcases Span.isBoundary_of_fits hfits with ⟨hstart, hstop⟩
  exact ⟨span, hspan, hle, hlength, hstart, hstop, Span.exists_text?_of_fits hfits⟩

/-- A key, a sequence and its items, with letters of two bytes each. The second item is a part
    of the whole at a depth of two. -/
theorem exists_span_of_part_of_wide :
    Document.parse "é: [ü, ñ]\n" = .ok (some (.mapping
        [{ key := .scalar "é" .string (some ⟨0, 2⟩)
           value := some (.sequence
            [.scalar "ü" .string (some ⟨5, 7⟩), .scalar "ñ" .string (some ⟨9, 11⟩)]
            (some ⟨4, 11⟩)) }]
        (some ⟨2, 13⟩))) ∧
      ∃ span, (Node.scalar "ñ" .string (some ⟨9, 11⟩)).span = some span ∧
        span.start ≤ span.stop ∧ span.stop ≤ Text.byteLength "é: [ü, ñ]\n".toList ∧
          Text.IsBoundary span.start "é: [ü, ñ]\n".toList ∧
            Text.IsBoundary span.stop "é: [ü, ñ]\n".toList ∧
              ∃ covered, span.text? "é: [ü, ñ]\n" = some covered := by
  refine ⟨?parse, exists_span_of_part _ _ ?parse (.scalar "ñ" .string (some ⟨9, 11⟩)) ?part⟩
  case parse => exact Document.parse_of_parseWithin 40 (by decide +kernel)
  case part =>
    exact .value _ _ _ _ List.mem_cons_self rfl
      (.item _ _ _ (List.mem_cons_of_mem _ List.mem_cons_self) .whole)

end Yaml

end YamlLocator
