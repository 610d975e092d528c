import YamlLocator.Text.Bytes

/-!
# Spans of Source Text

A span names a stretch of a text by two byte offsets. Spans are plain pairs of
numbers: whether one fits a given text is asked only when its text is taken.

## Main definitions

* `Span`: Two byte offsets, the second one exclusive.
* `Span.text?`: The stretch of a text that a span covers, if it covers one.
-/

namespace YamlLocator

/-- A stretch of source text, by byte offsets. -/
structure Span where
  /-- The offset of the first byte. -/
  start : Nat
  /-- The offset behind the last byte. -/
  stop : Nat
deriving DecidableEq, Repr, Inhabited

namespace Span

/-- The text that the span covers. There is none if the span runs backwards, ends
    behind the text, or has an end inside a character. -/
def text? (span : Span) (source : String) : Option String :=
  (Text.sliceBytes? span.start span.stop source.toList).map String.ofList

end Span

end YamlLocator
