import YamlLocator.Text.Bytes

/-!
# Lines of Source Text

Where a byte offset lies in terms of lines. Only a line feed ends a line; a
carriage return in front of it belongs to the line, and is content as far as
indentation is concerned. Every function takes any offset: one behind the text
means the end of the text, and one inside a character means the line that holds
the character.

## Main definitions

* `lineNumber`: The number of the line that holds an offset, counted from one.
* `lineText`: The text of that line, without the line feed.
* `indentation`: The number of spaces and tabs that a line begins with.
-/

namespace YamlLocator

namespace Position

/-- The number of the line that holds the offset: one more than the line feeds in
    front of it. -/
def lineNumber (source : String) (offset : Nat) : Nat :=
  (Text.cutAtByte offset source.toList).1.count '\n' + 1

/-- The characters of the line that holds the offset: from behind the last line
    feed in front of the offset up to the next one after it. -/
def lineChars (source : List Char) (offset : Nat) : List Char :=
  let (before, after) := Text.cutAtByte offset source
  (before.reverse.takeWhile (· ≠ '\n')).reverse ++ after.takeWhile (· ≠ '\n')

/-- The text of the line that holds the offset, without its line feed. -/
def lineText (source : String) (offset : Nat) : String :=
  String.ofList (lineChars source.toList offset)

/-- The number of spaces and tabs at the beginning of a line. -/
def indentation (line : String) : Nat :=
  (line.toList.takeWhile fun c => c = ' ' ∨ c = '\t').length

end Position

end YamlLocator
