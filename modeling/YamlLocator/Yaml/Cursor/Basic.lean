import YamlLocator.Yaml.Character
import YamlLocator.Yaml.Fault

/-!
# Cursors

The place up to which a text has been read, and the moves that every token is
read with.

A cursor holds the text that is left, the mark of its first character, and
whether nothing but blanks was read on the line so far. Columns are counted
through blanks and text alike; only `nextLine` starts a new line, and a carriage
return with a line feed behind it is one break although it is two characters.

The cursor also keeps how far the text has been looked at beyond the place it has
been read to. That never decides what is read, but the marks behind a block
scalar depend on it; see `Scalar.Block`.

## Main definitions

* `Cursor`: A place in a text, with the text that is left.
* `Cursor.left`: How much text is left.
* `Cursor.peek`, `Cursor.peekAt`: The characters ahead.
* `Cursor.blanks`, `Cursor.advance`, `Cursor.nextLine`, `Cursor.lineBreak`: The
  moves.
* `Cursor.lineRest`: The move over blanks and a comment to the end of a line.
* `Cursor.atDocumentMark`: Whether a marker between documents stands ahead.
-/

namespace YamlLocator

namespace Yaml

/-- A place in a text. -/
structure Cursor where
  /-- The text that is left. -/
  rest : List Char
  /-- The mark of the next character. -/
  mark : Mark
  /-- Whether only blanks were read on this line so far. -/
  indenting : Bool
  /-- How many of the characters that are left have been looked at. -/
  seen : Nat
deriving DecidableEq, Repr

namespace Cursor

/-- The beginning of a text. -/
def ofText (text : List Char) : Cursor :=
  { rest := text, mark := Mark.start, indenting := true, seen := 0 }

/-- The number of characters that are left. -/
def left (c : Cursor) : Nat := c.rest.length

/-- The next character. -/
def peek (c : Cursor) : Char := c.rest.headD endMark

/-- The character behind the next `count` ones. -/
def peekAt (c : Cursor) (count : Nat) : Char := (c.rest.drop count).headD endMark

/-- The column of the next character. -/
def column (c : Cursor) : Nat := c.mark.column

/-- Go over `count` characters of the line, none of which matters as text. -/
def blanks (c : Cursor) (count : Nat) : Cursor :=
  { c with
    rest := c.rest.drop count
    mark := c.mark.right count
    seen := c.seen - count }

/-- Go over `count` characters of the line, which are text. -/
def advance (c : Cursor) (count : Nat) : Cursor :=
  { c.blanks count with indenting := false }

/-- Go over a line break of one character. -/
def nextLine (c : Cursor) : Cursor :=
  { rest := c.rest.drop 1, mark := c.mark.nextLine, indenting := true, seen := c.seen - 1 }

/-- Go over a line break, if one is next. -/
def lineBreak (c : Cursor) : Cursor :=
  match c.rest with
  | '\r' :: '\n' :: _ => (c.blanks 1).nextLine
  | '\n' :: _ => c.nextLine
  | '\r' :: _ => c.nextLine
  | _ => c

/-- Go over the characters from here that belong to a class, as text. -/
def advanceWhile (c : Cursor) (inClass : Char → Bool) : Cursor :=
  c.advance (c.rest.takeWhile inClass).length

/-- Go over the blanks from here. -/
def skipBlanks (c : Cursor) : Cursor :=
  c.blanks (c.rest.takeWhile isBlank).length

/-- Go over a comment that starts here, up to the end of its line. -/
def comment (c : Cursor) : Cursor :=
  c.advanceWhile fun ch => !isLineEnd ch

/-- Look at the next `count` characters. -/
def lookAt (c : Cursor) (count : Nat) : Cursor :=
  { c with seen := max c.seen count }

/-- Go over blanks and then over a comment, if there is one. -/
def lineTail (c : Cursor) : Cursor :=
  let after := c.skipBlanks
  if after.peek = '#' then after.comment else after

/-- Go over the blanks and the comment behind a token. A comment must not follow
    the token at once. -/
def lineRest (c : Cursor) : Except SyntaxError Cursor :=
  if c.peek = '#' then c.mark.refuse .unseparatedComment else .ok c.lineTail

/-- Whether the marker `sign` between documents, three equal characters at the
    beginning of a line and a gap, stands here. -/
def atSign (c : Cursor) (sign : Char) : Bool :=
  c.column = 0 && c.peek = sign && c.peekAt 1 = sign && c.peekAt 2 = sign && isGap (c.peekAt 3)

/-- Whether a marker between documents stands here. -/
def atDocumentMark (c : Cursor) : Bool := c.atSign '-' || c.atSign '.'

end Cursor

end Yaml

end YamlLocator
