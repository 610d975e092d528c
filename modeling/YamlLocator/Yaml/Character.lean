/-!
# Character Classes

The classes of characters that the layout and the tokens of YAML are made of. A
reader asks for the next character also where the text has ended; it then sees
`endMark`, which for this reason also ends the text when it stands in it.

All of the letter and digit classes are ASCII classes, as the language has it.

## Main definitions

* `endMark`, `isEnd`, `isBreak`, `isBlank`: The ends of lines and texts, and what
  separates tokens on a line.
* `isLineEnd`, `isGap`: The unions of these that matter together.
* `isFlow`: The indicators of flow collections.
* `isWord`, `isAnchorChar`, `isUriChar`, `isTagChar`: What names are made of.
-/

namespace YamlLocator

namespace Yaml

/-- The character that stands for the end of the text. -/
def endMark : Char := '\x00'

/-- The end of the text. -/
def isEnd (c : Char) : Bool := c = endMark

/-- A line break: a line feed or a carriage return. -/
def isBreak (c : Char) : Bool := c = '\n' || c = '\r'

/-- A blank: a space or a tab. -/
def isBlank (c : Char) : Bool := c = ' ' || c = '\t'

/-- The end of a line: a break or the end of the text. -/
def isLineEnd (c : Char) : Bool := isBreak c || isEnd c

/-- What may follow a token of its own: a blank or the end of the line. -/
def isGap (c : Char) : Bool := isBlank c || isLineEnd c

/-- An indicator of flow collections. -/
def isFlow (c : Char) : Bool := c = ',' || c = '[' || c = ']' || c = '{' || c = '}'

/-- A letter, a digit, an underscore or a hyphen. -/
def isWord (c : Char) : Bool := c.isAlphanum || c = '_' || c = '-'

/-- The byte order mark. -/
def byteOrderMark : Char := '\ufeff'

/-- A character of the name of an anchor. -/
def isAnchorChar (c : Char) : Bool := !(isGap c || isFlow c || c = byteOrderMark)

/-- A character of a tag that is written out, or the beginning of an escape in it. -/
def isUriChar (c : Char) : Bool :=
  c.isAlphanum || c = '-' || "#;/?:@&=+$,_.!~*'()[]%".toList.contains c

/-- A character of a tag behind its handle, or the beginning of an escape in it. -/
def isTagChar (c : Char) : Bool := isUriChar c && !isFlow c && c ≠ '!'

end Yaml

end YamlLocator
