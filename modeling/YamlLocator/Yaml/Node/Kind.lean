/-!
# Kinds of Scalars

The core schema: which plain scalars are something other than a string.

Only the spellings that the schema lists are typed. `yes` and `0b1` are strings, and
so is a number with blanks in it or with digits of another script.

## Main definitions

* `ScalarKind`: The types of the core schema.
* `isInteger`, `isFloat`: The spellings of numbers.
* `ScalarKind.ofPlain`: The kind of a plain scalar.
-/

namespace YamlLocator

namespace Yaml

/-- The types of the core schema. -/
inductive ScalarKind where
  | string
  | integer
  | float
  | boolean
  | null
deriving DecidableEq, Repr

namespace CoreSchema

/-- Whether a text consists of characters of a class, and of at least one. -/
def isRun (inClass : Char → Bool) (text : List Char) : Bool :=
  !text.isEmpty && text.all inClass

/-- An octal digit. -/
def isOctalDigit (c : Char) : Bool := '0' ≤ c && c ≤ '7'

/-- A hexadecimal digit. -/
def isHexDigit (c : Char) : Bool :=
  c.isDigit || ('a' ≤ c && c ≤ 'f') || ('A' ≤ c && c ≤ 'F')

/-- A text without the sign that it may begin with. -/
def unsigned : List Char → List Char
  | '-' :: rest => rest
  | '+' :: rest => rest
  | text => text

/-- Whether a text spells an integer: decimal with an optional sign, octal, or
    hexadecimal. -/
def isInteger : List Char → Bool
  | '0' :: 'o' :: digits => isRun isOctalDigit digits
  | '0' :: 'x' :: digits => isRun isHexDigit digits
  | text => isRun Char.isDigit (unsigned text)

/-- Whether a text spells the digits of a number with an optional point, of which there
    is at least one on either side. -/
def isMantissa (text : List Char) : Bool :=
  let whole := text.takeWhile (· ≠ '.')
  let fraction := (text.dropWhile (· ≠ '.')).drop 1
  !(whole.isEmpty && fraction.isEmpty) && whole.all Char.isDigit && fraction.all Char.isDigit

/-- Whether a text is empty or spells an exponent with its letter. -/
def isExponent : List Char → Bool
  | [] => true
  | _ :: exponent => isRun Char.isDigit (unsigned exponent)

/-- Whether a character stands between a mantissa and an exponent. -/
def isExponentLetter (c : Char) : Bool := c = 'e' || c = 'E'

/-- The spellings of what is not a number. -/
def notANumber : List (List Char) :=
  [['.', 'n', 'a', 'n'], ['.', 'N', 'a', 'N'], ['.', 'N', 'A', 'N']]

/-- The spellings of infinity without a sign. -/
def infinity : List (List Char) :=
  [['.', 'i', 'n', 'f'], ['.', 'I', 'n', 'f'], ['.', 'I', 'N', 'F']]

/-- Whether a text spells a floating point number; integers do too. -/
def isFloat (text : List Char) : Bool :=
  let number := unsigned text
  notANumber.contains text || infinity.contains number ||
    (isMantissa (number.takeWhile (!isExponentLetter ·)) &&
      isExponent (number.dropWhile (!isExponentLetter ·)))

/-- Whether a text spells nothing at all. -/
def isNull (text : String) : Bool := ["", "~", "null", "Null", "NULL"].contains text

/-- Whether a text spells a truth value. -/
def isBoolean (text : String) : Bool :=
  ["true", "True", "TRUE", "false", "False", "FALSE"].contains text

end CoreSchema

/-- The kind of a plain scalar. -/
def ScalarKind.ofPlain (text : String) : ScalarKind :=
  if CoreSchema.isNull text then .null
  else if CoreSchema.isBoolean text then .boolean
  else if CoreSchema.isInteger text.toList then .integer
  else if CoreSchema.isFloat text.toList then .float
  else .string

end Yaml

end YamlLocator
