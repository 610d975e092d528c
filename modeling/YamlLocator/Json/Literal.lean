import YamlLocator.Text.Hex

/-!
# JSON String Literals

How a text is written between quotation marks, and how such a literal is read.

Writing escapes the quotation mark, the backslash and the control characters, and
leaves every other character as it is. Reading accepts every escape that JSON
knows. An escape by number names a UTF-16 unit; two of them may form a pair that
stands for one character, and a unit that should be part of a pair but is not
stands for nothing. Reading therefore goes in two steps: first the literal is
taken apart into characters and units, which decides where it ends and whether it
is well formed, and then the units are put together.

## Main definitions

* `quote`: A text as a string literal.
* `readLiteral`: The literal that follows an opening quotation mark.
* `decodeUnits`: The text that the parts of a literal stand for.
-/

namespace YamlLocator

namespace Json

/-- A part of a string literal. -/
inductive Part where
  /-- A character, written as itself or by a letter escape. -/
  | character (c : Char)
  /-- A UTF-16 unit, written by its number. -/
  | unit (number : Nat)
deriving DecidableEq, Repr

/-- The letter that stands for a character behind a backslash, for the characters
    that have one when written. -/
def letterEscape? (c : Char) : Option Char :=
  match c with
  | '"' => some '"'
  | '\\' => some '\\'
  | '\x08' => some 'b'
  | '\x0c' => some 'f'
  | '\n' => some 'n'
  | '\r' => some 'r'
  | '\t' => some 't'
  | _ => none

/-- A character as it is written inside a literal. -/
def escape (c : Char) : List Char :=
  match letterEscape? c with
  | some letter => ['\\', letter]
  | none =>
    if c.toNat < 0x20 then
      ['\\', 'u', '0', '0', (c.toNat / 16).digitChar, (c.toNat % 16).digitChar]
    else
      [c]

/-- A text as a string literal, with its quotation marks. -/
def quote (text : List Char) : List Char :=
  '"' :: text.flatMap escape ++ ['"']

/-- The character that a letter stands for behind a backslash. -/
def unescape? (letter : Char) : Option Char :=
  match letter with
  | '"' => some '"'
  | '\\' => some '\\'
  | '/' => some '/'
  | 'b' => some '\x08'
  | 'f' => some '\x0c'
  | 'n' => some '\n'
  | 'r' => some '\r'
  | 't' => some '\t'
  | _ => none

/-- The parts of the literal that follows an opening quotation mark, and the text
    behind the closing one. A control character may not stand in a literal. -/
def readLiteral : List Char → Option (List Part × List Char)
  | '"' :: rest => some ([], rest)
  | '\\' :: 'u' :: a :: b :: c :: d :: rest => do
    let number ← Text.hexNumber? [a, b, c, d]
    let (parts, after) ← readLiteral rest
    return (.unit number :: parts, after)
  | '\\' :: letter :: rest => do
    let c ← unescape? letter
    let (parts, after) ← readLiteral rest
    return (.character c :: parts, after)
  | c :: rest => do
    guard (0x20 ≤ c.toNat ∧ c ≠ '\\')
    let (parts, after) ← readLiteral rest
    return (.character c :: parts, after)
  | [] => none

/-- Whether a UTF-16 unit is the first half of a pair. -/
def isLeadUnit (number : Nat) : Bool := 0xd800 ≤ number && number < 0xdc00

/-- Whether a UTF-16 unit is the second half of a pair. -/
def isTrailUnit (number : Nat) : Bool := 0xdc00 ≤ number && number < 0xe000

/-- The text that the parts of a literal stand for, if its units pair up. -/
def decodeUnits : List Part → Option (List Char)
  | [] => some []
  | .character c :: rest => (decodeUnits rest).map (c :: ·)
  | .unit lead :: .unit trail :: rest =>
    if isLeadUnit lead then
      if isTrailUnit trail then
        (decodeUnits rest).map
          (Char.ofNat (0x10000 + (lead - 0xd800) * 0x400 + (trail - 0xdc00)) :: ·)
      else
        none
    else if isTrailUnit lead then
      none
    else
      (decodeUnits (.unit trail :: rest)).map (Char.ofNat lead :: ·)
  | .unit number :: rest =>
    if isLeadUnit number || isTrailUnit number then none
    else (decodeUnits rest).map (Char.ofNat number :: ·)

end Json

end YamlLocator
