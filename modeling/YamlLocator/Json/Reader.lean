import YamlLocator.Json.Value
import YamlLocator.Json.Literal

/-!
# Reading JSON

A reader for whole JSON documents. Each function takes the text that is left and
returns what it read together with the text behind it; there is no result where
the text does not go on with what is wanted.

Whitespace may stand in front of every token and at the end of the document.
Values nest to any depth, so the readers of values, items and members call one
another. Every call is at most one step away from taking a character, and the
bound given to `readValue` by `Value.ofText?` covers the steps that a text of
that length can need.

## Main definitions

* `readNumber`: A number.
* `readValue`, `readItems`, `readMembers`: A value and the contents of an array or
  an object.
* `Value.ofText?`: The value of a document.
-/

namespace YamlLocator

namespace Json

/-- The text behind any whitespace. -/
def skipSpace (text : List Char) : List Char :=
  text.dropWhile fun c => c = ' ' ∨ c = '\n' ∨ c = '\t' ∨ c = '\r'

/-- The digits at the beginning of a text, at least one, and the text behind. -/
def readDigits (text : List Char) : Option (List Char × List Char) :=
  let digits := text.takeWhile Char.isDigit
  if digits.isEmpty then none else some (digits, text.dropWhile Char.isDigit)

/-- The text behind an optional fraction, and whether there was one. -/
def skipFraction : List Char → Option (Bool × List Char)
  | '.' :: rest => (readDigits rest).map fun (_, after) => (true, after)
  | text => some (false, text)

/-- The text behind an optional exponent, and whether there was one. -/
def skipExponent : List Char → Option (Bool × List Char)
  | mark :: rest =>
    if mark = 'e' ∨ mark = 'E' then
      let digits := match rest with
        | sign :: after => if sign = '+' ∨ sign = '-' then after else rest
        | [] => []
      (readDigits digits).map fun (_, after) => (true, after)
    else
      some (false, mark :: rest)
  | [] => some (false, [])

/-- The digits of a whole part, and the text behind. A zero in front of other digits is the
    whole part by itself, so that digits are left over behind it. -/
def readWhole : List Char → Option (List Char × List Char)
  | '0' :: rest => some (['0'], rest)
  | text => readDigits text

/-- A number behind its sign. -/
def readUnsigned (negative : Bool) (text : List Char) : Option (Numeral × List Char) := do
  let (digits, afterWhole) ← readWhole text
  let (fraction, afterFraction) ← skipFraction afterWhole
  let (exponent, rest) ← skipExponent afterFraction
  return ({ negative, whole := Nat.ofDigitChars 10 digits 0, integral := !fraction && !exponent },
    rest)

/-- A number. -/
def readNumber : List Char → Option (Numeral × List Char)
  | '-' :: rest => readUnsigned true rest
  | text => readUnsigned false text

/-- The string literal that follows an opening quotation mark. -/
def readString (text : List Char) : Option (Option String × List Char) :=
  (readLiteral text).map fun (parts, rest) => ((decodeUnits parts).map String.ofList, rest)

mutual

/-- A value, after whitespace. -/
def readValue (bound : Nat) (text : List Char) : Option (Value × List Char) :=
  match bound with
  | 0 => none
  | bound + 1 =>
    match skipSpace text with
    | '"' :: rest => (readString rest).map fun (string, after) => (.string string, after)
    | '[' :: rest =>
      match skipSpace rest with
      | ']' :: after => some (.array [], after)
      | _ => (readItems bound rest).map fun (items, after) => (.array items, after)
    | '{' :: rest =>
      match skipSpace rest with
      | '}' :: after => some (.object [], after)
      | _ => (readMembers bound rest).map fun (members, after) => (.object members, after)
    | 'n' :: 'u' :: 'l' :: 'l' :: rest => some (.null, rest)
    | 't' :: 'r' :: 'u' :: 'e' :: rest => some (.boolean true, rest)
    | 'f' :: 'a' :: 'l' :: 's' :: 'e' :: rest => some (.boolean false, rest)
    | rest => (readNumber rest).map fun (numeral, after) => (.number numeral, after)

/-- The items of an array, at least one, up to the closing bracket. -/
def readItems (bound : Nat) (text : List Char) : Option (List Value × List Char) :=
  match bound with
  | 0 => none
  | bound + 1 => do
    let (item, rest) ← readValue bound text
    match skipSpace rest with
    | ',' :: rest =>
      let (items, after) ← readItems bound rest
      return (item :: items, after)
    | ']' :: after => return ([item], after)
    | _ => none

/-- The members of an object, at least one, up to the closing brace. -/
def readMembers (bound : Nat) (text : List Char) :
    Option (List (Option String × Value) × List Char) :=
  match bound with
  | 0 => none
  | bound + 1 =>
    match skipSpace text with
    | '"' :: rest => do
      let (name, rest) ← readString rest
      match skipSpace rest with
      | ':' :: rest =>
        let (value, rest) ← readValue bound rest
        match skipSpace rest with
        | ',' :: rest =>
          let (members, after) ← readMembers bound rest
          return ((name, value) :: members, after)
        | '}' :: after => return ([(name, value)], after)
        | _ => none
      | _ => none
    | _ => none

end

/-- The value that a document stands for. Nothing but whitespace may follow it. -/
def Value.ofText? (text : String) : Option Value :=
  match readValue (2 * text.length + 2) text.toList with
  | some (value, rest) => if (skipSpace rest).isEmpty then some value else none
  | none => none

end Json

end YamlLocator
