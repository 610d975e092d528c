import YamlLocator.Json.Literal

/-!
# Writing JSON

Compact JSON: no whitespace between tokens. The documents written here are flat
objects, so a writer needs the two kinds of value that occur, texts and natural
numbers, and the members in the order in which they are to appear.

## Main definitions

* `Field`: A value that a flat object may hold.
* `writeObject`: A flat object.
-/

namespace YamlLocator

namespace Json

/-- A value of a flat object. -/
inductive Field where
  | text (value : String)
  | natural (value : Nat)
deriving DecidableEq, Repr

/-- A value as it is written. -/
def Field.write : Field → List Char
  | .text value => quote value.toList
  | .natural value => Nat.toDigits 10 value

/-- The members of an object as they are written, with commas between them. -/
def writeMembers : List (String × Field) → List Char
  | [] => []
  | [(name, field)] => quote name.toList ++ ':' :: field.write
  | (name, field) :: next :: more =>
    quote name.toList ++ ':' :: field.write ++ ',' :: writeMembers (next :: more)

/-- A flat object as compact JSON. -/
def writeObject (members : List (String × Field)) : String :=
  String.ofList ('{' :: writeMembers members ++ ['}'])

end Json

end YamlLocator
