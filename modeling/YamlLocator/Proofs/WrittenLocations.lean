import YamlLocator.CommandLine
import YamlLocator.Proofs.Json.Writing

/-!
# Written Locations

A location that is shown can be read back, in either format. As JSON it is a document of one
object, and the members of the object are the parts of the location.

As text it is harder, since a path may hold colons and digits itself: seen from the left, `a:1:2`
may be a place in `a` or one in `a:1`. The numbers behind the path hold no colon, so they are found
from the right. How many of them there are has to be known.

## Main definitions

* `Text.decimal?`: The number that some digits are.
* `Text.splitLast?`: A text in front of its last separator and behind it.
* `members`: The members of a location that is written as an object.
* `ofText?`: The location that a text shows, with a column or without.

## Theorems

* `Text.splitLast?_eq_some_iff`: Where a text is cut.
* `ofJson?_members`: The members give the location back.
* `ofText?_toText`: The text gives the location back.
* `reading_rendered`: Nothing is lost in either format.
-/

namespace YamlLocator

namespace Text

variable {separator : Char}

/-- The number that a text of decimal digits is. -/
def decimal? (text : List Char) : Option Nat :=
  if text ≠ [] ∧ text.all Char.isDigit then some (Nat.ofDigitChars 10 text 0) else none

/-- The text in front of the last separator, and the text behind it. -/
def splitLast? (separator : Char) : List Char → Option (List Char × List Char)
  | [] => none
  | c :: rest =>
    match splitLast? separator rest with
    | some (front, back) => some (c :: front, back)
    | none => if c = separator then some ([], rest) else none

/-- The digits of a number are read as that number. -/
theorem decimal?_toDigits (number : Nat) : decimal? (Nat.toDigits 10 number) = some number := by
  rcases isDigits_toDigits number with ⟨hne, hdigits⟩
  rw [decimal?, if_pos ⟨hne, List.all_eq_true.mpr hdigits⟩, Nat.ofDigitChars_ten_toDigits]

/-- A text is not cut exactly if it holds no separator. -/
theorem splitLast?_eq_none_iff {text : List Char} :
    splitLast? separator text = none ↔ separator ∉ text := by
  induction text with
  | nil => exact ⟨fun _ => List.not_mem_nil, fun _ => rfl⟩
  | cons c rest ih =>
    rw [splitLast?, List.mem_cons, not_or]
    cases hrest : splitLast? separator rest with
    | some parts =>
      refine ⟨fun h => (by cases h), fun ⟨_, hmem⟩ => ?_⟩
      rw [ih.mpr hmem] at hrest
      cases hrest
    | none =>
      have hmem := ih.mp hrest
      by_cases hc : c = separator
      · simp [hc]
      · simp [hc, hmem, Ne.symm hc]

/-- A text is cut at a separator that none comes behind. -/
theorem splitLast?_eq_some_iff {text front back : List Char} :
    splitLast? separator text = some (front, back) ↔
      text = front ++ separator :: back ∧ separator ∉ back := by
  induction text generalizing front with
  | nil => simp [splitLast?]
  | cons c rest ih =>
    rw [splitLast?]
    constructor
    · intro h
      split at h
      · rename_i front' back' hrest
        cases h
        rcases ih.mp hrest with ⟨rfl, hmem⟩
        exact ⟨rfl, hmem⟩
      · rename_i hrest
        split at h
        · rename_i hc
          cases h
          rw [hc]
          exact ⟨rfl, splitLast?_eq_none_iff.mp hrest⟩
        · cases h
    · rintro ⟨htext, hmem⟩
      cases front with
      | nil =>
        cases htext
        rw [splitLast?_eq_none_iff.mpr hmem]
        exact if_pos rfl
      | cons first others =>
        cases htext
        rw [ih.mpr ⟨rfl, hmem⟩]

end Text

namespace Location

open Json

/-- The members of the object that a location is written as. -/
def members (location : Location) : List (Option String × Value) :=
  [(some "path", .string (some location.path)), (some "line", .ofNatural location.line)] ++
    match location.column with
    | some column => [(some "column", .ofNatural column)]
    | none => []

/-- The path that a text shows and the line behind it. -/
def placeOfText? (text : List Char) : Option (String × Nat) := do
  let (path, line) ← Text.splitLast? ':' text
  return (String.ofList path, ← Text.decimal? line)

/-- The location that a text shows, with a column behind the line or without. The column is
    counted from one. -/
def ofText? (withColumn : Bool) (text : String) : Option Location :=
  if withColumn then do
    let (place, column) ← Text.splitLast? ':' text.toList
    let (path, line) ← placeOfText? place
    match ← Text.decimal? column with
    | 0 => none
    | column + 1 => return { path, line, column := some column }
  else do
    let (path, line) ← placeOfText? text.toList
    return { path, line, column := none }

/-! ### As JSON -/

/-- A location is written as a document of its members. -/
theorem spellsElement_toJson (location : Location) :
    SpellsElement (.object location.members) location.toJson.toList := by
  rcases location with ⟨path, line, _ | column⟩
  · exact spellsElement_writeObject (List.cons_ne_nil ("path", Field.text path)
      [("line", .natural line)])
  · exact spellsElement_writeObject (List.cons_ne_nil ("path", Field.text path)
      [("line", .natural line), ("column", .natural column)])

/-- The members of a location give it back. -/
theorem ofJson?_members (location : Location) :
    ofJson? (.object location.members) = some location := by
  rcases location with ⟨path, line, _ | column⟩ <;> rfl

/-! ### As text -/

/-- A text is cut at the colon in front of the digits of a number, since digits are no colons. -/
theorem splitLast?_append_toDigits (front : List Char) (number : Nat) :
    Text.splitLast? ':' (front ++ ':' :: Nat.toDigits 10 number) =
      some (front, Nat.toDigits 10 number) := by
  refine Text.splitLast?_eq_some_iff.mpr ⟨rfl, fun hmem => ?_⟩
  have hdigit := (Text.isDigits_toDigits number).2 ':' hmem
  cases hdigit

/-- A place is written by its path and the digits of its line. -/
theorem placeOfText?_append (path : String) (line : Nat) :
    placeOfText? (path.toList ++ ':' :: Nat.toDigits 10 line) = some (path, line) := by
  simp only [placeOfText?, splitLast?_append_toDigits, Text.decimal?_toDigits, Option.bind_eq_bind,
    Option.bind_some, String.ofList_toList]
  rfl

/-- The text of a location gives it back, if it is known whether there is a column. -/
theorem ofText?_toText (location : Location) :
    ofText? location.column.isSome location.toText = some location := by
  rcases location with ⟨path, line, _ | column⟩
  · have htext : (toText ⟨path, line, none⟩).toList =
        path.toList ++ ':' :: Nat.toDigits 10 line := by
      simp [toText]
    simp only [ofText?, htext, placeOfText?_append, Option.isSome_none, Option.bind_eq_bind,
      Option.bind_some]
    rfl
  · have htext : (toText ⟨path, line, some column⟩).toList =
        (path.toList ++ ':' :: Nat.toDigits 10 line) ++ ':' :: Nat.toDigits 10 (column + 1) := by
      simp [toText]
    -- The column is found first, and the line behind the path is what it leaves.
    simp only [ofText?, htext, splitLast?_append_toDigits, placeOfText?_append,
      Text.decimal?_toDigits, Option.isSome_some, if_true, Option.bind_eq_bind, Option.bind_some]
    rfl

/-- Of locations that all have a column, or have none, different ones are written differently. -/
theorem eq_of_toText_eq {first second : Location}
    (hcolumn : first.column.isSome = second.column.isSome) (h : first.toText = second.toText) :
    first = second := by
  have hfirst := ofText?_toText first
  rw [hcolumn, h, ofText?_toText second] at hfirst
  exact (Option.some_inj.mp hfirst).symm

/-- Nothing of a location is lost when it is shown. As JSON it is a document without control
    characters, whose one object is read as the location. As text, its line and its column counted
    from one are the last fields, and the path is all that is in front of them. So locations that
    all have a column, or have none, can be told apart. -/
theorem reading_rendered :
    (∀ location : Location,
      (∀ c ∈ (Format.json.render location).toList, 0x20 ≤ c.toNat) ∧
      SpellsElement (.object location.members) (Format.json.render location).toList ∧
      Value.ofText? (Format.json.render location) = some (.object location.members) ∧
      ofJson? (.object location.members) = some location) ∧
    (∀ location : Location,
      ofText? location.column.isSome (Format.text.render location) = some location) ∧
    ∀ first second : Location, first.column.isSome = second.column.isSome →
      Format.text.render first = Format.text.render second → first = second := by
  refine ⟨fun location => ⟨fun c => le_of_mem_writeObject, ?_, ?_, ofJson?_members location⟩,
    ofText?_toText, fun first second => eq_of_toText_eq⟩
  · exact spellsElement_toJson location
  · exact ofText?_eq_some_iff.mpr (spellsElement_toJson location)

/-- A location with a column and one without may be shown alike. -/
example : Format.text.render ⟨"a", 1, some 1⟩ = Format.text.render ⟨"a:1", 2, none⟩ := by
  decide

end Location

end YamlLocator
