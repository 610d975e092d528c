/-!
# JSON Values

The tree that a JSON document stands for, as far as its readers look at it.

Numbers are kept by their spelling rather than as reals: a reader here asks only
whether a number is a natural number written without sign, fraction or exponent.
A string literal may spell surrogates that do not pair up; such a literal is
legal JSON but stands for no text, so a string is an optional text.

## Main definitions

* `Json.Numeral`: A number, by its spelling.
* `Json.Value`: A JSON value.
* `Json.Numeral.natural?`: The natural number that a spelling stands for.
* `Json.membersNamed`: The values that an object gives to one name.

## Theorems

* `Json.membersNamed_append`, `Json.membersNamed_eq_nil`: The values in rows of members.
-/

namespace YamlLocator

namespace Json

/-- A number by its spelling: an optional sign, a whole part, and whether a
    fraction or an exponent follows. -/
structure Numeral where
  /-- Whether a minus sign stands in front. -/
  negative : Bool
  /-- The value of the digits in front of any point or exponent. -/
  whole : Nat
  /-- Whether neither a fraction nor an exponent follows. -/
  integral : Bool
deriving DecidableEq, Repr

/-- The natural number that is spelled by digits alone. -/
def Numeral.natural? (numeral : Numeral) : Option Nat :=
  if !numeral.negative && numeral.integral then some numeral.whole else none

/-- A JSON value. The members of an object keep their order and may repeat a name. -/
inductive Value where
  | null
  | boolean (value : Bool)
  | number (numeral : Numeral)
  | string (text : Option String)
  | array (items : List Value)
  | object (members : List (Option String × Value))
deriving Inhabited

/-- The natural number that a value is, if it is one. -/
def Value.natural? : Value → Option Nat
  | .number numeral => numeral.natural?
  | _ => none

/-- The text that a value is, if it is one. -/
def Value.text? : Value → Option String
  | .string text => text
  | _ => none

/-- The values that the members of an object give to a name, in order. -/
def membersNamed (name : String) (members : List (Option String × Value)) : List Value :=
  (members.filter fun member => member.1 == some name).map (·.2)

/-- Members of other names give no value to a name. -/
theorem membersNamed_eq_nil {name : String} {members : List (Option String × Value)}
    (h : ∀ member ∈ members, member.1 ≠ some name) : membersNamed name members = [] := by
  rw [membersNamed, List.map_eq_nil_iff, List.filter_eq_nil_iff]
  intro member hmember
  rw [beq_iff_eq]
  exact h member hmember

theorem membersNamed_append (name : String) (front back : List (Option String × Value)) :
    membersNamed name (front ++ back) = membersNamed name front ++ membersNamed name back := by
  rw [membersNamed, List.filter_append, List.map_append]
  rfl

theorem membersNamed_cons_self (name : String) (value : Value)
    (members : List (Option String × Value)) :
    membersNamed name ((some name, value) :: members) = value :: membersNamed name members := by
  simp only [membersNamed, List.filter_cons, beq_self_eq_true, if_true, List.map_cons]

theorem membersNamed_cons_of_ne {name other : String} (h : other ≠ name) (value : Value)
    (members : List (Option String × Value)) :
    membersNamed name ((some other, value) :: members) = membersNamed name members := by
  have hother : (some other == some name) = false :=
    beq_false_of_ne fun heq => h (Option.some_inj.mp heq)
  simp only [membersNamed, List.filter_cons, hother, Bool.false_eq_true, if_false]

end Json

end YamlLocator
