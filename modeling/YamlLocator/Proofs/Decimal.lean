import Mathlib.Data.List.TakeWhile
import YamlLocator.Json.Reader

/-!
# Decimal Digits

Numbers are written by their decimal digits, without zeros in front. Reading such digits gives the
number back, which the library knows. Here is the other way round: digits that do not begin with a
zero are the ones that their value is written by, so that such a spelling is the only one.

The value of digits is computed from the first one on, so the induction adds one more digit behind
those of a number that is written already. It starts with the first digit, which is where it
matters that this is no zero.

## Main definitions

* `IsDigits`: Decimal digits, at least one.
* `IsBehindDigits`: A text that digits in front of it do not go on with.

## Theorems

* `toDigits_append`: More digits behind those of a positive number.
* `toDigits_ofDigitChars`: Digits that do not begin with a zero are those of their value.
* `isDigits_toDigits`, `head?_toDigits_ne`: What the digits of a number look like.
* `Json.isDigits_of_readDigits`, `Json.readDigits_append`: Reading digits.
-/

namespace YamlLocator

namespace Text

/-- Decimal digits, at least one. -/
def IsDigits (text : List Char) : Prop := text ≠ [] ∧ ∀ c ∈ text, c.isDigit = true

/-- What comes next is no digit. -/
def IsBehindDigits (rest : List Char) : Prop := ∀ c ∈ rest.head?, c.isDigit = false

/-- Digits begin with a digit. -/
theorem exists_cons_of_isDigits {text : List Char} (h : IsDigits text) :
    ∃ first others, text = first :: others ∧ first.isDigit = true := by
  rcases List.exists_cons_of_ne_nil h.1 with ⟨first, others, rfl⟩
  exact ⟨first, others, rfl, h.2 first List.mem_cons_self⟩

/-! ### Digits and their value -/

/-- A digit is the one that its value is written by. -/
theorem digitChar_of_isDigit {c : Char} (h : c.isDigit = true) :
    c.toNat - '0'.toNat < 10 ∧ (c.toNat - '0'.toNat).digitChar = c := by
  have hrange : 48 ≤ c.toNat ∧ c.toNat ≤ 57 := Char.isDigit_iff_toNat.mp h
  have hzero : '0'.toNat = 48 := rfl
  refine ⟨by omega, Char.toNat_inj.mp ?_⟩
  rw [Nat.toNat_digitChar_of_lt_ten (by omega)]
  omega

/-- Digits behind those of a positive number make up the digits of another one. -/
theorem toDigits_append {digits : List Char} (h : ∀ c ∈ digits, c.isDigit = true) {number : Nat}
    (hpos : 0 < number) :
    Nat.toDigits 10 number ++ digits = Nat.toDigits 10 (Nat.ofDigitChars 10 digits number) := by
  induction digits generalizing number with
  | nil => rw [List.append_nil, Nat.ofDigitChars_nil]
  | cons c rest ih =>
    rcases digitChar_of_isDigit (h c List.mem_cons_self) with ⟨hlt, hchar⟩
    have hmore : 0 < 10 * number + (c.toNat - '0'.toNat) := by omega
    rw [Nat.ofDigitChars_cons, ← ih (fun d hd => h d (List.mem_cons_of_mem c hd)) hmore,
      ← Nat.toDigits_append_toDigits (by omega) hpos hlt,
      Nat.toDigits_of_lt_base hlt, hchar, List.append_assoc, List.singleton_append]

/-- Digits that do not begin with a zero are the digits of their value. -/
theorem toDigits_ofDigitChars {digits : List Char} (h : IsDigits digits)
    (hzero : digits.head? ≠ some '0') :
    Nat.toDigits 10 (Nat.ofDigitChars 10 digits 0) = digits := by
  rcases exists_cons_of_isDigits h with ⟨c, rest, rfl, hc⟩
  rcases digitChar_of_isDigit hc with ⟨hlt, hchar⟩
  -- The first digit is that of a positive number, and the others come behind it.
  have hpos : 0 < c.toNat - '0'.toNat := by
    refine Nat.pos_of_ne_zero fun heq => hzero ?_
    rw [heq] at hchar
    rw [List.head?_cons, ← hchar]
    rfl
  have hrest := toDigits_append (fun d hd => h.2 d (List.mem_cons_of_mem c hd)) hpos
  rw [Nat.ofDigitChars_cons, Nat.mul_zero, Nat.zero_add, ← hrest, Nat.toDigits_of_lt_base hlt,
    hchar, List.singleton_append]

theorem isDigits_toDigits (number : Nat) : IsDigits (Nat.toDigits 10 number) :=
  ⟨Nat.toDigits_ne_nil, fun _ hc => Nat.isDigit_of_mem_toDigits (by omega) (by omega) hc⟩

/-- The digits of a positive number do not begin with a zero. -/
theorem head?_toDigits_ne {number : Nat} (hpos : 0 < number) :
    (Nat.toDigits 10 number).head? ≠ some '0' := by
  induction number using Nat.strongRecOn with
  | ind number ih =>
    by_cases hlt : number < 10
    · rw [Nat.toDigits_of_lt_base hlt, List.head?_cons, ne_eq, Option.some.injEq,
        Nat.digitChar_eq_zero]
      omega
    · -- The first digit is that of the tens.
      have htens := ih (number / 10) (by omega) (by omega)
      rcases exists_cons_of_isDigits (isDigits_toDigits (number / 10)) with
        ⟨first, others, hdigits, -⟩
      rw [hdigits] at htens
      rw [Nat.toDigits_of_base_le (by omega) (by omega), hdigits]
      exact htens

end Text

namespace Json

open Text

/-! ### Reading digits -/

variable {text rest digits : List Char}

theorem isDigits_of_readDigits (h : readDigits text = some (digits, rest)) :
    IsDigits digits ∧ text = digits ++ rest := by
  simp only [readDigits] at h
  split at h
  · cases h
  · rename_i hne
    cases h
    refine ⟨⟨fun hnil => hne (by rw [hnil]; rfl), fun c hc => List.mem_takeWhile_imp hc⟩, ?_⟩
    exact List.takeWhile_append_dropWhile.symm

theorem readDigits_append (h : IsDigits digits) (hrest : IsBehindDigits rest) :
    readDigits (digits ++ rest) = some (digits, rest) := by
  -- The digits end where they do, since the rest does not go on with one.
  have hstop : rest.takeWhile Char.isDigit = [] ∧ rest.dropWhile Char.isDigit = rest := by
    cases rest with
    | nil => exact ⟨rfl, rfl⟩
    | cons c rest =>
      have hc : ¬ c.isDigit = true := Bool.eq_false_iff.mp (hrest c rfl)
      exact ⟨List.takeWhile_cons_of_neg hc, List.dropWhile_cons_of_neg hc⟩
  rw [readDigits, List.takeWhile_append_of_pos h.2, List.dropWhile_append_of_pos h.2, hstop.1,
    hstop.2, List.append_nil]
  exact if_neg (by simpa using h.1)

end Json

end YamlLocator
