import YamlLocator.Yaml.Node.Kind
import Mathlib.Computability.RegularExpressions

/-!
# The Grammar of the Core Schema

The core schema gives the spellings of numbers as regular expressions. `CoreSchema.isInteger` and
`CoreSchema.isFloat` do not run an expression: they take a sign away, cut the rest at the first
letter of an exponent and then at the first point, and ask of each part whether it consists of
digits. This module says that the two come to the same for every text.

A sign is taken away from any text that begins with one, whereas in the expressions a sign stands
in front of some forms only. That makes no difference where no word of the form begins with a
sign itself, which is what `mem_sign_mul` asks for.

The cuts are made at the first place where one can be made. They find the parts of a word because
the part in front of a cut never has the character that is cut at: a digit is neither a point nor
the letter of an exponent, and in front of an exponent there are digits and points only.

## Main definitions

* `between`: The characters from one to another.
* `oneOf`, `spelled`, `anyOf`, `perhaps`, `repeated`: What the expressions are made of.
* `integerForm`, `floatForm`: The spellings of numbers.

## Theorems

* `mem_repeated_oneOf`: A run is a text of characters of a class, of which there is one.
* `mem_sign_mul`: A form with an optional sign in front of it.
* `isInteger_iff`, `isFloat_iff`: The recognizers accept what the expressions match.
* `ofPlain_iff`: The kind of a plain scalar is the one that the grammar gives it.
-/

namespace YamlLocator

namespace Yaml

namespace CoreSchema

open RegularExpression

/-- The characters from one to another, both included. -/
def between (first last : Char) : List Char :=
  (List.range' first.toNat (last.toNat + 1 - first.toNat)).map Char.ofNat

/-- One of some characters. -/
def oneOf (characters : List Char) : RegularExpression Char :=
  characters.foldr (fun c others => char c + others) 0

/-- A text as it stands. -/
def spelled (text : List Char) : RegularExpression Char :=
  text.foldr (fun c rest => char c * rest) 1

/-- One of some texts. -/
def anyOf (texts : List (List Char)) : RegularExpression Char :=
  texts.foldr (fun text others => spelled text + others) 0

/-- A form, or nothing. -/
def perhaps (form : RegularExpression Char) : RegularExpression Char := 1 + form

/-- A form once or more often. -/
def repeated (form : RegularExpression Char) : RegularExpression Char := form * star form

/-- The digits of decimal numbers, `[0-9]`. -/
def digits : List Char := between '0' '9'

/-- The digits of hexadecimal numbers, `[0-9a-fA-F]`. -/
def hexDigits : List Char := between '0' '9' ++ (between 'a' 'f' ++ between 'A' 'F')

/-- An optional sign, `[-+]?`. -/
def sign : RegularExpression Char := perhaps (oneOf ['-', '+'])

/-- Integers: `[-+]?[0-9]+`, `0o[0-7]+` and `0x[0-9a-fA-F]+`. -/
def integerForm : RegularExpression Char :=
  sign * repeated (oneOf digits) + spelled ['0', 'o'] * repeated (oneOf (between '0' '7')) +
    spelled ['0', 'x'] * repeated (oneOf hexDigits)

/-- The digits and the point of a number: `\.[0-9]+` and `[0-9]+(\.[0-9]*)?`. -/
def mantissaForm : RegularExpression Char :=
  char '.' * repeated (oneOf digits) +
    repeated (oneOf digits) * perhaps (char '.' * star (oneOf digits))

/-- An exponent: `[eE][-+]?[0-9]+`. -/
def exponentForm : RegularExpression Char :=
  oneOf ['e', 'E'] * (sign * repeated (oneOf digits))

/-- Floating point numbers: `[-+]?(\.[0-9]+|[0-9]+(\.[0-9]*)?)([eE][-+]?[0-9]+)?`,
    `[-+]?(\.inf|\.Inf|\.INF)` and `\.nan|\.NaN|\.NAN`. -/
def floatForm : RegularExpression Char :=
  sign * (mantissaForm * perhaps exponentForm) +
    sign * anyOf [['.', 'i', 'n', 'f'], ['.', 'I', 'n', 'f'], ['.', 'I', 'N', 'F']] +
    anyOf [['.', 'n', 'a', 'n'], ['.', 'N', 'a', 'N'], ['.', 'N', 'A', 'N']]

/-! ### What the expressions match -/

variable {word text : List Char} {characters : List Char} {form : RegularExpression Char}

theorem mem_oneOf : word ∈ (oneOf characters).matches' ↔ ∃ c ∈ characters, word = [c] := by
  induction characters with
  | nil => simp [oneOf, Language.notMem_zero]
  | cons c others ih =>
    rw [oneOf, List.foldr_cons, matches'_add, Language.mem_add, ← oneOf, ih, matches'_char]
    simp only [List.mem_cons, exists_eq_or_imp]
    exact Iff.rfl

theorem mem_spelled : word ∈ (spelled text).matches' ↔ word = text := by
  induction text generalizing word with
  | nil => simp [spelled, Language.mem_one]
  | cons c rest ih =>
    rw [spelled, List.foldr_cons, matches'_mul, Language.mem_mul, ← spelled]
    constructor
    · rintro ⟨first, hfirst, behind, hbehind, rfl⟩
      rw [ih.mp hbehind, show first = [c] from hfirst, List.singleton_append]
    · intro h
      exact ⟨[c], rfl, rest, ih.mpr rfl, by rw [h, List.singleton_append]⟩

theorem mem_anyOf {texts : List (List Char)} : word ∈ (anyOf texts).matches' ↔ word ∈ texts := by
  induction texts with
  | nil => simp [anyOf, Language.notMem_zero]
  | cons text others ih =>
    rw [anyOf, List.foldr_cons, matches'_add, Language.mem_add, ← anyOf, ih, mem_spelled,
      List.mem_cons]

theorem mem_perhaps : word ∈ (perhaps form).matches' ↔ word = [] ∨ word ∈ form.matches' := by
  rw [perhaps, matches'_add, Language.mem_add, matches'_epsilon, Language.mem_one]

/-- Characters of a class, however many. -/
theorem mem_star_oneOf :
    word ∈ (star (oneOf characters)).matches' ↔ ∀ c ∈ word, c ∈ characters := by
  rw [matches'_star, Language.mem_kstar]
  constructor
  · rintro ⟨words, rfl, hwords⟩ c hc
    rcases List.mem_flatten.mp hc with ⟨part, hpart, hmem⟩
    rcases mem_oneOf.mp (hwords part hpart) with ⟨d, hd, rfl⟩
    rw [List.mem_singleton] at hmem
    rwa [hmem]
  · intro h
    -- Every character is a word of its own.
    refine ⟨word.map ([·]), by simp [← List.flatMap_def], fun part hpart => ?_⟩
    rcases List.mem_map.mp hpart with ⟨c, hc, rfl⟩
    exact mem_oneOf.mpr ⟨c, h c hc, rfl⟩

/-- A run is a text of characters of a class, of which there is one. -/
theorem mem_repeated_oneOf :
    word ∈ (repeated (oneOf characters)).matches' ↔ word ≠ [] ∧ ∀ c ∈ word, c ∈ characters := by
  rw [repeated, matches'_mul, Language.mem_mul]
  constructor
  · rintro ⟨first, hfirst, rest, hrest, rfl⟩
    rcases mem_oneOf.mp hfirst with ⟨c, hc, rfl⟩
    refine ⟨by simp, fun d hd => ?_⟩
    rcases List.mem_cons.mp hd with rfl | hd
    · exact hc
    · exact mem_star_oneOf.mp hrest d hd
  · rintro ⟨hne, h⟩
    cases word with
    | nil => exact absurd rfl hne
    | cons c rest =>
      rw [List.forall_mem_cons] at h
      exact ⟨[c], mem_oneOf.mpr ⟨c, h.1, rfl⟩, rest, mem_star_oneOf.mpr h.2, rfl⟩

/-- A form with something spelled out in front of it. -/
theorem mem_spelled_mul :
    word ∈ (spelled text * form).matches' ↔ ∃ rest, word = text ++ rest ∧ rest ∈ form.matches' := by
  rw [matches'_mul, Language.mem_mul]
  constructor
  · rintro ⟨first, hfirst, rest, hrest, rfl⟩
    exact ⟨rest, by rw [mem_spelled.mp hfirst], hrest⟩
  · rintro ⟨rest, rfl, hrest⟩
    exact ⟨text, mem_spelled.mpr rfl, rest, hrest, rfl⟩

/-! ### Signs -/

/-- Nothing is taken away from a text that does not begin with a sign. -/
theorem unsigned_of_head (h : ∀ c, word.head? = some c → c ≠ '-' ∧ c ≠ '+') :
    unsigned word = word := by
  unfold unsigned
  split
  · exact absurd rfl (h '-' rfl).1
  · exact absurd rfl (h '+' rfl).2
  · rfl

/-- A form with an optional sign in front of it. What is left when a sign has been taken away is a
    word of the form, provided that no word of the form begins with a sign itself. -/
theorem mem_sign_mul (h : ∀ word ∈ form.matches', unsigned word = word) :
    word ∈ (sign * form).matches' ↔ unsigned word ∈ form.matches' := by
  simp only [sign, matches'_mul, Language.mem_mul, mem_perhaps, mem_oneOf]
  constructor
  · rintro ⟨first, rfl | ⟨c, hc, rfl⟩, rest, hrest, rfl⟩
    · rwa [List.nil_append, h rest hrest]
    · rcases List.mem_pair.mp hc with rfl | rfl
      · exact hrest
      · exact hrest
  · intro hword
    unfold unsigned at hword
    split at hword
    · rename_i rest
      exact ⟨['-'], .inr ⟨'-', by simp, rfl⟩, rest, hword, rfl⟩
    · rename_i rest
      exact ⟨['+'], .inr ⟨'+', by simp, rfl⟩, rest, hword, rfl⟩
    · exact ⟨[], .inl rfl, word, hword, rfl⟩

/-! ### Digits -/

theorem toNat_ofNat {n : Nat} (h : n < 0xd800) : (Char.ofNat n).toNat = n := by
  rw [Char.ofNat, dif_pos (Or.inl h)]
  rfl

theorem mem_between {first last c : Char} (h : last.toNat < 0xd800) :
    c ∈ between first last ↔ first ≤ c ∧ c ≤ last := by
  rw [between, List.mem_map]
  constructor
  · rintro ⟨n, hn, rfl⟩
    rw [List.mem_range'_1] at hn
    have hnumber := toNat_ofNat (n := n) (by omega)
    have hlow : first.toNat ≤ (Char.ofNat n).toNat := by omega
    have hhigh : (Char.ofNat n).toNat ≤ last.toNat := by omega
    exact ⟨hlow, hhigh⟩
  · rintro ⟨hlow, hhigh⟩
    have hlow : first.toNat ≤ c.toNat := hlow
    have hhigh : c.toNat ≤ last.toNat := hhigh
    exact ⟨c.toNat, List.mem_range'_1.mpr (by omega), Char.ofNat_toNat c⟩

theorem isDigit_iff (c : Char) : c.isDigit = true ↔ c ∈ digits := by
  rw [digits, mem_between (by decide), Char.isDigit, Bool.and_eq_true, decide_eq_true_iff,
    decide_eq_true_iff]
  exact Iff.rfl

theorem isOctalDigit_iff (c : Char) : isOctalDigit c = true ↔ c ∈ between '0' '7' := by
  rw [mem_between (by decide), isOctalDigit, Bool.and_eq_true, decide_eq_true_iff,
    decide_eq_true_iff]

theorem isHexDigit_iff (c : Char) : isHexDigit c = true ↔ c ∈ hexDigits := by
  rw [hexDigits, List.mem_append, List.mem_append, ← digits, mem_between (by decide),
    mem_between (by decide)]
  simp only [isHexDigit, Bool.or_eq_true, Bool.and_eq_true, decide_eq_true_iff, isDigit_iff,
    or_assoc]

theorem isRun_iff {inClass : Char → Bool} (h : ∀ c, inClass c = true ↔ c ∈ characters) :
    isRun inClass word = true ↔ word ∈ (repeated (oneOf characters)).matches' := by
  simp [isRun, mem_repeated_oneOf, h]

theorem all_isDigit_iff : word.all Char.isDigit = true ↔ ∀ c ∈ word, c ∈ digits := by
  simp only [List.all_eq_true, isDigit_iff]

/-- A digit is no other character that a number can have. -/
theorem ne_of_mem_digits {c : Char} (h : c ∈ digits) :
    c ≠ '-' ∧ c ≠ '+' ∧ c ≠ '.' ∧ isExponentLetter c = false := by
  have hne (other : Char) (hother : other.isDigit = false) : c ≠ other := by
    rintro rfl
    rw [(isDigit_iff c).mpr h] at hother
    exact absurd hother (by decide)
  have hexponent : isExponentLetter c = false := by
    rw [isExponentLetter, Bool.or_eq_false_iff, decide_eq_false_iff_not, decide_eq_false_iff_not]
    exact ⟨hne 'e' (by decide), hne 'E' (by decide)⟩
  exact ⟨hne '-' (by decide), hne '+' (by decide), hne '.' (by decide), hexponent⟩

theorem unsigned_of_digits (h : ∀ c ∈ word, c ∈ digits) : unsigned word = word := by
  refine unsigned_of_head fun c hc => ?_
  rcases ne_of_mem_digits (h c (List.mem_of_mem_head? hc)) with ⟨hminus, hplus, -⟩
  exact ⟨hminus, hplus⟩

/-- A sign and digits, as in decimal integers and in exponents. -/
theorem isRun_unsigned_iff :
    isRun Char.isDigit (unsigned word) = true ↔
      word ∈ (sign * repeated (oneOf digits)).matches' := by
  rw [mem_sign_mul fun word hword => unsigned_of_digits (mem_repeated_oneOf.mp hword).2,
    isRun_iff isDigit_iff]

/-! ### Integers -/

/-- In a decimal number no letter follows the first digit. -/
theorem not_mem_decimal {c : Char} (hc : c ∉ digits) (rest : List Char) :
    '0' :: c :: rest ∉ (sign * repeated (oneOf digits)).matches' := by
  rw [← isRun_unsigned_iff, isRun_iff isDigit_iff, mem_repeated_oneOf]
  rintro ⟨-, h⟩
  exact hc (h c (by simp [unsigned]))

theorem isInteger_iff : isInteger word = true ↔ word ∈ integerForm.matches' := by
  rw [integerForm, matches'_add, Language.mem_add, matches'_add, Language.mem_add,
    mem_spelled_mul, mem_spelled_mul]
  unfold isInteger
  split
  · rename_i rest
    rw [isRun_iff isOctalDigit_iff]
    constructor
    · intro h
      exact .inl (.inr ⟨rest, rfl, h⟩)
    · rintro ((h | ⟨other, heq, h⟩) | ⟨other, heq, -⟩)
      · exact absurd h (not_mem_decimal (by decide) rest)
      · cases heq
        exact h
      · cases heq
  · rename_i rest
    rw [isRun_iff isHexDigit_iff]
    constructor
    · intro h
      exact .inr ⟨rest, rfl, h⟩
    · rintro ((h | ⟨other, heq, -⟩) | ⟨other, heq, h⟩)
      · exact absurd h (not_mem_decimal (by decide) rest)
      · cases heq
      · cases heq
        exact h
  · -- Neither of the two beginnings is there, so a decimal number is left.
    rename_i hoctal hhex
    rw [isRun_unsigned_iff]
    constructor
    · intro h
      exact .inl (.inl h)
    · rintro ((h | ⟨rest, rfl, -⟩) | ⟨rest, rfl, -⟩)
      · exact h
      · exact absurd rfl (hoctal rest)
      · exact absurd rfl (hhex rest)

/-! ### Floating point numbers -/

/-- A text is cut in front of the first character outside a class. -/
theorem cut_append {inClass : Char → Bool} {front : List Char} (back : List Char)
    (hfront : ∀ c ∈ front, inClass c = true)
    (hback : ∀ c, back.head? = some c → inClass c = false) :
    (front ++ back).takeWhile inClass = front ∧ (front ++ back).dropWhile inClass = back := by
  rw [List.takeWhile_append_of_pos hfront, List.dropWhile_append_of_pos hfront]
  cases back with
  | nil => exact ⟨List.append_nil front, rfl⟩
  | cons c rest =>
    have hc : ¬ inClass c = true := by simp [hback c rfl]
    rw [List.takeWhile_cons_of_neg hc, List.dropWhile_cons_of_neg hc]
    exact ⟨List.append_nil front, rfl⟩

/-- A cut at the first point. -/
theorem cut_at_point {whole : List Char} (h : '.' ∉ whole) {back : List Char}
    (hback : ∀ c, back.head? = some c → c = '.') :
    (whole ++ back).takeWhile (· ≠ '.') = whole ∧ (whole ++ back).dropWhile (· ≠ '.') = back := by
  refine cut_append back (fun c hc => ?_) fun c hc => by simp [hback c hc]
  rw [decide_eq_true_iff]
  rintro rfl
  exact h hc

theorem isMantissa_of_not_mem (h : '.' ∉ word) :
    isMantissa word = true ↔ word ≠ [] ∧ ∀ c ∈ word, c ∈ digits := by
  have hcut := @cut_at_point word h [] (by simp)
  rw [List.append_nil] at hcut
  simp only [isMantissa, hcut.1, hcut.2, List.drop_nil, List.all_nil, Bool.and_eq_true,
    all_isDigit_iff]
  simp

theorem isMantissa_append {whole fraction : List Char} (h : '.' ∉ whole) :
    isMantissa (whole ++ '.' :: fraction) = true ↔
      ¬ (whole = [] ∧ fraction = []) ∧ (∀ c ∈ whole, c ∈ digits) ∧ ∀ c ∈ fraction, c ∈ digits := by
  have hcut := @cut_at_point whole h ('.' :: fraction) (by simp)
  simp only [isMantissa, hcut.1, hcut.2, List.drop_succ_cons, List.drop_zero, Bool.and_eq_true,
    all_isDigit_iff, and_assoc]
  rw [Bool.not_eq_true', Bool.eq_false_iff, ne_eq, Bool.and_eq_true, List.isEmpty_iff,
    List.isEmpty_iff]

theorem not_mem_of_digits (h : ∀ c ∈ word, c ∈ digits) : '.' ∉ word :=
  fun hdot => absurd rfl (ne_of_mem_digits (h '.' hdot)).2.2.1

theorem isMantissa_iff : isMantissa word = true ↔ word ∈ mantissaForm.matches' := by
  simp only [mantissaForm, matches'_add, matches'_mul, Language.mem_add, Language.mem_mul,
    mem_perhaps, mem_repeated_oneOf, mem_star_oneOf, matches'_char]
  constructor
  · intro h
    by_cases hdot : '.' ∈ word
    · rcases List.eq_append_cons_of_mem hdot with ⟨whole, fraction, rfl, hwhole⟩
      rcases (isMantissa_append hwhole).mp h with ⟨hne, hdigits, hfraction⟩
      by_cases hnil : whole = []
      · -- Without digits in front of the point there are some behind it.
        subst hnil
        exact .inl ⟨['.'], rfl, fraction, ⟨fun h => hne ⟨rfl, h⟩, hfraction⟩, rfl⟩
      · exact .inr ⟨whole, ⟨hnil, hdigits⟩, '.' :: fraction,
          .inr ⟨['.'], rfl, fraction, hfraction, rfl⟩, rfl⟩
    · exact .inr ⟨word, (isMantissa_of_not_mem hdot).mp h, [], .inl rfl, List.append_nil word⟩
  · rintro (⟨_, rfl, fraction, hfraction, rfl⟩ | ⟨whole, hwhole, rest, hrest, rfl⟩)
    · have := @isMantissa_append [] fraction (by simp)
      exact this.mpr ⟨fun h => hfraction.1 h.2, by simp, hfraction.2⟩
    · have hdot := not_mem_of_digits hwhole.2
      rcases hrest with rfl | ⟨_, rfl, fraction, hfraction, rfl⟩
      · rw [List.append_nil]
        exact (isMantissa_of_not_mem hdot).mpr hwhole
      · exact (isMantissa_append hdot).mpr ⟨fun h => hwhole.1 h.1, hwhole.2, hfraction⟩

/-- There are only digits and points in front of an exponent. -/
theorem mem_of_mem_mantissa (h : word ∈ mantissaForm.matches') {c : Char} (hc : c ∈ word) :
    c = '.' ∨ c ∈ digits := by
  rw [← isMantissa_iff] at h
  by_cases hdot : '.' ∈ word
  · rcases List.eq_append_cons_of_mem hdot with ⟨whole, fraction, rfl, hwhole⟩
    rcases (isMantissa_append hwhole).mp h with ⟨-, hdigits, hfraction⟩
    rcases List.mem_append.mp hc with hc | hc
    · exact .inr (hdigits c hc)
    · exact (List.mem_cons.mp hc).imp id (hfraction c)
  · exact .inr (((isMantissa_of_not_mem hdot).mp h).2 c hc)

/-- An exponent behind its letter. -/
theorem isExponent_iff (h : ∀ c, word.head? = some c → isExponentLetter c = true) :
    isExponent word = true ↔ word ∈ (perhaps exponentForm).matches' := by
  rw [mem_perhaps, exponentForm, matches'_mul, Language.mem_mul]
  simp only [mem_oneOf]
  cases word with
  | nil => simp [isExponent]
  | cons letter rest =>
    have hletter : letter ∈ ['e', 'E'] := by simpa [isExponentLetter] using h letter rfl
    rw [isExponent, isRun_unsigned_iff]
    constructor
    · intro hrest
      exact .inr ⟨[letter], ⟨letter, hletter, rfl⟩, rest, hrest, rfl⟩
    · rintro (hnil | ⟨_, ⟨c, -, rfl⟩, behind, hbehind, heq⟩)
      · exact absurd hnil (List.cons_ne_nil letter rest)
      · rw [List.singleton_append, List.cons.injEq] at heq
        rwa [← heq.2]

/-- A mantissa and an exponent are found by a cut in front of the first letter of an exponent. -/
theorem isMantissa_and_isExponent_iff :
    (isMantissa (word.takeWhile (!isExponentLetter ·)) &&
        isExponent (word.dropWhile (!isExponentLetter ·))) = true ↔
      word ∈ (mantissaForm * perhaps exponentForm).matches' := by
  rw [Bool.and_eq_true, matches'_mul, Language.mem_mul]
  constructor
  · rintro ⟨hmantissa, hexponent⟩
    refine ⟨_, isMantissa_iff.mp hmantissa, _, (isExponent_iff fun c hc => ?_).mp hexponent,
      List.takeWhile_append_dropWhile⟩
    have hstop := List.head?_dropWhile_not (!isExponentLetter ·) word
    rw [hc] at hstop
    simpa using hstop
  · rintro ⟨mantissa, hmantissa, exponent, hexponent, rfl⟩
    -- The exponent begins with its letter, if it is not empty.
    have hhead : ∀ c, exponent.head? = some c → isExponentLetter c = true := by
      intro c hc
      rcases mem_perhaps.mp hexponent with rfl | hexponent
      · simp at hc
      · rw [exponentForm, matches'_mul, Language.mem_mul] at hexponent
        rcases hexponent with ⟨first, hfirst, rest, -, rfl⟩
        rcases mem_oneOf.mp hfirst with ⟨letter, hletter, rfl⟩
        rw [List.singleton_append, List.head?_cons, Option.some.injEq] at hc
        simpa [isExponentLetter, hc] using hletter
    have hfront : ∀ c ∈ mantissa, (!isExponentLetter c) = true := by
      intro c hc
      rcases mem_of_mem_mantissa hmantissa hc with rfl | hdigit
      · rfl
      · simp [(ne_of_mem_digits hdigit).2.2.2]
    have hcut := cut_append exponent hfront fun c hc => by simp [hhead c hc]
    rw [hcut.1, hcut.2]
    exact ⟨isMantissa_iff.mpr hmantissa, (isExponent_iff hhead).mpr hexponent⟩

/-- A number does not begin with a sign of its own. -/
theorem unsigned_of_mem_number (h : word ∈ (mantissaForm * perhaps exponentForm).matches') :
    unsigned word = word := by
  rw [matches'_mul, Language.mem_mul] at h
  rcases h with ⟨mantissa, hmantissa, exponent, -, rfl⟩
  refine unsigned_of_head fun c hc => ?_
  have hne : mantissa ≠ [] := by
    rintro rfl
    exact absurd (isMantissa_iff.mpr hmantissa) (by decide)
  rw [List.head?_append_of_ne_nil _ hne] at hc
  rcases mem_of_mem_mantissa hmantissa (List.mem_of_mem_head? hc) with rfl | hdigit
  · decide
  · exact ⟨(ne_of_mem_digits hdigit).1, (ne_of_mem_digits hdigit).2.1⟩

theorem isFloat_iff : isFloat word = true ↔ word ∈ floatForm.matches' := by
  rw [floatForm, matches'_add, Language.mem_add, matches'_add, Language.mem_add,
    mem_sign_mul fun _ => unsigned_of_mem_number, ← isMantissa_and_isExponent_iff, mem_anyOf,
    mem_sign_mul fun word hword => ?_, mem_anyOf, isFloat]
  · simp only [Bool.or_eq_true, List.contains_iff_mem, notANumber, infinity]
    tauto
  · -- The spellings of infinity begin with a point.
    rw [mem_anyOf] at hword
    revert word
    decide

/-! ### Words -/

theorem isNull_iff {text : String} :
    isNull text = true ↔ text ∈ ["", "~", "null", "Null", "NULL"] := by
  rw [isNull, List.contains_iff_mem]

theorem isBoolean_iff {text : String} :
    isBoolean text = true ↔ text ∈ ["true", "True", "TRUE", "false", "False", "FALSE"] := by
  rw [isBoolean, List.contains_iff_mem]

/-- What spells nothing is neither a truth value nor a number. -/
theorem not_other_of_isNull {text : String} (h : isNull text = true) :
    isBoolean text = false ∧ isInteger text.toList = false ∧ isFloat text.toList = false := by
  have hwords : ∀ text ∈ ["", "~", "null", "Null", "NULL"],
      isBoolean text = false ∧ isInteger text.toList = false ∧ isFloat text.toList = false := by
    decide
  exact hwords text (isNull_iff.mp h)

/-- A truth value is no number. -/
theorem not_number_of_isBoolean {text : String} (h : isBoolean text = true) :
    isInteger text.toList = false ∧ isFloat text.toList = false := by
  have hwords : ∀ text ∈ ["true", "True", "TRUE", "false", "False", "FALSE"],
      isInteger text.toList = false ∧ isFloat text.toList = false := by
    decide
  exact hwords text (isBoolean_iff.mp h)

end CoreSchema

open CoreSchema in
/-- The kind of a plain scalar is the one that the grammar of the core schema gives it: a null or
    a truth value for the listed words only, an integer or else a floating point number for what
    matches the form of these, and a string for any other text. -/
theorem ScalarKind.ofPlain_iff (text : String) :
    (ofPlain text = .null ↔ text ∈ ["", "~", "null", "Null", "NULL"]) ∧
    (ofPlain text = .boolean ↔ text ∈ ["true", "True", "TRUE", "false", "False", "FALSE"]) ∧
    (ofPlain text = .integer ↔ text.toList ∈ integerForm.matches') ∧
    (ofPlain text = .float ↔
      text.toList ∉ integerForm.matches' ∧ text.toList ∈ floatForm.matches') ∧
    (ofPlain text = .string ↔
      text ∉ ["", "~", "null", "Null", "NULL"] ∧
      text ∉ ["true", "True", "TRUE", "false", "False", "FALSE"] ∧
      text.toList ∉ integerForm.matches' ∧ text.toList ∉ floatForm.matches') := by
  rw [← isNull_iff, ← isBoolean_iff, ← isInteger_iff, ← isFloat_iff]
  -- The questions are asked in the order of the kinds, and only the first that holds counts.
  by_cases hnull : isNull text = true
  · rcases not_other_of_isNull hnull with ⟨hboolean, hinteger, hfloat⟩
    simp [ofPlain, hnull, hboolean, hinteger, hfloat]
  · by_cases hboolean : isBoolean text = true
    · rcases not_number_of_isBoolean hboolean with ⟨hinteger, hfloat⟩
      simp [ofPlain, hnull, hboolean, hinteger, hfloat]
    · by_cases hinteger : isInteger text.toList = true
      · simp [ofPlain, hnull, hboolean, hinteger]
      · by_cases hfloat : isFloat text.toList = true
        · simp [ofPlain, hnull, hboolean, hinteger, hfloat]
        · simp [ofPlain, hnull, hboolean, hinteger, hfloat]

example : [".", "+", "1e", "1.2.3", "-0o7", "0xe", "5.", "-.5e+3"].map ScalarKind.ofPlain =
    [.string, .string, .string, .string, .string, .integer, .float, .float] := by
  decide

end Yaml

end YamlLocator
