import Mathlib.Data.Option.Basic
import YamlLocator.Proofs.Decimal

/-!
# The Grammar of JSON

Which texts are JSON, and what they stand for, said without a reader: a document is an element, an
element is a value with whitespace on either side, and values are made of elements again. The
reader looks for whitespace in front of a value and behind it as it goes along, and it follows the
text from character to character. This module says what the readers of the parts of a value make
of a text, those that do not call one another: whitespace, numbers and string literals.

For each of them there are two statements. What it has read is a spelling of its result, with the
rest of the text behind it; and it reads every spelling, whatever comes next. For a number the
second one is not true without a condition, since digits that come next would belong to it:
`IsDelimited` says what may not come next.

The whole part of a number has no zeros in front, so that it is the only spelling of its value.
`Text.toDigits_ofDigitChars` says so, and the grammar need not speak of leading zeros at all.

## Main definitions

* `IsSpace`: Nothing but whitespace.
* `SpellsFraction`, `SpellsExponent`, `SpellsNumeral`: The spellings of numbers.
* `SpellsParts`: The spellings of what is between two quotation marks.
* `SpellsValue`, `SpellsElement`, `SpellsElements`, `SpellsMembers`: The spellings of values, of
  values with whitespace around them, and of the contents of arrays and objects.
* `IsDelimited`: A text that no number in front of it goes on with.

## Theorems

* `exists_of_readNumber`, `readNumber_append`: Reading numbers.
* `exists_of_readLiteral`, `readLiteral_append`: Reading string literals.
-/

namespace YamlLocator

namespace Json

open Text

/-- Nothing but whitespace. -/
def IsSpace (text : List Char) : Prop := ∀ c ∈ text, c = ' ' ∨ c = '\n' ∨ c = '\t' ∨ c = '\r'

/-- A fraction, or none. -/
inductive SpellsFraction : Bool → List Char → Prop
  | absent : SpellsFraction false []
  | present {digits : List Char} (hdigits : IsDigits digits) : SpellsFraction true ('.' :: digits)

/-- An exponent, or none. -/
inductive SpellsExponent : Bool → List Char → Prop
  | absent : SpellsExponent false []
  | present {mark : Char} {sign digits : List Char} (hmark : mark = 'e' ∨ mark = 'E')
      (hsign : sign = [] ∨ sign = ['+'] ∨ sign = ['-']) (hdigits : IsDigits digits) :
      SpellsExponent true (mark :: (sign ++ digits))

/-- A number: a minus sign if it is negative, the digits of its whole part, and what may follow. -/
inductive SpellsNumeral : Numeral → List Char → Prop
  | mk (negative : Bool) (whole : Nat) {fraction exponent : Bool} {decimals power : List Char}
      (hfraction : SpellsFraction fraction decimals) (hexponent : SpellsExponent exponent power) :
      SpellsNumeral { negative, whole, integral := !fraction && !exponent }
        ((if negative then ['-'] else []) ++ (Nat.toDigits 10 whole ++ (decimals ++ power)))

/-- The parts of a string literal, as they stand between the quotation marks. -/
inductive SpellsParts : List Part → List Char → Prop
  | nil : SpellsParts [] []
  | unit {a b c d : Char} {number : Nat} {parts : List Part} {text : List Char}
      (hnumber : Text.hexNumber? [a, b, c, d] = some number) (h : SpellsParts parts text) :
      SpellsParts (.unit number :: parts) ('\\' :: 'u' :: a :: b :: c :: d :: text)
  | letter {letter c : Char} {parts : List Part} {text : List Char}
      (hletter : unescape? letter = some c) (h : SpellsParts parts text) :
      SpellsParts (.character c :: parts) ('\\' :: letter :: text)
  | character {c : Char} {parts : List Part} {text : List Char} (hcontrol : 0x20 ≤ c.toNat)
      (hquote : c ≠ '"') (hescape : c ≠ '\\') (h : SpellsParts parts text) :
      SpellsParts (.character c :: parts) (c :: text)

/-- A string literal with its quotation marks, and the text that it stands for. -/
inductive SpellsString : Option String → List Char → Prop
  | mk {parts : List Part} {text : List Char} (h : SpellsParts parts text) :
      SpellsString ((decodeUnits parts).map String.ofList) ('"' :: (text ++ ['"']))

mutual

/-- A value as it stands, from its first character to its last one. -/
inductive SpellsValue : Value → List Char → Prop
  | null : SpellsValue .null ['n', 'u', 'l', 'l']
  | true : SpellsValue (.boolean true) ['t', 'r', 'u', 'e']
  | false : SpellsValue (.boolean false) ['f', 'a', 'l', 's', 'e']
  | number {numeral : Numeral} {text : List Char} (h : SpellsNumeral numeral text) :
      SpellsValue (.number numeral) text
  | string {string : Option String} {text : List Char} (h : SpellsString string text) :
      SpellsValue (.string string) text
  | emptyArray {space : List Char} (hspace : IsSpace space) :
      SpellsValue (.array []) ('[' :: (space ++ [']']))
  | array {items : List Value} {text : List Char} (h : SpellsElements items text) :
      SpellsValue (.array items) ('[' :: (text ++ [']']))
  | emptyObject {space : List Char} (hspace : IsSpace space) :
      SpellsValue (.object []) ('{' :: (space ++ ['}']))
  | object {members : List (Option String × Value)} {text : List Char}
      (h : SpellsMembers members text) : SpellsValue (.object members) ('{' :: (text ++ ['}']))

/-- A value with whitespace around it. A document is one of these. -/
inductive SpellsElement : Value → List Char → Prop
  | mk {value : Value} {before text after : List Char} (hbefore : IsSpace before)
      (h : SpellsValue value text) (hafter : IsSpace after) :
      SpellsElement value (before ++ (text ++ after))

/-- The items of an array, at least one, with commas between them. -/
inductive SpellsElements : List Value → List Char → Prop
  | last {item : Value} {text : List Char} (h : SpellsElement item text) :
      SpellsElements [item] text
  | more {item : Value} {items : List Value} {text others : List Char}
      (h : SpellsElement item text) (hothers : SpellsElements items others) :
      SpellsElements (item :: items) (text ++ ',' :: others)

/-- The members of an object, at least one, with commas between them. -/
inductive SpellsMembers : List (Option String × Value) → List Char → Prop
  | last {name : Option String} {value : Value} {before literal after text : List Char}
      (hbefore : IsSpace before) (hname : SpellsString name literal) (hafter : IsSpace after)
      (h : SpellsElement value text) :
      SpellsMembers [(name, value)] (before ++ (literal ++ (after ++ ':' :: text)))
  | more {name : Option String} {value : Value} {members : List (Option String × Value)}
      {before literal after text others : List Char} (hbefore : IsSpace before)
      (hname : SpellsString name literal) (hafter : IsSpace after) (h : SpellsElement value text)
      (hothers : SpellsMembers members others) :
      SpellsMembers ((name, value) :: members)
        (before ++ (literal ++ (after ++ ':' :: (text ++ ',' :: others))))

end

/-- What comes next does not belong to a number. -/
def IsDelimited (rest : List Char) : Prop :=
  ∀ c ∈ rest.head?, c.isDigit = false ∧ c ≠ '.' ∧ c ≠ 'e' ∧ c ≠ 'E'

/-! ### Whitespace -/

theorem skipSpace_append {space : List Char} (h : IsSpace space) (text : List Char) :
    skipSpace (space ++ text) = skipSpace text :=
  List.dropWhile_append_of_pos fun c hc => decide_eq_true (h c hc)

theorem skipSpace_cons {c : Char} (h : ¬ (c = ' ' ∨ c = '\n' ∨ c = '\t' ∨ c = '\r'))
    (rest : List Char) : skipSpace (c :: rest) = c :: rest :=
  List.dropWhile_cons_of_neg (by simpa using h)

/-- Skipping ends at the first character that is no whitespace. -/
theorem skipSpace_append_cons {space : List Char} (h : IsSpace space) {c : Char}
    (hc : ¬ (c = ' ' ∨ c = '\n' ∨ c = '\t' ∨ c = '\r')) (rest : List Char) :
    skipSpace (space ++ c :: rest) = c :: rest := by
  rw [skipSpace_append h, skipSpace_cons hc]

/-- What is skipped is whitespace. -/
theorem exists_space (text : List Char) :
    ∃ space, IsSpace space ∧ text = space ++ skipSpace text := by
  refine ⟨_, fun c hc => ?_, List.takeWhile_append_dropWhile.symm⟩
  simpa using List.mem_takeWhile_imp hc

/-- Skipping everything leaves nothing exactly if there is nothing but whitespace. -/
theorem skipSpace_eq_nil_iff {text : List Char} : skipSpace text = [] ↔ IsSpace text := by
  rw [skipSpace, List.dropWhile_eq_nil_iff]
  simp only [decide_eq_true_eq, IsSpace]

/-! ### Numbers -/

variable {text rest spelling : List Char}

theorem exists_of_skipFraction {fraction : Bool} (h : skipFraction text = some (fraction, rest)) :
    ∃ spelling, SpellsFraction fraction spelling ∧ text = spelling ++ rest := by
  unfold skipFraction at h
  split at h
  · rcases Option.map_eq_some_iff.mp h with ⟨⟨digits, after⟩, hread, heq⟩
    cases heq
    rcases isDigits_of_readDigits hread with ⟨hdigits, hsplit⟩
    exact ⟨'.' :: digits, .present hdigits, congrArg ('.' :: ·) hsplit⟩
  · cases h
    exact ⟨[], .absent, rfl⟩

theorem skipFraction_append {fraction : Bool} (h : SpellsFraction fraction spelling)
    (hdigit : IsBehindDigits rest) (hpoint : ∀ c ∈ rest.head?, c ≠ '.') :
    skipFraction (spelling ++ rest) = some (fraction, rest) := by
  cases h with
  | absent =>
    unfold skipFraction
    split
    · rename_i heq
      exact absurd rfl (hpoint '.' (by rw [← List.nil_append rest, heq]; rfl))
    · rfl
  | present hdigits =>
    rw [List.cons_append, skipFraction, readDigits_append hdigits hdigit]
    rfl

theorem exists_of_skipExponent {exponent : Bool} (h : skipExponent text = some (exponent, rest)) :
    ∃ spelling, SpellsExponent exponent spelling ∧ text = spelling ++ rest := by
  unfold skipExponent at h
  split at h
  · rename_i mark behind
    split at h
    · rename_i hmark
      rcases Option.map_eq_some_iff.mp h with ⟨⟨digits, after⟩, hread, heq⟩
      cases heq
      rcases isDigits_of_readDigits hread with ⟨hdigits, hsplit⟩
      -- The reader has gone on behind a sign, if there is one.
      have hsign : ∃ sign, (sign = [] ∨ sign = ['+'] ∨ sign = ['-']) ∧
          behind = sign ++ (digits ++ rest) := by
        cases behind with
        | nil => exact ⟨[], .inl rfl, hsplit⟩
        | cons sign after =>
          by_cases hsign : sign = '+' ∨ sign = '-'
          · simp only [if_pos hsign] at hsplit
            refine ⟨[sign], .inr ?_, by rw [hsplit, List.singleton_append]⟩
            exact hsign.imp (congrArg ([·])) (congrArg ([·]))
          · simp only [if_neg hsign] at hsplit
            exact ⟨[], .inl rfl, hsplit⟩
      rcases hsign with ⟨sign, hsign, rfl⟩
      refine ⟨mark :: (sign ++ digits), .present hmark hsign hdigits, ?_⟩
      rw [List.cons_append, List.append_assoc]
    · cases h
      exact ⟨[], .absent, rfl⟩
  · cases h
    exact ⟨[], .absent, rfl⟩

theorem skipExponent_append {exponent : Bool} (h : SpellsExponent exponent spelling)
    (hdigit : IsBehindDigits rest) (hmark : ∀ c ∈ rest.head?, c ≠ 'e' ∧ c ≠ 'E') :
    skipExponent (spelling ++ rest) = some (exponent, rest) := by
  cases h with
  | absent =>
    cases rest with
    | nil => rfl
    | cons c rest =>
      have hc : ¬ (c = 'e' ∨ c = 'E') := not_or.mpr (hmark c rfl)
      exact if_neg hc
  | present hletter hsign hdigits =>
    rename_i mark sign digits
    have hread := readDigits_append hdigits hdigit
    rcases hsign with rfl | rfl | rfl
    · -- Without a sign, the reader has to see that the first digit is none.
      rcases exists_cons_of_isDigits hdigits with ⟨first, others, rfl, hisDigit⟩
      have hfirst : ¬ (first = '+' ∨ first = '-') := by
        rintro (rfl | rfl) <;> exact absurd hisDigit (by decide)
      rw [List.cons_append] at hread
      simp only [List.nil_append, List.cons_append, skipExponent, if_pos hletter, if_neg hfirst,
        hread, Option.map_some]
    · simp only [List.cons_append, List.nil_append, skipExponent, if_pos hletter, true_or, if_true,
        hread, Option.map_some]
    · simp only [List.cons_append, List.nil_append, skipExponent, if_pos hletter, or_true, if_true,
        hread, Option.map_some]

theorem readNumber_of_ne (h : text.head? ≠ some '-') :
    readNumber text = readUnsigned false text := by
  unfold readNumber
  split
  · exact absurd (List.head?_cons ..) h
  · rfl

/-- The whole part that is read is written by the digits of its value. -/
theorem toDigits_of_readWhole {digits : List Char} (h : readWhole text = some (digits, rest)) :
    text = Nat.toDigits 10 (Nat.ofDigitChars 10 digits 0) ++ rest := by
  unfold readWhole at h
  split at h
  · cases h
    rfl
  · rename_i hzero
    rcases isDigits_of_readDigits h with ⟨hdigits, rfl⟩
    rw [toDigits_ofDigitChars hdigits]
    intro hhead
    rcases exists_cons_of_isDigits hdigits with ⟨first, others, rfl, -⟩
    rw [List.head?_cons, Option.some.injEq] at hhead
    exact hzero (others ++ rest) (by rw [hhead, List.cons_append])

theorem readWhole_append (whole : Nat) (h : IsBehindDigits rest) :
    readWhole (Nat.toDigits 10 whole ++ rest) = some (Nat.toDigits 10 whole, rest) := by
  by_cases hzero : whole = 0
  · rw [hzero]
    rfl
  · unfold readWhole
    split
    · rename_i heq
      have hhead := head?_toDigits_ne (Nat.pos_of_ne_zero hzero)
      rcases exists_cons_of_isDigits (isDigits_toDigits whole) with ⟨first, others, hdigits, -⟩
      rw [hdigits, List.cons_append, List.cons.injEq] at heq
      rw [hdigits, heq.1] at hhead
      exact absurd rfl hhead
    · exact readDigits_append (isDigits_toDigits whole) h

theorem exists_of_readUnsigned (negative : Bool) {numeral : Numeral}
    (h : readUnsigned negative text = some (numeral, rest)) :
    ∃ spelling, SpellsNumeral numeral ((if negative then ['-'] else []) ++ spelling) ∧
      text = spelling ++ rest := by
  unfold readUnsigned at h
  rcases Option.bind_eq_some_iff.mp h with ⟨⟨digits, afterWhole⟩, hwhole, h⟩
  rcases Option.bind_eq_some_iff.mp h with ⟨⟨fraction, afterFraction⟩, hfraction, h⟩
  rcases Option.bind_eq_some_iff.mp h with ⟨⟨exponent, afterExponent⟩, hexponent, h⟩
  cases h
  rcases exists_of_skipFraction hfraction with ⟨decimals, hdecimals, rfl⟩
  rcases exists_of_skipExponent hexponent with ⟨power, hpower, rfl⟩
  refine ⟨_, .mk negative _ hdecimals hpower, ?_⟩
  rw [toDigits_of_readWhole hwhole, List.append_assoc, List.append_assoc]

/-- A number that is read is a spelling of the result. -/
theorem exists_of_readNumber {numeral : Numeral} (h : readNumber text = some (numeral, rest)) :
    ∃ spelling, SpellsNumeral numeral spelling ∧ text = spelling ++ rest := by
  by_cases hminus : text.head? = some '-'
  · rcases List.head?_eq_some_iff.mp hminus with ⟨unsigned, rfl⟩
    rcases exists_of_readUnsigned true h with ⟨spelling, hspelling, rfl⟩
    exact ⟨_, hspelling, rfl⟩
  · rw [readNumber_of_ne hminus] at h
    exact exists_of_readUnsigned false h

theorem isBehindDigits_of_isDelimited (h : IsDelimited rest) : IsBehindDigits rest :=
  fun c hc => (h c hc).1

/-- Digits end in front of an exponent, and no fraction begins there. -/
theorem isBehindDigits_power {exponent : Bool} {power : List Char}
    (h : SpellsExponent exponent power) (hrest : IsDelimited rest) :
    IsBehindDigits (power ++ rest) ∧ ∀ c ∈ (power ++ rest).head?, c ≠ '.' := by
  cases h with
  | absent => exact ⟨isBehindDigits_of_isDelimited hrest, fun c hc => (hrest c hc).2.1⟩
  | present hmark hsign hdigits =>
    rename_i mark sign digits
    have hhead : ∀ c ∈ (mark :: (sign ++ digits) ++ rest).head?, c = mark := by
      intro c hc
      rw [List.cons_append, List.head?_cons, Option.mem_some_iff] at hc
      exact hc.symm
    constructor
    · intro c hc
      rw [hhead c hc]
      rcases hmark with rfl | rfl <;> rfl
    · intro c hc
      rw [hhead c hc]
      rcases hmark with rfl | rfl <;> decide

theorem isBehindDigits_decimals {fraction : Bool} {decimals : List Char}
    (h : SpellsFraction fraction decimals) (hrest : IsBehindDigits rest) :
    IsBehindDigits (decimals ++ rest) := by
  cases h with
  | absent => exact hrest
  | present hdigits =>
    intro c hc
    rw [List.cons_append, List.head?_cons, Option.mem_some_iff] at hc
    exact hc ▸ rfl

/-- A number begins with a minus sign or with a digit, which is none. -/
theorem exists_cons_of_spellsNumeral {numeral : Numeral} (h : SpellsNumeral numeral spelling) :
    ∃ c tail, spelling = c :: tail ∧ (c = '-' ∨ c.isDigit = true) := by
  rcases h with ⟨negative, whole, _, _⟩
  cases negative with
  | true => exact ⟨'-', _, rfl, .inl rfl⟩
  | false =>
    rcases exists_cons_of_isDigits (isDigits_toDigits whole) with ⟨first, others, hdigits, hfirst⟩
    exact ⟨first, _, by rw [hdigits]; rfl, .inr hfirst⟩

/-- Every spelling of a number is read, if what comes next does not belong to it. -/
theorem readNumber_append {numeral : Numeral} (h : SpellsNumeral numeral spelling)
    (hrest : IsDelimited rest) : readNumber (spelling ++ rest) = some (numeral, rest) := by
  rcases h with ⟨negative, whole, hfraction, hexponent⟩
  rename_i fraction exponent decimals power
  rcases isBehindDigits_power hexponent hrest with ⟨hbehind, hpoint⟩
  have hwhole := readWhole_append whole (isBehindDigits_decimals hfraction hbehind)
  have hdecimals := skipFraction_append hfraction hbehind hpoint
  have hpower := skipExponent_append hexponent (isBehindDigits_of_isDelimited hrest)
    fun c hc => (hrest c hc).2.2
  have hunsigned : readUnsigned negative
      (Nat.toDigits 10 whole ++ (decimals ++ (power ++ rest))) =
        some ({ negative, whole, integral := !fraction && !exponent }, rest) := by
    simp only [readUnsigned, hwhole, hdecimals, hpower, Option.bind_eq_bind, Option.bind_some,
      Option.pure_def, Nat.ofDigitChars_ten_toDigits]
  rw [List.append_assoc, List.append_assoc, List.append_assoc]
  cases negative with
  | true => exact hunsigned
  | false =>
    refine (readNumber_of_ne ?_).trans hunsigned
    -- The number begins with a digit, which is no minus sign.
    rcases exists_cons_of_isDigits (isDigits_toDigits whole) with ⟨first, others, hdigits, hfirst⟩
    rw [hdigits]
    rintro heq
    cases heq
    exact absurd hfirst (by decide)

/-! ### String literals -/

/-- A literal that is read is a spelling of its parts, with the quotation mark behind it. -/
theorem exists_of_readLiteral {parts : List Part} (h : readLiteral text = some (parts, rest)) :
    ∃ spelling, SpellsParts parts spelling ∧ text = spelling ++ '"' :: rest := by
  fun_induction readLiteral text generalizing parts rest with
  | case1 after =>
    cases h
    exact ⟨[], .nil, rfl⟩
  | case2 a b c d after ih =>
    rcases Option.bind_eq_some_iff.mp h with ⟨number, hnumber, h⟩
    rcases Option.bind_eq_some_iff.mp h with ⟨⟨others, behind⟩, hothers, h⟩
    cases h
    rcases ih hothers with ⟨spelling, hspelling, rfl⟩
    exact ⟨_, .unit hnumber hspelling, rfl⟩
  | case3 letter after hunit ih =>
    rcases Option.bind_eq_some_iff.mp h with ⟨c, hletter, h⟩
    rcases Option.bind_eq_some_iff.mp h with ⟨⟨others, behind⟩, hothers, h⟩
    cases h
    rcases ih hothers with ⟨spelling, hspelling, rfl⟩
    exact ⟨_, .letter hletter hspelling, rfl⟩
  | case4 c after hquote _ _ ih =>
    rcases Option.bind_eq_some_iff.mp h with ⟨_, hguard, h⟩
    rcases Option.bind_eq_some_iff.mp h with ⟨⟨others, behind⟩, hothers, h⟩
    cases h
    rcases ih hothers with ⟨spelling, hspelling, rfl⟩
    have hplain : 0x20 ≤ c.toNat ∧ c ≠ '\\' := (Option.guard_eq_some' ()).mp hguard
    exact ⟨_, .character hplain.1 hquote hplain.2 hspelling, rfl⟩
  | case5 => cases h

/-- Every spelling of a literal is read up to its quotation mark. -/
theorem readLiteral_append {parts : List Part} (h : SpellsParts parts spelling)
    (rest : List Char) : readLiteral (spelling ++ '"' :: rest) = some (parts, rest) := by
  induction h with
  | nil => rfl
  | unit hnumber h ih =>
    simp only [List.cons_append, readLiteral, hnumber, ih, Option.bind_eq_bind, Option.bind_some,
      Option.pure_def]
  | letter hletter h ih =>
    -- No letter is read like the one in front of a number.
    have hunit : ∀ letter c, unescape? letter = some c → letter ≠ 'u' := by
      rintro letter c hletter rfl
      cases hletter
    rw [List.cons_append, List.cons_append, readLiteral]
    · simp only [hletter, ih, Option.bind_eq_bind, Option.bind_some, Option.pure_def]
    · exact fun _ _ _ _ _ heq => absurd heq (hunit _ _ hletter)
  | character hcontrol hquote hescape h ih =>
    have hplain := (Option.guard_eq_some' ()).mpr (And.intro hcontrol hescape)
    rw [List.cons_append, readLiteral]
    · simp only [ih, hplain, Option.bind_eq_bind, Option.bind_some, Option.pure_def]
    · exact hquote
    · exact fun _ _ _ _ _ heq => absurd heq hescape
    · exact fun _ _ heq => absurd heq hescape

/-- A string literal that is read is a spelling of the result. -/
theorem exists_of_readString {string : Option String} (h : readString text = some (string, rest)) :
    ∃ spelling, SpellsString string spelling ∧ '"' :: text = spelling ++ rest := by
  rcases Option.map_eq_some_iff.mp h with ⟨⟨parts, after⟩, hread, heq⟩
  cases heq
  rcases exists_of_readLiteral hread with ⟨spelling, hspelling, rfl⟩
  refine ⟨_, .mk hspelling, ?_⟩
  rw [List.cons_append, List.append_assoc, List.singleton_append]

/-- Every string literal is read behind its first quotation mark. -/
theorem exists_readString_append {string : Option String} (h : SpellsString string spelling)
    (rest : List Char) :
    ∃ text, spelling ++ rest = '"' :: text ∧ readString text = some (string, rest) := by
  rcases h with ⟨h⟩
  rename_i parts literal
  refine ⟨literal ++ '"' :: rest, ?_, ?_⟩
  · rw [List.cons_append, List.append_assoc, List.singleton_append]
  · rw [readString, readLiteral_append h, Option.map_some]

end Json

end YamlLocator
