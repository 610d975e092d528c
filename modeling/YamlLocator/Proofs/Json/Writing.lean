import YamlLocator.Json.Writer
import YamlLocator.Proofs.Json.Reading

/-!
# Written JSON Documents

What is written is a document of the members that it was written for, and a reader of documents
finds them in it. It holds no control character, wherever it came from: those of a text are escaped,
and no other part of a document has any.

The writer escapes a character by a letter, by a number, or not at all. For each of the three there
is one kind of part that the reader takes it for. Parts are put together again two at a time, since
two numbers may form a pair. A number that is written is that of a control character and belongs to
no pair, so it can be taken by itself, whatever part is next.

## Main definitions

* `Value.ofNatural`, `Field.value`: The value that a field is.
* `partOf`: The part that a character is read as.

## Theorems

* `decodeUnits_map_partOf`: A text is what its parts stand for.
* `spellsElement_writeObject`: What is written is a document of its members.
* `le_of_mem_writeObject`: No control character is written.
-/

namespace YamlLocator

namespace Json

/-- A number that is written by its digits alone. -/
def Value.ofNatural (number : Nat) : Value :=
  .number { negative := false, whole := number, integral := true }

/-- The value that a field is. -/
def Field.value : Field → Value
  | .text value => .string (some value)
  | .natural value => .ofNatural value

/-- The part of a literal that a character is read as, once it has been written. -/
def partOf (c : Char) : Part :=
  if letterEscape? c = none ∧ c.toNat < 0x20 then .unit c.toNat else .character c

/-! ### Texts -/

/-- The letter that is written for a character is read as that character. -/
theorem unescape?_of_letterEscape? {c letter : Char} (h : letterEscape? c = some letter) :
    unescape? letter = some c := by
  unfold letterEscape? at h
  split at h <;> cases h <;> rfl

/-- The two digits of a control character, behind two zeros, spell its number. -/
theorem hexNumber?_control {number : Nat} (h : number < 0x20) :
    Text.hexNumber? ['0', '0', (number / 16).digitChar, (number % 16).digitChar] = some number := by
  have hall : ∀ n < 0x20,
      Text.hexNumber? ['0', '0', (n / 16).digitChar, (n % 16).digitChar] = some n := by
    decide
  exact hall number h

/-- A character as it is written, in front of other parts. -/
theorem spellsParts_escape (c : Char) {parts : List Part} {text : List Char}
    (h : SpellsParts parts text) : SpellsParts (partOf c :: parts) (escape c ++ text) := by
  unfold partOf escape
  cases hletter : letterEscape? c with
  | some letter => exact .letter (unescape?_of_letterEscape? hletter) h
  | none =>
    by_cases hcontrol : c.toNat < 0x20
    · simp only [hcontrol, and_self, if_true]
      exact .unit (hexNumber?_control hcontrol) h
    · simp only [hcontrol, and_false, if_false]
      -- The quotation mark and the backslash have letters.
      refine .character (Nat.le_of_not_lt hcontrol) ?_ ?_ h
      · rintro rfl
        cases hletter
      · rintro rfl
        cases hletter

theorem spellsParts_flatMap_escape (text : List Char) :
    SpellsParts (text.map partOf) (text.flatMap escape) := by
  induction text with
  | nil => exact .nil
  | cons c rest ih => exact spellsParts_escape c ih

/-- A number below those of pairs stands for a character by itself, whatever is next. -/
theorem decodeUnits_unit {number : Nat} (h : number < 0xd800) (parts : List Part) :
    decodeUnits (.unit number :: parts) = (decodeUnits parts).map (Char.ofNat number :: ·) := by
  have hlead : isLeadUnit number = false := by
    simp only [isLeadUnit, Bool.and_eq_false_iff, decide_eq_false_iff_not]
    omega
  have htrail : isTrailUnit number = false := by
    simp only [isTrailUnit, Bool.and_eq_false_iff, decide_eq_false_iff_not]
    omega
  rcases parts with _ | ⟨⟨c⟩ | ⟨trail⟩, rest⟩ <;>
    simp only [decodeUnits, hlead, htrail, Bool.or_self, Bool.false_eq_true, if_false]

/-- A text is what its parts stand for. -/
theorem decodeUnits_map_partOf (text : List Char) : decodeUnits (text.map partOf) = some text := by
  induction text with
  | nil => rfl
  | cons c rest ih =>
    rw [List.map_cons, partOf]
    split
    · rename_i hcontrol
      rw [decodeUnits_unit (by omega), ih, Option.map_some, Char.ofNat_toNat]
    · rw [decodeUnits, ih, Option.map_some]

/-- A text that is written as a literal is spelled by it. -/
theorem spellsString_quote (text : String) : SpellsString (some text) (quote text.toList) := by
  have hspells := SpellsString.mk (spellsParts_flatMap_escape text.toList)
  rwa [decodeUnits_map_partOf, Option.map_some, String.ofList_toList] at hspells

/-! ### Objects -/

theorem spellsValue_ofNatural (number : Nat) :
    SpellsValue (.ofNatural number) (Nat.toDigits 10 number) := by
  have hspells := SpellsNumeral.mk false number .absent .absent
  rw [List.append_nil, List.append_nil] at hspells
  exact .number hspells

theorem spellsValue_write (field : Field) : SpellsValue field.value field.write := by
  cases field with
  | text value => exact .string (spellsString_quote value)
  | natural value => exact spellsValue_ofNatural value

theorem isSpace_nil : IsSpace [] := fun _ hc => absurd hc List.not_mem_nil

/-- A value by itself is a document. -/
theorem spellsElement_of_spellsValue {value : Value} {text : List Char}
    (h : SpellsValue value text) : SpellsElement value text := by
  have hspells := SpellsElement.mk isSpace_nil h isSpace_nil
  rwa [List.append_nil] at hspells

theorem spellsMembers_writeMembers {members : List (String × Field)} (hne : members ≠ []) :
    SpellsMembers (members.map fun member => (some member.1, member.2.value))
      (writeMembers members) := by
  fun_induction writeMembers members with
  | case1 => exact absurd rfl hne
  | case2 name field =>
    exact .last isSpace_nil (spellsString_quote name) isSpace_nil
      (spellsElement_of_spellsValue (spellsValue_write field))
  | case3 name field next more ih =>
    have hspells := SpellsMembers.more isSpace_nil (spellsString_quote name) isSpace_nil
      (spellsElement_of_spellsValue (spellsValue_write field)) (ih (List.cons_ne_nil next more))
    rw [List.nil_append, List.nil_append] at hspells
    rwa [List.append_assoc, List.cons_append]

/-- What is written is a document of its members. -/
theorem spellsElement_writeObject {members : List (String × Field)} (hne : members ≠ []) :
    SpellsElement (.object (members.map fun member => (some member.1, member.2.value)))
      (writeObject members).toList := by
  rw [writeObject, String.toList_ofList]
  exact spellsElement_of_spellsValue (.object (spellsMembers_writeMembers hne))

/-! ### Control characters -/

/-- The characters that a character is written by are no control characters. -/
theorem le_of_mem_escape {c d : Char} (h : d ∈ escape c) : 0x20 ≤ d.toNat := by
  have hdigit : ∀ n < 0x20, 0x20 ≤ (n / 16).digitChar.toNat ∧ 0x20 ≤ (n % 16).digitChar.toNat := by
    decide
  have hletters : ∀ letter, letterEscape? c = some letter → 0x20 ≤ letter.toNat := by
    intro letter hletter
    unfold letterEscape? at hletter
    split at hletter <;> cases hletter <;> decide
  unfold escape at h
  split at h
  · rename_i letter hletter
    simp only [List.mem_cons, List.not_mem_nil, or_false] at h
    rcases h with rfl | rfl
    · decide
    · exact hletters _ hletter
  · split at h
    · rename_i hcontrol
      simp only [List.mem_cons, List.not_mem_nil, or_false] at h
      rcases h with rfl | rfl | rfl | rfl | rfl | rfl
      · decide
      · decide
      · decide
      · decide
      · exact (hdigit _ hcontrol).1
      · exact (hdigit _ hcontrol).2
    · rename_i hcontrol
      rw [List.mem_singleton] at h
      rw [h]
      exact Nat.le_of_not_lt hcontrol

theorem le_of_mem_quote {text : List Char} {d : Char} (h : d ∈ quote text) : 0x20 ≤ d.toNat := by
  rw [quote, List.cons_append, List.mem_cons, List.mem_append, List.mem_singleton] at h
  rcases h with rfl | h | rfl
  · decide
  · rcases List.mem_flatMap.mp h with ⟨c, _, hd⟩
    exact le_of_mem_escape hd
  · decide

theorem le_of_mem_write {field : Field} {d : Char} (h : d ∈ field.write) : 0x20 ≤ d.toNat := by
  cases field with
  | text value => exact le_of_mem_quote h
  | natural value =>
    have hdigit := Nat.isDigit_of_mem_toDigits (by omega) (by omega) h
    have hrange : 48 ≤ d.toNat ∧ d.toNat ≤ 57 := Char.isDigit_iff_toNat.mp hdigit
    omega

theorem le_of_mem_writeMembers {members : List (String × Field)} {d : Char}
    (h : d ∈ writeMembers members) : 0x20 ≤ d.toNat := by
  fun_induction writeMembers members with
  | case1 => cases h
  | case2 name field =>
    rw [List.mem_append, List.mem_cons] at h
    rcases h with h | rfl | h
    · exact le_of_mem_quote h
    · decide
    · exact le_of_mem_write h
  | case3 name field next more ih =>
    rw [List.append_assoc, List.mem_append, List.cons_append, List.mem_cons, List.mem_append,
      List.mem_cons] at h
    rcases h with h | rfl | h | rfl | h
    · exact le_of_mem_quote h
    · decide
    · exact le_of_mem_write h
    · decide
    · exact ih h

/-- No control character is written. -/
theorem le_of_mem_writeObject {members : List (String × Field)} {d : Char}
    (h : d ∈ (writeObject members).toList) : 0x20 ≤ d.toNat := by
  rw [writeObject, String.toList_ofList, List.cons_append, List.mem_cons, List.mem_append,
    List.mem_singleton] at h
  rcases h with rfl | h | rfl
  · decide
  · exact le_of_mem_writeMembers h
  · decide

end Json

end YamlLocator
