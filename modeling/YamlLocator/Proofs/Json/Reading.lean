import YamlLocator.Proofs.Json.Grammar

/-!
# Reading JSON Documents

A text is read as a value exactly if the grammar makes it a document of that value.

The readers of values, of items and of members call one another, each with a smaller bound. Both
directions are therefore inductions on the bound, with the three readers side by side. `Sound` and
`Complete` are what is claimed for one bound: that what the readers have read is a spelling, and
that they read every spelling that is short enough for the bound. A character takes at most two
calls, one to see that a value begins with it and one to look for an item or a member, so that
twice the number of characters is always enough.

A value that is read is followed by what its reader has left. Whether that belongs to the value is
a question for numbers only, and it never does: what may stand behind a value is whitespace, a
comma, a closing bracket, a closing brace, or nothing.

## Main definitions

* `Sound`, `Complete`: What the readers do with a bound.

## Theorems

* `sound`: What is read is a spelling of the result.
* `complete`: Every spelling is read.
* `ofText?_eq_some_iff`: A text is read as a value exactly if it is a document of that value.
-/

namespace YamlLocator

namespace Json

variable {bound : Nat}

/-! ### What is read is a spelling -/

/-- What the readers have read is a spelling of the result, with the rest of the text behind it. -/
structure Sound (bound : Nat) : Prop where
  value : ∀ {text rest value}, readValue bound text = some (value, rest) →
    ∃ before spelling, IsSpace before ∧ SpellsValue value spelling ∧
      text = before ++ (spelling ++ rest)
  items : ∀ {text rest items}, readItems bound text = some (items, rest) →
    ∃ spelling, SpellsElements items spelling ∧ text = spelling ++ ']' :: rest
  members : ∀ {text rest members}, readMembers bound text = some (members, rest) →
    ∃ spelling, SpellsMembers members spelling ∧ text = spelling ++ '}' :: rest

/-- Without calls, nothing is read. -/
theorem sound_zero : Sound 0 where
  value h := by cases h
  items h := by cases h
  members h := by cases h

variable {text rest : List Char}

theorem exists_of_readValue {value : Value} (hsound : Sound bound)
    (h : readValue (bound + 1) text = some (value, rest)) :
    ∃ before spelling, IsSpace before ∧ SpellsValue value spelling ∧
      text = before ++ (spelling ++ rest) := by
  rcases exists_space text with ⟨before, hbefore, htext⟩
  -- The whitespace is taken away on either side.
  suffices hvalue : ∃ spelling, SpellsValue value spelling ∧ skipSpace text = spelling ++ rest by
    rcases hvalue with ⟨spelling, hspelling, hskip⟩
    exact ⟨before, spelling, hbefore, hspelling, hskip ▸ htext⟩
  rw [readValue] at h
  split at h
  · rename_i behind hskip
    rcases Option.map_eq_some_iff.mp h with ⟨⟨string, after⟩, hread, heq⟩
    cases heq
    rcases exists_of_readString hread with ⟨spelling, hspelling, hbehind⟩
    exact ⟨spelling, .string hspelling, hskip.trans hbehind⟩
  · rename_i behind hskip
    rcases exists_space behind with ⟨space, hspace, hbehind⟩
    split at h
    · rename_i after hclose
      cases h
      refine ⟨_, .emptyArray hspace, ?_⟩
      rw [hskip, hbehind, hclose, List.cons_append, List.append_assoc, List.singleton_append]
    · rcases Option.map_eq_some_iff.mp h with ⟨⟨items, after⟩, hread, heq⟩
      cases heq
      rcases hsound.items hread with ⟨spelling, hspelling, hitems⟩
      refine ⟨_, .array hspelling, ?_⟩
      rw [hskip, hitems, List.cons_append, List.append_assoc, List.singleton_append]
  · rename_i behind hskip
    rcases exists_space behind with ⟨space, hspace, hbehind⟩
    split at h
    · rename_i after hclose
      cases h
      refine ⟨_, .emptyObject hspace, ?_⟩
      rw [hskip, hbehind, hclose, List.cons_append, List.append_assoc, List.singleton_append]
    · rcases Option.map_eq_some_iff.mp h with ⟨⟨members, after⟩, hread, heq⟩
      cases heq
      rcases hsound.members hread with ⟨spelling, hspelling, hmembers⟩
      refine ⟨_, .object hspelling, ?_⟩
      rw [hskip, hmembers, List.cons_append, List.append_assoc, List.singleton_append]
  · rename_i after hskip
    cases h
    exact ⟨_, .null, hskip⟩
  · rename_i after hskip
    cases h
    exact ⟨_, .true, hskip⟩
  · rename_i after hskip
    cases h
    exact ⟨_, .false, hskip⟩
  · rcases Option.map_eq_some_iff.mp h with ⟨⟨numeral, after⟩, hread, heq⟩
    cases heq
    rcases exists_of_readNumber hread with ⟨spelling, hspelling, hnumber⟩
    exact ⟨spelling, .number hspelling, hnumber⟩

theorem exists_of_readItems {items : List Value} (hsound : Sound bound)
    (h : readItems (bound + 1) text = some (items, rest)) :
    ∃ spelling, SpellsElements items spelling ∧ text = spelling ++ ']' :: rest := by
  rw [readItems] at h
  rcases Option.bind_eq_some_iff.mp h with ⟨⟨item, behind⟩, hitem, hgoes⟩
  rcases hsound.value hitem with ⟨before, spelling, hbefore, hspelling, rfl⟩
  rcases exists_space behind with ⟨after, hafter, hbehind⟩
  dsimp only at hgoes
  split at hgoes
  · rename_i more hskip
    rcases Option.bind_eq_some_iff.mp hgoes with ⟨⟨others, _⟩, hothers, heq⟩
    cases heq
    rcases hsound.items hothers with ⟨otherSpelling, hotherSpelling, rfl⟩
    refine ⟨_, .more ⟨hbefore, hspelling, hafter⟩ hotherSpelling, ?_⟩
    rw [hbehind, hskip]
    simp only [List.append_assoc, List.cons_append]
  · rename_i hskip
    cases hgoes
    refine ⟨_, .last ⟨hbefore, hspelling, hafter⟩, ?_⟩
    rw [hbehind, hskip]
    simp only [List.append_assoc]
  · cases hgoes

theorem exists_of_readMembers {members : List (Option String × Value)} (hsound : Sound bound)
    (h : readMembers (bound + 1) text = some (members, rest)) :
    ∃ spelling, SpellsMembers members spelling ∧ text = spelling ++ '}' :: rest := by
  rcases exists_space text with ⟨before, hbefore, htext⟩
  rw [readMembers] at h
  split at h
  · rename_i behindQuote hquote
    rcases Option.bind_eq_some_iff.mp h with ⟨⟨name, behindName⟩, hname, hgoes⟩
    rcases exists_of_readString hname with ⟨literal, hliteral, hsplit⟩
    rcases exists_space behindName with ⟨between, hbetween, hbehindName⟩
    dsimp only at hgoes
    split at hgoes
    · rename_i behindColon hcolon
      rcases Option.bind_eq_some_iff.mp hgoes with ⟨⟨value, behindValue⟩, hvalue, hgoes⟩
      rcases hsound.value hvalue with ⟨space, spelling, hspace, hspelling, hbehindColon⟩
      rcases exists_space behindValue with ⟨after, hafter, hbehindValue⟩
      dsimp only at hgoes
      split at hgoes
      · rename_i more hcomma
        rcases Option.bind_eq_some_iff.mp hgoes with ⟨⟨others, _⟩, hothers, heq⟩
        cases heq
        rcases hsound.members hothers with ⟨otherSpelling, hotherSpelling, hmore⟩
        refine ⟨_, .more hbefore hliteral hbetween ⟨hspace, hspelling, hafter⟩ hotherSpelling, ?_⟩
        rw [htext, hquote, hsplit, hbehindName, hcolon, hbehindColon, hbehindValue, hcomma, hmore]
        simp only [List.append_assoc, List.cons_append]
      · rename_i hclose
        cases hgoes
        refine ⟨_, .last hbefore hliteral hbetween ⟨hspace, hspelling, hafter⟩, ?_⟩
        rw [htext, hquote, hsplit, hbehindName, hcolon, hbehindColon, hbehindValue, hclose]
        simp only [List.append_assoc, List.cons_append]
      · cases hgoes
    · cases hgoes
  · cases h

/-- What is read is a spelling of the result. -/
theorem sound (bound : Nat) : Sound bound := by
  induction bound with
  | zero => exact sound_zero
  | succ bound ih =>
    exact ⟨exists_of_readValue ih, exists_of_readItems ih, exists_of_readMembers ih⟩

/-! ### What stands around a value -/

/-- A value begins with a character of its own, which closes nothing. -/
theorem exists_cons_of_spellsValue {value : Value} (h : SpellsValue value text) :
    ∃ c tail, text = c :: tail ∧ ¬ (c = ' ' ∨ c = '\n' ∨ c = '\t' ∨ c = '\r') ∧ c ≠ ']' := by
  cases h with
  | null | true | false | emptyArray | array | emptyObject | object =>
    exact ⟨_, _, rfl, by decide, by decide⟩
  | string h =>
    cases h
    exact ⟨_, _, rfl, by decide, by decide⟩
  | number h =>
    rcases exists_cons_of_spellsNumeral h with ⟨c, tail, rfl, hc⟩
    refine ⟨c, tail, rfl, ?_, ?_⟩
    · rintro (rfl | rfl | rfl | rfl) <;> exact absurd hc (by decide)
    · rintro rfl
      exact absurd hc (by decide)

/-- So does a value with whitespace around it, behind the whitespace. -/
theorem exists_cons_of_spellsElement {value : Value} (h : SpellsElement value text) :
    ∃ before c tail, text = before ++ c :: tail ∧ IsSpace before ∧
      ¬ (c = ' ' ∨ c = '\n' ∨ c = '\t' ∨ c = '\r') ∧ c ≠ ']' := by
  rcases h with ⟨hbefore, h, _⟩
  rcases exists_cons_of_spellsValue h with ⟨c, tail, rfl, hc⟩
  exact ⟨_, c, _, rfl, hbefore, hc⟩

/-- So do the items of an array. -/
theorem exists_cons_of_spellsElements {items : List Value} (h : SpellsElements items text) :
    ∃ before c tail, text = before ++ c :: tail ∧ IsSpace before ∧
      ¬ (c = ' ' ∨ c = '\n' ∨ c = '\t' ∨ c = '\r') ∧ c ≠ ']' := by
  cases h with
  | last h => exact exists_cons_of_spellsElement h
  | more h _ =>
    rcases exists_cons_of_spellsElement h with ⟨before, c, tail, rfl, hc⟩
    exact ⟨before, c, _, List.append_assoc before (c :: tail) _, hc⟩

/-- The members of an object begin with a quotation mark, behind whitespace. -/
theorem exists_cons_of_spellsMembers {members : List (Option String × Value)}
    (h : SpellsMembers members text) :
    ∃ before tail, text = before ++ '"' :: tail ∧ IsSpace before := by
  rcases h with ⟨hbefore, ⟨_⟩, _, _⟩ | ⟨hbefore, ⟨_⟩, _, _, _⟩
  · exact ⟨_, _, rfl, hbefore⟩
  · exact ⟨_, _, rfl, hbefore⟩

/-- No number goes on behind whitespace, or in front of what ends an item or a member. -/
theorem isDelimited_append {space : List Char} (h : IsSpace space) (hrest : IsDelimited rest) :
    IsDelimited (space ++ rest) := by
  cases space with
  | nil => exact hrest
  | cons c others =>
    intro d hd
    rw [List.cons_append, List.head?_cons, Option.mem_some_iff] at hd
    rcases h c List.mem_cons_self with hc | hc | hc | hc <;> rw [← hd, hc] <;> decide

theorem isDelimited_cons {c : Char} (h : c = ',' ∨ c = ']' ∨ c = '}') :
    IsDelimited (c :: rest) := by
  intro d hd
  rw [List.head?_cons, Option.mem_some_iff] at hd
  rcases h with hc | hc | hc <;> rw [← hd, hc] <;> decide

/-! ### Every spelling is read -/

/-- The readers read every spelling that is short enough. -/
structure Complete (bound : Nat) : Prop where
  value : ∀ {text rest value}, SpellsValue value text → 2 * text.length ≤ bound + 1 →
    IsDelimited rest → readValue bound (text ++ rest) = some (value, rest)
  items : ∀ {text items}, SpellsElements items text → 2 * text.length ≤ bound →
    ∀ rest, readItems bound (text ++ ']' :: rest) = some (items, rest)
  members : ∀ {text members}, SpellsMembers members text → 2 * text.length ≤ bound →
    ∀ rest, readMembers bound (text ++ '}' :: rest) = some (members, rest)

/-- No spelling is short enough for no calls. -/
theorem complete_zero : Complete 0 where
  value h hlength := by
    rcases exists_cons_of_spellsValue h with ⟨c, tail, rfl, -⟩
    rw [List.length_cons] at hlength
    omega
  items h hlength := by
    rcases exists_cons_of_spellsElements h with ⟨before, c, tail, rfl, -⟩
    rw [List.length_append, List.length_cons] at hlength
    omega
  members h hlength := by
    rcases exists_cons_of_spellsMembers h with ⟨before, tail, rfl, -⟩
    rw [List.length_append, List.length_cons] at hlength
    omega

/-- Whitespace in front of a value does not matter. -/
theorem readValue_space {space : List Char} (h : IsSpace space) (text : List Char) :
    readValue bound (space ++ text) = readValue bound text := by
  cases bound with
  | zero => rfl
  | succ bound => rw [readValue, readValue, skipSpace_append h]

/-- A value is read up to the whitespace behind it. -/
theorem Complete.element {value : Value} (hcomplete : Complete bound)
    (h : SpellsElement value text) (hlength : 2 * text.length ≤ bound + 1) {c : Char}
    (hc : c = ',' ∨ c = ']' ∨ c = '}') (rest : List Char) :
    ∃ behind, readValue bound (text ++ c :: rest) = some (value, behind) ∧
      skipSpace behind = c :: rest := by
  rcases h with ⟨hbefore, hvalue, hafter⟩
  rename_i before spelling after
  rw [List.length_append, List.length_append] at hlength
  refine ⟨after ++ c :: rest, ?_, ?_⟩
  · rw [List.append_assoc, List.append_assoc, readValue_space hbefore]
    exact hcomplete.value hvalue (by omega) (isDelimited_append hafter (isDelimited_cons hc))
  · refine skipSpace_append_cons hafter ?_ rest
    rcases hc with rfl | rfl | rfl <;> decide

theorem readItems_append {items : List Value} (hcomplete : Complete bound)
    (h : SpellsElements items text) (hlength : 2 * text.length ≤ bound + 1) (rest : List Char) :
    readItems (bound + 1) (text ++ ']' :: rest) = some (items, rest) := by
  rw [readItems]
  cases h with
  | last h =>
    rcases hcomplete.element h hlength (.inr (.inl rfl)) rest with ⟨behind, hread, hskip⟩
    simp only [hread, hskip, Option.bind_eq_bind, Option.bind_some, Option.pure_def]
  | more h hothers =>
    rename_i item items spelling others
    rw [List.length_append, List.length_cons] at hlength
    rcases hcomplete.element h (by omega) (.inl rfl) (others ++ ']' :: rest) with
      ⟨behind, hread, hskip⟩
    have hmore := hcomplete.items hothers (by omega) rest
    rw [List.append_assoc, List.cons_append]
    simp only [hread, hskip, hmore, Option.bind_eq_bind, Option.bind_some, Option.pure_def]

/-- What the reader of members meets up to the colon of one. -/
theorem exists_readString_of_member {name : Option String} {before literal between : List Char}
    (hbefore : IsSpace before) (hname : SpellsString name literal) (hbetween : IsSpace between)
    (text : List Char) :
    ∃ behind, skipSpace (before ++ (literal ++ (between ++ ':' :: text))) = '"' :: behind ∧
      readString behind = some (name, between ++ ':' :: text) ∧
      skipSpace (between ++ ':' :: text) = ':' :: text := by
  rcases exists_readString_append hname (between ++ ':' :: text) with ⟨behind, hquote, hread⟩
  refine ⟨behind, ?_, hread, skipSpace_append_cons hbetween (by decide) text⟩
  rw [hquote, skipSpace_append_cons hbefore (by decide)]

theorem readMembers_append {members : List (Option String × Value)} (hcomplete : Complete bound)
    (h : SpellsMembers members text) (hlength : 2 * text.length ≤ bound + 1) (rest : List Char) :
    readMembers (bound + 1) (text ++ '}' :: rest) = some (members, rest) := by
  cases h with
  | last hbefore hname hbetween h =>
    rename_i name value before literal between spelling
    simp only [List.length_append, List.length_cons] at hlength
    rcases hcomplete.element h (by omega) (.inr (.inr rfl)) rest with ⟨behind, hread, hskip⟩
    rcases exists_readString_of_member hbefore hname hbetween (spelling ++ '}' :: rest) with
      ⟨inside, hquote, hstring, hcolon⟩
    simp only [List.append_assoc, List.cons_append]
    rw [readMembers]
    simp only [hquote, hstring, hcolon, hread, hskip, Option.bind_eq_bind, Option.bind_some,
      Option.pure_def]
  | more hbefore hname hbetween h hothers =>
    rename_i name value members before literal between spelling others
    simp only [List.length_append, List.length_cons] at hlength
    rcases hcomplete.element h (by omega) (.inl rfl) (others ++ '}' :: rest) with
      ⟨behind, hread, hskip⟩
    have hmore := hcomplete.members hothers (by omega) rest
    rcases exists_readString_of_member hbefore hname hbetween
      (spelling ++ ',' :: (others ++ '}' :: rest)) with ⟨inside, hquote, hstring, hcolon⟩
    simp only [List.append_assoc, List.cons_append]
    rw [readMembers]
    simp only [hquote, hstring, hcolon, hread, hskip, hmore, Option.bind_eq_bind, Option.bind_some,
      Option.pure_def]

/-- What does not begin like any other value is read as a number. -/
theorem readValue_of_number {c : Char} (hc : c = '-' ∨ c.isDigit = true) (tail : List Char) :
    readValue (bound + 1) (c :: tail) =
      (readNumber (c :: tail)).map fun (numeral, after) => (.number numeral, after) := by
  have hspace : ¬ (c = ' ' ∨ c = '\n' ∨ c = '\t' ∨ c = '\r') := by
    rintro (rfl | rfl | rfl | rfl) <;> exact absurd hc (by decide)
  rw [readValue, skipSpace_cons hspace]
  split
  case h_7 => rfl
  all_goals
    rename_i heq
    cases heq
    exact absurd hc (by decide)

theorem readValue_append {value : Value} (hcomplete : Complete bound)
    (h : SpellsValue value text) (hlength : 2 * text.length ≤ bound + 2)
    (hrest : IsDelimited rest) : readValue (bound + 1) (text ++ rest) = some (value, rest) := by
  cases h with
  | null => rfl
  | true => rfl
  | false => rfl
  | number h =>
    rcases exists_cons_of_spellsNumeral h with ⟨c, tail, rfl, hc⟩
    have hread := readNumber_append h hrest
    rw [List.cons_append] at hread ⊢
    rw [readValue_of_number hc, hread, Option.map_some]
  | string h =>
    rcases exists_readString_append h rest with ⟨behind, hquote, hread⟩
    rw [hquote, readValue, skipSpace_cons (by decide)]
    simp only [hread, Option.map_some]
  | emptyArray hspace =>
    rename_i space
    have hclose : skipSpace (space ++ ']' :: rest) = ']' :: rest :=
      skipSpace_append_cons hspace (by decide) rest
    rw [List.cons_append, List.append_assoc, readValue, skipSpace_cons (by decide)]
    simp only [List.singleton_append, hclose]
  | array h =>
    rename_i items spelling
    simp only [List.length_cons, List.length_append, List.length_nil] at hlength
    have hitems := hcomplete.items h (by omega) rest
    rw [List.cons_append, List.append_assoc, readValue, skipSpace_cons (by decide)]
    -- The first item begins with something else than the bracket that would close the array.
    rcases exists_cons_of_spellsElements h with ⟨before, c, tail, rfl, hbefore, hspace, hc⟩
    have hopen : skipSpace (before ++ c :: tail ++ ']' :: rest) = c :: (tail ++ ']' :: rest) := by
      rw [List.append_assoc, List.cons_append, skipSpace_append_cons hbefore hspace]
    simp only [List.singleton_append, hopen, hitems, Option.map_some]
    split
    · rename_i heq
      cases heq
      exact absurd rfl hc
    · rfl
  | emptyObject hspace =>
    rename_i space
    have hclose : skipSpace (space ++ '}' :: rest) = '}' :: rest :=
      skipSpace_append_cons hspace (by decide) rest
    rw [List.cons_append, List.append_assoc, readValue, skipSpace_cons (by decide)]
    simp only [List.singleton_append, hclose]
  | object h =>
    rename_i members spelling
    simp only [List.length_cons, List.length_append, List.length_nil] at hlength
    have hmembers := hcomplete.members h (by omega) rest
    rw [List.cons_append, List.append_assoc, readValue, skipSpace_cons (by decide)]
    rcases exists_cons_of_spellsMembers h with ⟨before, tail, rfl, hbefore⟩
    have hopen : skipSpace (before ++ '"' :: tail ++ '}' :: rest) =
        '"' :: (tail ++ '}' :: rest) := by
      rw [List.append_assoc, List.cons_append, skipSpace_append_cons hbefore (by decide)]
    simp only [List.singleton_append, hopen, hmembers, Option.map_some]
    rfl

/-- Every spelling is read. -/
theorem complete (bound : Nat) : Complete bound := by
  induction bound with
  | zero => exact complete_zero
  | succ bound ih => exact ⟨readValue_append ih, readItems_append ih, readMembers_append ih⟩

/-- A text is read as a value exactly if it is a document of that value. -/
theorem ofText?_eq_some_iff {text : String} {value : Value} :
    Value.ofText? text = some value ↔ SpellsElement value text.toList := by
  rw [Value.ofText?]
  constructor
  · intro h
    split at h
    · rename_i found rest hread
      split at h
      · rename_i hrest
        cases h
        rcases (sound _).value hread with ⟨before, spelling, hbefore, hspelling, htext⟩
        rw [htext]
        exact ⟨hbefore, hspelling, skipSpace_eq_nil_iff.mp (List.isEmpty_iff.mp hrest)⟩
      · cases h
    · cases h
  · intro h
    have hlength : text.length = text.toList.length := String.length_toList.symm
    rw [hlength]
    generalize text.toList = characters at h
    rcases h with ⟨hbefore, hvalue, hafter⟩
    rename_i before spelling after
    -- Nothing but whitespace stands behind the value, so that no number goes on there.
    have hdelimited : IsDelimited after := by
      have hnone : IsDelimited [] := fun c hc => absurd hc (Option.not_mem_none c)
      have := isDelimited_append hafter hnone
      rwa [List.append_nil] at this
    have hread := (complete (2 * (before ++ (spelling ++ after)).length + 2)).value hvalue
      (by simp only [List.length_append]; omega) hdelimited
    rw [readValue_space hbefore, hread]
    exact if_pos (List.isEmpty_iff.mpr (skipSpace_eq_nil_iff.mpr hafter))

end Json

end YamlLocator
