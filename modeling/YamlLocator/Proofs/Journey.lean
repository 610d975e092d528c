import YamlLocator.Yaml.Token.Tokenizer

/-!
# Where Readers Lead

A reader takes characters away, and the mark moves on with them: along the line at least as far
as characters were taken, or to a later line. `Leads` is that relation between two cursors. It
is closed under composition, so that a reader made of moves leads on because its moves do,
whatever decides between them.

The mark may move further along a line than characters were taken, since the contents of block
scalars are counted in bytes; it never moves less.

## Main definitions

* `Cursor.Leads`: A cursor lies behind another one, or at the same place.

## Theorems

* `leads_lineBreak`, `leads_separation`: Moves and separations lead on.
* `leads_readPlain`, `leads_readQuoted`, `leads_readBlock`: So do scalars.
* `leads_readName`, `leads_readTag`, `leads_readDirective`: And properties and directives.
-/

namespace YamlLocator

namespace Yaml

namespace Cursor

/-- The second cursor is reached from the first one by reading on. -/
structure Leads (c c' : Cursor) : Prop where
  left : c'.left ≤ c.left
  index : c.mark.index + (c.left - c'.left) ≤ c'.mark.index
  place : c.mark.line < c'.mark.line ∨
    (c.mark.line = c'.mark.line ∧ c.mark.column + (c.left - c'.left) ≤ c'.mark.column)

namespace Leads

theorem refl (c : Cursor) : Leads c c where
  left := Nat.le_refl _
  index := by omega
  place := .inr ⟨rfl, by omega⟩

theorem trans {c c' c'' : Cursor} (h : Leads c c') (h' : Leads c' c'') : Leads c c'' where
  left := Nat.le_trans h'.left h.left
  index := by
    have := h.index
    have := h'.index
    have := h.left
    have := h'.left
    omega
  place := by
    have := h.left
    have := h'.left
    rcases h.place with h | ⟨hline, hcolumn⟩ <;> rcases h'.place with h' | ⟨hline', hcolumn'⟩
    · exact .inl (Nat.lt_trans h h')
    · exact .inl (hline' ▸ h)
    · exact .inl (hline ▸ h')
    · exact .inr ⟨hline.trans hline', by omega⟩

/-- A cursor at the same place with the same text left. -/
theorem of_eq {c c' : Cursor} (hrest : c'.rest = c.rest) (hmark : c'.mark = c.mark) :
    Leads c c' := by
  have hleft : c'.left = c.left := by rw [Cursor.left, Cursor.left, hrest]
  refine ⟨Nat.le_of_eq hleft, ?_, .inr ⟨by rw [hmark], ?_⟩⟩ <;> rw [hmark, hleft] <;> omega

theorem index_le {c c' : Cursor} (h : Leads c c') : c.mark.index ≤ c'.mark.index := by
  have := h.index
  omega

end Leads

/-! ### Moves -/

theorem leads_blanks (c : Cursor) (count : Nat) : Leads c (c.blanks count) where
  left := by simp
  index := by
    have : (c.blanks count).mark.index = c.mark.index + count := rfl
    rw [left_blanks]
    omega
  place := .inr ⟨rfl, by
    have : (c.blanks count).mark.column = c.mark.column + count := rfl
    rw [left_blanks]
    omega⟩

theorem leads_advance (c : Cursor) (count : Nat) : Leads c (c.advance count) :=
  (leads_blanks c count).trans (.of_eq rfl rfl)

theorem leads_nextLine (c : Cursor) : Leads c c.nextLine where
  left := by simp
  index := by
    have : c.nextLine.mark.index = c.mark.index + 1 := rfl
    rw [left_nextLine]
    omega
  place := .inl (by simp [nextLine, Mark.nextLine])

theorem leads_lookAt (c : Cursor) (count : Nat) : Leads c (c.lookAt count) := .of_eq rfl rfl

/-- A line break leads on to the next line. -/
theorem leads_lineBreak (c : Cursor) : Leads c c.lineBreak := by
  unfold lineBreak
  split
  · exact (leads_blanks c 1).trans (leads_nextLine _)
  · exact leads_nextLine c
  · exact leads_nextLine c
  · exact .refl c

theorem leads_advanceWhile (c : Cursor) (inClass : Char → Bool) :
    Leads c (c.advanceWhile inClass) := leads_advance c _

theorem leads_skipBlanks (c : Cursor) : Leads c c.skipBlanks := leads_blanks c _

theorem leads_comment (c : Cursor) : Leads c c.comment := leads_advanceWhile c _

theorem leads_lineTail (c : Cursor) : Leads c c.lineTail := by
  simp only [lineTail]
  split
  · exact (leads_skipBlanks c).trans (leads_comment _)
  · exact leads_skipBlanks c

theorem leads_lineRest {c c' : Cursor} (h : c.lineRest = .ok c') : Leads c c' := by
  unfold lineRest at h
  split at h
  · simp at h
  · simp only [Except.ok.injEq] at h
    rw [← h]
    exact leads_lineTail c

/-- What separates two tokens leads on to the second one. -/
theorem leads_separation {margin : Nat} {broken broken' : Bool} {c c' : Cursor}
    (h : separation margin broken c = .ok (c', broken')) : Leads c c' := by
  fun_induction separation margin broken c with
  | case1 broken c hblank htab hend ih => exact (leads_lineTail c).trans (ih h)
  | case2 => simp at h
  | case3 broken c hblank htab ih => exact (leads_blanks c 1).trans (ih h)
  | case4 broken c hblank hbreak ih => exact (leads_lineBreak c).trans (ih h)
  | case5 broken c hblank hbreak hcomment ih => exact (leads_comment c).trans (ih h)
  | case6 broken c hblank hbreak hcomment =>
    simp only [Except.ok.injEq, Prod.mk.injEq] at h
    rw [← h.1]
    exact .refl c

theorem leads_keyGap (c : Cursor) : Leads c c.keyGap := by
  fun_induction keyGap c with
  | case1 c hspace ih => exact (leads_blanks c 1).trans ih
  | case2 c hspace hbreak ih => exact (leads_lineBreak c).trans ih
  | case3 c hspace hbreak hcomment ih => exact (leads_comment c).trans ih
  | case4 c => exact .refl c

theorem leads_keySeparation {c c' : Cursor} (h : keySeparation c = .ok c') : Leads c c' := by
  unfold keySeparation at h
  split at h
  · split at h
    · simp at h
    · simp only [Except.ok.injEq] at h
      rw [← h]
      exact leads_keyGap c
  · simp at h

end Cursor

/-! ### Scalars -/

open Cursor

theorem Plain.leads_readPlain {inFlow : Bool} {margin : Nat} {start : Mark} {text : List Char}
    {gap : Gap} {c : Cursor} {r : List Char × Cursor}
    (h : readPlain inFlow margin start text gap c = .ok r) : Leads c r.2 := by
  fun_induction readPlain inFlow margin start text gap c with
  | case1 text gap c hblank hindent ih => exact (leads_blanks c 1).trans (ih h)
  | case2 text gap c hblank hindent htab hend ih => exact (leads_lineTail c).trans (ih h)
  | case3 => simp at h
  | case4 text gap c hblank hindent htab ih => exact (leads_blanks c 1).trans (ih h)
  | case5 text gap c hblank hbreak hhidden ih => exact (leads_lineBreak c).trans (ih h)
  | case6 text gap c hblank hbreak hhidden ih => exact (leads_lineBreak c).trans (ih h)
  | case7 text gap c =>
    simp only [Except.ok.injEq] at h
    exact h ▸ .refl c
  | case8 => simp at h
  | case9 text gap c hblank hbreak hends hdash htext ih => exact (leads_advance c 1).trans (ih h)
  | case10 text gap c =>
    simp only [Except.ok.injEq] at h
    exact h ▸ .refl c

namespace Quoted

theorem leads_readEscape {start : Mark} {c : Cursor} {r : Char × Cursor}
    (h : readEscape start c = .ok r) : Leads c r.2 := by
  simp only [readEscape] at h
  split at h
  · simp only [Except.ok.injEq] at h
    exact h ▸ leads_advance c 2
  · split at h
    · simp at h
    · split at h
      · simp at h
      · split at h
        · simp at h
        · split at h
          · simp only [Except.ok.injEq] at h
            exact h ▸ leads_advance c _
          · simp at h

theorem leads_readQuoted {quotes : Quotes} {margin : Nat} {start : Mark} {text : List Char}
    {gap : Gap} {c : Cursor} {r : List Char × Cursor}
    (h : readQuoted quotes margin start text gap c = .ok r) : Leads c r.2 := by
  -- Behind an escaped line break, the quote that closes the scalar may be next.
  have hescaped (c : Cursor) : Leads c (c.advance 1).lineBreak :=
    (leads_advance c 1).trans (leads_lineBreak _)
  fun_induction readQuoted quotes margin start text gap c with
  | case1 => simp at h
  | case2 text gap c hblank htab ih => exact (leads_blanks c 1).trans (ih h)
  | case3 text gap c hblank hbreak ih => exact (leads_lineBreak c).trans (ih h)
  | case4 => simp at h
  | case5 => simp at h
  | case6 => simp at h
  | case7 text gap c hblank hbreak hmark hend hmargin hsingle ih =>
    exact (leads_advance c 2).trans (ih h)
  | case8 text gap c =>
    simp only [Except.ok.injEq] at h
    exact h ▸ leads_advance c 1
  | case9 text gap c =>
    simp only [Except.ok.injEq] at h
    exact h ▸ (hescaped c).trans (leads_advance _ 1)
  | case10 text gap c hblank hbreak hmark hend hmargin hsingle hclose hdouble hbroken hnext ih =>
    exact (hescaped c).trans (ih h)
  | case11 => simp at h
  | case12 text gap c hblank hbreak hmark hend hmargin hsingle hclose hdouble hbroken ch c' hread
      ih => exact (leads_readEscape hread).trans (ih h)
  | case13 text gap c hblank hbreak hmark hend hmargin hsingle hclose hdouble ih =>
    exact (leads_advance c 1).trans (ih h)

end Quoted

namespace Block

theorem leads_readIncrement {start : Mark} {c : Cursor} {r : Option Nat × Cursor}
    (h : Header.readIncrement start c = .ok r) : Leads c r.2 := by
  unfold Header.readIncrement at h
  split at h
  · simp only [Except.ok.injEq] at h
    exact h ▸ .refl c
  · simp at h
  · simp only [Except.ok.injEq] at h
    exact h ▸ leads_advance c 1

theorem leads_readHeader {start : Mark} {c : Cursor} {r : Header × Cursor}
    (h : Header.read start c = .ok r) : Leads c r.2 := by
  simp only [Header.read] at h
  split at h
  · simp only [bind_eq_ok, pure_eq_ok, Except.ok.injEq] at h
    rcases h with ⟨⟨increment, c₁⟩, hincrement, rfl⟩
    exact (leads_advance c 1).trans (leads_readIncrement hincrement)
  · simp only [bind_eq_ok] at h
    rcases h with ⟨⟨increment, c₁⟩, hincrement, h⟩
    have hle := leads_readIncrement hincrement
    simp only at h hle
    split at h
    · simp only [pure_eq_ok, Except.ok.injEq] at h
      exact h ▸ hle.trans (leads_advance c₁ 1)
    · simp only [pure_eq_ok, Except.ok.injEq] at h
      exact h ▸ hle

theorem leads_indentation (width : Nat) (c : Cursor) : Leads c (indentation width c) :=
  (leads_blanks c _).trans (.of_eq rfl rfl)

theorem leads_skipIndent (width breaks : Nat) (c : Cursor) :
    Leads c (skipIndent width breaks c).2 := by
  fun_induction skipIndent width breaks c with
  | case1 breaks c hbreak ih =>
    exact (leads_indentation width c).trans ((leads_lineBreak _).trans ih)
  | case2 breaks c => exact leads_indentation width c

theorem leads_spaces (c : Cursor) : Leads c (spaces c) := leads_blanks c _

theorem leads_skipFirstIndent (widest breaks : Nat) (c : Cursor) :
    Leads c (skipFirstIndent widest breaks c).2.2 := by
  fun_induction skipFirstIndent widest breaks c with
  | case1 widest breaks c hbreak ih =>
    exact (leads_spaces c).trans ((leads_lineBreak _).trans ih)
  | case2 widest breaks c => exact leads_spaces c

theorem length_le_byteLength (text : List Char) : text.length ≤ Text.byteLength text := by
  induction text with
  | nil => exact Nat.le_refl _
  | cons c rest ih =>
    have := c.utf8Size_pos
    rw [List.length_cons, Text.byteLength_cons]
    omega

/-- The contents of a line count for at least as much as there are characters in it. -/
theorem leads_contents (c : Cursor) : Leads c (contents c) := by
  have hbytes := length_le_byteLength ((contentChars c).drop c.seen)
  rw [List.length_drop] at hbytes
  have hwidth : c.left - (contents c).left ≤ min c.seen (contentChars c).length +
      Text.byteLength ((contentChars c).drop c.seen) := by
    rw [left_contents]
    omega
  exact ⟨by simp, Nat.add_le_add_left hwidth _, .inr ⟨rfl, Nat.add_le_add_left hwidth _⟩⟩

theorem leads_lineEnd (width : Nat) (c : Cursor) : Leads c (lineEnd width c) :=
  (leads_lookAt c _).trans (leads_contents _)

theorem leads_readLines (fold : Bool) (width : Nat) (p : Progress) (c : Cursor) :
    Leads c (readLines fold width p c).2 := by
  fun_induction readLines fold width p c with
  | case1 p c hcontinues hbreak empty c' hskip ih =>
    have hle := leads_skipIndent width 0 (lineEnd width c).lineBreak
    rw [hskip] at hle
    exact (leads_lineEnd width c).trans ((leads_lineBreak _).trans (hle.trans ih))
  | case2 p c => exact leads_lineEnd width c
  | case3 p c => exact .refl c

/-- A block scalar whose contents begin somewhere between two cursors. -/
structure IsBetween (c : Cursor) (start : Mark) (scalar : Scalar) : Prop where
  leads : Leads c scalar.behind
  start_le : start.index ≤ scalar.mark.index
  le_behind : scalar.mark.index ≤ scalar.behind.mark.index

theorem leads_readBody {fold : Bool} {margin width breaks : Nat} {start : Mark}
    {chomping : Chomping} {c : Cursor} {r : Scalar} (hstart : start.index ≤ c.mark.index)
    (h : readBody fold margin start chomping width breaks c = .ok r) : IsBetween c start r := by
  simp only [readBody] at h
  split at h
  · simp only [Except.ok.injEq] at h
    rw [← h]
    exact ⟨.refl c, Nat.le_refl _, hstart⟩
  · split at h
    · simp at h
    · simp only [Except.ok.injEq] at h
      have hle := leads_readLines fold width (Progress.afterHeader breaks) c
      rw [← h]
      exact ⟨hle, hstart, hle.index_le⟩

/-- A block scalar leads on, and its contents begin on the way. -/
theorem leads_readBlock {fold : Bool} {margin : Nat} {c : Cursor} {r : Scalar}
    (h : readBlock fold margin c = .ok r) : IsBetween c c.mark r := by
  simp only [readBlock, bind_eq_ok] at h
  rcases h with ⟨⟨header, c₁⟩, hheader, c₂, hrest, h⟩
  have hlead : Leads c c₂.lineBreak :=
    (leads_lookAt c 4).trans ((leads_advance _ 1).trans ((leads_readHeader hheader).trans
      ((leads_lineRest hrest).trans (leads_lineBreak c₂))))
  -- Whatever the indentation is, the body is read behind it.
  have hbody (c₃ : Cursor) (hle : Leads c₂.lineBreak c₃) {width breaks : Nat}
      (h : readBody fold margin c.mark header.chomping width breaks c₃ = .ok r) :
      IsBetween c c.mark r := by
    have hall := hlead.trans hle
    have hbetween := leads_readBody hall.index_le h
    exact ⟨hall.trans hbetween.leads, hbetween.start_le, hbetween.le_behind⟩
  split at h
  · simp at h
  · split at h
    · simp at h
    · split at h
      · exact hbody _ (leads_skipIndent _ 0 _) h
      · exact hbody _ (leads_skipFirstIndent 0 0 _) h

end Block

/-! ### Properties and directives -/

namespace Property

theorem leads_readName {c : Cursor} {r : String × Cursor} (h : readName c = .ok r) :
    Leads c r.2 := by
  simp only [readName] at h
  split at h
  · simp at h
  · simp only [Except.ok.injEq] at h
    exact h ▸ (leads_advance c 1).trans (leads_advance _ _)

theorem leads_readOctets {start : Mark} {count number : Nat} {c : Cursor} {r : Nat × Cursor}
    (h : readOctets start count number c = .ok r) : Leads c r.2 := by
  induction count generalizing number c with
  | zero =>
    simp only [readOctets, Except.ok.injEq] at h
    exact h ▸ .refl c
  | succ count ih =>
    simp only [readOctets] at h
    split at h
    · simp at h
    · split at h
      · exact (leads_advance c 3).trans (ih h)
      · simp at h

theorem leads_readEscaped {start : Mark} {c : Cursor} {r : Char × Cursor}
    (h : readEscaped start c = .ok r) : Leads c r.2 := by
  unfold readEscaped at h
  split at h
  · simp at h
  · split at h
    · simp at h
    · split at h
      · simp at h
      · rename_i number c' hr
        split at h
        · simp only [Except.ok.injEq] at h
          exact h ▸ (leads_advance c 3).trans (leads_readOctets hr)
        · simp at h

theorem leads_readUri {start : Mark} {inClass : Char → Bool} {text : List Char} {c : Cursor}
    {r : List Char × Cursor} (h : readUri start inClass text c = .ok r) : Leads c r.2 := by
  fun_induction readUri start inClass text c with
  | case1 => simp at h
  | case2 text c hclass hescape ch c' hread ih => exact (leads_readEscaped hread).trans (ih h)
  | case3 text c hclass hescape ih => exact (leads_advance c 1).trans (ih h)
  | case4 text c =>
    simp only [Except.ok.injEq] at h
    exact h ▸ .refl c

theorem leads_readTag {inFlow : Bool} {c : Cursor} {r : Tag × Cursor}
    (h : readTag inFlow c = .ok r) : Leads c r.2 := by
  unfold readTag at h
  split at h
  · simp only [readVerbatim, bind_eq_ok] at h
    rcases h with ⟨⟨suffix, c'⟩, hr, h⟩
    split at h
    · rw [eq_of_endTag h]
      exact (leads_advance c 2).trans ((leads_readUri hr).trans (leads_advance c' 1))
    · simp at h
  · split at h
    · simp only [readHandled, bind_eq_ok] at h
      rcases h with ⟨⟨suffix, c'⟩, hr, h⟩
      split at h
      · simp at h
      · rw [eq_of_endTag h]
        exact (leads_advance c _).trans (leads_readUri hr)
    · simp only [readLocal, bind_eq_ok] at h
      rcases h with ⟨⟨suffix, c'⟩, hr, h⟩
      rw [eq_of_endTag h]
      exact (leads_advance c _).trans (leads_readUri hr)

end Property

namespace Directive

theorem leads_readNumber {start : Mark} {c : Cursor} {r : Nat × Cursor}
    (h : readNumber start c = .ok r) : Leads c r.2 := by
  simp only [readNumber] at h
  split at h
  · simp at h
  · split at h
    · simp at h
    · simp only [Except.ok.injEq] at h
      exact h ▸ leads_advance c _

theorem leads_readVersion {start : Mark} {c : Cursor} {r : Directive × Cursor}
    (h : readVersion start c = .ok r) : Leads c r.2 := by
  simp only [readVersion, bind_eq_ok] at h
  rcases h with ⟨⟨major, c₁⟩, hmajor, h⟩
  simp only at h
  split at h
  · simp only [bind_eq_ok, pure_eq_ok, Except.ok.injEq] at h
    rcases h with ⟨⟨minor, c₂⟩, hminor, rfl⟩
    exact (leads_skipBlanks c).trans ((leads_readNumber hmajor).trans
      ((leads_advance c₁ 1).trans (leads_readNumber hminor)))
  · simp at h

theorem leads_readTagStart {start : Mark} {c : Cursor} {r : List Char × Cursor}
    (h : readTagStart start c = .ok r) : Leads c r.2 := by
  unfold readTagStart at h
  split at h
  · exact (leads_advance c 1).trans (Property.leads_readUri h)
  · split at h
    · exact Property.leads_readUri h
    · simp at h

theorem leads_readTagMeaning {start : Mark} {c : Cursor} {r : Directive × Cursor}
    (h : readTagMeaning start c = .ok r) : Leads c r.2 := by
  simp only [readTagMeaning] at h
  split at h
  · simp at h
  · split at h
    · simp at h
    · split at h
      · simp at h
      · rename_i text c₂ hstart
        split at h
        · simp only [Except.ok.injEq] at h
          exact h ▸ (leads_skipBlanks c).trans ((leads_advance _ _).trans
            ((leads_skipBlanks _).trans (leads_readTagStart hstart)))
        · simp at h

theorem leads_readMeaning {start : Mark} {name : List Char} {c : Cursor} {r : Directive × Cursor}
    (h : readMeaning start name c = .ok r) : Leads c r.2 := by
  unfold readMeaning at h
  split at h
  · exact leads_readVersion h
  · split at h
    · exact leads_readTagMeaning h
    · simp only [Except.ok.injEq] at h
      exact h ▸ leads_comment c

theorem leads_readDirective {c : Cursor} {r : Directive × Cursor}
    (h : readDirective c = .ok r) : Leads c r.2 := by
  simp only [readDirective] at h
  split at h
  · simp at h
  · split at h
    · simp at h
    · simp only [bind_eq_ok] at h
      rcases h with ⟨⟨directive, c₁⟩, hmeaning, c₂, hrest, h⟩
      split at h
      · simp only [pure_eq_ok, Except.ok.injEq] at h
        exact h ▸ (leads_advance c 1).trans ((leads_advance _ _).trans
          ((leads_readMeaning hmeaning).trans ((leads_lineRest hrest).trans (leads_lineBreak c₂))))
      · simp at h

end Directive

end Yaml

end YamlLocator
