import YamlLocator.Yaml.Mark

/-!
# Layout

Which block collections are open, told from the columns alone.

A block collection is opened by a token that stands further to the right than the
collection around it, and closed by one that stands further to the left. Open
collections are therefore a stack of columns that grow from the outside in.

On top of a block collection may lie one provisional level, one column further to
the right. It keeps what follows an indicator on its own line from being taken for
a new entry, closes without a token of its own, and gives way to a real level.

## Main definitions

* `Level`: An open level.
* `margin`: The least column at which the contents of the innermost level may stand.
* `closeTo`: Close the levels at or to the right of a column.
* `indent`: Open a block collection at a column, unless one is open there.
* `addProvisional`, `dropProvisional`: Lay a provisional level on top, and take it
  away.

## Theorems

* `margin_closeTo_le`: Closing to a column leaves a margin of at most that column.
-/

namespace YamlLocator

namespace Yaml

/-- An open level. -/
structure Level where
  /-- The column of the collection. -/
  column : Nat
  /-- Whether it is a block collection, which a token closes, or provisional. -/
  block : Bool
deriving DecidableEq, Repr

namespace Layout

/-- The least column at which the contents of the innermost level may stand: one more
    than its own, and zero if none is open. -/
def margin : List Level → Nat
  | [] => 0
  | level :: _ => level.column + 1

/-- The levels, innermost first, without those at or to the right of a column. -/
def closeTo (column : Nat) (levels : List Level) : List Level :=
  levels.dropWhile fun level => column ≤ level.column

/-- How many block collections are closed by `closeTo`. -/
def closedTo (column : Nat) (levels : List Level) : Nat :=
  (levels.takeWhile fun level => column ≤ level.column).countP (·.block)

/-- The levels without a provisional one on top that a collection at a column does
    without. -/
def settle (column : Nat) : List Level → List Level
  | level :: outer =>
    if !level.block && level.column ≤ column then outer else level :: outer
  | [] => []

/-- The levels with a block collection at a column, if the column is free for one, and
    whether it was opened. -/
def indent (column : Nat) (levels : List Level) : List Level × Bool :=
  let settled := settle column levels
  if margin settled ≤ column then
    ({ column, block := true } :: settled, true)
  else
    (settled, false)

/-- The levels with a provisional level on top of a block collection. -/
def addProvisional : List Level → List Level
  | level :: outer =>
    if level.block then
      { column := level.column + 1, block := false } :: level :: outer
    else
      level :: outer
  | [] => []

/-- The levels without the provisional ones on top. -/
def dropProvisional (levels : List Level) : List Level :=
  levels.dropWhile fun level => !level.block

theorem margin_closeTo_le (column : Nat) (levels : List Level) :
    margin (closeTo column levels) ≤ column := by
  induction levels with
  | nil => simp [closeTo, margin]
  | cons level outer ih =>
    simp only [closeTo, List.dropWhile_cons, decide_eq_true_eq] at ih ⊢
    split
    · exact ih
    · simp only [margin]
      omega

end Layout

end Yaml

end YamlLocator
