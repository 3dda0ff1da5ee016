import Simplex.Positions
import Simplex.Tableau.Pivot

/-!
# Leaving phase one

When the artificial cost has come down to (nearly) zero, the artificial variables have done their
work. Those that are still basic are replaced by other variables, and a row in which this is not
possible is removed. At right-hand side zero its entries are then zero up to the tolerance, and what
it says follows from the other rows but for the tolerance. At any other one its entries can be of
any size: no pivot in the row leaves the right-hand sides nonnegative, and a constraint can be lost
with it. Then the artificial cost and all artificial columns go.
-/

namespace Simplex.Tableau

variable {F : Type} [Scalar F]

/-- Whether a pivot leaves every right-hand side nonnegative: the entry has the sign of the
right-hand side of its row, and the right-hand sides of the other rows stay above minus the
tolerance. -/
def keepsFeasible (t : Tableau F) (row column : Nat) : Bool :=
  let entry := t.entry row column
  let value := t.right row
  if entry == 0 || (decide (0 < entry) != decide (0 < value)) then false
  else
    let step := value / entry
    t.constraintRows.all fun i =>
      i == row || decide (-t.tolerance ≤ t.right i - t.entry i column * step)

/-- Whether a column may replace the artificial variable of a row. At value zero no right-hand
side changes, and any entry above the tolerance in magnitude will do. -/
def mayReplace (t : Tableau F) (row column : Nat) : Bool :=
  if t.right row == 0 then t.tolerance < Scalar.abs (t.entry row column)
  else t.keepsFeasible row column

/-- The column that replaces the artificial variable of a row: the entry of largest magnitude
among those allowed, the first of them in case of a tie. -/
def replacement (t : Tableau F) (row : Nat) : Option Nat :=
  (t.nonBasic.filter (· < t.layout.artificialStart)).foldl (fun best j =>
    if t.mayReplace row j then
      match best with
      | none => some j
      | some k =>
        if Scalar.abs (t.entry row k) < Scalar.abs (t.entry row j) then some j else some k
    else best) none

/-- Replace the artificial variable of a row, or note the row for removal. A row whose basic
variable is not artificial is left alone. -/
def replaceInRow (state : Tableau F × List Nat) (row : Nat) :
    Except Breach (Tableau F × List Nat) :=
  let (t, removed) := state
  if t.layout.isArtificial (t.basicColumn row) then
    match t.replacement row with
    | some column =>
      match t.pivot row column with
      | .ok t => .ok (t, removed)
      | .error b => .error b
    | none => .ok (t, removed ++ [row])
  else .ok state

/-- Replace the artificial variables row by row, and collect the rows to remove. -/
def replaceArtificials (t : Tableau F) : Except Breach (Tableau F × List Nat) :=
  t.constraintRows.foldlM replaceInRow (t, [])

/-- Remove constraint rows, the artificial cost and the artificial columns. -/
def strip (t : Tableau F) (removed : List Nat) : Tableau F :=
  let constraints := removed.map (· - t.layout.costRows)
  { t with
    layout := t.layout.withoutArtificial
    rows := (removeAt (0 :: removed) t.rows).map (removeAt t.layout.artificialColumns)
    basis := removeAt constraints t.basis
    basicColumns := (removed.foldl (fun s row => s.setIfInBounds (t.basicColumn row) false)
      t.basicColumns).take t.layout.artificialStart }

/-- Leave phase one. The result holds the tableau without artificial variables and the constraints
that were removed, none if the rows were independent. Outside of phase one nothing happens. -/
def dropArtificials (t : Tableau F) : Except Breach (Tableau F × List Nat) :=
  if t.layout.inPhaseOne then
    match t.replaceArtificials with
    | .error b => .error b
    | .ok (t, removed) =>
      let next := t.strip removed
      if removed.all (fun row => t.isBasic (t.basicColumn row))
          && next.basis.all (· < next.layout.variableCount) then
        .ok (next, removed.map (· - t.layout.costRows))
      else .error .basis
  else .ok (t, [])

end Simplex.Tableau
