import Simplex.Scalar
import Simplex.Error
import Simplex.Tableau.Layout

/-!
# Tableaus

A tableau is a dense matrix with a basis. Every constraint row has a basic column, and in a sound
tableau that column is the unit vector of its row over all rows, cost rows included. The set of
basic columns is kept beside the column of each row, since most questions are whether a column is
basic and not where.

```text
                 | decision | negative parts | slack, surplus | artificial | right
 artificial cost |                                                         |
 cost            |                                                         |
 constraint 0    |                                                         |
 ...             |                                                         |
```

The cost rows hold the relative cost of a minimization, and minus its value in the last column.

The reading functions of this module come in two kinds. `entry`, `basicColumn` and `isBasic` are
total and are meant for positions that are known to exist; the functions whose name ends in `At`
refuse a position that does not.
-/

namespace Simplex

/-- A matrix with a basis and the tolerance of all comparisons made on it. -/
structure Tableau (F : Type) where
  layout : Layout
  tolerance : F
  /-- The rows of the matrix, cost rows first. -/
  rows : Array (Array F)
  /-- The basic column of each constraint. -/
  basis : Array Nat
  /-- For every column of a variable, whether it is basic. -/
  basicColumns : Array Bool
deriving BEq

namespace Tableau

variable {F : Type} [Scalar F]

/-! ## Shape -/

/-- The number of rows, cost rows included. -/
def rowCount (t : Tableau F) : Nat := t.rows.size

/-- The number of constraint rows. -/
def constraintCount (t : Tableau F) : Nat := t.rows.size - t.layout.costRows

/-- The indices of the constraint rows. -/
def constraintRows (t : Tableau F) : List Nat :=
  List.range' t.layout.costRows t.constraintCount

/-- Whether a row belongs to a constraint. -/
def isConstraintRow (t : Tableau F) (row : Nat) : Bool :=
  t.layout.costRows ≤ row && row < t.rowCount

/-! ## Reading -/

/-- The value at a position. -/
def entry (t : Tableau F) (row column : Nat) : F := (t.rows.getD row #[]).getD column 0

/-- The right-hand side of a row. -/
def right (t : Tableau F) (row : Nat) : F := t.entry row t.layout.rightColumn

/-- The relative cost of a column, in the cost row that is currently minimized. -/
def cost (t : Tableau F) (column : Nat) : F := t.entry 0 column

/-- The current value of the cost that is minimized: the sum of the artificial variables in phase
one, the objective (negated for a maximization) afterwards. -/
def value (t : Tableau F) : F := -(t.right 0)

/-- The basic column of a constraint row. -/
def basicColumn (t : Tableau F) (row : Nat) : Nat := t.basis.getD (row - t.layout.costRows) 0

/-- Whether a column is basic. -/
def isBasic (t : Tableau F) (column : Nat) : Bool := t.basicColumns.getD column false

/-- The columns outside of the basis, in increasing order. -/
def nonBasic (t : Tableau F) : List Nat :=
  (List.range t.layout.variableCount).filter fun j => !t.isBasic j

/-- The row in which a column is basic. -/
def basicRow (t : Tableau F) (column : Nat) : Option Nat :=
  if t.isBasic column then
    (t.basis.toList.findIdx? (· == column)).map (· + t.layout.costRows)
  else none

/-- Whether no column outside of the basis has a relative cost below minus the tolerance. -/
def isOptimal (t : Tableau F) : Bool := t.nonBasic.all fun j => -t.tolerance ≤ t.cost j

/-! ## The basic solution -/

/-- The value of every variable in the basic solution: the right-hand side of its row for a basic
one, zero for any other. -/
def variableValues (t : Tableau F) : Array F :=
  t.constraintRows.foldl (fun values row => values.setIfInBounds (t.basicColumn row) (t.right row))
    (Array.replicate t.layout.variableCount 0)

/-- The value of every decision variable in the basic solution. A split one has the value of its
positive part minus that of its negative part. -/
def solution (t : Tableau F) : List F :=
  let values := t.variableValues
  (List.range t.layout.decision).map fun j =>
    if t.layout.split then values.getD j 0 - values.getD (t.layout.decision + j) 0
    else values.getD j 0

/-! ## Positions that may not exist -/

/-- The value at a position, which has to lie in the matrix. -/
def entryAt (t : Tableau F) (row column : Nat) : Except Breach F :=
  if row < t.rowCount ∧ column < t.layout.columns then .ok (t.entry row column)
  else .error (.position row column)

/-- Overwrite the value at a position, which has to lie in the matrix. Nothing else changes, so
the result need not be a sound tableau. -/
def setAt (t : Tableau F) (row column : Nat) (x : F) : Except Breach (Tableau F) :=
  if row < t.rowCount ∧ column < t.layout.columns then
    .ok { t with rows := t.rows.modify row fun entries => entries.setIfInBounds column x }
  else .error (.position row column)

/-- The basic column of a row, which has to be a constraint row. -/
def basicColumnAt (t : Tableau F) (row : Nat) : Except Breach Nat :=
  if t.isConstraintRow row then .ok (t.basicColumn row) else .error (.notConstraint row)

/-- A question about a column that has to belong to a variable. -/
def askColumn {α : Type} (t : Tableau F) (column : Nat) (answer : α) : Except Breach α :=
  if column < t.layout.variableCount then .ok answer else .error (.notVariable column)

/-- Whether a column is basic, for a column that has to belong to a variable. -/
def isBasicAt (t : Tableau F) (column : Nat) : Except Breach Bool :=
  t.askColumn column (t.isBasic column)

/-- The row in which a column is basic, for a column that has to belong to a variable. -/
def basicRowAt (t : Tableau F) (column : Nat) : Except Breach (Option Nat) :=
  t.askColumn column (t.basicRow column)

/-- The relative cost of a column that has to belong to a variable. -/
def costAt (t : Tableau F) (column : Nat) : Except Breach F := t.askColumn column (t.cost column)

end Tableau

end Simplex
