import Simplex.Tableau.Basic

/-!
# Basic feasible states

Both phases rely on a tableau whose basic solution can be read off: the basis is consistent, every
basic column is a unit vector, and no right-hand side is negative beyond the tolerance. This is
checked before every pivot. In exact arithmetic a pivot keeps the basis consistent and its columns
unit vectors. It need not keep the bound of the right-hand sides: the ratio test ignores entries up
to the tolerance, and takes ratios for equal that are not.
-/

namespace Simplex.Tableau

variable {F : Type} [Scalar F]

/-- Whether every constraint has a basic column, and these are exactly the columns of the basis. -/
def basisAgrees (t : Tableau F) : Bool :=
  t.basis.size == t.constraintCount
    && t.basicColumns.toList.count true == t.basis.size
    && t.basis.all t.isBasic

/-- Whether every basic column is the unit vector of its row, cost rows included. -/
def basisIsUnit (t : Tableau F) : Bool :=
  t.constraintRows.all fun row =>
    let column := t.basicColumn row
    (List.range t.rowCount).all fun i => t.entry i column == if i = row then 1 else 0

/-- Whether no right-hand side is below minus the tolerance. -/
def rightIsNonnegative (t : Tableau F) : Bool :=
  t.constraintRows.all fun row => -t.tolerance ≤ t.right row

/-- Check that the tableau is in a basic feasible state. -/
def checkFeasible (t : Tableau F) : Except Breach Unit :=
  if !t.basisAgrees then .error .basis
  else if !t.basisIsUnit then .error .notUnit
  else if !t.rightIsNonnegative then .error .negativeValue
  else .ok ()

end Simplex.Tableau
