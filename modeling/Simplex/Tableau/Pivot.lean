import Simplex.Tableau.Basic

/-!
# Pivots

A pivot brings a column into the basis: its row is divided by the pivot entry, and multiples of
that row are taken off all other rows until the column is zero there. The column that was basic
in the row leaves.

The entries of the pivot column are written and not computed, so after the pivot it passes for a
unit vector whatever the arithmetic rounds.
-/

namespace Simplex.Tableau

variable {F : Type} [Scalar F]

/-- The pivot row divided by its entry in the pivot column. -/
def scaledRow (t : Tableau F) (row column : Nat) : Array F :=
  let pivot := t.entry row column
  ((t.rows.getD row #[]).map (· / pivot)).setIfInBounds column 1

/-- A row after the multiple of the scaled pivot row that clears the pivot column. A row that is
zero there stays as it is. -/
def clearColumn (column : Nat) (scaled entries : Array F) : Array F :=
  let factor := entries.getD column 0
  if factor == 0 then entries
  else (Array.zipWith (fun x y => x - factor * y) entries scaled).setIfInBounds column 0

/-- The tableau after a pivot on a position that allows it. -/
def exchange (t : Tableau F) (row column : Nat) : Tableau F :=
  let scaled := t.scaledRow row column
  { t with
    rows := t.rows.mapIdx fun i entries =>
      if i = row then scaled else clearColumn column scaled entries
    basis := t.basis.setIfInBounds (row - t.layout.costRows) column
    basicColumns :=
      (t.basicColumns.setIfInBounds (t.basicColumn row) false).setIfInBounds column true }

/-- Pivot on a position: the row has to be a constraint row, and the column that of a variable
outside of the basis with an entry different from zero in the row. -/
def pivot (t : Tableau F) (row column : Nat) : Except Breach (Tableau F) :=
  if !t.isConstraintRow row then .error (.notConstraint row)
  else if ¬ column < t.layout.variableCount then .error (.notVariable column)
  else if t.isBasic column then .error (.alreadyBasic column)
  else if t.entry row column == 0 then .error (.zeroPivot row column)
  else if !t.isBasic (t.basicColumn row) then .error .basis
  else .ok (t.exchange row column)

end Simplex.Tableau
