import Simplex.Tableau.Basic

/-!
# The ratio test

A column that enters the basis can grow until the first right-hand side reaches zero. The row in
which this happens has the least ratio of right-hand side to entry among the rows whose entry is
above the tolerance. The test passes once through these rows. A row whose ratio differs from the
least one so far by no more than the tolerance takes the place of the chosen row if its basic column
has the larger index: of near ties, artificial variables, which have the largest indices, leave
first. As a ratio is compared with the least one so far and not with the least of all, a chain of
near ties can keep a row whose ratio is further above the least.
-/

namespace Simplex.Tableau

variable {F : Type} [Scalar F]

/-- A row that the ratio test may choose. -/
structure Candidate (F : Type) where
  row : Nat
  ratio : F
  /-- The basic column of the row, which would leave the basis. -/
  leaving : Nat

/-- Compare the chosen row with the next one. Between rows with equal ratios the smaller ratio
stays the measure for the rows to come, whichever row is taken. -/
def Candidate.challenge (tolerance : F) (best next : Candidate F) : Candidate F :=
  if Scalar.abs (next.ratio - best.ratio) ≤ tolerance then
    let winner := if best.leaving < next.leaving then next else best
    { winner with ratio := Scalar.least best.ratio next.ratio }
  else if next.ratio < best.ratio then next
  else best

/-- The row as a candidate. -/
def candidate (t : Tableau F) (column row : Nat) : Candidate F :=
  ⟨row, t.right row / t.entry row column, t.basicColumn row⟩

/-- The rows that bound the growth of a column, in their order. -/
def candidates (t : Tableau F) (column : Nat) : List (Candidate F) :=
  (t.constraintRows.filter fun row => t.tolerance < t.entry row column).map (t.candidate column)

/-- The row to pivot on when a column enters. There is none if no entry of the column is above the
tolerance. -/
def leavingRow (t : Tableau F) (column : Nat) : Option Nat :=
  match t.candidates column with
  | [] => none
  | first :: others => some (others.foldl (Candidate.challenge t.tolerance) first).row

/-- The row to pivot on, for a column that has to belong to a variable. -/
def leavingRowAt (t : Tableau F) (column : Nat) : Except Breach (Option Nat) :=
  t.askColumn column (t.leavingRow column)

end Simplex.Tableau
