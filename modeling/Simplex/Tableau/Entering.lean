import Simplex.Tableau.Basic

/-!
# Entering columns

A column outside of the basis is profitable if its relative cost is below minus the tolerance. A
pivot rule says which of the profitable columns enters; when there is none, the basis counts as
optimal.
-/

namespace Simplex

/-- How the entering column is chosen among the profitable ones. -/
inductive PivotRule where
  /-- The column with the least relative cost, the first of them in case of a tie. -/
  | steepest
  /-- The first column. -/
  | first
deriving DecidableEq, Repr, Inhabited

namespace Tableau

variable {F : Type} [Scalar F]

/-- Whether the relative cost of a column is below minus the tolerance. -/
def isProfitable (t : Tableau F) (column : Nat) : Bool := t.cost column < -t.tolerance

/-- The first profitable column, with its relative cost. -/
def firstProfitable (t : Tableau F) : Option (Nat × F) :=
  (t.nonBasic.find? t.isProfitable).map fun j => (j, t.cost j)

/-- The profitable column with the least relative cost, and this cost. -/
def steepest (t : Tableau F) : Option (Nat × F) :=
  t.nonBasic.foldl (fun best j =>
    if t.isProfitable j && best.all (fun (_, least) => t.cost j < least) then some (j, t.cost j)
    else best) none

/-- What a rule selects: the column that enters the basis, and its relative cost. -/
def select (t : Tableau F) : PivotRule → Option (Nat × F)
  | .steepest => t.steepest
  | .first => t.firstProfitable

/-- The column that enters the basis under a rule. -/
def entering (t : Tableau F) (rule : PivotRule) : Option Nat := (t.select rule).map Prod.fst

end Tableau

end Simplex
