/-!
# Removing positions

Rows, basis entries and columns leave a tableau by position. All three are removed by the same
function, so that what corresponded before the removal corresponds after it.
-/

namespace Simplex

/-- Walk a list whose first member stands at `index`, with the positions that are still to be
removed at hand. -/
def removeFrom {α : Type} (index : Nat) : List Nat → List α → List α
  | _, [] => []
  | [], x :: xs => x :: xs
  | p :: ps, x :: xs =>
    if index < p then x :: removeFrom (index + 1) (p :: ps) xs
    else removeFrom (index + 1) ps xs

/-- Nothing is removed when no position is left. -/
@[simp]
theorem removeFrom_nil {α : Type} (index : Nat) (xs : List α) : removeFrom index [] xs = xs := by
  cases xs <;> rfl

/-- Remove the members at the given positions, which are strictly increasing. -/
def removePositions {α : Type} (positions : List Nat) (xs : List α) : List α :=
  removeFrom 0 positions xs

@[simp]
theorem removePositions_nil {α : Type} (xs : List α) : removePositions [] xs = xs :=
  removeFrom_nil 0 xs

/-- Remove the members of an array at the given positions, which are strictly increasing. -/
def removeAt {α : Type} (positions : List Nat) (xs : Array α) : Array α :=
  (removePositions positions xs.toList).toArray

end Simplex
