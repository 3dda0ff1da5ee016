import Simplex.Program.Affine

/-!
# Constraints

A constraint compares an affine function with a number. Its normal form has no constant term on
the left and no negative number on the right, which is the form in which it enters a tableau.
-/

namespace Simplex

/-- How a constraint compares its two sides. -/
inductive Comparison where
  | atMost
  | equal
  | atLeast
deriving DecidableEq, Repr

namespace Comparison

/-- The comparison that holds after both sides change their sign. -/
def flip : Comparison → Comparison
  | atMost => atLeast
  | equal => equal
  | atLeast => atMost

@[simp]
theorem flip_flip (c : Comparison) : c.flip.flip = c := by
  cases c <;> rfl

/-- The sign that is written between the two sides. -/
def symbol : Comparison → String
  | atMost => "<="
  | equal => "="
  | atLeast => ">="

/-- An inequality gets a slack (or surplus) variable. -/
def hasSlack : Comparison → Bool
  | equal => false
  | _ => true

/-- A comparison that its slack variable does not satisfy at the origin gets an artificial
variable. -/
def hasArtificial : Comparison → Bool
  | atMost => false
  | _ => true

end Comparison

/-- The constraint `left (≤ | = | ≥) right`. -/
structure Constraint (F : Type) where
  left : Affine F
  comparison : Comparison
  right : F
deriving BEq

namespace Constraint

variable {F : Type} [Scalar F]

/-- A constraint whose left-hand side has no constant term. -/
def linear (coefficients : List F) (comparison : Comparison) (right : F) : Constraint F :=
  ⟨⟨coefficients, 0⟩, comparison, right⟩

/-- A constraint with variables on both sides, kept as their difference compared with zero. -/
def between (left : Affine F) (comparison : Comparison) (right : Affine F) :
    Except SolveError (Constraint F) :=
  match left.subtract right with
  | .ok difference => .ok ⟨difference, comparison, 0⟩
  | .error e => .error e

/-- The right-hand side after the constant term has been moved over. -/
def constantFreeRight (c : Constraint F) : F := c.right - c.left.constant

/-- Whether the constraint holds within a tolerance for a left-hand side of the given value. -/
def holdsFor (c : Constraint F) (tolerance value : F) : Bool :=
  match c.comparison with
  | .atMost => value ≤ c.right + tolerance
  | .equal => Scalar.abs (value - c.right) ≤ tolerance
  | .atLeast => c.right - tolerance ≤ value

/-- Whether a point of the right length satisfies the constraint within a tolerance. -/
def holds (c : Constraint F) (x : List F) (tolerance : F) : Bool :=
  c.holdsFor tolerance (c.left.eval x)

/-- Whether a point satisfies the constraint, for a point whose length is not known to be right. -/
def holdsAt (c : Constraint F) (x : List F) (tolerance : F) : Except Breach Bool :=
  match c.left.evalAt x with
  | .ok value => .ok (c.holdsFor tolerance value)
  | .error b => .error b

/-- The same constraint without a constant term, and with both sides negated if the right-hand
side would be negative otherwise. -/
def normalize (c : Constraint F) : Constraint F :=
  let right := c.constantFreeRight
  if right < 0 then linear (c.left.coefficients.map (- ·)) c.comparison.flip (-right)
  else linear c.left.coefficients c.comparison right

/-- The first value that is not finite: the left-hand side, then the right-hand side. -/
def checkFinite (c : Constraint F) (index : Nat) : Except SolveError Unit :=
  match c.left.checkFinite (.coefficient index) (.constant index) with
  | .error e => .error e
  | .ok () =>
    if Scalar.isFinite c.right then .ok () else .error (.notFinite (.value index))

end Constraint

end Simplex
