import Simplex.Program.Constraint

/-!
# Linear programs

An objective, the direction in which it is optimized, and the constraints. `validate` finds the
first defect that keeps a program from being solved.
-/

namespace Simplex

/-- The direction of optimization. -/
inductive Goal where
  | minimize
  | maximize
deriving DecidableEq, Repr, Inhabited

/-- The factor that turns the goal into a minimization. -/
def Goal.sign {F : Type} [Scalar F] : Goal → F
  | .minimize => 1
  | .maximize => -1

/-- A linear program over the scalars `F`. -/
structure LinearProgram (F : Type) where
  goal : Goal
  objective : Affine F
  constraints : List (Constraint F)

namespace LinearProgram

variable {F : Type} [Scalar F]

/-- Whether every constraint has as many coefficients as the objective. -/
def isRectangular (p : LinearProgram F) : Bool :=
  p.constraints.all fun c => c.left.arity = p.objective.arity

/-- The first defect of a constraint: its number of coefficients comes before its values. -/
def validateConstraint (arity index : Nat) (c : Constraint F) : Except SolveError Unit :=
  if c.left.arity = arity then c.checkFinite index
  else .error (.coefficientCount index arity c.left.arity)

/-- The first defect of a list of constraints, the first of which has the given index. -/
def validateConstraints (arity : Nat) : Nat → List (Constraint F) → Except SolveError Unit
  | _, [] => .ok ()
  | index, c :: cs =>
    match validateConstraint arity index c with
    | .error e => .error e
    | .ok () => validateConstraints arity (index + 1) cs

/-- The first defect of a program: no variables, no constraints, a value of the objective that is
not finite, then the constraints in their order. -/
def validate (p : LinearProgram F) : Except SolveError Unit :=
  if p.objective.arity = 0 then .error .noVariables
  else if p.constraints.isEmpty then .error .noConstraints
  else
    match p.objective.checkFinite .objectiveCoefficient .objectiveConstant with
    | .error e => .error e
    | .ok () => validateConstraints p.objective.arity 0 p.constraints

end LinearProgram

end Simplex
