/-!
# Errors and breaches

A run can fail in two ways, and the two are kept apart.

* A `SolveError` is an answer to the caller: the input is malformed, or the run ended without a
  verdict. Each has a text, `SolveError.message`.
* A `Breach` is a broken contract: an operation was called outside its domain, or the state that a
  loop relies on no longer holds, which rounding and the tolerance can bring about. It has a cause
  but no text.

That a program is infeasible or unbounded is neither of the two: it is an outcome.
-/

namespace Simplex

/-- Where in a linear program a value stands. -/
inductive Location where
  | objectiveCoefficient (index : Nat)
  | objectiveConstant
  | coefficient (constraint index : Nat)
  | constant (constraint : Nat)
  | value (constraint : Nat)
deriving DecidableEq, Repr

/-- Why a linear program was not solved. -/
inductive SolveError where
  /-- The objective has no coefficients. -/
  | noVariables
  /-- The list of constraints is empty. -/
  | noConstraints
  /-- A constraint has another number of coefficients than the objective. -/
  | coefficientCount (constraint expected found : Nat)
  /-- Two functions over different numbers of variables cannot be combined. -/
  | lengthMismatch (left right : Nat)
  /-- A value is infinite or a NaN. -/
  | notFinite (location : Location)
  /-- The tolerance is not positive, or not finite. -/
  | badTolerance
  /-- The run was still going when it had made more pivots than allowed. -/
  | pivotLimit (limit : Nat)
  /-- Phase one met a column of negative relative cost that no row bounds. The artificial cost is a
  sum of nonnegative variables and has no such column, but entries up to the tolerance count as
  zero, so that one can appear even if nothing is rounded. -/
  | artificialUnbounded
deriving DecidableEq, Repr

/-- Why an operation on a tableau, or on a function at a point, has no result. -/
inductive Breach where
  /-- A position outside of the matrix. -/
  | position (row column : Nat)
  /-- A column that belongs to no variable. -/
  | notVariable (column : Nat)
  /-- A row that belongs to no constraint. -/
  | notConstraint (row : Nat)
  /-- A point with another number of coordinates than the function has variables. -/
  | pointLength (expected found : Nat)
  /-- A constraint with another number of coefficients than the objective. -/
  | ragged
  /-- A tolerance that is not positive. -/
  | tolerance
  /-- A pivot on a column that is already basic. -/
  | alreadyBasic (column : Nat)
  /-- A pivot on an entry that is zero. -/
  | zeroPivot (row column : Nat)
  /-- The basic columns of the rows and the set of basic columns disagree. -/
  | basis
  /-- A basic column is not the unit vector of its row. -/
  | notUnit
  /-- A right-hand side lies below zero by more than the tolerance. -/
  | negativeValue
deriving DecidableEq, Repr

/-- The two ways in which a run fails. -/
inductive Failure where
  | error (error : SolveError)
  | breach (breach : Breach)
deriving DecidableEq, Repr

/-- A location in words. -/
def Location.text : Location → String
  | .objectiveCoefficient j => s!"objective coefficient {j}"
  | .objectiveConstant => "objective constant term"
  | .coefficient i j => s!"coefficient {j} of constraint {i}"
  | .constant i => s!"constant term of constraint {i}"
  | .value i => s!"right-hand side of constraint {i}"

/-- An error in words. -/
def SolveError.message : SolveError → String
  | .noVariables => "the objective function has no variables"
  | .noConstraints => "at least one constraint is needed"
  | .coefficientCount constraint expected found =>
    s!"constraint {constraint} has {found} coefficients, the objective function has {expected}"
  | .lengthMismatch left right =>
    s!"cannot combine expressions over {left} and {right} variables"
  | .notFinite location => location.text ++ " is not finite"
  | .badTolerance => "epsilon should be positive and finite"
  | .pivotLimit limit => s!"no terminal state was reached within {limit} pivots"
  | .artificialUnbounded =>
    "the artificial objective appears unbounded, which indicates numerical breakdown"

end Simplex
