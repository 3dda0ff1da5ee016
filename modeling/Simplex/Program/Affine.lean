import Simplex.Scalar
import Simplex.Error

/-!
# Affine functions

An objective and the left-hand side of a constraint are both affine functions of the decision
variables: one coefficient per variable and a constant term.
-/

namespace Simplex

/-- The function `coefficients · x + constant`. -/
structure Affine (F : Type) where
  coefficients : List F
  constant : F
deriving BEq

namespace Affine

variable {F : Type} [Scalar F]

/-- The number of variables of the function. -/
def arity (f : Affine F) : Nat := f.coefficients.length

/-- The value at a point of the right length: the products are added from left to right, and the
constant term last. -/
def eval (f : Affine F) (x : List F) : F :=
  Scalar.sum (List.zipWith (· * ·) f.coefficients x) + f.constant

/-- The value at a point whose length is not known to be right. -/
def evalAt (f : Affine F) (x : List F) : Except Breach F :=
  if f.arity = x.length then .ok (f.eval x) else .error (.pointLength f.arity x.length)

/-- The difference of two functions of the same variables. -/
def subtract (f g : Affine F) : Except SolveError (Affine F) :=
  if f.arity = g.arity then
    .ok ⟨List.zipWith (· - ·) f.coefficients g.coefficients, f.constant - g.constant⟩
  else
    .error (.lengthMismatch f.arity g.arity)

/-- The first value that is not finite, the coefficients before the constant, reported at the
location that the caller gives it. -/
def checkFinite (f : Affine F) (coefficient : Nat → Location) (constant : Location) :
    Except SolveError Unit :=
  match f.coefficients.findIdx? (fun c => !Scalar.isFinite c) with
  | some j => .error (.notFinite (coefficient j))
  | none =>
    if Scalar.isFinite f.constant then .ok () else .error (.notFinite constant)

end Affine

end Simplex
