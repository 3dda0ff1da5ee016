import Simplex.Scalar.Text
import Simplex.Text

/-!
# Outcomes

A linear program is infeasible, unbounded, or has an optimum.
-/

namespace Simplex

/-- What a run found out about a linear program. -/
inductive Outcome (F : Type) where
  /-- No point satisfies all constraints, as far as the tolerance shows. -/
  | infeasible
  /-- An optimal point, and the objective evaluated there. -/
  | optimal (point : List F) (value : F)
  /-- The objective can be improved forever, as far as the tolerance shows. -/
  | unbounded
deriving DecidableEq, Repr

namespace Outcome

variable {F : Type}

/-- Whether there is an optimum. -/
def isOptimal : Outcome F → Bool
  | optimal _ _ => true
  | _ => false

/-- The optimal point. -/
def point? : Outcome F → Option (List F)
  | optimal point _ => some point
  | _ => none

/-- The optimal value. -/
def value? : Outcome F → Option F
  | optimal _ value => some value
  | _ => none

/-- An outcome in words, with its point and value. -/
def text [ScalarText F] : Outcome F → String
  | infeasible => "Infeasible"
  | optimal point value =>
    "Optimal \x7b point: " ++ bracketed ScalarText.marked point ++ ", value: "
      ++ ScalarText.marked value ++ " \x7d"
  | unbounded => "Unbounded"

end Outcome

end Simplex
