import Simplex.Scalar
import Simplex.Error

/-!
# Settings of a solver

The tolerance of all comparisons, the number of pivots after which a run is given up, and whether
the decision variables are bounded below by zero.
-/

namespace Simplex

/-- What a solver can be told besides the program itself. -/
structure Settings (F : Type) where
  /-- The tolerance of every comparison with zero. -/
  tolerance : F
  /-- The number of pivots, over both phases, that a run may make. -/
  pivotLimit : Nat
  /-- Whether no decision variable may be negative. -/
  nonnegative : Bool
deriving BEq

namespace Settings

variable {F : Type} [Scalar F]

/-- The settings of a solver that was told nothing: ten thousand pivots, and nonnegative
variables. -/
def standard : Settings F := ⟨Scalar.defaultTolerance, 10000, true⟩

/-- The tolerance has to be positive and finite, which a NaN is not. -/
def validate (s : Settings F) : Except SolveError Unit :=
  if 0 < s.tolerance ∧ Scalar.isFinite s.tolerance = true then .ok () else .error .badTolerance

end Settings

end Simplex
