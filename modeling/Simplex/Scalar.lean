/-!
# Scalars

The simplex method asks its numbers for arithmetic, an order and an equality test, and for
nothing else. `Scalar` collects these operations without any law, so that one definition of
the method serves an exact ordered field, where the laws hold, and the two widths of binary
floating point, where they hold only up to rounding.

Because no law is assumed, a definition over a `Scalar` fixes the order of its operations:
what is added first and what is compared with what is part of its meaning.
-/

namespace Simplex

/-- The operations of an ordered field, with the order and the equality decided by a test.

No law ties the operations together. In floating point the equality test is not reflexive and
the order is not total, since a NaN compares false with everything. -/
class Scalar (F : Type) where
  [zero : Zero F]
  [one : One F]
  [add : Add F]
  [sub : Sub F]
  [mul : Mul F]
  [div : Div F]
  [neg : Neg F]
  [lt : LT F]
  [le : LE F]
  [beq : BEq F]
  /-- The strict order is decided by a test. -/
  [decidableLT : DecidableLT F]
  /-- The order is decided by a test. -/
  [decidableLE : DecidableLE F]
  /-- Whether a value is a number of the line: neither infinite nor a NaN. -/
  isFinite : F → Bool
  /-- What a sum holds before its first term. In floating point this is minus zero, since plus
  zero would turn a sum of minus zeros into plus zero. -/
  emptySum : F
  /-- The tolerance of a solver that was given none. -/
  defaultTolerance : F

namespace Scalar

variable {F : Type} [Scalar F]

/-!
The operations of a scalar type are found last. A type that has an operation of its own, such as
a field, is searched first, and there the two agree by definition.
-/

instance (priority := low) : Zero F := Scalar.zero

instance (priority := low) : One F := Scalar.one

instance (priority := low) : Add F := Scalar.add

instance (priority := low) : Sub F := Scalar.sub

instance (priority := low) : Mul F := Scalar.mul

instance (priority := low) : Div F := Scalar.div

instance (priority := low) : Neg F := Scalar.neg

instance (priority := low) : LT F := Scalar.lt

instance (priority := low) : LE F := Scalar.le

instance (priority := low) : BEq F := Scalar.beq

instance (priority := low) (x y : F) : Decidable (x < y) := Scalar.decidableLT x y

instance (priority := low) (x y : F) : Decidable (x ≤ y) := Scalar.decidableLE x y

/-- The magnitude of a value. A zero of either sign keeps its sign, which no comparison sees. -/
def abs (x : F) : F := if x < 0 then -x else x

/-- The smaller of two values, the first of them when they compare equal. -/
def least (x y : F) : F := if y < x then y else x

/-- The sum of a list, added from left to right. -/
def sum (xs : List F) : F := xs.foldl (· + ·) emptySum

end Scalar

end Simplex
