import Simplex.Scalar
import Simplex.Scalar.Text
import Simplex.Decimal.Style

/-!
# Binary floating point as scalars

Double and single precision with their own arithmetic, every operation rounded to nearest. The
default tolerance is a millionth in double precision, and a ten thousandth in single precision,
which has only about seven significant digits.
-/

namespace Simplex

instance : Scalar Float where
  zero := ⟨0.0⟩
  one := ⟨1.0⟩
  isFinite := Float.isFinite
  emptySum := -0.0
  defaultTolerance := 1e-6

instance : ScalarText Float where
  plain x := Decimal.textOfBits Decimal.binary64 Decimal.plain x.toBits.toNat
  marked x := Decimal.textOfBits Decimal.binary64 Decimal.marked x.toBits.toNat

instance : Scalar Float32 where
  zero := ⟨0.0⟩
  one := ⟨1.0⟩
  isFinite := Float32.isFinite
  emptySum := -0.0
  defaultTolerance := 1e-4

instance : ScalarText Float32 where
  plain x := Decimal.textOfBits Decimal.binary32 Decimal.plain x.toBits.toNat
  marked x := Decimal.textOfBits Decimal.binary32 Decimal.marked x.toBits.toNat

end Simplex
