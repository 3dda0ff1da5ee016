import Mathlib.Algebra.Order.Field.Rat
import Simplex.Proofs.Program

/-!
# Rewriting constraints

A constraint with variables on both sides is kept as one difference compared with zero, and enters a
tableau in normal form. `Comparison.Relates` says how two numbers compare up to a tolerance of any
sign, and neither rewriting changes it (`Constraint.meaning_kept`): the value of a difference is the
difference of the values (`Affine.eval_subtract`), and a change of the sign on both sides turns the
comparison around.
-/

namespace Simplex

/-! ## Differences of affine functions -/

namespace Affine

section
variable {F : Type} [Scalar F] {f g : Affine F}

/-- Functions of the same variables have a difference. -/
theorem subtract_of_arity_eq (h : f.arity = g.arity) : f.subtract g =
    .ok ⟨List.zipWith (· - ·) f.coefficients g.coefficients, f.constant - g.constant⟩ :=
  if_pos h

/-- Functions of different numbers of variables have none. -/
theorem subtract_of_arity_ne (h : f.arity ≠ g.arity) :
    f.subtract g = .error (.lengthMismatch f.arity g.arity) :=
  if_neg h

/-- The difference is a function of the same variables. -/
theorem arity_subtract {d : Affine F} (h : f.subtract g = .ok d) :
    f.arity = g.arity ∧ d.arity = f.arity := by
  by_cases harity : f.arity = g.arity
  · rw [subtract_of_arity_eq harity] at h
    cases h
    refine ⟨harity, ?_⟩
    rw [arity, List.length_zipWith]
    exact (Nat.min_eq_left harity.le)
  · rw [subtract_of_arity_ne harity] at h
    cases h

/-- At a point of the right length a function has a value. -/
theorem evalAt_of_length {x : List F} (h : x.length = f.arity) : f.evalAt x = .ok (f.eval x) :=
  if_pos h.symm

end

section
variable {K : Type} [Field K]

/-- A sum of products with differences, for as many minuends as subtrahends. -/
theorem sum_zipWith_sub_mul :
    ∀ a b x : List K, a.length = b.length →
      (List.zipWith (· * ·) (List.zipWith (· - ·) a b) x).sum =
        (List.zipWith (· * ·) a x).sum - (List.zipWith (· * ·) b x).sum
  | [], [], _, _ => by simp
  | _ :: _, _ :: _, [], _ => by simp
  | a :: as, b :: bs, y :: ys, h => by
    have ih := sum_zipWith_sub_mul as bs ys (Nat.succ.inj h)
    simp only [List.zipWith_cons_cons, List.sum_cons, ih]
    ring

variable [LinearOrder K]

/-- **The value of a difference is the difference of the values.** -/
theorem eval_subtract {f g d : Affine K} (h : f.subtract g = .ok d) (x : List K) :
    d.eval x = f.eval x - g.eval x := by
  obtain ⟨harity, -⟩ := arity_subtract h
  rw [subtract_of_arity_eq harity] at h
  cases h
  rw [eval_eq, eval_eq, eval_eq, sum_zipWith_sub_mul _ _ _ harity]
  ring

end

end Affine

/-! ## What a constraint says -/

namespace Constraint

variable {F : Type} [Scalar F]

/-- At a point of the right length a constraint holds or not. -/
theorem holdsAt_of_length {c : Constraint F} {x : List F} (h : x.length = c.left.arity)
    (tolerance : F) : c.holdsAt x tolerance = .ok (c.holds x tolerance) := by
  rw [holdsAt, Affine.evalAt_of_length h]
  rfl

/-- A constraint between two functions has their variables. -/
theorem arity_between {l r : Affine F} {comparison : Comparison} {c : Constraint F}
    (h : between l comparison r = .ok c) : c.left.arity = l.arity := by
  unfold between at h
  split at h
  · next d hd =>
    cases h
    exact (Affine.arity_subtract hd).2
  · cases h

/-- A point of the wrong length is refused. -/
theorem holdsAt_of_length_ne {c : Constraint F} {x : List F} (h : x.length ≠ c.left.arity)
    (tolerance : F) : c.holdsAt x tolerance = .error (.pointLength c.left.arity x.length) := by
  rw [holdsAt, Affine.evalAt, if_neg h.symm]

end Constraint

section
variable {K : Type} [Field K] [LinearOrder K] [IsStrictOrderedRing K]

/-- How two numbers compare up to a tolerance. -/
def Comparison.Relates (c : Comparison) (tolerance a b : K) : Prop :=
  match c with
  | .atMost => a ≤ b + tolerance
  | .equal => |a - b| ≤ tolerance
  | .atLeast => b ≤ a + tolerance

/-- Two numbers compare if the comparison admits their gap. -/
theorem Comparison.relates_iff_admits (c : Comparison) (tolerance a b : K) :
    c.Relates tolerance a b ↔ c.Admits tolerance (a - b) := by
  cases c with
  | atMost => exact sub_le_iff_le_add'.symm
  | equal => exact Iff.rfl
  | atLeast =>
    simp only [Relates, Admits]
    constructor <;> intro h <;> linarith

namespace Constraint

/-- A constraint between two functions holds where their values compare. -/
theorem holds_between {l r : Affine K} {comparison : Comparison} {c : Constraint K}
    (h : between l comparison r = .ok c) (x : List K) (tolerance : K) :
    c.holds x tolerance = true ↔ comparison.Relates tolerance (l.eval x) (r.eval x) := by
  unfold between at h
  split at h
  · next d hd =>
    cases h
    rw [holds_iff, Comparison.relates_iff_admits, gap, Affine.eval_subtract hd, sub_zero]
  · cases h

/-- The normal form is checked at the same points, and holds at the same. -/
theorem holdsAt_normalize (c : Constraint K) (x : List K) (tolerance : K) :
    c.normalize.holdsAt x tolerance = c.holdsAt x tolerance := by
  have harity := c.normalize_arity
  by_cases h : x.length = c.left.arity
  · rw [holdsAt_of_length h, holdsAt_of_length (h.trans harity.symm), holds_normalize]
  · rw [holdsAt_of_length_ne h, holdsAt_of_length_ne (by rwa [harity]), harity]

/-- **Rewriting a constraint keeps its meaning at every tolerance.** Two functions can be compared
if they have the same variables, and the constraint between them then holds at a point exactly if
their values compare there. The normal form of a constraint has no constant term and no negative
right-hand side, and holds at the same points. -/
theorem meaning_kept :
    (∀ (l r : Affine K) (comparison : Comparison),
      (l.arity ≠ r.arity →
        between l comparison r = .error (.lengthMismatch l.arity r.arity)) ∧
      (l.arity = r.arity → ∃ c, between l comparison r = .ok c ∧
        ∀ x tolerance, x.length = l.arity → ∃ a b holds, l.evalAt x = .ok a ∧ r.evalAt x = .ok b ∧
          c.holdsAt x tolerance = .ok holds ∧
          (holds = true ↔ comparison.Relates tolerance a b))) ∧
    ∀ c : Constraint K, 0 ≤ c.normalize.right ∧
      c.normalize =
        linear c.normalize.left.coefficients c.normalize.comparison c.normalize.right ∧
      ∀ x tolerance, c.normalize.holdsAt x tolerance = c.holdsAt x tolerance := by
  refine ⟨fun l r comparison => ⟨fun hne => ?_, fun heq => ?_⟩, fun c => ⟨?_, ?_, ?_⟩⟩
  · rw [between, Affine.subtract_of_arity_ne hne]
  · have hsub := Affine.subtract_of_arity_eq heq
    obtain ⟨c, hbetween⟩ : ∃ c, between l comparison r = .ok c := by
      rw [between, hsub]
      exact ⟨_, rfl⟩
    refine ⟨c, hbetween, fun x tolerance hx => ?_⟩
    have hlength : x.length = c.left.arity := hx.trans (arity_between hbetween).symm
    exact ⟨_, _, _, Affine.evalAt_of_length hx, Affine.evalAt_of_length (hx.trans heq),
      holdsAt_of_length hlength tolerance, holds_between hbetween x tolerance⟩
  · exact c.normalize_right_nonneg
  · rw [linear, ← c.normalize_constant]
  · exact c.holdsAt_normalize

end Constraint

end

/-- The constraint `x + 2 y + 1 ≥ 3 x - 2` has the normal form `2 x - 2 y ≤ 3`. At `x = 2` and
`y = 0` the sides are `3` and `4`, and so it holds within one. -/
theorem Constraint.meaning_kept_two_sided : ∃ c : Constraint ℚ,
    between ⟨[1, 2], 1⟩ .atLeast ⟨[3, 0], -2⟩ = .ok c ∧
    (c.normalize.left.coefficients, c.normalize.comparison, c.normalize.right) =
      ([2, -2], .atMost, 3) ∧
    c.normalize.holdsAt [2, 0] 1 = .ok true ∧ Comparison.atLeast.Relates (1 : ℚ) 3 4 := by
  obtain ⟨hbetween, hnormalize⟩ := meaning_kept (K := ℚ)
  obtain ⟨c, hc, hholds⟩ := (hbetween ⟨[1, 2], 1⟩ ⟨[3, 0], -2⟩ .atLeast).2 rfl
  obtain ⟨-, -, hsame⟩ := hnormalize c
  obtain ⟨a, b, holds, ha, hb, hat, hiff⟩ := hholds [2, 0] 1 rfl
  have hrelates : Comparison.atLeast.Relates (1 : ℚ) 3 4 := by
    norm_num [Comparison.Relates]
  have ha' : a = 3 := by
    have : (⟨[1, 2], 1⟩ : Affine ℚ).evalAt [2, 0] = .ok 3 := by decide +kernel
    exact Except.ok.inj (ha.symm.trans this)
  have hb' : b = 4 := by
    have : (⟨[3, 0], -2⟩ : Affine ℚ).evalAt [2, 0] = .ok 4 := by decide +kernel
    exact Except.ok.inj (hb.symm.trans this)
  rw [ha', hb'] at hiff
  refine ⟨c, hc, ?_, by rw [hsame, hat, hiff.2 hrelates], hrelates⟩
  cases hc
  decide +kernel

end Simplex
