import Simplex.Solve
import Simplex.Proofs.Field

/-!
# What a linear program means

Over exact scalars a constraint bounds its gap, the left-hand side minus the right-hand side
(`Constraint.holds_iff`). The normal form negates the gap or leaves it alone, and flips the
comparison with it, so it holds at the same points for every tolerance
(`Constraint.holds_normalize`). `LinearProgram.Feasible` is what a point has to satisfy, and
`Goal.Improves` compares two objective values. As all exact scalars are finite, only the shape of a
program can have a defect (`LinearProgram.validate_eq_ok_iff`), and a program without one is taken
through both phases (`LinearProgram.run_eq`).
-/

namespace Simplex

/-! ## Defects -/

namespace LinearProgram

section
variable {F : Type} [Scalar F]

/-- A list of constraints without a defect has the right numbers of coefficients. -/
theorem arity_of_validateConstraints {arity index : Nat} {cs : List (Constraint F)}
    (h : validateConstraints arity index cs = .ok ()) : ∀ c ∈ cs, c.left.arity = arity := by
  induction cs generalizing index with
  | nil => exact fun _ hc => nomatch hc
  | cons d cs ih =>
    intro c hc
    unfold validateConstraints at h
    cases hd : validateConstraint arity index d with
    | error e =>
      rw [hd] at h
      cases h
    | ok u =>
      rw [hd] at h
      rcases List.mem_cons.1 hc with rfl | hc
      · unfold validateConstraint at hd
        split at hd
        · assumption
        · cases hd
      · exact ih h c hc

/-- A program without a defect has as many coefficients in every constraint as in the objective. -/
theorem arity_of_validate {p : LinearProgram F} (h : p.validate = .ok ()) :
    ∀ c ∈ p.constraints, c.left.arity = p.objective.arity := by
  unfold validate at h
  split at h
  · cases h
  · split at h
    · cases h
    · split at h
      · cases h
      · exact arity_of_validateConstraints h

/-- Settings without a defect have a positive tolerance. -/
theorem tolerance_of_validate {s : Settings F} (h : s.validate = .ok ()) : 0 < s.tolerance := by
  unfold Settings.validate at h
  split at h
  · next ht => exact ht.1
  · cases h

/-- What was checked: the settings and the program. -/
theorem check_eq_ok {p : LinearProgram F} {s : Settings F} :
    p.check s = .ok () ↔ s.validate = .ok () ∧ p.validate = .ok () := by
  unfold check
  split
  · next e he =>
    rw [he]
    exact iff_of_false (fun h => nomatch h) fun h => nomatch h.1
  · next he => rw [he]; exact (and_iff_right rfl).symm

omit [Scalar F] in
/-- A program is rectangular if every constraint has as many coefficients as the objective. -/
theorem isRectangular_iff {p : LinearProgram F} :
    p.isRectangular = true ↔ ∀ c ∈ p.constraints, c.left.arity = p.objective.arity := by
  simp only [isRectangular, List.all_eq_true, decide_eq_true_eq]

/-- Building a tableau fails only for a program that is not rectangular, or without a positive
tolerance. -/
theorem ofProgram_eq_ok_iff {p : LinearProgram F} {nonnegative : Bool} {tolerance : F}
    {t : Tableau F} : Tableau.ofProgram p nonnegative tolerance = .ok t ↔
      (∀ c ∈ p.constraints, c.left.arity = p.objective.arity) ∧ 0 < tolerance ∧
        t = Tableau.initial p nonnegative tolerance := by
  rw [← isRectangular_iff, Tableau.ofProgram]
  cases p.isRectangular with
  | false => exact iff_of_false (fun h => nomatch h) fun h => nomatch h.1
  | true =>
    rw [if_neg (by simp)]
    split
    · next htol =>
      constructor
      · intro h
        cases h
        exact ⟨rfl, htol, rfl⟩
      · rintro ⟨-, -, rfl⟩
        rfl
    · next htol => exact iff_of_false (fun h => nomatch h) fun h => htol h.2.1

/-- A program that was checked has a positive tolerance, and every constraint has as many
coefficients as the objective. -/
theorem of_check {p : LinearProgram F} {s : Settings F} (h : p.check s = .ok ()) :
    0 < s.tolerance ∧ ∀ c ∈ p.constraints, c.left.arity = p.objective.arity :=
  ⟨tolerance_of_validate (check_eq_ok.1 h).1, arity_of_validate (check_eq_ok.1 h).2⟩

/-- The trail with which a run begins. -/
def opening (p : LinearProgram F) (settings : Settings F) (detail : Option Level) : Trail F :=
  (Trail.start detail
    (Tableau.initial p settings.nonnegative settings.tolerance)).recordCreation

/-- A run on a program that passes the check goes through both phases. -/
theorem run_eq {p : LinearProgram F} {settings : Settings F} (h : p.check settings = .ok ())
    (rule : PivotRule) (detail : Option Level) : p.run settings rule detail =
      (p.opening settings detail).twoPhases rule settings.pivotLimit p.objective := by
  obtain ⟨htolerance, harity⟩ := of_check h
  have hprogram : Tableau.ofProgram p settings.nonnegative settings.tolerance =
      .ok (Tableau.initial p settings.nonnegative settings.tolerance) :=
    ofProgram_eq_ok_iff.2 ⟨harity, htolerance, rfl⟩
  rw [run, h, hprogram]
  rfl

end

end LinearProgram

section
variable {K : Type} [Field K] [LinearOrder K]

/-! ## Defects over exact scalars -/

/-- Over exact scalars all values of an affine function are finite. -/
theorem Affine.checkFinite_eq (f : Affine K) (coefficient : Nat → Location)
    (constant : Location) : f.checkFinite coefficient constant = .ok () := by
  have hnone : f.coefficients.findIdx? (fun x => !Scalar.isFinite x) = none :=
    List.findIdx?_eq_none_iff.2 fun _ _ => rfl
  rw [checkFinite, hnone]
  rfl

/-- Over exact scalars all values of a constraint are finite. -/
theorem Constraint.checkFinite_eq (c : Constraint K) (index : Nat) :
    c.checkFinite index = .ok () := by
  rw [checkFinite, Affine.checkFinite_eq]
  rfl

namespace LinearProgram

/-- Over exact scalars constraints with the right numbers of coefficients have no defect. -/
theorem validateConstraints_eq {arity : Nat} {cs : List (Constraint K)}
    (h : ∀ c ∈ cs, c.left.arity = arity) (index : Nat) :
    validateConstraints arity index cs = .ok () := by
  induction cs generalizing index with
  | nil => rfl
  | cons c cs ih =>
    obtain ⟨hc, hcs⟩ := List.forall_mem_cons.1 h
    rw [validateConstraints, validateConstraint, if_pos hc, Constraint.checkFinite_eq]
    exact ih hcs (index + 1)

/-- Over exact scalars only the shape of a program can have a defect. -/
theorem validate_eq_ok_iff {p : LinearProgram K} : p.validate = .ok () ↔
    p.objective.arity ≠ 0 ∧ p.constraints ≠ [] ∧
      ∀ c ∈ p.constraints, c.left.arity = p.objective.arity := by
  constructor
  · intro h
    refine ⟨fun hzero => ?_, fun hnil => ?_, arity_of_validate h⟩
    · rw [validate, if_pos hzero] at h
      cases h
    · unfold validate at h
      split at h
      · cases h
      · rw [hnil] at h
        cases h
  · rintro ⟨harity, hnil, hrows⟩
    rw [validate, if_neg harity, if_neg (by simpa using hnil), Affine.checkFinite_eq]
    exact validateConstraints_eq hrows 0

end LinearProgram

/-! ## Sums of products -/

omit [LinearOrder K] in
/-- Multiplying all coefficients multiplies the sum of the products. -/
theorem sum_zipWith_map_mul (k : K) :
    ∀ coefficients x : List K, (List.zipWith (· * ·) (coefficients.map (k * ·)) x).sum =
      k * (List.zipWith (· * ·) coefficients x).sum
  | [], _ => by simp
  | _ :: _, [] => by simp
  | a :: as, y :: ys => by
    simp only [List.map_cons, List.zipWith_cons_cons, List.sum_cons, sum_zipWith_map_mul k as ys]
    ring

omit [LinearOrder K] in
/-- Negating all coefficients negates the sum of the products. -/
theorem sum_zipWith_map_neg (coefficients x : List K) :
    (List.zipWith (· * ·) (coefficients.map (- ·)) x).sum =
      -(List.zipWith (· * ·) coefficients x).sum := by
  have h := sum_zipWith_map_mul (-1) coefficients x
  simpa using h

/-- The value of an affine function is the sum of the products, and the constant term. -/
theorem Affine.eval_eq (f : Affine K) (x : List K) :
    f.eval x = (List.zipWith (· * ·) f.coefficients x).sum + f.constant := by
  rw [Affine.eval, Scalar.sum_eq]

/-! ## The normal form of a constraint -/

namespace Constraint

/-- The left-hand side of a constraint minus its right-hand side. -/
def gap (c : Constraint K) (x : List K) : K := c.left.eval x - c.right

/-- The normal form of a constraint whose right-hand side would be negative. -/
theorem normalize_of_neg {c : Constraint K} (h : c.constantFreeRight < 0) :
    c.normalize = linear (c.left.coefficients.map (- ·)) c.comparison.flip
      (-c.constantFreeRight) :=
  if_pos h

/-- The normal form of any other constraint. -/
theorem normalize_of_nonneg {c : Constraint K} (h : ¬ c.constantFreeRight < 0) :
    c.normalize = linear c.left.coefficients c.comparison c.constantFreeRight :=
  if_neg h

/-- A normal form has no constant term. -/
theorem normalize_constant (c : Constraint K) : c.normalize.left.constant = 0 := by
  by_cases h : c.constantFreeRight < 0
  · rw [normalize_of_neg h, linear]
  · rw [normalize_of_nonneg h, linear]

/-- A normal form has as many coefficients as the constraint. -/
theorem normalize_arity (c : Constraint K) : c.normalize.left.arity = c.left.arity := by
  by_cases h : c.constantFreeRight < 0
  · rw [normalize_of_neg h]
    exact List.length_map _
  · rw [normalize_of_nonneg h]
    rfl

/-- The normal form has the gap of the constraint, negated if the right-hand side would be
negative otherwise. -/
theorem gap_normalize (c : Constraint K) (x : List K) :
    c.normalize.gap x = if c.constantFreeRight < 0 then -c.gap x else c.gap x := by
  by_cases h : c.constantFreeRight < 0
  · rw [if_pos h, normalize_of_neg h]
    simp only [gap, linear, Affine.eval_eq, sum_zipWith_map_neg, constantFreeRight]
    ring
  · rw [if_neg h, normalize_of_nonneg h]
    simp only [gap, linear, Affine.eval_eq, constantFreeRight]
    ring

/-- The two sides of the normal form are as far apart as those of the constraint. -/
theorem abs_gap_normalize (c : Constraint K) (x : List K) : |c.normalize.gap x| = |c.gap x| := by
  rw [gap_normalize]
  split
  · exact abs_neg _
  · rfl

/-- The normal form has a slack variable if the constraint is an inequality. -/
theorem hasSlack_normalize (c : Constraint K) :
    c.normalize.comparison.hasSlack = c.comparison.hasSlack := by
  by_cases h : c.constantFreeRight < 0
  · rw [normalize_of_neg h]
    cases hcomp : c.comparison <;> simp [linear, Comparison.flip, Comparison.hasSlack]
  · rw [normalize_of_nonneg h]
    rfl

end Constraint

variable [IsStrictOrderedRing K]

/-! ## When a constraint holds -/

/-- Which gaps between its two sides a comparison admits, up to a tolerance. -/
def Comparison.Admits (c : Comparison) (tolerance gap : K) : Prop :=
  match c with
  | .atMost => gap ≤ tolerance
  | .equal => |gap| ≤ tolerance
  | .atLeast => -tolerance ≤ gap

/-- Changing the sign of both sides changes the sign of the gap. -/
theorem Comparison.admits_flip (c : Comparison) (tolerance gap : K) :
    c.flip.Admits tolerance (-gap) ↔ c.Admits tolerance gap := by
  cases c with
  | atMost => exact neg_le_neg_iff
  | equal => simp only [Comparison.flip, Comparison.Admits, abs_neg]
  | atLeast => exact neg_le

namespace Constraint

/-- A constraint holds at a point when its comparison admits the gap there. -/
theorem holds_iff (c : Constraint K) (x : List K) (tolerance : K) :
    c.holds x tolerance = true ↔ c.comparison.Admits tolerance (c.gap x) := by
  unfold holds holdsFor gap
  cases c.comparison with
  | atMost => simp only [Comparison.Admits, decide_eq_true_eq, sub_le_iff_le_add']
  | equal => simp only [Comparison.Admits, decide_eq_true_eq, Scalar.abs_eq_abs]
  | atLeast =>
    simp only [Comparison.Admits, decide_eq_true_eq]
    constructor <;> intro h <;> linarith

/-- The normal form holds at the same points, within every tolerance. -/
theorem holds_normalize (c : Constraint K) (x : List K) (tolerance : K) :
    c.normalize.holds x tolerance = c.holds x tolerance := by
  rw [Bool.eq_iff_iff, holds_iff, holds_iff, gap_normalize]
  by_cases h : c.constantFreeRight < 0
  · rw [if_pos h, normalize_of_neg h]
    exact Comparison.admits_flip c.comparison tolerance (c.gap x)
  · rw [if_neg h, normalize_of_nonneg h]
    exact Iff.rfl

/-- A normal form has no negative right-hand side. -/
theorem normalize_right_nonneg (c : Constraint K) : 0 ≤ c.normalize.right := by
  by_cases h : c.constantFreeRight < 0
  · rw [normalize_of_neg h]
    exact neg_nonneg.2 h.le
  · rw [normalize_of_nonneg h]
    exact not_lt.1 h

end Constraint

/-! ## Points and values -/

/-- A point of a linear program that satisfies all its constraints, and the signs of the variables
if these are bounded below by zero, within a tolerance. -/
structure LinearProgram.Feasible (p : LinearProgram K) (nonnegative : Bool) (tolerance : K)
    (x : List K) : Prop where
  length : x.length = p.objective.arity
  holds : ∀ c ∈ p.constraints, c.holds x tolerance = true
  sign : nonnegative = true → ∀ v ∈ x, -tolerance ≤ v

/-- One objective value is strictly better than another in the direction of the goal. -/
def Goal.Improves (g : Goal) (better worse : K) : Prop :=
  match g with
  | .minimize => better < worse
  | .maximize => worse < better

/-- Better in the direction of the goal is less for the minimization that the goal turns into. -/
theorem Goal.improves_iff (g : Goal) (better worse : K) :
    g.Improves better worse ↔ g.sign * better < g.sign * worse := by
  cases g with
  | minimize => simp only [Goal.Improves, Goal.sign, one_mul]
  | maximize => simp only [Goal.Improves, Goal.sign, neg_mul, one_mul, neg_lt_neg_iff]

end

end Simplex
