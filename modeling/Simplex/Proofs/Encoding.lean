import Mathlib.Algebra.Order.Field.Rat
import Simplex.Proofs.Costs

/-!
# What the initial tableau encodes

The initial tableau says about its variables what the program says about its points
(`LinearProgram.Encodes`). A solution is proper if it has no negative value and its artificial
variables are zero (`Tableau.Proper`). The points that the proper solutions stand for are the
feasible ones, and the slack variable of an inequality is then the distance of its two sides.
Building the tableau never fails for a program whose constraints have as many coefficients as the
objective (`LinearProgram.exists_ofProgram_encodes`).
-/

namespace Simplex

section
variable {K : Type} [Field K] [LinearOrder K]

/-! ## Proper solutions -/

/-- A solution without negative values whose artificial variables are zero. -/
structure Tableau.Proper (t : Tableau K) (X : Nat → K) : Prop where
  solves : t.Solves X
  nonneg : ∀ j < t.layout.variableCount, 0 ≤ X j
  artificial : ∀ j, t.layout.isArtificial j = true → X j = 0

/-- Tableaus of the same program have the same proper solutions. -/
theorem Tableau.Proper.congr {t u : Tableau K} {X : Nat → K} (h : t.Proper X)
    (hsame : SameProgram t u) : u.Proper X where
  solves := (hsame.solves X).2 h.solves
  nonneg := by
    rw [hsame.layout]
    exact h.nonneg
  artificial := by
    rw [hsame.layout]
    exact h.artificial

/-- A proper solution has no artificial cost. -/
theorem Tableau.Proper.artificialSum_eq_zero {t : Tableau K} {X : Nat → K} (h : t.Proper X) :
    artificialSum t.layout X = 0 :=
  Finset.sum_eq_zero fun j hj => h.artificial j (mem_artificialColumns.1 hj)

/-- A proper solution is one of what is left when the artificial variables are dropped. -/
theorem Tableau.Proper.strip {u : Tableau K} {X : Nat → K} (h : u.Proper X) (hu : u.Sound)
    (hphase : u.layout.inPhaseOne = true) : (u.strip u.artificialRows).Proper X where
  solves := ((solves_strip hu hphase fun j hj _ => h.artificial j hj).1 h.solves).1
  nonneg j hj := h.nonneg j (hj.trans_le (Nat.le_add_right _ _))
  artificial _ hj := nomatch inPhaseOne_of_isArtificial hj

/-- The sign of a slack variable does not change its size. -/
theorem Comparison.abs_slackSign_mul {c : Comparison} (h : c.hasSlack = true) (s : K) :
    |c.slackSign * s| = |s| := by
  cases c with
  | atMost => simp [slackSign]
  | equal => cases h
  | atLeast => simp [slackSign]

variable [IsStrictOrderedRing K]

namespace LinearProgram

variable {p : LinearProgram K} {nonnegative : Bool} {tolerance : K} {X : Nat → K} {y : List K}

/-- A feasible point lifts to a proper solution. -/
theorem Feasible.proper_lift (hp : ∀ c ∈ p.constraints, c.left.arity = p.objective.arity)
    (hy : p.Feasible nonnegative 0 y) :
    (Tableau.initial p nonnegative tolerance).Proper (p.lift nonnegative y) where
  solves := solves_lift hp hy
  nonneg j _ := hy.lift_nonneg j
  artificial _ hj := lift_of_le hy.length (Tableau.isArtificial_iff.1 hj).1

/-- **The proper solutions stand for the feasible points**, and for no others. -/
theorem feasible_iff_exists_proper
    (hp : ∀ c ∈ p.constraints, c.left.arity = p.objective.arity) (y : List K) :
    p.Feasible nonnegative 0 y ↔ ∃ X, (Tableau.initial p nonnegative tolerance).Proper X ∧
      (p.layout nonnegative).decode X = y := by
  constructor
  · intro hy
    exact ⟨_, hy.proper_lift hp, decode_lift hy.length⟩
  · rintro ⟨X, hX, rfl⟩
    refine feasible_decode hp (le_refl 0) hX.solves (fun j hj => ?_) hX.artificial
    rw [neg_zero]
    exact hX.nonneg j (hj.trans_le (Nat.le_add_right _ _))

/-- In a proper solution the slack variable of an inequality is the distance of its two sides. -/
theorem slackColumn_eq (hp : ∀ c ∈ p.constraints, c.left.arity = p.objective.arity)
    (hX : (Tableau.initial p nonnegative tolerance).Proper X) {i : Nat} {c : Constraint K}
    (hc : p.constraints[i]? = some c) (hs : c.comparison.hasSlack = true) :
    X (p.slackColumn nonnegative i) = |c.gap ((p.layout nonnegative).decode X)| := by
  have hc' : p.normalized[i]? = some c.normalize := by
    rw [normalized, List.getElem?_map, hc, Option.map_some]
  have hs' : c.normalize.comparison.hasSlack = true := by rwa [c.hasSlack_normalize]
  have hcolumn : p.slackColumn nonnegative i < (p.layout nonnegative).variableCount :=
    (Tableau.slackColumn_mem nonnegative hc' hs').2.trans_le (Nat.le_add_right _ _)
  rw [← c.abs_gap_normalize, Tableau.gap_decode hp hX.solves hc',
    Tableau.artificial_term_eq_zero hX.artificial, add_zero, abs_neg,
    Comparison.abs_slackSign_mul hs', abs_of_nonneg (hX.nonneg _ hcolumn)]

/-! ## The encoding -/

/-- A tableau that says what a program says. -/
structure Encodes (p : LinearProgram K) (nonnegative : Bool) (t : Tableau K) : Prop where
  /-- The columns are those of the decision variables, then the slack and artificial variables. -/
  layout : t.layout = p.layout nonnegative
  /-- Every slack column belongs to exactly one of the inequalities. -/
  slackColumns : Set.BijOn (p.slackColumn nonnegative) {i | p.needsSlack i = true}
    (Set.Ico t.layout.slackStart t.layout.artificialStart)
  /-- Every artificial column belongs to exactly one of the constraints that need one. -/
  artificialColumns : Set.BijOn (p.artificialColumn nonnegative) {i | p.needsArtificial i = true}
    (Set.Ico t.layout.artificialStart t.layout.variableCount)
  /-- There is a row for each constraint. -/
  rowCount : t.rowCount = t.layout.costRows + p.constraints.length
  /-- The rows have the order of the constraints. That of a constraint says that the gap between
  the sides of its normal form is made up for by its slack and its artificial variable. -/
  row : ∀ i c, p.normalized[i]? = some c → ∀ X, t.residual (t.layout.costRows + i) X =
    c.gap (t.layout.decode X) + c.comparison.slackSign * X (p.slackColumn nonnegative i) +
      if c.comparison.hasArtificial then X (p.artificialColumn nonnegative i) else 0
  /-- The basic columns are unit vectors over all rows. -/
  sound : t.Sound
  /-- The basic solution has no negative value. -/
  right_nonneg : ∀ r ∈ t.constraintRows, 0 ≤ t.right r
  /-- The feasible points are those of the proper solutions. -/
  feasible_iff : ∀ y, p.Feasible nonnegative 0 y ↔ ∃ X, t.Proper X ∧ t.layout.decode X = y
  /-- The slack variables of a proper solution are determined by its point. -/
  slack_eq : ∀ X, t.Proper X → ∀ (i : Nat) (c : Constraint K), p.constraints[i]? = some c →
    c.comparison.hasSlack = true → X (p.slackColumn nonnegative i) = |c.gap (t.layout.decode X)|
  /-- The cost rows show the costs of all solutions. -/
  costs : t.ShowsCosts p

/-- The initial tableau encodes its program. -/
theorem encodes_initial (hp : ∀ c ∈ p.constraints, c.left.arity = p.objective.arity)
    (nonnegative : Bool) (tolerance : K) :
    p.Encodes nonnegative (.initial p nonnegative tolerance) where
  layout := rfl
  slackColumns := bijOn_rank (·.comparison.hasSlack) p.normalized _
  artificialColumns := bijOn_rank (·.comparison.hasArtificial) p.normalized _
  rowCount := Tableau.rowCount_initial
  row _ _ hc X := Tableau.residual_initial hp hc X
  sound := Tableau.sound_initial hp
  right_nonneg _ hr := Tableau.right_initial_nonneg hp hr
  feasible_iff := feasible_iff_exists_proper hp
  slack_eq _ hX _ _ hc hs := slackColumn_eq hp hX hc hs
  costs := Tableau.showsCosts_initial hp nonnegative tolerance

/-- **Building a tableau encodes the program**, whatever the goal and the signs are. It does not
fail if every constraint has as many coefficients as the objective. -/
theorem exists_ofProgram_encodes (hp : ∀ c ∈ p.constraints, c.left.arity = p.objective.arity)
    (nonnegative : Bool) (htol : 0 < tolerance) :
    ∃ t, Tableau.ofProgram p nonnegative tolerance = .ok t ∧ p.Encodes nonnegative t :=
  ⟨_, ofProgram_eq_ok_iff.2 ⟨hp, htol, rfl⟩, encodes_initial hp nonnegative tolerance⟩

/-- Maximize `x - 2 y + 3` subject to `x + y + 1 ≤ 4`, `x - y = -2` and `y ≥ -1`. The last two
constraints change their signs in the normal form, and the last one needs no artificial variable
then. -/
def flipped : LinearProgram ℚ :=
  ⟨.maximize, ⟨[1, -2], 3⟩,
    [⟨⟨[1, 1], 1⟩, .atMost, 4⟩, .linear [1, -1] .equal (-2), .linear [0, 1] .atLeast (-1)]⟩

/-- The tableau of `flipped` with both signs allowed: a feasible point with a negative coordinate is
that of a proper solution. -/
theorem flipped_encodes :
    ∃ t, Tableau.ofProgram flipped false (1 / 1000000) = .ok t ∧ flipped.Encodes false t ∧
      ∃ X, t.Proper X ∧ t.layout.decode X = [-3, -1] := by
  obtain ⟨t, ht, henc⟩ := exists_ofProgram_encodes (p := flipped) (by decide +kernel) false
    (show (0 : ℚ) < 1 / 1000000 by norm_num)
  refine ⟨t, ht, henc, (henc.feasible_iff [-3, -1]).1 ⟨rfl, by decide +kernel, ?_⟩⟩
  exact fun h => nomatch h

end LinearProgram

end

end Simplex
