import Mathlib.Order.Interval.Finset.Nat
import Simplex.Proofs.Points
import Simplex.Proofs.Removal

/-!
# What the cost rows show

On the solutions of a tableau the cost rows show costs: the first one, as long as there are
artificial variables, shows their sum, and the last one the objective of the minimization
(`Tableau.ShowsCosts`). The initial tableau does so (`Tableau.showsCosts_initial`). As only
solutions count, every tableau of the same program does (`Tableau.ShowsCosts.congr`), and so does
what is left when the artificial variables are dropped, even on solutions that violate a removed
row (`Tableau.ShowsCosts.strip`).

Without negative values the artificial cost is zero only if all artificial variables are
(`Tableau.ShowsCosts.eq_zero`). The relative costs bound the cost from below: if none of them is
under minus the tolerance, no solution without negative values lowers the cost of the basic solution
by more than the tolerance times the sum of its values (`Tableau.Sound.value_sub_le_residual`).
-/

namespace Simplex

namespace Tableau

section
variable {K : Type} [Field K] [LinearOrder K] {p : LinearProgram K} {nonnegative : Bool}
  {tolerance : K} {t u : Tableau K} {X Y : Nat → K}

/-! ## The artificial variables -/

/-- The sum of the artificial variables. -/
def artificialSum (l : Layout) (X : Nat → K) : K :=
  ∑ j ∈ Finset.Ico l.artificialStart l.variableCount, X j

/-- The sum of the artificial variables is over their columns. -/
theorem mem_artificialColumns {l : Layout} {j : Nat} :
    j ∈ Finset.Ico l.artificialStart l.variableCount ↔ l.isArtificial j = true := by
  rw [Finset.mem_Ico, isArtificial_iff]

/-- The artificial variables can be added up constraint by constraint. -/
theorem sum_artificialColumn (p : LinearProgram K) (nonnegative : Bool) (X : Nat → K) :
    (∑ i ∈ Finset.range p.constraints.length,
      if p.needsArtificial i then X (p.artificialColumn nonnegative i) else 0) =
        artificialSum (p.layout nonnegative) X := by
  have hneeds : (((Finset.range p.constraints.length).filter (p.needsArtificial · = true) :
      Finset Nat) : Set Nat) = {i | p.needsArtificial i = true} := by
    ext i
    simp only [Finset.coe_filter, Finset.mem_range, Set.mem_ofPred_eq, and_iff_right_iff_imp]
    intro hi
    obtain ⟨c, hc, -⟩ := (Option.any_eq_true _ _).1 hi
    have hlt := (List.getElem?_eq_some_iff.1 hc).1
    rwa [LinearProgram.normalized, List.length_map] at hlt
  have hcolumns : Set.BijOn (p.artificialColumn nonnegative) {i | p.needsArtificial i = true}
      (Set.Ico (p.layout nonnegative).artificialStart (p.layout nonnegative).variableCount) :=
    bijOn_rank (·.comparison.hasArtificial) p.normalized _
  rw [← hneeds, ← Finset.coe_Ico] at hcolumns
  rw [← Finset.sum_filter, artificialSum]
  exact Finset.sum_nbij _ hcolumns.mapsTo hcolumns.injOn hcolumns.surjOn fun _ _ => rfl

/-! ## The costs of a program -/

/-- On its solutions a tableau shows the costs of a program: in phase one the first row shows the
sum of the artificial variables, and the last cost row always shows the objective, negated for a
maximization, at the point that the decision variables stand for. -/
structure ShowsCosts (t : Tableau K) (p : LinearProgram K) : Prop where
  artificial : t.layout.inPhaseOne = true → ∀ X, t.Solves X →
    t.residual 0 X = artificialSum t.layout X
  objective : ∀ X, t.Solves X →
    t.residual (t.layout.costRows - 1) X = p.goal.sign * p.objective.eval (t.layout.decode X)

/-- The initial tableau shows the costs of its program. -/
theorem showsCosts_initial (hp : ∀ c ∈ p.constraints, c.left.arity = p.objective.arity)
    (nonnegative : Bool) (tolerance : K) :
    (initial p nonnegative tolerance).ShowsCosts p where
  artificial hphase X hX := by
    rw [artificialCost_eq hp hphase hX, sum_artificialColumn]
    rfl
  objective X _ := residual_initial_cost p nonnegative tolerance X

/-- A tableau of the same program shows the same costs. -/
theorem ShowsCosts.congr (h : t.ShowsCosts p) (hsame : SameProgram t u) : u.ShowsCosts p where
  artificial hphase X hX := by
    rw [hsame.layout] at hphase ⊢
    have hX' := (hsame.solves X).1 hX
    rw [hsame.cost X hX' 0 (costRows_pos _), h.artificial hphase X hX']
  objective X hX := by
    have hX' := (hsame.solves X).1 hX
    have hlast : t.layout.costRows - 1 < t.layout.costRows :=
      Nat.sub_lt (costRows_pos _) Nat.one_pos
    rw [hsame.layout, hsame.cost X hX' _ hlast, h.objective X hX']

/-- **What is left of a tableau shows the objective**, also on the solutions that violate a removed
row: such a solution extends to one of the whole tableau with other values of the artificial
variables, which are not in the objective. -/
theorem ShowsCosts.strip (h : u.ShowsCosts p) (hu : u.Sound)
    (hphase : u.layout.inPhaseOne = true) : (u.strip u.artificialRows).ShowsCosts p where
  artificial hphase' := nomatch hphase'
  objective X hX := by
    obtain ⟨Y, hY, hagree, hzero, -⟩ := exists_extension hu hphase hX
    have hdecode : u.layout.decode X = u.layout.decode Y :=
      decode_congr fun j hj => (hagree j (hj.trans_le (Nat.le_add_right _ _))).symm
    have hresidual : (u.strip u.artificialRows).residual 0 X =
        (u.strip u.artificialRows).residual 0 Y :=
      residual_congr fun j hj => (hagree j hj).symm
    have hcost := h.objective Y hY
    rw [costRows_of_inPhaseOne hphase, ← hdecode] at hcost
    have hrow := residual_strip hu hphase hzero (Nat.lt_add_right _ Nat.zero_lt_one)
    exact hresidual.trans (hrow.trans hcost)

variable [IsStrictOrderedRing K]

/-! ## Bounds on the costs -/

/-- Without negative values the artificial cost is not negative. -/
theorem ShowsCosts.nonneg (h : t.ShowsCosts p) (hphase : t.layout.inPhaseOne = true)
    (hX : t.Solves X) (hnonneg : ∀ j < t.layout.variableCount, 0 ≤ X j) :
    0 ≤ t.residual 0 X := by
  rw [h.artificial hphase X hX]
  exact Finset.sum_nonneg fun j hj => hnonneg j (Finset.mem_Ico.1 hj).2

/-- When the artificial cost is down to zero, so are the artificial variables. -/
theorem ShowsCosts.eq_zero (h : t.ShowsCosts p) (hphase : t.layout.inPhaseOne = true)
    (hX : t.Solves X) (hnonneg : ∀ j < t.layout.variableCount, 0 ≤ X j)
    (hcost : t.residual 0 X ≤ 0) {j : Nat} (hj : t.layout.isArtificial j = true) : X j = 0 := by
  have hzero := le_antisymm hcost (h.nonneg hphase hX hnonneg)
  rw [h.artificial hphase X hX] at hzero
  exact (Finset.sum_eq_zero_iff_of_nonneg fun k hk => hnonneg k (Finset.mem_Ico.1 hk).2).1 hzero j
    (mem_artificialColumns.2 hj)

/-- **The relative costs bound the cost.** -/
theorem Sound.value_sub_le_residual (h : t.Sound) {ε : K} (hε : 0 ≤ ε)
    (hcost : ∀ j ∈ t.nonBasic, -ε ≤ t.cost j) (hX : ∀ j < t.layout.variableCount, 0 ≤ X j) :
    t.value - ε * ∑ j ∈ Finset.range t.layout.variableCount, X j ≤ t.residual 0 X := by
  have hterm : ∀ j ∈ t.outside, -ε * X j ≤ t.entry 0 j * X j := fun j hj =>
    mul_le_mul_of_nonneg_right (hcost j (mem_nonBasic.2 (mem_outside.1 hj)))
      (hX j (mem_outside.1 hj).1)
  have houtside : ∑ j ∈ t.outside, X j ≤ ∑ j ∈ Finset.range t.layout.variableCount, X j :=
    Finset.sum_le_sum_of_subset_of_nonneg (Finset.filter_subset _ _) fun j hj _ =>
      hX j (Finset.mem_range.1 hj)
  calc t.value - ε * ∑ j ∈ Finset.range t.layout.variableCount, X j
      ≤ t.value - ε * ∑ j ∈ t.outside, X j :=
        sub_le_sub_left (mul_le_mul_of_nonneg_left houtside hε) _
    _ = ∑ j ∈ t.outside, -ε * X j - t.right 0 := by
        rw [← Finset.mul_sum, value]
        ring
    _ ≤ ∑ j ∈ t.outside, t.entry 0 j * X j - t.right 0 :=
        sub_le_sub_right (Finset.sum_le_sum hterm) _
    _ = t.residual 0 X := by rw [residual, h.activity_costRow (costRows_pos _)]

end

end Tableau

end Simplex
