import Simplex.Proofs.ArtificialCost
import Simplex.Proofs.BasisInvariant

/-!
# The value of a tableau and the value of its solution

A tableau carries its cost along in the last column, where every pivot updates it, while a solver
that has found an optimum evaluates the objective again at the point that it reports. The two always
agree (`LinearProgram.value_eq_of_arises`): the cost rows show the costs of all solutions, the basic
solution is one of them (`Tableau.ShowsCosts.right_eq`, `Tableau.ShowsCosts.value_eq_sum`), and this
lasts through pivots, steps and the change of phase (`Tableau.Arises.showsCosts`).
-/

namespace Simplex

/-- The sign of a goal is its own inverse. -/
theorem Goal.sign_mul_sign {K : Type} [Field K] [LinearOrder K] (goal : Goal) (x : K) :
    goal.sign * (goal.sign * x) = x := by
  cases goal <;> simp [sign]

namespace Tableau

section
variable {K : Type} [Field K] [LinearOrder K] {p : LinearProgram K} {t u : Tableau K}

/-! ## The costs of the basic solution -/

/-- The last cost row shows the objective at the solution. -/
theorem ShowsCosts.right_eq (h : t.ShowsCosts p) (ht : t.Sound) :
    t.right (t.layout.costRows - 1) = -(p.goal.sign * p.objective.eval t.solution) := by
  have hlast : t.layout.costRows - 1 < t.layout.costRows :=
    Nat.sub_lt (costRows_pos _) Nat.one_pos
  rw [solution_eq, ← h.objective _ ht.solves_basicPoint, ht.residual_basicPoint hlast, neg_neg]

/-- In phase one the value of a tableau is the sum of the right-hand sides of the rows in which an
artificial variable is basic. -/
theorem ShowsCosts.value_eq_sum (h : t.ShowsCosts p) (ht : t.Sound)
    (hphase : t.layout.inPhaseOne = true) : t.value = (t.artificialRows.map t.right).sum := by
  have hnodup : t.artificialRows.Nodup := t.nodup_constraintRows.filter _
  have houtside : ∑ j ∈ Finset.Ico t.layout.artificialStart t.layout.variableCount
      with ¬ t.isBasic j = true, t.basicPoint j = 0 :=
    Finset.sum_eq_zero fun j hj =>
      ht.basicPoint_eq_zero (Bool.eq_false_iff.2 (Finset.mem_filter.1 hj).2)
  calc t.value = t.residual 0 t.basicPoint := (ht.residual_basicPoint (costRows_pos _)).symm
    _ = artificialSum t.layout t.basicPoint := h.artificial hphase _ ht.solves_basicPoint
    _ = ∑ r ∈ t.artificialRows.toFinset, t.basicPoint (t.basicColumn r) := by
      rw [artificialSum, ← Finset.sum_filter_add_sum_filter_not _ (t.isBasic · = true), houtside,
        add_zero, ht.sum_basic_artificial]
    _ = ∑ r ∈ t.artificialRows.toFinset, t.right r := Finset.sum_congr rfl fun r hr =>
      ht.basicPoint_basicColumn (mem_artificialRows.1 (List.mem_toFinset.1 hr)).1
    _ = (t.artificialRows.map t.right).sum := List.sum_toFinset _ hnodup

/-- The objective is `w` at the solution of a tableau, and the last column shows this. -/
structure Evaluates (t : Tableau K) (p : LinearProgram K) (w : K) : Prop where
  /-- The solution has as many coordinates as the objective has variables. -/
  evalAt : p.objective.evalAt t.solution = .ok w
  /-- Without artificial variables the value of the tableau is that of the minimization. -/
  value : t.layout.inPhaseOne = false → t.value = p.goal.sign * w
  /-- In phase one it is the sum of the artificial variables. -/
  artificial : t.layout.inPhaseOne = true → t.value = (t.artificialRows.map t.right).sum
  /-- The objective is in the second cost row then. -/
  cost : t.layout.inPhaseOne = true → t.right 1 = -(p.goal.sign * w)

/-- A sound tableau that shows the costs of a program evaluates its objective. -/
theorem ShowsCosts.evaluates (h : t.ShowsCosts p) (ht : t.Sound)
    (hdecision : t.layout.decision = p.objective.arity) :
    t.Evaluates p (p.objective.eval t.solution) where
  evalAt := by
    have hlength : p.objective.arity = t.solution.length := by
      rw [solution, List.length_map, List.length_range, hdecision]
    exact if_pos hlength
  value hphase := by
    have hcosts : t.layout.costRows = 1 := if_neg (by rw [hphase]; decide)
    have hright := h.right_eq ht
    rw [hcosts] at hright
    rw [Tableau.value, hright, neg_neg]
  artificial hphase := h.value_eq_sum ht hphase
  cost hphase := by
    have hright := h.right_eq ht
    rwa [costRows_of_inPhaseOne hphase] at hright

variable [IsStrictOrderedRing K]

/-- **The cost rows show the costs whatever is done**, and the decision variables stay the same. -/
theorem Arises.showsCosts (h : t.Arises u) (ht : t.Sound) (htol : 0 ≤ t.tolerance)
    (hcosts : t.ShowsCosts p) : u.ShowsCosts p ∧ u.layout.decision = t.layout.decision := by
  refine (h.rule ht htol (fun u => u.ShowsCosts p ∧ u.layout.decision = t.layout.decision)
    ⟨hcosts, rfl⟩ ?_ ?_).2.2
  · rintro u r c hu ⟨hcosts, hdecision⟩ hr hc hb hentry
    exact ⟨hcosts.congr (.exchange hu.toConsistent hr hc hentry), hdecision⟩
  · rintro u hu ⟨hcosts, hdecision⟩ hphase
    exact ⟨hcosts.strip hu hphase, hdecision⟩

end

end Tableau

namespace LinearProgram

variable {K : Type} [Field K] [LinearOrder K] [IsStrictOrderedRing K] {p : LinearProgram K}
  {settings : Settings K} {t₀ t : Tableau K}

/-- Every tableau that arises from the initial one evaluates the objective. -/
theorem evaluates_of_arises (hp : ∀ c ∈ p.constraints, c.left.arity = p.objective.arity)
    {nonnegative : Bool} {tolerance : K} (htol : 0 ≤ tolerance)
    (h : (Tableau.initial p nonnegative tolerance).Arises t) :
    t.Evaluates p (p.objective.eval t.solution) := by
  have hinitial : (Tableau.initial p nonnegative tolerance).Sound := Tableau.sound_initial hp
  obtain ⟨ht, -⟩ := h.sound hinitial htol
  obtain ⟨hcosts, hdecision⟩ :=
    h.showsCosts hinitial htol (Tableau.showsCosts_initial hp nonnegative tolerance)
  exact hcosts.evaluates ht hdecision

/-- **The value of a tableau is the value of its solution**, whatever pivots, steps and changes of
phase led to it. So the optimal value that a solver reports is, in the direction of the
minimization, the value of its last tableau. -/
theorem value_eq_of_arises
    (h₀ : Tableau.ofProgram p settings.nonnegative settings.tolerance = .ok t₀) :
    (∀ t, t₀.Arises t → ∃ w, t.Evaluates p w) ∧
    ∀ rule x v, p.solve settings rule = .ok (.optimal x v) →
      ∃ n s, (p.start settings).after rule p.objective n = some s ∧
        s.advance rule p.objective = .stop (.ok (.optimal x v)) ∧ t₀.Arises s.tableau ∧
        x = s.tableau.solution ∧ v = p.goal.sign * s.tableau.value := by
  obtain ⟨hp, htol, rfl⟩ := ofProgram_eq_ok_iff.1 h₀
  refine ⟨fun t h => ⟨_, evaluates_of_arises hp htol.le h⟩, fun rule x v hsolve => ?_⟩
  cases hcheck : p.check settings with
  | error e =>
    rw [solve, run, hcheck] at hsolve
    cases hsolve
  | ok =>
    obtain ⟨n, s, hs, hphase, -, hstop, rfl⟩ := exists_of_solve_optimal hcheck hsolve
    obtain ⟨-, -, hrep⟩ := represents_of_after hp htol.le hs
    rw [hphase] at hrep
    have harises : (p.start settings).tableau.Arises s.tableau := Tableau.arises_of_after hs
    have hno : s.tableau.layout.inPhaseOne = false := Bool.eq_false_iff.2 fun hone => by
      have hcosts := hrep.costRows_eq_one
      rw [Tableau.costRows_of_inPhaseOne hone] at hcosts
      cases hcosts
    cases Stage.stops_of_advance hstop with
    | optimal =>
      refine ⟨n, s, hs, hstop, harises, rfl, ?_⟩
      rw [(evaluates_of_arises hp htol.le harises).value hno, Goal.sign_mul_sign]

/-- Maximize `x + 2 y + 1` under the constraints of `doubled`. -/
def doubledGain : LinearProgram ℚ :=
  ⟨.maximize, ⟨[1, 2], 1⟩, doubled.constraints⟩

/-- The initial tableau of `doubledGain` has the artificial cost `1 + 2` and shows the objective of
the origin. A run removes one of the equations, and its last tableau shows minus the maximum. -/
theorem doubledGain_value_eq : ∃ t₀ n s,
    Tableau.ofProgram doubledGain true (1 / 1000000) = .ok t₀ ∧ t₀.Evaluates doubledGain 1 ∧
    t₀.artificialRows.map t₀.right = [1, 2] ∧ t₀.value = 3 ∧ t₀.right 1 = 1 ∧
    doubledGain.solve .standard .steepest = .ok (.optimal [0, 1] 3) ∧
    (doubledGain.start .standard).after .steepest doubledGain.objective n = some s ∧
    s.advance .steepest doubledGain.objective = .stop (.ok (.optimal [0, 1] 3)) ∧
    t₀.Arises s.tableau ∧ s.tableau.Evaluates doubledGain 3 ∧ s.tableau.value = -3 := by
  let t₀ := Tableau.initial doubledGain true (1 / 1000000)
  let settings : Settings ℚ := .standard
  have h₀ : Tableau.ofProgram doubledGain settings.nonnegative settings.tolerance = .ok t₀ :=
    ofProgram_eq_ok_iff.2 ⟨by decide +kernel, by decide +kernel, rfl⟩
  have hsolve : doubledGain.solve .standard .steepest = .ok (.optimal [0, 1] 3) := by
    decide +kernel
  obtain ⟨hvalues, hreported⟩ := value_eq_of_arises h₀
  obtain ⟨n, s, hs, hstop, harises, hsolution, hvalue⟩ := hreported _ _ _ hsolve
  have hsign : doubledGain.goal.sign = (-1 : ℚ) := rfl
  have hpoint : ∀ {t : Tableau ℚ} {x : List ℚ} {w : ℚ}, t₀.Arises t → t.solution = x →
      doubledGain.objective.evalAt x = .ok w → t.Evaluates doubledGain w := by
    rintro t x w ht rfl hw
    obtain ⟨w', heval⟩ := hvalues t ht
    have heq := heval.evalAt
    rw [hw] at heq
    cases heq
    exact heval
  have hstart := hpoint .refl (show t₀.solution = [0, 0] by decide +kernel)
    (show doubledGain.objective.evalAt [0, 0] = .ok 1 by decide +kernel)
  have hlast := hpoint harises hsolution.symm
    (show doubledGain.objective.evalAt [0, 1] = .ok 3 by decide +kernel)
  rw [hsign] at hvalue
  exact ⟨t₀, n, s, h₀, hstart, by decide +kernel, by decide +kernel, by decide +kernel, hsolve, hs,
    hstop, harises, hlast, by linarith⟩

end LinearProgram

end Simplex
