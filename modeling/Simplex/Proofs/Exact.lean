import Simplex.Proofs.Breach
import Simplex.Proofs.Certificates
import Simplex.Proofs.Feasibility

/-!
# The method without a tolerance

With tolerance zero the ratio test is exact, so no right-hand side falls below zero
(`LinearProgram.checkFeasible_of_after`), and a row is removed only if it says nothing
(`LinearProgram.Handover.remainder_eq_zero`). The nonnegative solutions of the tableaus of phase two
then stand for the feasible points of the program and for no others
(`LinearProgram.models_of_after`), and whatever the method stops with is right
(`LinearProgram.correct_of_stop`). No solver accepts this tolerance, but the small ones lead to the
same stages.
-/

namespace Simplex

namespace Tableau

section
variable {K : Type} [Field K] [LinearOrder K] [IsStrictOrderedRing K] {t u : Tableau K}
  {r c : Nat} {X : Nat → K}

/-! ## The exact ratio test -/

/-- Without a tolerance a pivot does not overshoot. -/
theorem not_overshoots (hzero : t.tolerance = 0) (hright : ∀ i ∈ t.constraintRows, 0 ≤ t.right i)
    {rule : PivotRule} {cost : K} (hmove : t.move rule = .pivot r c cost) :
    ¬ t.Overshoots r c := by
  obtain ⟨-, hleaving, -⟩ := move_eq_pivot hmove
  obtain ⟨hr, -, -, hentry⟩ := position_of_move hmove
  rw [hzero] at hentry
  have hratio : 0 ≤ t.right r / t.entry r c := div_nonneg (hright r hr) hentry.le
  rintro ⟨i, hi, hlt⟩
  rw [hzero, neg_zero] at hlt
  refine absurd hlt (not_lt.2 ?_)
  split
  · exact hratio
  · rw [sub_nonneg]
    rcases le_or_gt (t.entry i c) 0 with hle | hpos
    · exact (mul_nonpos_of_nonpos_of_nonneg hle hratio).trans (hright i hi)
    · exact (le_div_iff₀' hpos).1 (ratio_le_of_leavingRow hzero hleaving hi hpos)

/-! ## Optimal costs and rays -/

/-- If no relative cost is negative, the basic solution has the least cost of all solutions without
negative values. -/
theorem Sound.value_le_residual (h : t.Sound) (hcost : ∀ j ∈ t.nonBasic, 0 ≤ t.cost j)
    (hX : ∀ j, 0 ≤ X j) : t.value ≤ t.residual 0 X := by
  have hle := h.value_sub_le_residual (le_refl 0) (by rwa [neg_zero]) fun j _ => hX j
  rwa [zero_mul, sub_zero] at hle

/-- Along a column of negative cost without a positive entry the cost falls below every bound. -/
theorem Sound.exists_ray (h : t.Sound) (hright : ∀ r ∈ t.constraintRows, 0 ≤ t.right r)
    (hc : c ∈ t.nonBasic) (hcost : t.cost c < 0)
    (hentry : ∀ r ∈ t.constraintRows, t.entry r c ≤ 0) (M : K) :
    ∃ X, t.Solves X ∧ (∀ j, 0 ≤ X j) ∧ t.residual 0 X < M := by
  obtain ⟨hlt, hb⟩ := mem_nonBasic.1 hc
  let θ := max 0 ((M + t.right 0) / t.cost c) + 1
  have hθ : 0 ≤ θ := add_nonneg (le_max_left _ _) zero_le_one
  have hbound : (M + t.right 0) / t.cost c < θ :=
    (le_max_right _ _).trans_lt (lt_add_one _)
  obtain ⟨X, hX, hXc, hzero, hbasic, hresidual⟩ := h.exists_edge hlt hb θ
  refine ⟨X, hX, fun j => ?_, ?_⟩
  · cases hj : t.isBasic j with
    | true =>
      obtain ⟨r, hr, rfl⟩ := (h.isBasic_iff j).1 hj
      rw [hbasic r hr]
      linarith [hright r hr, mul_nonpos_of_nonpos_of_nonneg (hentry r hr) hθ]
    | false =>
      by_cases hjc : j = c
      · rw [hjc, hXc]
        exact hθ
      · exact (hzero j hj hjc).ge
  · rw [div_lt_iff_of_neg hcost, cost] at hbound
    rw [hresidual 0 (costRows_pos _)]
    linarith

omit [IsStrictOrderedRing K] in
/-- At an optimum no relative cost is negative. -/
theorem cost_nonneg_of_move (hzero : t.tolerance = 0) {rule : PivotRule}
    (hmove : t.move rule = .optimal) : ∀ j ∈ t.nonBasic, 0 ≤ t.cost j := by
  have hcost := neg_tolerance_le_cost_of_move hmove
  rwa [hzero, neg_zero] at hcost

/-- A column that can grow forever gives a ray. -/
theorem Sound.exists_ray_of_move (h : t.Sound) (hzero : t.tolerance = 0)
    (hright : ∀ r ∈ t.constraintRows, 0 ≤ t.right r) {rule : PivotRule}
    (hmove : t.move rule = .unbounded c) (M : K) :
    ∃ X, t.Solves X ∧ (∀ j, 0 ≤ X j) ∧ t.residual 0 X < M := by
  obtain ⟨hc, hprofitable, hentry⟩ := move_eq_unbounded hmove
  rw [isProfitable, hzero, neg_zero, decide_eq_true_eq] at hprofitable
  simp only [hzero, not_lt] at hentry
  exact h.exists_ray hright hc hprofitable hentry M

/-! ## Rows that say nothing -/

/-- The artificial variables that are still basic are zero, and so are the rows that were noted for
removal, up to the artificial columns. -/
structure Redundant (u : Tableau K) (removed : List Nat) : Prop where
  right : ∀ r ∈ u.constraintRows, u.hasArtificialBasis r = true → u.right r = 0
  entry : ∀ r ∈ removed, ∀ j < u.layout.artificialStart, u.entry r j = 0

instance (u : Tableau K) (removed : List Nat) : Decidable (u.Redundant removed) :=
  decidable_of_iff ((∀ r ∈ u.constraintRows, u.hasArtificialBasis r = true → u.right r = 0) ∧
    ∀ r ∈ removed, ∀ j < u.layout.artificialStart, u.entry r j = 0)
    ⟨fun ⟨hright, hentry⟩ => ⟨hright, hentry⟩, fun ⟨hright, hentry⟩ => ⟨hright, hentry⟩⟩

/-- A row in which an artificial variable is basic at value zero has no replacement only if it is
zero. -/
theorem Sound.entry_eq_zero_of_replacement (h : u.Sound) (hzero : u.tolerance = 0)
    (hart : u.hasArtificialBasis r = true) (hright : u.right r = 0)
    (hrep : u.replacement r = none) {j : Nat} (hj : j < u.layout.artificialStart) :
    u.entry r j = 0 := by
  cases hb : u.isBasic j with
  | true =>
    obtain ⟨s, hs, rfl⟩ := (h.isBasic_iff j).1 hb
    refine h.entry_eq_zero hs ?_
    rintro rfl
    exact absurd (isArtificial_iff.1 hart).1 (Nat.not_le_of_lt hj)
  | false =>
    have hnot := replacement_eq_none_iff.1 hrep j hj hb
    rw [mayReplace, if_pos (by simpa using hright), hzero, Scalar.abs_eq_abs,
      decide_eq_false_iff_not, not_lt] at hnot
    exact abs_nonpos_iff.1 hnot

omit [IsStrictOrderedRing K] in
/-- At value zero a replacement moves no right-hand side, and it leaves rows of zeros alone. -/
theorem Redundant.exchange {removed : List Nat} (h : u.Redundant removed) (hu : u.Sound)
    (hr : r ∈ u.constraintRows) (hnot : r ∉ removed) (hart : u.hasArtificialBasis r = true)
    (hc : c < u.layout.artificialStart) (hentry : u.entry r c ≠ 0) :
    (u.exchange r c).Redundant removed where
  right s hs hs' := by
    have hlt : c < u.layout.variableCount := hc.trans_le (Nat.le_add_right _ _)
    rw [exchange_constraintRows] at hs
    rw [hasArtificialBasis_exchange hu.toConsistent hr hc hs] at hs'
    rw [exchange_right hu.toConsistent hr hlt hentry, h.right r hr hart, zero_div, mul_zero,
      sub_zero]
    split
    · rfl
    · next hne =>
      rw [if_neg hne] at hs'
      exact h.right s hs hs'
  entry s hs j hj := by
    have hlt : c < u.layout.variableCount := hc.trans_le (Nat.le_add_right _ _)
    have hne : s ≠ r := fun heq => hnot (heq ▸ hs)
    rw [exchange_entry hu.toConsistent hr hlt hentry, if_neg hne, h.entry s hs j hj,
      h.entry s hs c hc, zero_mul, sub_zero]

/-- Without a tolerance only rows of zeros are removed. -/
theorem Sound.redundant_replaceArtificials (h : t.Sound) (hzero : t.tolerance = 0)
    (hright : ∀ r ∈ t.constraintRows, t.hasArtificialBasis r = true → t.right r = 0) :
    ∃ u, t.replaceArtificials = .ok (u, u.artificialRows) ∧ u.Redundant u.artificialRows := by
  obtain ⟨u, hu, -, -, hredundant⟩ := replaceArtificials_rule h hzero.ge Redundant
    ⟨hright, fun _ hr => (nomatch hr)⟩
    (fun u removed r c hu hsame hred hr hnot hart hrep => by
      obtain ⟨hc, -, -, hentry⟩ := replacement_eq_some (by rw [hsame.tolerance, hzero]) hrep
      exact hred.exchange hu hr hnot hart hc hentry)
    (fun u removed r hu hsame hred hr hart hrep => by
      refine ⟨hred.right, fun s hs j hj => ?_⟩
      rcases List.mem_append.1 hs with hs | hs
      · exact hred.entry s hs j hj
      · rw [List.mem_singleton.1 hs]
        exact hu.entry_eq_zero_of_replacement (by rw [hsame.tolerance, hzero]) hart
          (hred.right r hr hart) hrep hj)
  exact ⟨u, hu, hredundant⟩

omit [IsStrictOrderedRing K] in
/-- A row that says nothing leaves nothing for its artificial variable. -/
theorem Redundant.remainder_eq_zero (h : u.Redundant u.artificialRows) (hr : r ∈ u.artificialRows)
    (X : Nat → K) : u.remainder r X = 0 := by
  obtain ⟨hrow, hart⟩ := mem_artificialRows.1 hr
  rw [remainder, h.right r hrow hart, Finset.sum_eq_zero, sub_zero]
  intro j hj
  rw [h.entry r hr j (Finset.mem_range.1 hj), zero_mul]

end

end Tableau

namespace LinearProgram

section
variable {K : Type} [Field K] [LinearOrder K] [IsStrictOrderedRing K] {p : LinearProgram K}
  {settings : Settings K} {rule : PivotRule} {nonnegative : Bool} {n : Nat} {s : Stage K}
  {t u : Tableau K}

/-! ## Stages without a tolerance -/

/-- Without a tolerance every stage passes the check. -/
theorem checkFeasible_of_after (hp : ∀ c ∈ p.constraints, c.left.arity = p.objective.arity)
    (hzero : settings.tolerance = 0) (hs : (p.start settings).after rule p.objective n = some s) :
    s.tableau.checkFeasible = .ok () := by
  cases hcheck : s.tableau.checkFeasible with
  | ok => rfl
  | error b =>
    obtain ⟨-, m, u, r, c, cost, hu, -, hcheck', -, hmove, hover⟩ :=
      overshoots_of_check hp hzero.ge hs hcheck
    obtain ⟨hsound, htolerance, -⟩ := represents_of_after hp hzero.ge hu
    rw [hzero] at htolerance
    have hright := hsound.checkFeasible_eq_ok.1 hcheck'
    rw [htolerance, neg_zero] at hright
    exact absurd hover (Tableau.not_overshoots htolerance hright hmove)

/-- Without a tolerance no right-hand side and no value of a basic solution is negative. -/
theorem nonneg_of_after (hp : ∀ c ∈ p.constraints, c.left.arity = p.objective.arity)
    (hzero : settings.tolerance = 0) (hs : (p.start settings).after rule p.objective n = some s) :
    (∀ r ∈ s.tableau.constraintRows, 0 ≤ s.tableau.right r) ∧
      ∀ j, 0 ≤ s.tableau.basicPoint j := by
  obtain ⟨hsound, htolerance, -⟩ := represents_of_after hp hzero.ge hs
  rw [hzero] at htolerance
  have hcheck := checkFeasible_of_after hp hzero hs
  have hright := hsound.checkFeasible_eq_ok.1 hcheck
  have hpoint := hsound.neg_tolerance_le_basicPoint htolerance.ge hcheck
  rw [htolerance, neg_zero] at hright hpoint
  exact ⟨hright, hpoint⟩

/-- Without a tolerance only rows that say nothing are removed when phase one is left. -/
theorem Handover.redundant (hp : ∀ c ∈ p.constraints, c.left.arity = p.objective.arity)
    (hzero : settings.tolerance = 0) (h : p.Handover settings rule u) :
    u.Redundant u.artificialRows := by
  obtain ⟨n, s, removed, v, hs, hphase, hgo, hreplace⟩ := h
  obtain ⟨hsound, htolerance, hrep⟩ := represents_of_after hp hzero.ge hs
  obtain ⟨-, hX⟩ := nonneg_of_after hp hzero hs
  rw [hzero] at htolerance
  obtain ⟨hone, hsame⟩ := hrep.of_one hphase
  have hvalue : s.tableau.value ≤ 0 := by
    obtain ⟨-, ⟨_, _, _, _, -, -, -, heq⟩ | ⟨_, _, -, hcost, -, -⟩⟩ := Stage.advance_eq_go hgo
    · rw [hphase] at heq
      cases heq
    · rw [htolerance] at hcost
      exact not_lt.1 hcost
  have hcost : s.tableau.residual 0 s.tableau.basicPoint ≤ 0 := by
    rw [hsound.residual_basicPoint (Tableau.costRows_pos _)]
    exact hvalue
  obtain ⟨u', hu', hredundant⟩ := hsound.redundant_replaceArtificials htolerance
    fun r hr hart => by
      rw [← hsound.basicPoint_basicColumn hr]
      exact (hrep.showsCosts hp).eq_zero (hrep.inPhaseOne hphase) hsound.solves_basicPoint
        (fun j _ => hX j) hcost hart
  rw [hreplace] at hu'
  cases hu'
  exact hredundant

/-! ## Phase two stands for the program -/

/-- The solutions of a tableau without negative values stand for the feasible points of a program
and for no others, and their cost is the objective, negated for a maximization. -/
structure Models (p : LinearProgram K) (nonnegative : Bool) (t : Tableau K) : Prop where
  feasible : ∀ X, t.Solves X → (∀ j, 0 ≤ X j) →
    p.Feasible nonnegative 0 ((p.layout nonnegative).decode X)
  cost : ∀ X, t.Solves X → t.residual 0 X =
    p.goal.sign * p.objective.eval ((p.layout nonnegative).decode X)
  complete : ∀ x, p.Feasible nonnegative 0 x →
    ∃ X, t.Solves X ∧ (∀ j, 0 ≤ X j) ∧ (p.layout nonnegative).decode X = x

omit [IsStrictOrderedRing K] in
/-- Tableaus of the same program stand for the same points. -/
theorem Models.congr (h : p.Models nonnegative t) (hsame : Tableau.SameProgram t u) :
    p.Models nonnegative u where
  feasible X hX := h.feasible X ((hsame.solves X).1 hX)
  cost X hX := by
    rw [hsame.cost X ((hsame.solves X).1 hX) 0 (Tableau.costRows_pos _)]
    exact h.cost X ((hsame.solves X).1 hX)
  complete x hx := by
    obtain ⟨X, hX, hrest⟩ := h.complete x hx
    exact ⟨X, (hsame.solves X).2 hX, hrest⟩

/-- Without artificial variables the initial tableau stands for the program. -/
theorem models_initial (hp : ∀ c ∈ p.constraints, c.left.arity = p.objective.arity)
    (hphase : ¬ (p.layout nonnegative).inPhaseOne = true) (tolerance : K) :
    p.Models nonnegative (.initial p nonnegative tolerance) where
  feasible X hX hnonneg :=
    feasible_of_solves hp (le_refl 0) hphase hX fun j => neg_zero.trans_le (hnonneg j)
  cost X _ := by
    have hcosts : (p.layout nonnegative).costRows - 1 = 0 := by
      rw [Layout.costRows, if_neg hphase]
    rw [← Tableau.residual_initial_cost p nonnegative tolerance, hcosts]
  complete x hx :=
    ⟨p.lift nonnegative x, solves_lift hp hx, hx.lift_nonneg, decode_lift hx.length⟩

/-- What is left when only rows that say nothing are removed stands for the program. -/
theorem models_strip (hp : ∀ c ∈ p.constraints, c.left.arity = p.objective.arity)
    (hphase : (p.layout settings.nonnegative).inPhaseOne = true) (hu : u.Sound)
    (hsame : Tableau.SameProgram (.initial p settings.nonnegative settings.tolerance) u)
    (hredundant : u.Redundant u.artificialRows) :
    p.Models settings.nonnegative (u.strip u.artificialRows) where
  feasible X hX hnonneg := by
    have hX' : ∀ j, -(0 : K) ≤ X j := fun j => neg_zero.trans_le (hnonneg j)
    rw [feasible_iff_of_strip hp (le_refl 0) hphase hu hsame hX hX']
    intro r hr i c _ _ _
    rw [hredundant.remainder_eq_zero hr]
    exact Tableau.admits_slack (le_refl 0) fun _ => hX' _
  cost X hX := by
    have hphase' : u.layout.inPhaseOne = true := by rw [hsame.layout]; exact hphase
    have hinit := Tableau.showsCosts_initial hp settings.nonnegative settings.tolerance
    have hcost := ((hinit.congr hsame).strip hu hphase').objective X hX
    rwa [Tableau.layout_strip, hsame.layout] at hcost
  complete x hx := by
    have hproper := ((hx.proper_lift hp).congr hsame).strip hu (by rw [hsame.layout]; exact hphase)
    exact ⟨_, hproper.solves, hx.lift_nonneg, decode_lift hx.length⟩

/-- **Without a tolerance every tableau of phase two stands for the program.** -/
theorem models_of_after (hp : ∀ c ∈ p.constraints, c.left.arity = p.objective.arity)
    (hzero : settings.tolerance = 0) (hs : (p.start settings).after rule p.objective n = some s)
    (hphase : s.phase = .two) : p.Models settings.nonnegative s.tableau := by
  obtain ⟨-, -, hrep⟩ := represents_of_after hp hzero.ge hs
  rw [hphase] at hrep
  cases hrep with
  | direct hno hsame => exact (models_initial hp hno settings.tolerance).congr hsame
  | dropped hone hover hu hsame hrest =>
    exact (models_strip hp hone hu hsame (hover.redundant hp hzero)).congr hrest

/-! ## Verdicts -/

/-- What an outcome says about a program: the point is feasible and no feasible point is better,
there is no feasible point, or feasible points are better than every bound. -/
def Correct (p : LinearProgram K) (nonnegative : Bool) : Outcome K → Prop
  | .optimal x v => p.Feasible nonnegative 0 x ∧ v = p.objective.eval x ∧
      ∀ y, p.Feasible nonnegative 0 y → ¬ p.goal.Improves (p.objective.eval y) v
  | .infeasible => ∀ y, ¬ p.Feasible nonnegative 0 y
  | .unbounded => ∀ M, ∃ y, p.Feasible nonnegative 0 y ∧ p.goal.Improves (p.objective.eval y) M

/-- The basic solution of a tableau that stands for the program is optimal if no relative cost is
negative. -/
theorem Models.correct_optimal (h : p.Models nonnegative t) (ht : t.Sound)
    (hX : ∀ j, 0 ≤ t.basicPoint j) (hcost : ∀ j ∈ t.nonBasic, 0 ≤ t.cost j) :
    p.Correct nonnegative (.optimal ((p.layout nonnegative).decode t.basicPoint)
      (p.objective.eval ((p.layout nonnegative).decode t.basicPoint))) := by
  refine ⟨h.feasible _ ht.solves_basicPoint hX, rfl, fun y hy => ?_⟩
  obtain ⟨Y, hY, hnonneg, rfl⟩ := h.complete y hy
  rw [Goal.improves_iff, not_lt, ← h.cost Y hY, ← h.cost _ ht.solves_basicPoint,
    ht.residual_basicPoint (Tableau.costRows_pos _)]
  exact ht.value_le_residual hcost hnonneg

/-- **Without a tolerance the method is right.** It stops with no failure, and what the outcome says
about the program is true. -/
theorem correct_of_stop (hp : ∀ c ∈ p.constraints, c.left.arity = p.objective.arity)
    (hzero : settings.tolerance = 0) (hs : (p.start settings).after rule p.objective n = some s)
    {r : Except Failure (Outcome K)} (hstop : s.advance rule p.objective = .stop r) :
    ∃ outcome, r = .ok outcome ∧ p.Correct settings.nonnegative outcome := by
  obtain ⟨hsound, htolerance, hrep⟩ := represents_of_after hp hzero.ge hs
  obtain ⟨hright, hX⟩ := nonneg_of_after hp hzero hs
  have hbreach : ∀ {b}, s.advance rule p.objective ≠ .stop (.error (.breach b)) := fun hb => by
    have hcheck := check_of_breach hp hzero.ge hs hb
    rw [checkFeasible_of_after hp hzero hs] at hcheck
    cases hcheck
  rw [hzero] at htolerance
  cases Stage.stops_of_advance hstop with
  | check | pivot | drop => exact absurd hstop hbreach
  | artificialUnbounded hcheck hphase hmove =>
    obtain ⟨X, hsolves, hnonneg, hlt⟩ := hsound.exists_ray_of_move htolerance hright hmove 0
    exact absurd hlt (not_lt.2 ((hrep.showsCosts hp).nonneg (hrep.inPhaseOne hphase) hsolves
      fun j _ => hnonneg j))
  | infeasible hcheck hphase hrest hcost =>
    refine ⟨_, rfl, fun y hy => ?_⟩
    have hle := value_le_weight hp hzero.ge hs hphase (move_eq_optimal_of_rest hrest hcost) hy
    rw [hzero, zero_mul, ← htolerance] at hle
    exact absurd hcost (not_lt.2 hle)
  | unbounded hcheck hphase hmove =>
    refine ⟨_, rfl, fun M => ?_⟩
    have hmodels := models_of_after hp hzero hs hphase
    obtain ⟨X, hsolves, hnonneg, hlt⟩ :=
      hsound.exists_ray_of_move htolerance hright hmove (p.goal.sign * M)
    refine ⟨_, hmodels.feasible X hsolves hnonneg, ?_⟩
    rwa [Goal.improves_iff, ← hmodels.cost X hsolves]
  | optimal hcheck hphase hmove =>
    refine ⟨_, rfl, ?_⟩
    rw [hphase] at hrep
    rw [hrep.solution_eq]
    exact (models_of_after hp hzero hs hphase).correct_optimal hsound hX
      (Tableau.cost_nonneg_of_move htolerance hmove)

end

end LinearProgram

end Simplex
