import Mathlib.Algebra.BigOperators.Group.List.Lemmas
import Simplex.Proofs.Reachable

/-!
# What a verdict is worth

A run stops when no relative cost is below minus the tolerance, so what it reports is right up to
the tolerance times the weight of a point (`LinearProgram.weight`): the sizes of its coordinates and
the distances of the two sides of the inequalities, added up. The weight is the sum of all variables
of the solution that the point lifts to (`LinearProgram.sum_lift`).

No feasible point is better than a reported optimum by more than the tolerance times its weight,
also if rows were removed (`LinearProgram.sub_weight_le_of_optimal`). If a program is reported to be
infeasible, its feasible points, if there are any, have a weight of at least the artificial cost
that was left over the tolerance (`LinearProgram.div_le_weight_of_infeasible`).
-/

namespace Simplex

section
variable {K : Type} [Field K] [LinearOrder K]

/-! ## The weight of a point -/

namespace LinearProgram

variable {p : LinearProgram K} {nonnegative : Bool} {y : List K}

/-- The sizes of the coordinates of a point, and the distances of the two sides of the inequalities
there, added up. -/
def weight (p : LinearProgram K) (y : List K) : K :=
  (y.map (|·|)).sum +
    ((p.constraints.filter (·.comparison.hasSlack)).map fun c => |c.gap y|).sum

/-- The normal forms have the distances of the constraints. -/
theorem sum_distances (p : LinearProgram K) (y : List K) :
    ((p.normalized.filter (·.comparison.hasSlack)).map fun c => |c.gap y|).sum =
      ((p.constraints.filter (·.comparison.hasSlack)).map fun c => |c.gap y|).sum := by
  have hslack : (fun c : Constraint K => c.comparison.hasSlack) ∘ Constraint.normalize =
      fun c => c.comparison.hasSlack := funext Constraint.hasSlack_normalize
  have hgap : (fun c : Constraint K => |c.gap y|) ∘ Constraint.normalize = fun c => |c.gap y| :=
    funext fun c => c.abs_gap_normalize y
  rw [normalized, List.filter_map, List.map_map, hslack, hgap]

variable [IsStrictOrderedRing K]

/-- The parts of the coordinates add up to their sizes. -/
theorem sum_parts (hy : nonnegative = true → ∀ v ∈ y, 0 ≤ v) :
    (parts nonnegative y).sum = (y.map (|·|)).sum := by
  cases nonnegative with
  | true =>
    have hsize : y.map (|·|) = y.map id :=
      List.map_congr_left fun v hv => abs_of_nonneg (hy rfl v hv)
    rw [hsize, List.map_id]
    rfl
  | false =>
    have hsize : y.map (|·|) = y.map fun v => max v 0 + max (-v) 0 :=
      List.map_congr_left fun v _ => (max_zero_add_max_neg_zero_eq_abs_self v).symm
    rw [hsize, List.sum_map_add, ← List.sum_append]
    rfl

/-- The variables of the solution that a feasible point lifts to add up to its weight. -/
theorem sum_lift (hy : p.Feasible nonnegative 0 y) {n : Nat}
    (hn : (p.layout nonnegative).artificialStart ≤ n) :
    ∑ j ∈ Finset.range n, p.lift nonnegative y j = p.weight y := by
  rw [← length_parts_append hy.length] at hn
  rw [weight, ← sum_distances, ← sum_parts hy.nonneg, ← List.sum_append, ← sum_range_getD hn]
  rfl

/-! ## The bound at the end of a phase -/

variable {settings : Settings K} {rule : PivotRule} {t : Tableau K} {n : Nat} {s : Stage K}

/-- **What the last tableau of a phase says about a feasible point.** Its cost is below that of the
basic solution by no more than the tolerance times its weight. -/
theorem value_sub_weight_le (hp : ∀ c ∈ p.constraints, c.left.arity = p.objective.arity)
    (htol : 0 ≤ settings.tolerance) (hs : (p.start settings).after rule p.objective n = some s)
    (hmove : s.tableau.move rule = .optimal) (hy : p.Feasible settings.nonnegative 0 y) :
    s.tableau.Proper (p.lift settings.nonnegative y) ∧
      s.tableau.value - settings.tolerance * p.weight y ≤
        s.tableau.residual 0 (p.lift settings.nonnegative y) := by
  obtain ⟨hsound, htolerance, hrep⟩ := represents_of_after hp htol hs
  have hX := hrep.proper (hy.proper_lift hp)
  have hcost := Tableau.neg_tolerance_le_cost_of_move hmove
  rw [htolerance] at hcost
  have hle := hsound.value_sub_le_residual htol hcost hX.nonneg
  rw [sum_lift hy hrep.artificialStart_le] at hle
  exact ⟨hX, hle⟩

/-- **A certificate of optimality.** No feasible point is better than the reported optimum by more
than the tolerance times its weight. -/
theorem sub_weight_le_of_optimal {x : List K} {v : K} (h : p.check settings = .ok ())
    (hsolve : p.solve settings rule = .ok (.optimal x v))
    (hy : p.Feasible settings.nonnegative 0 y) :
    p.goal.sign * v - settings.tolerance * p.weight y ≤ p.goal.sign * p.objective.eval y := by
  obtain ⟨htol, hp⟩ := of_check h
  obtain ⟨n, s, hs, hphase, -, hstop, -⟩ := exists_of_solve_optimal h hsolve
  obtain ⟨hsound, -, hrep⟩ := represents_of_after hp htol.le hs
  rw [hphase] at hrep
  cases Stage.stops_of_advance hstop with
  | optimal _ _ hmove =>
    obtain ⟨hX, hle⟩ := value_sub_weight_le hp htol.le hs hmove hy
    have hvalue : s.tableau.value = p.goal.sign * p.objective.eval s.tableau.solution := by
      rw [hrep.solution_eq, ← hrep.residual_eq hp hsound.solves_basicPoint,
        hsound.residual_basicPoint (Tableau.costRows_pos _), Tableau.value]
    rwa [hvalue, hrep.residual_eq hp hX.solves, decode_lift hy.length] at hle

/-- Minimize `-y / 10000000` subject to `x + y = 1`, `2 x + 2 y = 2` and `x ≤ 2`. -/
def doubled : LinearProgram ℚ :=
  ⟨.minimize, ⟨[0, -1 / 10000000], 0⟩,
    [.linear [1, 1] .equal 1, .linear [2, 2] .equal 2, .linear [1, 0] .atMost 2]⟩

/-- The point `(0, 1)` is better than the reported optimum of `doubled`, but only by less than the
tolerance times its weight. One of the equations is removed on the way. -/
theorem doubled_sub_weight_le : doubled.check .standard = .ok () ∧
    doubled.solve .standard .steepest = .ok (.optimal [1, 0] 0) ∧
    doubled.Feasible true 0 [0, 1] ∧ doubled.objective.eval [0, 1] < 0 ∧
    doubled.weight [0, 1] = 3 ∧ doubled.goal.sign * 0 - 1 / 1000000 * doubled.weight [0, 1] ≤
      doubled.goal.sign * doubled.objective.eval [0, 1] := by
  have hcheck : doubled.check .standard = .ok () := by decide +kernel
  have hsolve : doubled.solve .standard .steepest = .ok (.optimal [1, 0] 0) := by decide +kernel
  have hfeasible : doubled.Feasible true 0 [0, 1] := ⟨rfl, by decide +kernel, by decide +kernel⟩
  exact ⟨hcheck, hsolve, hfeasible, by decide +kernel, by decide +kernel,
    sub_weight_le_of_optimal hcheck hsolve hfeasible⟩

omit [IsStrictOrderedRing K] in
/-- A phase one that ends with an artificial cost above the tolerance ends because no column is
profitable. -/
theorem move_eq_optimal_of_rest
    (hrest : Phase.one.settled t = true ∨ t.move rule = .optimal) (hcost : t.tolerance < t.value) :
    t.move rule = .optimal := by
  refine hrest.resolve_left fun hsettled => ?_
  rw [Phase.settled, decide_eq_true_eq] at hsettled
  exact absurd hcost (not_lt.2 hsettled)

/-- The artificial cost that is left at the end of phase one is made up for by the weight of every
feasible point. -/
theorem value_le_weight (hp : ∀ c ∈ p.constraints, c.left.arity = p.objective.arity)
    (htol : 0 ≤ settings.tolerance) (hs : (p.start settings).after rule p.objective n = some s)
    (hphase : s.phase = .one) (hmove : s.tableau.move rule = .optimal)
    (hy : p.Feasible settings.nonnegative 0 y) :
    s.tableau.value ≤ settings.tolerance * p.weight y := by
  obtain ⟨-, -, hrep⟩ := represents_of_after hp htol hs
  obtain ⟨hX, hle⟩ := value_sub_weight_le hp htol hs hmove hy
  rwa [(hrep.showsCosts hp).artificial (hrep.inPhaseOne hphase) _ hX.solves,
    hX.artificialSum_eq_zero, sub_nonpos] at hle

/-- Where phase one ends without a feasible basis, the artificial cost is above the tolerance, and
every feasible point makes up for it. -/
theorem div_le_weight_of_stop (hp : ∀ c ∈ p.constraints, c.left.arity = p.objective.arity)
    (htol : 0 < settings.tolerance) (hs : (p.start settings).after rule p.objective n = some s)
    (hstop : s.advance rule p.objective = .stop (.ok .infeasible)) :
    settings.tolerance < s.tableau.value ∧ ∀ y, p.Feasible settings.nonnegative 0 y →
      s.tableau.value / settings.tolerance ≤ p.weight y := by
  obtain ⟨-, htolerance, -⟩ := represents_of_after hp htol.le hs
  cases Stage.stops_of_advance hstop with
  | infeasible _ hphase hrest hcost =>
    refine ⟨by rwa [← htolerance], fun y hy => ?_⟩
    have hmove := move_eq_optimal_of_rest hrest hcost
    exact (div_le_iff₀' htol).2 (value_le_weight hp htol.le hs hphase hmove hy)

/-- **A certificate of infeasibility.** Phase one ends with an artificial cost above the tolerance,
and every feasible point weighs at least as much as this cost is a multiple of the tolerance, so
more than one. -/
theorem div_le_weight_of_infeasible (h : p.check settings = .ok ())
    (hsolve : p.solve settings rule = .ok .infeasible) :
    ∃ s, (Trail.start none (Tableau.initial p settings.nonnegative
          settings.tolerance)).recordCreation.phaseOne rule settings.pivotLimit =
        (s, .ok .infeasible) ∧
      settings.tolerance < s.tableau.value ∧
      ∀ y, p.Feasible settings.nonnegative 0 y →
        s.tableau.value / settings.tolerance ≤ p.weight y ∧ 1 < p.weight y := by
  obtain ⟨htol, hp⟩ := of_check h
  obtain ⟨t, hend, n, hs, hstop⟩ := exists_of_solve_infeasible h hsolve
  obtain ⟨hcost, hweight⟩ := div_le_weight_of_stop hp htol hs hstop
  refine ⟨t, hend, hcost, fun y hy => ⟨hweight y hy, ?_⟩⟩
  exact ((one_lt_div htol).2 hcost).trans_le (hweight y hy)

/-- Minimize `x` subject to `x / 10000000 ≥ 1`. -/
def faint : LinearProgram ℚ :=
  ⟨.minimize, ⟨[1], 0⟩, [.linear [1 / 10000000] .atLeast 1]⟩

/-- The program `faint` is reported to be infeasible, as its only column is not worth a pivot. Its
feasible point `10000000` has the great weight that this takes. -/
theorem faint_div_le_weight : faint.check .standard = .ok () ∧
    faint.solve .standard .steepest = .ok .infeasible ∧ faint.Feasible true 0 [10000000] ∧
    ∃ s, (Trail.start none (Tableau.initial faint true (1 / 1000000))).recordCreation.phaseOne
        .steepest 10000 = (s, .ok .infeasible) ∧
      1 / 1000000 < s.tableau.value ∧
      s.tableau.value / (1 / 1000000) ≤ faint.weight [10000000] := by
  have hcheck : faint.check .standard = .ok () := by decide +kernel
  have hsolve : faint.solve .standard .steepest = .ok .infeasible := by decide +kernel
  have hfeasible : faint.Feasible true 0 [10000000] := ⟨rfl, by decide +kernel, by decide +kernel⟩
  obtain ⟨s, hs, hcost, hweight⟩ := div_le_weight_of_infeasible hcheck hsolve
  exact ⟨hcheck, hsolve, hfeasible, s, hs, hcost, (hweight _ hfeasible).1⟩

end LinearProgram

end

end Simplex
