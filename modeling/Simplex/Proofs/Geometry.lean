import Mathlib.Algebra.Order.Field.Rat
import Simplex.Proofs.Feasibility

/-!
# Vertices and rays

A basic solution is the only one in which its nonbasic variables are zero. So a reported point that
is feasible is a vertex, if no variable may be negative: it lies strictly between no two feasible
points (`LinearProgram.vertex_of_optimal`). A column that can grow forever is a direction, in which
the basic variables follow the column (`Tableau.Direction`). So behind a program that is reported to
be unbounded there is a ray along which the objective gets better without end, feasible up to the
tolerance times the distance (`LinearProgram.exists_ray_of_unbounded`).

Both are about the constraints that are left in phase two, and so about the program only if phase
one removed none (`LinearProgram.KeepsConstraints`). Then a solution of a tableau of phase two is a
solution of the initial tableau with artificial variables that are zero
(`LinearProgram.Represents.exists_solves_initial`).
-/

namespace Simplex

section
variable {K : Type} [Field K] [LinearOrder K]

/-! ## Combinations of solutions -/

omit [LinearOrder K] in
/-- The point of a combination is the combination of the points. -/
theorem Layout.decode_combination (l : Layout) (w z : K) (X Y : Nat → K) :
    l.decode (fun j => w * X j + z * Y j) =
      List.zipWith (fun a b => w * a + z * b) (l.decode X) (l.decode Y) := by
  rw [decode, decode, decode, List.zipWith_map, List.zipWith_self]
  refine List.map_congr_left fun j _ => ?_
  split <;> ring

namespace Tableau

variable {t : Tableau K} {X Y D : Nat → K} {c : Nat}

/-- The activities of a combination. -/
theorem activity_combination (t : Tableau K) (i : Nat) (w z : K) (X Y : Nat → K) :
    t.activity i (fun j => w * X j + z * Y j) = w * t.activity i X + z * t.activity i Y := by
  simp only [activity, Finset.mul_sum, ← Finset.sum_add_distrib]
  exact Finset.sum_congr rfl fun j _ => by ring

/-- The activity of a constraint row at a solution is its right-hand side. -/
theorem Solves.activity_eq (hX : t.Solves X) {r : Nat} (hr : r ∈ t.constraintRows) :
    t.activity r X = t.right r :=
  sub_eq_zero.1 (hX r hr)

/-- With weights that add up to one, a combination of two solutions is a solution. -/
theorem Solves.combination (hX : t.Solves X) (hY : t.Solves Y) {w z : K} (h : w + z = 1) :
    t.Solves fun j => w * X j + z * Y j := by
  intro r hr
  rw [residual, activity_combination, hX.activity_eq hr, hY.activity_eq hr, ← add_mul, h, one_mul,
    sub_self]

/-- The direction in which a variable outside of the basis grows: the basic variables follow it, and
the others stay where they are. -/
structure Direction (t : Tableau K) (c : Nat) (D : Nat → K) : Prop where
  constraint : ∀ r ∈ t.constraintRows, t.activity r D = 0
  cost : ∀ i < t.layout.costRows, t.activity i D = t.entry i c
  entering : D c = 1
  basic : ∀ r ∈ t.constraintRows, D (t.basicColumn r) = -t.entry r c
  rest : ∀ j, t.isBasic j = false → j ≠ c → D j = 0

/-- Every variable outside of the basis has its direction. -/
theorem Sound.exists_direction (h : t.Sound) (hc : c ∈ t.nonBasic) : ∃ D, t.Direction c D := by
  obtain ⟨hlt, hb⟩ := mem_nonBasic.1 hc
  obtain ⟨X, hX, hXc, hzero, hbasic, hcost⟩ := h.exists_edge hlt hb 1
  have hP := h.solves_basicPoint
  refine ⟨fun j => 1 * X j + -1 * t.basicPoint j, ?_, ?_, ?_, ?_, ?_⟩
  · intro r hr
    rw [activity_combination, hX.activity_eq hr, hP.activity_eq hr]
    ring
  · intro i hi
    have hXi : t.activity i X = t.entry i c := by
      rw [← mul_one (t.entry i c)]
      exact sub_left_inj.1 (hcost i hi)
    have hPi : t.activity i t.basicPoint = 0 := sub_eq_neg_self.1 (h.residual_basicPoint hi)
    rw [activity_combination, hXi, hPi]
    ring
  · rw [hXc, h.basicPoint_eq_zero hb]
    ring
  · intro r hr
    rw [hbasic r hr, h.basicPoint_basicColumn hr]
    ring
  · intro j hj hne
    rw [hzero j hj hne, h.basicPoint_eq_zero hj]
    ring

/-- Solutions lead to solutions in such a direction. The weight of the first one is written out, as
in every combination. -/
theorem Direction.solves (h : t.Direction c D) (hX : t.Solves X) (θ : K) :
    t.Solves fun j => 1 * X j + θ * D j := by
  intro r hr
  rw [residual, activity_combination, hX.activity_eq hr, h.constraint r hr]
  ring

/-- The cost changes in proportion to the relative cost of the column. -/
theorem Direction.residual_eq (h : t.Direction c D) (X : Nat → K) (θ : K) :
    t.residual 0 (fun j => 1 * X j + θ * D j) = t.residual 0 X + θ * t.cost c := by
  rw [residual, activity_combination, h.cost 0 (costRows_pos _), residual, Tableau.cost]
  ring

variable [IsStrictOrderedRing K]

/-- If no entry of the column is above the tolerance, no variable falls by more than the tolerance
with every step. -/
theorem Direction.neg_tolerance_le (h : t.Direction c D) (ht : t.Sound) (htol : 0 ≤ t.tolerance)
    (hentry : ∀ r ∈ t.constraintRows, ¬ t.tolerance < t.entry r c) (j : Nat) :
    -t.tolerance ≤ D j := by
  have hneg : -t.tolerance ≤ 0 := neg_nonpos.2 htol
  cases hb : t.isBasic j with
  | true =>
    obtain ⟨r, hr, rfl⟩ := (ht.isBasic_iff j).1 hb
    rw [h.basic r hr]
    exact neg_le_neg (not_lt.1 (hentry r hr))
  | false =>
    by_cases hjc : j = c
    · rw [hjc, h.entering]
      exact hneg.trans zero_le_one
    · rw [h.rest j hb hjc]
      exact hneg

/-- If the basic solution lies strictly between two solutions without negative values, these are the
same. -/
theorem Sound.eq_of_between (h : t.Sound) (hX : t.Solves X) (hY : t.Solves Y) {w : K} (hw : 0 < w)
    (hw' : w < 1) (hXnonneg : ∀ j, 0 ≤ X j) (hYnonneg : ∀ j, 0 ≤ Y j)
    (hbetween : ∀ j ∈ t.outside, w * X j + (1 - w) * Y j = 0) {j : Nat}
    (hj : j < t.layout.variableCount) : X j = Y j := by
  have hzero : ∀ j ∈ t.outside, X j = 0 ∧ Y j = 0 := fun j hj => by
    obtain ⟨hXj, hYj⟩ := (add_eq_zero_iff_of_nonneg (mul_nonneg hw.le (hXnonneg j))
      (mul_nonneg (sub_nonneg.2 hw'.le) (hYnonneg j))).1 (hbetween j hj)
    exact ⟨(mul_eq_zero.1 hXj).resolve_left hw.ne',
      (mul_eq_zero.1 hYj).resolve_left (sub_pos.2 hw').ne'⟩
  cases hb : t.isBasic j with
  | false =>
    obtain ⟨hXj, hYj⟩ := hzero j (mem_outside.2 ⟨hj, hb⟩)
    rw [hXj, hYj]
  | true =>
    obtain ⟨r, hr, rfl⟩ := (h.isBasic_iff j).1 hb
    rw [(h.solves_iff X).1 hX r hr, (h.solves_iff Y).1 hY r hr]
    congr 1
    refine Finset.sum_congr rfl fun k hk => ?_
    rw [(hzero k hk).1, (hzero k hk).2]

end Tableau

namespace LinearProgram

variable {p : LinearProgram K} {settings : Settings K} {rule : PivotRule} {t : Tableau K}
  {nonnegative : Bool} {tolerance : K} {X Y : Nat → K} {x : List K} {v : K}

/-! ## Runs that remove no constraint -/

/-- Phase one, if it takes place, finds a feasible basis and removes no constraint. -/
def KeepsConstraints (p : LinearProgram K) (settings : Settings K) (rule : PivotRule) : Prop :=
  (p.layout settings.nonnegative).inPhaseOne = true →
    ((p.opening settings none).phaseOne rule settings.pivotLimit).2 = .ok (.feasible [])

/-- Then no artificial variable is left in the basis when they are dropped. -/
theorem KeepsConstraints.artificialRows_eq [IsStrictOrderedRing K]
    (h : p.KeepsConstraints settings rule)
    (hp : ∀ c ∈ p.constraints, c.left.arity = p.objective.arity) (htol : 0 ≤ settings.tolerance)
    {u : Tableau K} (hu : p.Handover settings rule u) : u.artificialRows = [] := by
  obtain ⟨v, hv, -, -, hremoved⟩ :=
    exists_handover_of_phaseOne hp htol hu.inPhaseOne (Prod.ext rfl (h hu.inPhaseOne))
  rw [hu.unique hv]
  exact List.map_eq_nil_iff.1 hremoved.symm

/-- In phase two the columns are those of the decision and the slack variables. -/
theorem Represents.variableCount_eq (h : p.Represents settings rule .two t) :
    t.layout.variableCount = (p.layout settings.nonnegative).artificialStart := by
  cases h with
  | direct hno hsame =>
    rw [hsame.layout]
    have hnone : (p.layout settings.nonnegative).artificial = 0 := by
      simpa [Layout.inPhaseOne] using hno
    exact congrArg ((p.layout settings.nonnegative).artificialStart + ·) hnone
  | dropped _ _ _ hsame hrest =>
    rw [hrest.layout, Tableau.layout_strip, Tableau.variableCount_withoutArtificial, hsame.layout]
    rfl

/-- If no row was removed, the solutions of phase two are solutions of the initial tableau with
artificial variables that are zero, and stand for the same points. -/
theorem Represents.exists_solves_initial (h : p.Represents settings rule .two t)
    (hkeep : ∀ u, p.Handover settings rule u → u.artificialRows = []) (hX : t.Solves X) :
    ∃ Y, (Tableau.initial p settings.nonnegative settings.tolerance).Solves Y ∧
      (∀ j, (p.layout settings.nonnegative).isArtificial j = true → Y j = 0) ∧
      (∀ j < (p.layout settings.nonnegative).artificialStart, Y j = X j) ∧
      (p.layout settings.nonnegative).decode Y = (p.layout settings.nonnegative).decode X := by
  suffices hY : ∃ Y, (Tableau.initial p settings.nonnegative settings.tolerance).Solves Y ∧
      (∀ j, (p.layout settings.nonnegative).isArtificial j = true → Y j = 0) ∧
      ∀ j < (p.layout settings.nonnegative).artificialStart, Y j = X j by
    obtain ⟨Y, hsolves, hzero, hagree⟩ := hY
    exact ⟨Y, hsolves, hzero, hagree,
      Tableau.decode_congr fun j hj => hagree j (hj.trans_le (Nat.le_add_right _ _))⟩
  cases h with
  | direct hno hsame =>
    exact ⟨X, (hsame.solves X).1 hX,
      fun j hj => absurd (Tableau.inPhaseOne_of_isArtificial hj) hno, fun _ _ => rfl⟩
  | @dropped _ u hphase hover hu hsame hrest =>
    have hlayout : u.layout = p.layout settings.nonnegative := hsame.layout
    obtain ⟨Y, hY, hagree, hzero, -⟩ := Tableau.exists_extension hu
      (by rw [hlayout]; exact hphase) ((hrest.solves X).1 hX)
    rw [hlayout] at hagree hzero
    refine ⟨Y, (hsame.solves Y).1 hY, fun j hj => hzero j hj ?_, hagree⟩
    -- A basic artificial variable would have its row among those that were removed.
    by_contra hb
    obtain ⟨r, hr, rfl⟩ := (hu.isBasic_iff j).1 (by simpa using hb)
    have hmem : r ∈ u.artificialRows := Tableau.mem_artificialRows.2
      ⟨hr, by rw [Tableau.hasArtificialBasis, hlayout, hj]⟩
    rw [hkeep u hover] at hmem
    cases hmem

/-! ## Rays -/

/-- The point that is reached from a point by so many steps in a direction. -/
def along (x d : List K) (θ : K) : List K := List.zipWith (fun a b => a + θ * b) x d

/-- A point and a direction such that all points along the direction are feasible up to the
tolerance times one more than the number of steps, while every step makes the objective better by at
least the tolerance. -/
structure Ray (p : LinearProgram K) (nonnegative : Bool) (tolerance : K) (x d : List K) :
    Prop where
  start : x.length = p.objective.arity
  direction : d.length = p.objective.arity
  feasible : ∀ θ, 0 ≤ θ → p.Feasible nonnegative (tolerance * (1 + θ)) (along x d θ)
  gain : ∀ θ, 0 ≤ θ →
    tolerance * θ ≤ p.goal.sign * (p.objective.eval x - p.objective.eval (along x d θ))

omit [LinearOrder K] in
/-- The points along a direction of a tableau. -/
theorem decode_along (l : Layout) (X D : Nat → K) (θ : K) :
    l.decode (fun j => 1 * X j + θ * D j) = along (l.decode X) (l.decode D) θ := by
  rw [l.decode_combination 1 θ X D]
  simp only [one_mul]
  rfl

variable [IsStrictOrderedRing K]

/-- In phase two a column that can grow forever gives a ray, if no row was removed. -/
theorem Represents.exists_ray (h : p.Represents settings rule .two t)
    (hp : ∀ c ∈ p.constraints, c.left.arity = p.objective.arity)
    (hkeep : ∀ u, p.Handover settings rule u → u.artificialRows = []) (ht : t.Sound)
    (htol : 0 ≤ t.tolerance) (hcheck : t.checkFeasible = .ok ()) {c : Nat}
    (hmove : t.move rule = .unbounded c) :
    ∃ x d, p.Ray settings.nonnegative t.tolerance x d := by
  obtain ⟨hc, hprofitable, hentry⟩ := Tableau.move_eq_unbounded hmove
  rw [Tableau.isProfitable, decide_eq_true_eq] at hprofitable
  obtain ⟨D, hD⟩ := ht.exists_direction hc
  have hP := ht.solves_basicPoint
  refine ⟨_, _, length_decode p settings.nonnegative t.basicPoint,
    length_decode p settings.nonnegative D, fun θ hθ => ?_, fun θ hθ => ?_⟩
  · obtain ⟨Y, hY, hzero, hagree, hdecode⟩ := h.exists_solves_initial hkeep (hD.solves hP θ)
    rw [← decode_along, ← hdecode]
    refine feasible_decode hp (mul_nonneg htol (add_nonneg zero_le_one hθ)) hY (fun j hj => ?_)
      hzero
    rw [hagree j hj]
    have hbase := ht.neg_tolerance_le_basicPoint htol hcheck j
    have hstep := mul_le_mul_of_nonneg_left (hD.neg_tolerance_le ht htol hentry j) hθ
    linarith
  · have hbase := h.residual_eq hp hP
    have hmoved := h.residual_eq hp (hD.solves hP θ)
    rw [hD.residual_eq, decode_along] at hmoved
    have hstep := mul_le_mul_of_nonneg_left hprofitable.le hθ
    rw [mul_sub, ← hbase, ← hmoved]
    linarith

/-- **Behind an unbounded program there is a ray**, if phase one removed no constraint. -/
theorem exists_ray_of_unbounded (h : p.check settings = .ok ())
    (hsolve : p.solve settings rule = .ok .unbounded) (hkeep : p.KeepsConstraints settings rule) :
    ∃ x d, p.Ray settings.nonnegative settings.tolerance x d := by
  obtain ⟨htol, hp⟩ := of_check h
  obtain ⟨n, s, hs, hstop⟩ := exists_stop_of_solve h hsolve fun hf => nomatch hf
  obtain ⟨hsound, htolerance, hrep⟩ := represents_of_after hp htol.le hs
  cases Stage.stops_of_advance hstop with
  | unbounded hcheck hphase hmove =>
    rw [hphase] at hrep
    rw [← htolerance] at htol ⊢
    exact hrep.exists_ray hp (fun u hu => hkeep.artificialRows_eq hp (htolerance ▸ htol.le) hu)
      hsound htol.le hcheck hmove

/-- Maximize `x` subject to `x / 10000000 ≤ 1` and `y = 1`. -/
def faintBound : LinearProgram ℚ :=
  ⟨.maximize, ⟨[1, 0], 0⟩, [.linear [1 / 10000000, 0] .atMost 1, .linear [0, 1] .equal 1]⟩

/-- The objective of `faintBound` is at most `10000000`, but the coefficient that bounds it is below
the tolerance, so the program is reported to be unbounded. There is a ray all the same, which leaves
the feasible set no faster than the tolerance allows. -/
theorem faintBound_ray : faintBound.check .standard = .ok () ∧
    faintBound.solve .standard .steepest = .ok .unbounded ∧
    faintBound.KeepsConstraints .standard .steepest ∧
    (∀ y, faintBound.Feasible true 0 y → faintBound.objective.eval y ≤ 10000000) ∧
    ∃ x d, faintBound.Ray true (1 / 1000000) x d := by
  have hcheck : faintBound.check .standard = .ok () := by decide +kernel
  have hsolve : faintBound.solve .standard .steepest = .ok .unbounded := by decide +kernel
  have hkeep : faintBound.KeepsConstraints .standard .steepest := fun _ => by decide +kernel
  refine ⟨hcheck, hsolve, hkeep, fun y hy => ?_, exists_ray_of_unbounded hcheck hsolve hkeep⟩
  obtain ⟨a, b, rfl⟩ := List.length_eq_two.1 hy.length
  have hholds := (Constraint.holds_iff _ _ _).1 (hy.holds _ (.head _))
  have hbound : 1 / 10000000 * a ≤ 1 := by
    simpa [Constraint.linear, Comparison.Admits, Constraint.gap, Affine.eval_eq] using hholds
  have hvalue : faintBound.objective.eval [a, b] = a := by
    simp [faintBound, Affine.eval_eq]
  rw [hvalue]
  linarith

/-! ## Vertices -/

/-- A feasible point that lies strictly between no two different feasible points. -/
structure Vertex (p : LinearProgram K) (nonnegative : Bool) (x : List K) : Prop where
  feasible : p.Feasible nonnegative 0 x
  extreme : ∀ u v w, p.Feasible nonnegative 0 u → p.Feasible nonnegative 0 v → 0 < w → w < 1 →
    x = List.zipWith (fun a b => w * a + (1 - w) * b) u v → u = v

/-- With variables bounded below by zero, a solution without artificial variables is determined by
its point. -/
theorem eq_of_decode_eq (hp : ∀ c ∈ p.constraints, c.left.arity = p.objective.arity)
    (hsign : nonnegative = true) (hX : (Tableau.initial p nonnegative tolerance).Solves X)
    (hY : (Tableau.initial p nonnegative tolerance).Solves Y)
    (hXzero : ∀ j, (p.layout nonnegative).isArtificial j = true → X j = 0)
    (hYzero : ∀ j, (p.layout nonnegative).isArtificial j = true → Y j = 0)
    (hdecode : (p.layout nonnegative).decode X = (p.layout nonnegative).decode Y) {j : Nat}
    (hj : j < (p.layout nonnegative).artificialStart) : X j = Y j := by
  subst hsign
  rcases Nat.lt_or_ge j (p.layout true).slackStart with hlt | hge
  · exact List.map_inj_left.1 hdecode j (List.mem_range.2 hlt)
  · obtain ⟨i, hi, rfl⟩ := (encodes_initial hp true tolerance).slackColumns.surjOn ⟨hge, hj⟩
    obtain ⟨c, hc, hslack⟩ := (Option.any_eq_true _ _).1 hi
    have hgap := Tableau.gap_decode hp hX hc
    rw [hdecode, Tableau.gap_decode hp hY hc, Tableau.artificial_term_eq_zero hXzero,
      Tableau.artificial_term_eq_zero hYzero, add_zero, add_zero, neg_inj] at hgap
    refine mul_left_cancel₀ (fun hzero => ?_) hgap.symm
    cases hcomp : c.comparison <;> rw [hcomp] at hslack hzero
    · exact one_ne_zero hzero
    · cases hslack
    · exact neg_ne_zero.2 one_ne_zero hzero

/-- If no row was removed and the variables are bounded below by zero, the basic solution of phase
two lies strictly between no two different feasible points. -/
theorem Represents.eq_of_between (h : p.Represents settings rule .two t)
    (hp : ∀ c ∈ p.constraints, c.left.arity = p.objective.arity)
    (hkeep : ∀ u, p.Handover settings rule u → u.artificialRows = [])
    (hsign : settings.nonnegative = true) (ht : t.Sound) {y z : List K} {w : K}
    (hy : p.Feasible settings.nonnegative 0 y) (hz : p.Feasible settings.nonnegative 0 z)
    (hw : 0 < w) (hw' : w < 1)
    (hbetween : t.solution = List.zipWith (fun a b => w * a + (1 - w) * b) y z) : y = z := by
  obtain ⟨P, hP, hPzero, hagree, hPdecode⟩ := h.exists_solves_initial hkeep ht.solves_basicPoint
  have hY : (Tableau.initial p settings.nonnegative settings.tolerance).Proper _ :=
    hy.proper_lift hp
  have hZ : (Tableau.initial p settings.nonnegative settings.tolerance).Proper _ :=
    hz.proper_lift hp
  have hX := hY.solves.combination hZ.solves (add_sub_cancel w 1)
  have hdecode := (p.layout settings.nonnegative).decode_combination w (1 - w)
    (p.lift settings.nonnegative y) (p.lift settings.nonnegative z)
  rw [decode_lift hy.length, decode_lift hz.length, ← hbetween, h.solution_eq, ← hPdecode]
    at hdecode
  have houtside : ∀ j ∈ t.outside, w * p.lift settings.nonnegative y j +
      (1 - w) * p.lift settings.nonnegative z j = 0 := by
    intro j hj
    obtain ⟨hlt, hb⟩ := Tableau.mem_outside.1 hj
    rw [h.variableCount_eq] at hlt
    rw [← ht.basicPoint_eq_zero hb, ← hagree j hlt]
    refine eq_of_decode_eq hp hsign hX hP (fun j hj => ?_) hPzero hdecode hlt
    rw [hY.artificial j hj, hZ.artificial j hj, mul_zero, mul_zero, add_zero]
  have hends : (p.layout settings.nonnegative).decode (p.lift settings.nonnegative y) =
      (p.layout settings.nonnegative).decode (p.lift settings.nonnegative z) := by
    refine Tableau.decode_congr fun j hj => ?_
    refine ht.eq_of_between (h.proper hY).solves (h.proper hZ).solves hw hw' hy.lift_nonneg
      hz.lift_nonneg houtside ?_
    rw [h.variableCount_eq]
    exact hj.trans_le (Nat.le_add_right _ _)
  rwa [decode_lift hy.length, decode_lift hz.length] at hends

/-- **A reported optimum is a vertex**, if it is feasible, the variables are bounded below by zero,
and phase one removed no constraint. -/
theorem vertex_of_optimal (h : p.check settings = .ok ()) (hsign : settings.nonnegative = true)
    (hsolve : p.solve settings rule = .ok (.optimal x v)) (hkeep : p.KeepsConstraints settings rule)
    (hx : p.Feasible settings.nonnegative 0 x) : p.Vertex settings.nonnegative x := by
  obtain ⟨htol, hp⟩ := of_check h
  obtain ⟨n, s, hs, hphase, -, -, rfl⟩ := exists_of_solve_optimal h hsolve
  obtain ⟨hsound, -, hrep⟩ := represents_of_after hp htol.le hs
  rw [hphase] at hrep
  exact ⟨hx, fun u v w hu hv hw hw' => hrep.eq_of_between hp
    (fun u hu => hkeep.artificialRows_eq hp htol.le hu) hsign hsound hu hv hw hw'⟩

/-- Maximize `x + y` subject to `x + y ≤ 2`, `y ≤ 1` and `x ≥ 1 / 2`. -/
def slanted : LinearProgram ℚ :=
  ⟨.maximize, ⟨[1, 1], 0⟩,
    [.linear [1, 1] .atMost 2, .linear [0, 1] .atMost 1, .linear [1, 0] .atLeast (1 / 2)]⟩

/-- All points of `slanted` on the line from `(1, 1)` to `(2, 0)` are optimal, and the reported one
is an end of it. -/
theorem slanted_vertex : slanted.check .standard = .ok () ∧
    slanted.solve .standard .steepest = .ok (.optimal [1, 1] 2) ∧
    slanted.KeepsConstraints .standard .steepest ∧ slanted.Feasible true 0 [1, 1] ∧
    slanted.Vertex true [1, 1] := by
  have hcheck : slanted.check .standard = .ok () := by decide +kernel
  have hsolve : slanted.solve .standard .steepest = .ok (.optimal [1, 1] 2) := by decide +kernel
  have hkeep : slanted.KeepsConstraints .standard .steepest := fun _ => by decide +kernel
  have hfeasible : slanted.Feasible true 0 [1, 1] := ⟨rfl, by decide +kernel, by decide +kernel⟩
  exact ⟨hcheck, hsolve, hkeep, hfeasible, vertex_of_optimal hcheck rfl hsolve hkeep hfeasible⟩

/-- Minimize `x + y` subject to `x + y ≥ 1`. -/
def wholeLine : LinearProgram ℚ := ⟨.minimize, ⟨[1, 1], 0⟩, [.linear [1, 1] .atLeast 1]⟩

/-- If the variables may be negative there need not be a vertex: all points of `wholeLine` on the
line through `(1, 0)` and `(0, 1)` are optimal, and every one lies between two others. -/
theorem wholeLine_not_vertex :
    wholeLine.solve { Settings.standard with nonnegative := false } .steepest =
      .ok (.optimal [1, 0] 1) ∧
    wholeLine.KeepsConstraints { Settings.standard with nonnegative := false } .steepest ∧
    wholeLine.Feasible false 0 [1, 0] ∧ ¬ wholeLine.Vertex false [1, 0] := by
  have hfeasible : wholeLine.Feasible false 0 [1, 0] := ⟨rfl, by decide +kernel, fun h => nomatch h⟩
  refine ⟨by decide +kernel, fun _ => by decide +kernel, hfeasible, fun hvertex => ?_⟩
  have hsame := hvertex.extreme [0, 1] [2, -1] (1 / 2) ⟨rfl, by decide +kernel, fun h => nomatch h⟩
    ⟨rfl, by decide +kernel, fun h => nomatch h⟩ (by norm_num) (by norm_num) (by decide +kernel)
  cases hsame

end LinearProgram

end

end Simplex
