import Simplex.Proofs.SmallTolerance

/-!
# The value from step to step

A step changes the value of a tableau by the relative cost of the entering column times the ratio of
the pivot row (`Tableau.ChangesBy`). The relative cost is below minus the tolerance and the entry
above the tolerance, but the right-hand side may lie below zero by the tolerance, when an earlier
ratio test took nearly equal ratios for equal. In such a row the ratio is negative, and the value
rises.

So the method descends exactly if no pivot row has a negative right-hand side
(`LinearProgram.descends_iff`). Without a tolerance none has, and below some threshold, which
depends on the program only, the method does what it does without a tolerance
(`LinearProgram.changesBy_of_step`).
-/

namespace Simplex

open Filter

/-- The steps that make a pivot. -/
theorem Trail.step_eq_pivoted_iff {F : Type} [Scalar F] {a b : Trail F} {rule : PivotRule}
    {r c : Nat} : a.step rule = (b, .ok (.pivoted r c)) ↔
      ∃ cost t, a.tableau.move rule = .pivot r c cost ∧ a.tableau.pivot r c = .ok t ∧
        b = (a.record (.pivoting r c cost)).advance t := by
  constructor
  · intro h
    unfold step at h
    split at h
    · cases h
    · cases h
    · next row column cost hmove =>
      dsimp only at h
      split at h
      · cases h
      · next t hpivot =>
        cases h
        exact ⟨cost, t, hmove, hpivot, rfl⟩
  · rintro ⟨cost, t, hmove, hpivot, rfl⟩
    have hrecord : (a.record (.pivoting r c cost)).tableau = a.tableau := rfl
    rw [step, hmove]
    dsimp only
    rw [hrecord, hpivot]

namespace Tableau

section
variable {K : Type} [Field K] [LinearOrder K] {t u : Tableau K} {r c : Nat}

/-! ## One step -/

/-- The value after a pivot. -/
theorem Sound.exchange_value (h : t.Sound) (hr : r ∈ t.constraintRows)
    (hc : c < t.layout.variableCount) (hp : t.entry r c ≠ 0) :
    (t.exchange r c).value = t.value + t.cost c * (t.right r / t.entry r c) := by
  have hrow : r ≠ 0 := fun hzero => by
    have hpos := costRows_pos t.layout
    have hle := (mem_constraintRows.1 hr).1
    omega
  rw [value, exchange_right h.toConsistent hr hc hp, if_neg hrow.symm, value, cost]
  ring

/-- How a step from a tableau in a basic feasible state to another tableau changes the value. -/
structure ChangesBy (t u : Tableau K) (r c : Nat) : Prop where
  /-- The value changes by the relative cost times the ratio. -/
  value_eq : u.value = t.value + t.cost c * (t.right r / t.entry r c)
  /-- The entering column is profitable. -/
  cost_lt : t.cost c < -t.tolerance
  /-- The ratio test looks at no smaller entry. -/
  lt_entry : t.tolerance < t.entry r c
  /-- No right-hand side is further below zero than the tolerance. -/
  le_right : -t.tolerance ≤ t.right r
  /-- The value rises exactly if the right-hand side of the pivot row is negative. -/
  value_le_iff : u.value ≤ t.value ↔ 0 ≤ t.right r
  /-- It falls exactly if this right-hand side is positive. -/
  value_lt_iff : u.value < t.value ↔ 0 < t.right r
  /-- It rises by no more than the tolerance times the gain for each unit, over the entry. -/
  value_le : u.value ≤ t.value + t.tolerance * (-t.cost c / t.entry r c)
  /-- So it rises by less than one unit of the entering variable would gain. -/
  value_lt : u.value < t.value + -t.cost c

variable [IsStrictOrderedRing K]

/-- **How a step changes the value**, in any tableau that passes the check. -/
theorem Sound.changesBy (h : t.Sound) (htol : 0 ≤ t.tolerance) (hcheck : t.checkFeasible = .ok ())
    {rule : PivotRule} {gain : K} (hmove : t.move rule = .pivot r c gain)
    (hpivot : t.pivot r c = .ok u) : t.ChangesBy u r c := by
  obtain ⟨hr, hc, -, hlt⟩ := position_of_move hmove
  have hentry : 0 < t.entry r c := htol.trans_lt hlt
  have hprofit : t.cost c < -t.tolerance :=
    of_decide_eq_true (entering_eq_some (move_eq_pivot hmove).1).2
  have hcost : t.cost c < 0 := hprofit.trans_le (neg_nonpos.2 htol)
  have hright := h.checkFeasible_eq_ok.1 hcheck r hr
  obtain ⟨-, -, -, -, rfl⟩ := pivot_eq_ok hpivot
  have hvalue := h.exchange_value hr hc hentry.ne'
  have hrise : t.cost c * (t.right r / t.entry r c) ≤ t.tolerance * (-t.cost c / t.entry r c) :=
    calc t.cost c * (t.right r / t.entry r c)
      _ = -t.right r * (-t.cost c / t.entry r c) := by ring
      _ ≤ t.tolerance * (-t.cost c / t.entry r c) :=
        mul_le_mul_of_nonneg_right (neg_le.1 hright) (div_nonneg (neg_nonneg.2 hcost.le) hentry.le)
  have hless : t.tolerance * (-t.cost c / t.entry r c) < -t.cost c := by
    rw [mul_div_assoc', div_lt_iff₀ hentry, mul_comm]
    exact mul_lt_mul_of_pos_left hlt (neg_pos.2 hcost)
  refine ⟨hvalue, hprofit, hlt, hright, ?_, ?_, ?_, ?_⟩
  · rw [hvalue, add_le_iff_nonpos_right, ← neg_nonneg, ← neg_mul,
      mul_nonneg_iff_of_pos_left (neg_pos.2 hcost), le_div_iff₀ hentry, zero_mul]
  · rw [hvalue, add_lt_iff_neg_left, ← neg_pos, ← neg_mul,
      mul_pos_iff_of_pos_left (neg_pos.2 hcost), lt_div_iff₀ hentry, zero_mul]
  · rw [hvalue]
    exact add_le_add_right hrise _
  · rw [hvalue]
    exact add_lt_add_right (hrise.trans_lt hless) _

end

end Tableau

namespace LinearProgram

section
variable {K : Type} [Field K] [LinearOrder K] [IsStrictOrderedRing K] {p : LinearProgram K}
  {settings : Settings K} {rule : PivotRule} {phase : Phase} {m n : Nat} {s u : Stage K}

/-! ## Whole runs -/

/-- No step makes the value worse, from any stage of a phase that is in a basic feasible state. -/
def Descends (p : LinearProgram K) (settings : Settings K) (rule : PivotRule) (phase : Phase) :
    Prop :=
  ∀ n s a b r c, (p.start settings).after rule p.objective n = some s → s.phase = phase →
    s.tableau.checkFeasible = .ok () → a.tableau = s.tableau →
    Trail.step rule a = (b, .ok (.pivoted r c)) → b.tableau.value ≤ s.tableau.value

/-- The phase of a stage and the value of its tableau. -/
def level (s : Stage K) : Phase × K := (s.phase, s.tableau.value)

/-- The steps of a run change the value as they do in any tableau. -/
theorem changesBy_of_after (hp : ∀ c ∈ p.constraints, c.left.arity = p.objective.arity)
    (htol : 0 ≤ settings.tolerance) (hs : (p.start settings).after rule p.objective n = some s)
    (hcheck : s.tableau.checkFeasible = .ok ()) {a b : Trail K} {r c : Nat}
    (ha : a.tableau = s.tableau) (hstep : a.step rule = (b, .ok (.pivoted r c))) :
    s.tableau.ChangesBy b.tableau r c := by
  obtain ⟨hsound, htolerance, -⟩ := represents_of_after hp htol hs
  obtain ⟨cost, t, hmove, hpivot, rfl⟩ := Trail.step_eq_pivoted_iff.1 hstep
  rw [ha] at hmove hpivot
  exact hsound.changesBy (by rwa [htolerance]) hcheck hmove hpivot

/-- **When a phase descends**: no right-hand side of a pivot row is negative. -/
theorem descends_iff (hp : ∀ c ∈ p.constraints, c.left.arity = p.objective.arity)
    (htol : 0 ≤ settings.tolerance) : p.Descends settings rule phase ↔
      ∀ n s r c cost, (p.start settings).after rule p.objective n = some s → s.phase = phase →
        s.tableau.checkFeasible = .ok () → s.tableau.move rule = .pivot r c cost →
        0 ≤ s.tableau.right r := by
  constructor
  · intro h n s r c cost hs hphase hcheck hmove
    obtain ⟨hsound, htolerance, -⟩ := represents_of_after hp htol hs
    obtain ⟨-, -, -, -, hpivot⟩ := hsound.pivot_of_move (by rwa [htolerance]) hmove
    have hstep := (Trail.step_eq_pivoted_iff (a := Trail.start none s.tableau)).2
      ⟨cost, _, hmove, hpivot, rfl⟩
    exact (changesBy_of_after hp htol hs hcheck rfl hstep).value_le_iff.1
      (h n s _ _ r c hs hphase hcheck rfl hstep)
  · intro h n s a b r c hs hphase hcheck ha hstep
    obtain ⟨cost, -, hmove, -, -⟩ := Trail.step_eq_pivoted_iff.1 hstep
    rw [ha] at hmove
    exact (changesBy_of_after hp htol hs hcheck ha hstep).value_le_iff.2
      (h n s r c cost hs hphase hcheck hmove)

omit [IsStrictOrderedRing K] in
/-- A phase that descends descends from any of its stages to any later one. -/
theorem Descends.value_le (h : p.Descends settings rule phase) (hmn : m ≤ n)
    (hs : (p.start settings).after rule p.objective m = some s)
    (hu : (p.start settings).after rule p.objective n = some u) (hsphase : s.phase = phase)
    (huphase : u.phase = phase) : u.tableau.value ≤ s.tableau.value := by
  induction n, hmn using Nat.le_induction generalizing u with
  | base =>
    rw [hs] at hu
    cases hu
    exact le_rfl
  | succ n hmn ih =>
    obtain ⟨v, hv, hgo⟩ := exists_of_after_succ hu
    obtain ⟨hcheck, ⟨r, c, cost, t, -, hmove, hpivot, rfl⟩ | ⟨t, removed, hone, -, -, rfl⟩⟩ :=
      Stage.advance_eq_go hgo
    · have hstep := (Trail.step_eq_pivoted_iff (a := Trail.start none v.tableau)).2
        ⟨cost, t, hmove, hpivot, rfl⟩
      exact (h n v _ _ r c hv huphase hcheck rfl hstep).trans (ih hv huphase)
    · -- Phase two begins here, and there is no stage of it before.
      obtain ⟨k, rfl⟩ := Nat.exists_eq_add_of_le hmn
      rw [Stage.after_add, hs, Option.bind_some] at hv
      rw [phase_two_of_after (hsphase.trans huphase.symm) hv] at hone
      cases hone

omit [IsStrictOrderedRing K] in
/-- A phase with a larger value at a later stage does not descend. -/
theorem not_descends_of_level {v w : K} (hmn : m ≤ n)
    (hm : ((p.start settings).after rule p.objective m).map level = some (phase, v))
    (hn : ((p.start settings).after rule p.objective n).map level = some (phase, w))
    (hlt : v < w) : ¬ p.Descends settings rule phase := by
  obtain ⟨s, hs, hsv⟩ := Option.map_eq_some_iff.1 hm
  obtain ⟨u, hu, huw⟩ := Option.map_eq_some_iff.1 hn
  obtain ⟨hsphase, rfl⟩ := Prod.mk.inj hsv
  obtain ⟨huphase, rfl⟩ := Prod.mk.inj huw
  exact fun h => absurd (h.value_le hmn hs hu hsphase huphase) (not_le.2 hlt)

/-- Below some threshold, whatever the limit, both rules descend in both phases. -/
theorem exists_tolerance_descends (hp : ∀ c ∈ p.constraints, c.left.arity = p.objective.arity)
    (nonnegative : Bool) : ∃ ε₀ > 0, ∀ ε, 0 < ε → ε < ε₀ → ∀ limit rule phase,
      p.Descends ⟨ε, limit, nonnegative⟩ rule phase := by
  have hsmall : ∀ rule, ∀ᶠ ε : Tolerance K in atBot, ∀ limit phase,
      p.Descends ⟨ε.1, limit, nonnegative⟩ rule phase := by
    intro rule
    filter_upwards [eventually_forall_after hp nonnegative 0 rule] with ε hε limit phase
    refine (descends_iff hp ε.2.le).2 fun n s r c cost hs _ _ hmove => ?_
    obtain ⟨v, hv, rfl⟩ := Option.map_eq_some_iff.1 ((hε n).symm.trans hs)
    exact (nonneg_of_after hp rfl hv).1 r (Tableau.position_of_move hmove).1
  obtain ⟨ε₀, hε₀⟩ := eventually_atBot.1 ((hsmall .steepest).and (hsmall .first))
  refine ⟨ε₀.1, ε₀.2, fun ε hε hlt limit rule => ?_⟩
  obtain ⟨hsteepest, hfirst⟩ := hε₀ ⟨ε, hε⟩ hlt.le
  cases rule with
  | steepest => exact hsteepest limit
  | first => exact hfirst limit

/-- **How the value goes from step to step.** A step at a stage in a basic feasible state changes
the value by the relative cost times the ratio. A phase descends exactly if no right-hand side of a
pivot row is negative, and then so do its stages. Below some threshold for the tolerance every phase
descends. -/
theorem changesBy_of_step (h : p.check settings = .ok ()) :
    (∀ rule n s a b r c, (p.start settings).after rule p.objective n = some s →
      s.tableau.checkFeasible = .ok () → a.tableau = s.tableau →
      Trail.step rule a = (b, .ok (.pivoted r c)) → s.tableau.ChangesBy b.tableau r c) ∧
    (∀ rule phase, p.Descends settings rule phase ↔
      ∀ n s r c cost, (p.start settings).after rule p.objective n = some s → s.phase = phase →
        s.tableau.checkFeasible = .ok () → s.tableau.move rule = .pivot r c cost →
        0 ≤ s.tableau.right r) ∧
    (∀ rule phase, p.Descends settings rule phase → ∀ m n s u, m ≤ n →
      (p.start settings).after rule p.objective m = some s →
      (p.start settings).after rule p.objective n = some u → s.phase = phase → u.phase = phase →
        u.tableau.value ≤ s.tableau.value) ∧
    ∃ ε₀ > 0, ∀ ε, 0 < ε → ε < ε₀ → ∀ limit rule phase,
      p.Descends ⟨ε, limit, settings.nonnegative⟩ rule phase := by
  obtain ⟨htol, hp⟩ := of_check h
  refine ⟨fun rule n s a b r c hs hcheck => changesBy_of_after hp htol.le hs hcheck,
    fun rule phase => descends_iff hp htol.le,
    fun rule phase hdescends m n s u hmn hs hu => hdescends.value_le hmn hs hu,
    exists_tolerance_descends hp settings.nonnegative⟩

end

/-! ## Steps that make the value worse -/

/-- Minimize `-2 x - y` subject to `x + y ≤ 1` and `x ≤ 1 + 1 / 2097152`. -/
def nearBound : LinearProgram ℚ :=
  ⟨.minimize, ⟨[-2, -1], 0⟩,
    [.linear [1, 1] .atMost 1, .linear [1, 0] .atMost (1 + 1 / 2097152)]⟩

/-- The second step of the method on `nearBound` in numbers: the ratio is minus 1 / 2097152, and the
value rises by as much. With a smaller tolerance this does not happen. -/
theorem nearBound_changesBy : nearBound.check .standard = .ok () ∧
    (∃ s b, (nearBound.start .standard).after .steepest nearBound.objective 1 = some s ∧
      (Trail.start none s.tableau).step .steepest = (b, .ok (.pivoted 1 1)) ∧
      s.tableau.ChangesBy b.tableau 1 1 ∧ s.tableau.right 1 = -(1 / 2097152) ∧
      b.tableau.value = s.tableau.value + 1 / 2097152) ∧
    ∃ ε₀ > 0, ∀ ε, 0 < ε → ε < ε₀ → ∀ limit rule phase,
      nearBound.Descends ⟨ε, limit, true⟩ rule phase := by
  have hcheck : nearBound.check .standard = .ok () := by decide +kernel
  obtain ⟨hstep, -, -, hsmall⟩ := changesBy_of_step hcheck
  have hnumbers : ((nearBound.start .standard).after .steepest nearBound.objective 1).map
      (fun s => (s.tableau.checkFeasible, ((Trail.start none s.tableau).step .steepest).2,
        s.tableau.right 1, s.tableau.cost 1, s.tableau.entry 1 1)) =
      some (.ok (), .ok (.pivoted 1 1), -(1 / 2097152), -1, 1) := by decide +kernel
  obtain ⟨s, hs, hvalues⟩ := Option.map_eq_some_iff.1 hnumbers
  simp only [Prod.mk.injEq] at hvalues
  obtain ⟨hfeasible, hpivoted, hright, hcost, hentry⟩ := hvalues
  have hb : (Trail.start none s.tableau).step .steepest =
      (((Trail.start none s.tableau).step .steepest).1, .ok (.pivoted 1 1)) := by rw [← hpivoted]
  have hchange := hstep .steepest 1 s _ _ 1 1 hs hfeasible rfl hb
  refine ⟨hcheck, ⟨s, _, hs, hb, hchange, hright, ?_⟩, hsmall⟩
  rw [hchange.value_eq, hright, hcost, hentry]
  norm_num

/-- `nearBound` with the equation `2 x + y = 10`, which cannot be met. -/
def nearBoundSum : LinearProgram ℚ :=
  { nearBound with constraints := nearBound.constraints ++ [.linear [2, 1] .equal 10] }

/-- **The value can rise, in either phase and with either rule.** The first ratio test takes the two
bounds on `x` for equal, so that the first constraint is violated by less than the tolerance, and
the next pivot makes up for this in its row. -/
theorem nearBound_not_descends :
    nearBound.check .standard = .ok () ∧ nearBoundSum.check .standard = .ok () ∧
    ∀ rule, ¬ nearBoundSum.Descends .standard rule .one ∧
      ¬ nearBound.Descends .standard rule .two := by
  refine ⟨by decide +kernel, by decide +kernel, fun rule => ?_⟩
  have hone : ¬ nearBoundSum.Descends .standard rule .one :=
    not_descends_of_level (m := 1) (n := 2) (v := 8 - 1 / 1048576) (w := 8 - 1 / 2097152)
      (by decide) (by cases rule <;> decide +kernel) (by cases rule <;> decide +kernel)
      (by norm_num)
  have htwo : ¬ nearBound.Descends .standard rule .two :=
    not_descends_of_level (m := 1) (n := 2) (v := -2 - 1 / 1048576) (w := -2 - 1 / 2097152)
      (by decide) (by cases rule <;> decide +kernel) (by cases rule <;> decide +kernel)
      (by norm_num)
  exact ⟨hone, htwo⟩

end LinearProgram

end Simplex
