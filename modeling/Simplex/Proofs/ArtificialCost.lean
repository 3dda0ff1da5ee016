import Mathlib.Algebra.Order.Field.Rat
import Simplex.Proofs.Reachable

/-!
# Lowering the artificial cost

In phase one the relative cost of a column outside of the basis is minus the sum of its entries in
the rows in which an artificial variable is basic, and one more if the column is artificial itself
(`Tableau.Sound.cost_eq`). The cost is compared with the tolerance as a sum, but the ratio test
compares each entry on its own. So a profitable column may have no entry that is above the tolerance
(`Tableau.Scattered`), though only if there are at least two artificial rows, and if the relative
cost is not below minus the tolerance for each of them.

`LinearProgram.solve_eq_artificialUnbounded_iff` says that this is the one reason why phase one
reports an unbounded artificial cost. No rounding is needed for it: `LinearProgram.faintTwice` is a
feasible program over exact scalars for which it happens.
-/

namespace Simplex

namespace Tableau

section
variable {K : Type} [Field K] {t : Tableau K}

/-- Adding up over the artificial variables that are basic is adding up over the rows in which one
is basic. -/
theorem Consistent.sum_basic_artificial (h : t.Consistent) (f : Nat → K) :
    ∑ j ∈ Finset.Ico t.layout.artificialStart t.layout.variableCount with t.isBasic j = true, f j =
      ∑ r ∈ t.artificialRows.toFinset, f (t.basicColumn r) := by
  have hrow : ∀ r ∈ t.artificialRows.toFinset,
      r ∈ t.constraintRows ∧ t.hasArtificialBasis r = true :=
    fun r hr => mem_artificialRows.1 (List.mem_toFinset.1 hr)
  refine (Finset.sum_nbij t.basicColumn (fun r hr => ?_) (fun r hr s hs heq => ?_) (fun j hj => ?_)
    fun _ _ => rfl).symm
  · obtain ⟨hrow, hart⟩ := hrow r hr
    exact Finset.mem_filter.2 ⟨mem_artificialColumns.2 hart, h.isBasic_basicColumn hrow⟩
  · exact h.injective r (hrow r hr).1 s (hrow s hs).1 heq
  · obtain ⟨hart, hbasic⟩ := Finset.mem_filter.1 (Finset.mem_coe.1 hj)
    obtain ⟨r, hr, rfl⟩ := (h.isBasic_iff j).1 hbasic
    exact ⟨r, List.mem_toFinset.2 (mem_artificialRows.2 ⟨hr, mem_artificialColumns.1 hart⟩), rfl⟩

end

section
variable {K : Type} [Field K] [LinearOrder K] {p : LinearProgram K} {t : Tableau K} {c : Nat}

/-! ## The relative costs of phase one -/

/-- The entries of a column in the rows in which an artificial variable is basic, added up. -/
def artificialEntries (t : Tableau K) (c : Nat) : K := ∑ r ∈ t.artificialRows.toFinset, t.entry r c

/-- **The relative cost of a column in phase one**, read off the edge along which the column grows:
every artificial variable that is basic goes down by the entry of its row. -/
theorem Sound.cost_eq (h : t.Sound) (hcosts : t.ShowsCosts p)
    (hphase : t.layout.inPhaseOne = true) (hc : c ∈ t.nonBasic) :
    t.cost c = (if t.layout.isArtificial c = true then 1 else 0) - t.artificialEntries c := by
  obtain ⟨hlt, hb⟩ := mem_nonBasic.1 hc
  obtain ⟨X, hX, hXc, hzero, hbasic, hresidual⟩ := h.exists_edge hlt hb 1
  have hdiff : t.cost c = artificialSum t.layout X - artificialSum t.layout t.basicPoint := by
    rw [← hcosts.artificial hphase X hX, ← hcosts.artificial hphase _ h.solves_basicPoint,
      hresidual 0 (costRows_pos _), h.residual_basicPoint (costRows_pos _), cost]
    ring
  have hinside : ∑ r ∈ t.artificialRows.toFinset,
      (X (t.basicColumn r) - t.basicPoint (t.basicColumn r)) = -t.artificialEntries c := by
    rw [artificialEntries, ← Finset.sum_neg_distrib]
    refine Finset.sum_congr rfl fun r hr => ?_
    obtain ⟨hrow, -⟩ := mem_artificialRows.1 (List.mem_toFinset.1 hr)
    rw [hbasic r hrow, h.basicPoint_basicColumn hrow]
    ring
  have houtside : ∑ j ∈ Finset.Ico t.layout.artificialStart t.layout.variableCount
      with ¬ t.isBasic j = true, (X j - t.basicPoint j) =
        if t.layout.isArtificial c = true then 1 else 0 := by
    have hterm : ∀ j, t.isBasic j = false →
        X j - t.basicPoint j = if j = c then 1 else 0 := fun j hj => by
      rw [h.basicPoint_eq_zero hj, sub_zero]
      split
      · next hjc => rw [hjc, hXc]
      · next hjc => exact hzero j hj hjc
    rw [Finset.sum_congr rfl fun j hj =>
      hterm j (Bool.eq_false_iff.2 (Finset.mem_filter.1 hj).2), Finset.sum_ite_eq']
    refine if_congr ?_ rfl rfl
    rw [Finset.mem_filter, mem_artificialColumns, hb]
    simp
  rw [hdiff, artificialSum, artificialSum, ← Finset.sum_sub_distrib,
    ← Finset.sum_filter_add_sum_filter_not _ (t.isBasic · = true), houtside,
    h.sum_basic_artificial, hinside, add_comm, ← sub_eq_add_neg]

variable [IsStrictOrderedRing K]

/-! ## Columns without a pivot row -/

/-- No entry of a column is above the tolerance, but those in the artificial rows add up to more,
even without the one that an artificial column costs itself. -/
structure Scattered (t : Tableau K) (c : Nat) : Prop where
  entry : ∀ r ∈ t.constraintRows, t.entry r c ≤ t.tolerance
  sum : t.tolerance <
    t.artificialEntries c - if t.layout.isArtificial c = true then 1 else 0

/-- If no entry is above the tolerance, the sum is at most as many times the tolerance as there are
artificial rows. -/
theorem artificialEntries_le (hentry : ∀ r ∈ t.constraintRows, t.entry r c ≤ t.tolerance) :
    t.artificialEntries c ≤ t.artificialRows.length * t.tolerance := by
  have hcard : t.artificialRows.toFinset.card = t.artificialRows.length :=
    List.toFinset_card_of_nodup (t.nodup_constraintRows.filter _)
  rw [← hcard, ← nsmul_eq_mul]
  refine Finset.sum_le_card_nsmul _ _ _ fun r hr => ?_
  exact hentry r (mem_artificialRows.1 (List.mem_toFinset.1 hr)).1

/-- A scattered column takes two artificial rows. -/
theorem Scattered.two_le (h : t.Scattered c) (htol : 0 ≤ t.tolerance) :
    2 ≤ t.artificialRows.length := by
  by_contra hlt
  have hone : (t.artificialRows.length : K) ≤ 1 := by
    exact_mod_cast Nat.le_of_lt_succ (not_le.1 hlt)
  have hle : t.artificialEntries c ≤ t.tolerance := calc
    t.artificialEntries c ≤ t.artificialRows.length * t.tolerance := artificialEntries_le h.entry
    _ ≤ 1 * t.tolerance := mul_le_mul_of_nonneg_right hone htol
    _ = t.tolerance := one_mul _
  have hart : (0 : K) ≤ if t.layout.isArtificial c = true then 1 else 0 := by
    split
    · exact zero_le_one
    · exact le_refl _
  exact absurd (h.sum.trans_le (sub_le_self _ hart)) (not_lt.2 hle)

/-- **When phase one finds no pivot row.** A profitable column has none exactly if it is scattered,
and then its relative cost is not below minus the tolerance for each artificial row. -/
theorem Sound.leavingRow_eq_none_iff (h : t.Sound) (hcosts : t.ShowsCosts p)
    (hphase : t.layout.inPhaseOne = true) (hc : c ∈ t.nonBasic)
    (hprofitable : t.isProfitable c = true) :
    (t.leavingRow c = none ↔ t.Scattered c) ∧
      (t.leavingRow c = none → -(t.artificialRows.length * t.tolerance) ≤ t.cost c) := by
  rw [isProfitable, decide_eq_true_eq, h.cost_eq hcosts hphase hc] at hprofitable
  have hnone : t.leavingRow c = none ↔ ∀ r ∈ t.constraintRows, t.entry r c ≤ t.tolerance := by
    rw [Tableau.leavingRow_eq_none_iff]
    exact forall₂_congr fun r _ => not_lt
  rw [hnone]
  refine ⟨⟨fun hentry => ⟨hentry, by linarith⟩, Scattered.entry⟩, fun hentry => ?_⟩
  have hle := artificialEntries_le hentry
  rw [h.cost_eq hcosts hphase hc]
  split
  · linarith
  · linarith

end

end Tableau

section
variable {F : Type} [Scalar F] {rule : PivotRule} {objective : Affine F}

/-! ## Giving up in phase one -/

/-- A column can grow forever if it enters and has no pivot row. -/
theorem Tableau.move_eq_unbounded_iff {t : Tableau F} {c : Nat} :
    t.move rule = .unbounded c ↔ t.entering rule = some c ∧ t.leavingRow c = none := by
  rw [move_eq]
  cases t.entering rule with
  | none => exact iff_of_false (fun h => nomatch h) fun h => nomatch h.1
  | some j =>
    dsimp only
    cases hrow : t.leavingRow j with
    | none =>
      constructor
      · intro h
        cases h
        exact ⟨rfl, hrow⟩
      · rintro ⟨h, -⟩
        cases h
        rfl
    | some r =>
      refine iff_of_false (fun h => nomatch h) ?_
      rintro ⟨h, hnone⟩
      cases h
      rw [hrow] at hnone
      cases hnone

/-- Leaving phase one does not find that the artificial cost is unbounded. -/
theorem Stage.leave_ne_artificialUnbounded (s : Stage F) :
    s.leave ≠ .stop (.error (.error .artificialUnbounded)) := by
  unfold leave
  split
  · exact fun h => nomatch h
  · split <;> exact fun h => nomatch h

/-- The method finds that the artificial cost is unbounded at a stage of phase one that passes the
check and is not settled. -/
theorem Stage.advance_eq_artificialUnbounded_iff {s : Stage F} (hphase : s.phase = .one) :
    s.advance rule objective = .stop (.error (.error .artificialUnbounded)) ↔
      s.tableau.checkFeasible = .ok () ∧ ¬ s.tableau.value ≤ s.tableau.tolerance ∧
        ∃ c, s.tableau.move rule = .unbounded c := by
  have hsettled : s.phase.settled s.tableau = true ↔ s.tableau.value ≤ s.tableau.tolerance := by
    rw [hphase, Phase.settled, decide_eq_true_eq]
  rw [← hsettled]
  constructor
  · intro h
    cases stops_of_advance h with
    | artificialUnbounded hcheck _ hmove =>
      refine ⟨hcheck, fun hrest => ?_, _, hmove⟩
      rw [advance, hcheck] at h
      dsimp only at h
      rw [if_pos hrest, conclude_one hphase (by decide)] at h
      exact s.leave_ne_artificialUnbounded h
  · rintro ⟨hcheck, hrest, c, hmove⟩
    rw [advance, hcheck]
    dsimp only
    rw [if_neg hrest, hmove]
    dsimp only
    rw [conclude, hphase]

end

namespace LinearProgram

section
variable {K : Type} [Field K] [LinearOrder K] [IsStrictOrderedRing K] {p : LinearProgram K}
  {settings : Settings K} {rule : PivotRule} {n c : Nat} {s : Stage K}

/-- At a stage of phase one a column that enters has no pivot row exactly if it is scattered. -/
theorem leavingRow_eq_none_iff_scattered (h : p.check settings = .ok ())
    (hs : (p.start settings).after rule p.objective n = some s) (hphase : s.phase = .one)
    (hc : s.tableau.entering rule = some c) :
    (s.tableau.leavingRow c = none ↔ s.tableau.Scattered c) ∧ (s.tableau.Scattered c →
      2 ≤ s.tableau.artificialRows.length ∧
        -(s.tableau.artificialRows.length * settings.tolerance) ≤ s.tableau.cost c) := by
  obtain ⟨htol, hp⟩ := of_check h
  obtain ⟨hsound, htolerance, hrep⟩ := represents_of_after hp htol.le hs
  obtain ⟨hmem, hprofitable⟩ := Tableau.entering_eq_some hc
  obtain ⟨hiff, hcost⟩ := hsound.leavingRow_eq_none_iff (hrep.showsCosts hp)
    (hrep.inPhaseOne hphase) hmem hprofitable
  refine ⟨hiff, fun hscattered => ⟨hscattered.two_le (htolerance ▸ htol.le), ?_⟩⟩
  rw [← htolerance]
  exact hcost (hiff.2 hscattered)

/-- **When a run reports an unbounded artificial cost**: exactly if within the limit phase one, with
an artificial cost above the tolerance, chooses a column that is scattered. In all other cases a
column that phase one chooses has a pivot row, in particular if there are less than two artificial
rows, or if the relative cost is below minus the tolerance for each of them. -/
theorem solve_eq_artificialUnbounded_iff (h : p.check settings = .ok ()) (rule : PivotRule) :
    (p.solve settings rule = .error (.error .artificialUnbounded) ↔
      ∃ n s c, (p.start settings).after rule p.objective n = some s ∧ s.phase = .one ∧
        s.pivots ≤ settings.pivotLimit ∧ s.tableau.checkFeasible = .ok () ∧
        settings.tolerance < s.tableau.value ∧ s.tableau.entering rule = some c ∧
        s.tableau.Scattered c) ∧
    ∀ n s c, (p.start settings).after rule p.objective n = some s → s.phase = .one →
      s.tableau.entering rule = some c →
      (s.tableau.leavingRow c = none ↔ s.tableau.Scattered c) ∧ (s.tableau.Scattered c →
        2 ≤ s.tableau.artificialRows.length ∧
          -(s.tableau.artificialRows.length * settings.tolerance) ≤ s.tableau.cost c) := by
  obtain ⟨htol, hp⟩ := of_check h
  refine ⟨⟨fun hsolve => ?_, ?_⟩, fun n s c => leavingRow_eq_none_iff_scattered h⟩
  · obtain ⟨n, s, hs, -, ⟨-, hlimit⟩ | ⟨hlimit, hstop⟩⟩ := run_spec h rule none
    · rw [solve, hlimit] at hsolve
      cases hsolve
    · rw [solve] at hsolve
      rw [hsolve] at hstop
      have hphase : s.phase = .one := by
        cases Stage.stops_of_advance hstop with
        | artificialUnbounded _ hphase => exact hphase
      obtain ⟨hcheck, hcost, c, hmove⟩ := (Stage.advance_eq_artificialUnbounded_iff hphase).1 hstop
      obtain ⟨hc, hrow⟩ := Tableau.move_eq_unbounded_iff.1 hmove
      obtain ⟨-, htolerance, -⟩ := represents_of_after hp htol.le hs
      rw [htolerance, not_le] at hcost
      exact ⟨n, s, c, hs, hphase, hlimit, hcheck, hcost, hc,
        (leavingRow_eq_none_iff_scattered h hs hphase hc).1.1 hrow⟩
  · rintro ⟨n, s, c, hs, hphase, hlimit, hcheck, hcost, hc, hscattered⟩
    obtain ⟨-, htolerance, -⟩ := represents_of_after hp htol.le hs
    have hrow := (leavingRow_eq_none_iff_scattered h hs hphase hc).1.2 hscattered
    refine solve_eq_of_stop h hs ((Stage.advance_eq_artificialUnbounded_iff hphase).2 ?_) hlimit
    exact ⟨hcheck, by rwa [htolerance, not_le], c, Tableau.move_eq_unbounded_iff.2 ⟨hc, hrow⟩⟩

end

/-- Minimize `x` subject to `x / 1048576 = 1`, twice. -/
def faintTwice : LinearProgram ℚ :=
  ⟨.minimize, ⟨[1], 0⟩,
    [.linear [1 / 1048576] .equal 1, .linear [1 / 1048576] .equal 1]⟩

/-- The two entries of the only column of `faintTwice` are below the tolerance, but their sum is
above it, so the column is scattered, and a run reports an unbounded artificial cost. -/
theorem faintTwice_scattered : faintTwice.check .standard = .ok () ∧
    (faintTwice.start .standard).tableau.Scattered 0 ∧
    faintTwice.solve .standard .first = .error (.error .artificialUnbounded) := by
  have hcheck : faintTwice.check .standard = .ok () := by decide +kernel
  have hscattered : (faintTwice.start .standard).tableau.Scattered 0 :=
    ⟨by decide +kernel, by decide +kernel⟩
  obtain ⟨hsolve, -⟩ := solve_eq_artificialUnbounded_iff hcheck .first
  exact ⟨hcheck, hscattered, hsolve.2 ⟨0, faintTwice.start .standard, 0, rfl, by decide +kernel,
    Nat.zero_le _, by decide +kernel, by decide +kernel, by decide +kernel, hscattered⟩⟩

/-- **An unbounded artificial cost without rounding.** Both pivot rules choose the column of
`faintTwice` and find no pivot row, although `1048576` is a feasible point. -/
theorem solve_faintTwice : faintTwice.check .standard = .ok () ∧
    faintTwice.solve .standard .steepest = .error (.error .artificialUnbounded) ∧
    faintTwice.solve .standard .first = .error (.error .artificialUnbounded) ∧
    faintTwice.Feasible true 0 [1048576] :=
  ⟨by decide +kernel, by decide +kernel, by decide +kernel, rfl, by decide +kernel,
    by decide +kernel⟩

end LinearProgram

end Simplex
