import Mathlib.Algebra.Order.Field.Rat
import Simplex.Proofs.Points
import Simplex.Proofs.Reachable

/-!
# When a run breaks off

Every stage is checked before the method decides what to do there. Of a checked program only one
check can fail, and only in one way: the ratio test ignores the entries up to the tolerance and
takes ratios that differ by no more than the tolerance for equal, so that a pivot may push a
right-hand side below minus the tolerance (`Tableau.Overshoots`). This is exactly when a run breaks
off (`LinearProgram.solve_eq_breach_iff`), and it does happen
(`LinearProgram.solve_breach_ignored_entry`, `LinearProgram.solve_breach_near_tie`).
-/

namespace Simplex

namespace Tableau

section
variable {K : Type} [Field K] [LinearOrder K] {t u : Tableau K} {r c : Nat}

/-- The right-hand side of a row after a pivot lies below minus the tolerance. -/
def Overshoots (t : Tableau K) (r c : Nat) : Prop :=
  ∃ i ∈ t.constraintRows, (if i = r then t.right r / t.entry r c
    else t.right i - t.entry i c * (t.right r / t.entry r c)) < -t.tolerance

/-- A sound tableau fails the check only by a right-hand side. -/
theorem Sound.checkFeasible_eq_error (h : t.Sound) {b : Breach} :
    t.checkFeasible = .error b ↔
      b = .negativeValue ∧ ∃ r ∈ t.constraintRows, t.right r < -t.tolerance := by
  have hright : t.rightIsNonnegative = false ↔
      ∃ r ∈ t.constraintRows, t.right r < -t.tolerance := by
    rw [← Bool.not_eq_true, rightIsNonnegative_iff]
    simp
  rw [h.checkFeasible_eq, ← hright]
  cases t.rightIsNonnegative with
  | true => exact iff_of_false (fun hf => nomatch hf) fun hf => nomatch hf.2
  | false =>
    constructor
    · intro hb
      cases hb
      exact ⟨rfl, rfl⟩
    · rintro ⟨rfl, -⟩
      rfl

/-- A pivot leads to a tableau that fails the check exactly if it overshoots. -/
theorem Sound.exchange_checkFeasible (h : t.Sound) (hr : r ∈ t.constraintRows)
    (hc : c < t.layout.variableCount) (hb : t.isBasic c = false) (hp : t.entry r c ≠ 0)
    {b : Breach} :
    (t.exchange r c).checkFeasible = .error b ↔ b = .negativeValue ∧ t.Overshoots r c := by
  rw [(h.exchange hr hc hb hp).checkFeasible_eq_error, exchange_constraintRows, exchange_tolerance]
  simp only [Overshoots, exchange_right h.toConsistent hr hc hp]

/-- A pivot that the method decides on is made. -/
theorem Sound.pivot_of_move (h : t.Sound) (htol : 0 ≤ t.tolerance) {rule : PivotRule} {cost : K}
    (hmove : t.move rule = .pivot r c cost) :
    r ∈ t.constraintRows ∧ c < t.layout.variableCount ∧ t.isBasic c = false ∧ t.entry r c ≠ 0 ∧
      t.pivot r c = .ok (t.exchange r c) := by
  obtain ⟨hr, hc, hb, hentry⟩ := position_of_move hmove
  have hne : t.entry r c ≠ 0 := (htol.trans_lt hentry).ne'
  exact ⟨hr, hc, hb, hne, h.pivot_eq hr hc hb (by simpa using hne)⟩

end

end Tableau

namespace LinearProgram

section
variable {K : Type} [Field K] [LinearOrder K] [IsStrictOrderedRing K] {p : LinearProgram K}
  {settings : Settings K} {rule : PivotRule} {n : Nat} {s u : Stage K} {b : Breach}

/-- The first stage passes the check. -/
theorem checkFeasible_start (hp : ∀ c ∈ p.constraints, c.left.arity = p.objective.arity)
    (htol : 0 ≤ settings.tolerance) : (p.start settings).tableau.checkFeasible = .ok () :=
  (Tableau.sound_initial hp).checkFeasible_eq_ok.2 fun _ hr =>
    (neg_nonpos.2 htol).trans (Tableau.right_initial_nonneg hp hr)

/-- A tableau that passes the check does so without its artificial variables, too. -/
theorem checkFeasible_of_drop {t v : Tableau K} {removed : List Nat} (ht : t.Sound)
    (htol : 0 ≤ t.tolerance) (hcheck : t.checkFeasible = .ok ())
    (hdrop : t.dropArtificials = .ok (v, removed)) : v.checkFeasible = .ok () := by
  by_cases hphase : t.layout.inPhaseOne = true
  · obtain ⟨u, -, hu, hsame, hright, hdrop'⟩ := Tableau.dropArtificials_spec ht htol hphase
    have hphase' : u.layout.inPhaseOne = true := by rwa [hsame.layout]
    rw [hdrop'] at hdrop
    cases hdrop
    refine (hu.strip hphase').checkFeasible_eq_ok.2 fun r hr => ?_
    obtain ⟨k, hk, rfl⟩ := (Tableau.mem_constraintRows_strip hu.toConsistent hphase').1 hr
    rw [Tableau.right_strip hu.toConsistent hphase' (by omega), Tableau.tolerance_strip]
    exact hright (ht.checkFeasible_eq_ok.1 hcheck) _
      (Tableau.mem_survivors.1 (Tableau.origin_mem hk)).1
  · rw [Tableau.dropArtificials, if_neg hphase] at hdrop
    cases hdrop
    exact hcheck

/-- The method breaks off at a stage only because this fails the check. -/
theorem check_of_breach (hp : ∀ c ∈ p.constraints, c.left.arity = p.objective.arity)
    (htol : 0 ≤ settings.tolerance) (hs : (p.start settings).after rule p.objective n = some s)
    (hstop : s.advance rule p.objective = .stop (.error (.breach b))) :
    s.tableau.checkFeasible = .error b := by
  obtain ⟨hsound, htolerance, hrep⟩ := represents_of_after hp htol hs
  have htol' : 0 ≤ s.tableau.tolerance := by rwa [htolerance]
  cases Stage.stops_of_advance hstop with
  | check h => exact h
  | pivot hcheck hmove h =>
    obtain ⟨-, -, -, -, hpivot⟩ := hsound.pivot_of_move htol' hmove
    rw [hpivot] at h
    cases h
  | drop hcheck hphase hcost h =>
    obtain ⟨hone, hsame⟩ := hrep.of_one hphase
    obtain ⟨u, -, -, -, -, hdrop⟩ := Tableau.dropArtificials_spec hsound htol'
      (by rw [hsame.layout]; exact hone)
    rw [hdrop] at h
    cases h

/-- A stage that fails the check follows a pivot that overshoots. -/
theorem overshoots_of_check (hp : ∀ c ∈ p.constraints, c.left.arity = p.objective.arity)
    (htol : 0 ≤ settings.tolerance) (hs : (p.start settings).after rule p.objective n = some s)
    (hcheck : s.tableau.checkFeasible = .error b) :
    b = .negativeValue ∧ ∃ m u r c cost, (p.start settings).after rule p.objective m = some u ∧
      u.pivots < s.pivots ∧ u.tableau.checkFeasible = .ok () ∧
      u.phase.settled u.tableau = false ∧ u.tableau.move rule = .pivot r c cost ∧
      u.tableau.Overshoots r c := by
  cases n with
  | zero =>
    cases hs
    rw [checkFeasible_start hp htol] at hcheck
    cases hcheck
  | succ m =>
    obtain ⟨u, hu, hgo⟩ := exists_of_after_succ hs
    obtain ⟨hsound, htolerance, hrep⟩ := represents_of_after hp htol hu
    obtain ⟨hcheck', ⟨r, c, cost, t, hsettled, hmove, hpivot, rfl⟩ |
      ⟨t, removed, hphase, -, hdrop, rfl⟩⟩ := Stage.advance_eq_go hgo
    · obtain ⟨hr, hc, hb, hentry, rfl⟩ := Tableau.pivot_eq_ok hpivot
      obtain ⟨rfl, hover⟩ :=
        (hsound.exchange_checkFeasible hr hc hb (by simpa using hentry)).1 hcheck
      exact ⟨rfl, m, u, r, c, cost, hu, Nat.lt_succ_self _, hcheck', hsettled, hmove, hover⟩
    · rw [checkFeasible_of_drop hsound (by rwa [htolerance]) hcheck' hdrop] at hcheck
      cases hcheck

/-- **When a run breaks off.** The bookkeeping of the basis and the unit columns are in order at
every stage of a checked program. A run breaks off exactly if one of the pivots that it may make
pushes a right-hand side below minus the tolerance, and a program that does not pass the check never
does. -/
theorem solve_eq_breach_iff (p : LinearProgram K) (settings : Settings K) (rule : PivotRule) :
    (∀ n s, p.check settings = .ok () → (p.start settings).after rule p.objective n = some s →
      s.tableau.basisAgrees = true ∧ s.tableau.basisIsUnit = true) ∧
    ∀ b, p.solve settings rule = .error (.breach b) ↔
      p.check settings = .ok () ∧ b = .negativeValue ∧
        ∃ n s r c cost, (p.start settings).after rule p.objective n = some s ∧
          s.pivots < settings.pivotLimit ∧ s.phase.settled s.tableau = false ∧
          s.tableau.move rule = .pivot r c cost ∧ s.tableau.Overshoots r c := by
  refine ⟨fun n s hcheck hs => ?_, fun b => ⟨fun hsolve => ?_, ?_⟩⟩
  · obtain ⟨htol, hp⟩ := of_check hcheck
    obtain ⟨hsound, -, -⟩ := represents_of_after hp htol.le hs
    exact ⟨hsound.basisAgrees, hsound.basisIsUnit⟩
  · cases hcheck : p.check settings with
    | error e =>
      rw [solve, run, hcheck] at hsolve
      cases hsolve
    | ok =>
      obtain ⟨htol, hp⟩ := of_check hcheck
      obtain ⟨n, s, hs, -, ⟨-, hlimit⟩ | ⟨hpivots, hstop⟩⟩ := run_spec hcheck rule none
      · rw [solve, hlimit] at hsolve
        cases hsolve
      · rw [solve] at hsolve
        rw [hsolve] at hstop
        obtain ⟨hb, m, u, r, c, cost, hu, hlt, -, hsettled, hmove, hover⟩ :=
          overshoots_of_check hp htol.le hs (check_of_breach hp htol.le hs hstop)
        exact ⟨rfl, hb, m, u, r, c, cost, hu, hlt.trans_le hpivots, hsettled, hmove, hover⟩
  · rintro ⟨hcheck, rfl, n, s, r, c, cost, hs, hpivots, hsettled, hmove, hover⟩
    obtain ⟨htol, hp⟩ := of_check hcheck
    obtain ⟨hsound, htolerance, -⟩ := represents_of_after hp htol.le hs
    cases hstate : s.tableau.checkFeasible with
    | error b =>
      obtain ⟨rfl, -⟩ := hsound.checkFeasible_eq_error.1 hstate
      refine solve_eq_of_stop hcheck hs ?_ hpivots.le
      rw [Stage.advance, hstate]
    | ok =>
      obtain ⟨hr, hc, hb, hentry, hpivot⟩ :=
        hsound.pivot_of_move (by rw [htolerance]; exact htol.le) hmove
      have hgo : s.advance rule p.objective =
          .go ⟨s.phase, s.tableau.exchange r c, s.pivots + 1⟩ := by
        rw [Stage.advance, hstate]
        dsimp only
        rw [if_neg (by simp [hsettled]), hmove]
        dsimp only
        rw [Stage.pivot, hpivot]
      refine solve_eq_of_stop hcheck (Stage.after_succ_of_some hs hgo) ?_ hpivots
      rw [Stage.advance, (hsound.exchange_checkFeasible hr hc hb hentry).2 ⟨rfl, hover⟩]

end

/-! ## Two programs that break off -/

/-- Maximize `x` subject to `x / 10000000 ≤ 1` and `x ≤ 1000000000`. The maximum is at ten
million. -/
def ignoredEntry : LinearProgram ℚ :=
  ⟨.maximize, ⟨[1], 0⟩, [.linear [1 / 10000000] .atMost 1, .linear [1] .atMost 1000000000]⟩

/-- **An entry within the tolerance is ignored.** The coefficient of the first constraint does not
count in the ratio test, and the pivot on the second one breaks the first. -/
theorem solve_breach_ignored_entry : ignoredEntry.check .standard = .ok () ∧
    (ignoredEntry.start .standard).tableau.basisAgrees = true ∧
    (ignoredEntry.start .standard).tableau.basisIsUnit = true ∧
    ignoredEntry.solve .standard .steepest = .error (.breach .negativeValue) ∧
    ∃ n s r c cost, (ignoredEntry.start .standard).after .steepest ignoredEntry.objective n =
        some s ∧ s.tableau.move .steepest = .pivot r c cost ∧ s.tableau.Overshoots r c := by
  have hcheck : ignoredEntry.check .standard = .ok () := by decide +kernel
  have hsolve : ignoredEntry.solve .standard .steepest = .error (.breach .negativeValue) := by
    decide +kernel
  obtain ⟨hstages, hbreach⟩ := solve_eq_breach_iff ignoredEntry .standard .steepest
  obtain ⟨hagrees, hunit⟩ := hstages 0 _ hcheck rfl
  obtain ⟨-, -, n, s, r, c, cost, hs, -, -, hmove, hover⟩ := (hbreach _).1 hsolve
  exact ⟨hcheck, hagrees, hunit, hsolve, n, s, r, c, cost, hs, hmove, hover⟩

/-- Maximize `x` subject to `1024 x ≤ 1024` and `x ≤ 1.0000004`. The maximum is at one. -/
def nearTie : LinearProgram ℚ :=
  ⟨.maximize, ⟨[1], 0⟩,
    [.linear [1024] .atMost 1024, .linear [1] .atMost (10000004 / 10000000)]⟩

/-- **Ratios within the tolerance count as equal.** The second constraint has the larger slack
column, and so its row is taken although it allows more than the first. -/
theorem solve_breach_near_tie : nearTie.check .standard = .ok () ∧
    nearTie.solve .standard .steepest = .error (.breach .negativeValue) ∧
    nearTie.solve .standard .first = .error (.breach .negativeValue) := by
  decide +kernel

end LinearProgram

end Simplex
