import Mathlib.Data.ENat.Lattice
import Mathlib.Data.Set.Card
import Simplex.Proofs.Cycling

/-!
# The limit on the pivots

A transition of the method is a pivot of its phase, or the change from phase one to phase two with
all the pivots that replace artificial variables. Only the former are counted
(`LinearProgram.pivots_eq_card`), and `LinearProgram.totalPivots` is how many there are before the
method stops, infinitely many if it does not.

The limit is a threshold and nothing else (`LinearProgram.exists_result_forall_limit`): with a limit
below the total a run gives up, after the first pivot that exceeds it, and with any other limit it
returns one and the same result. No law of arithmetic is used, so this holds in floating point as
well.
-/

namespace Simplex

/-- What a run can end with other than giving up: an outcome, an artificial cost that appears to be
unbounded, or a breach. -/
inductive Conclusive {F : Type} : Except Failure (Outcome F) → Prop
  | outcome (o : Outcome F) : Conclusive (.ok o)
  | artificialUnbounded : Conclusive (.error (.error .artificialUnbounded))
  | breach (b : Breach) : Conclusive (.error (.breach b))

namespace LinearProgram

variable {F : Type} [Scalar F] {p : LinearProgram F} {settings : Settings F} {rule : PivotRule}
  {n : Nat} {s : Stage F} {result : Except Failure (Outcome F)}

/-! ## Counting pivots -/

/-- The transitions of the method that stay in their phase, by the number of transitions before.
The pivots that are made when the artificial variables are dropped belong to the change of phase,
which is none of them. -/
def pivotTimes (p : LinearProgram F) (settings : Settings F) (rule : PivotRule) : Set Nat :=
  {k | ∃ s u, (p.start settings).after rule p.objective k = some s ∧
    s.advance rule p.objective = .go u ∧ u.phase = s.phase}

/-- How many pivots the method makes without a limit, over both phases. -/
noncomputable def totalPivots (p : LinearProgram F) (settings : Settings F) (rule : PivotRule) :
    ℕ∞ :=
  (p.pivotTimes settings rule).encard

/-- Whether the transition at a stage is a pivot of the phase. -/
theorem mem_pivotTimes {u : Stage F} (hs : (p.start settings).after rule p.objective n = some s)
    (hgo : s.advance rule p.objective = .go u) :
    n ∈ p.pivotTimes settings rule ↔ u.phase = s.phase := by
  constructor
  · rintro ⟨s', u', hs', hgo', hphase⟩
    obtain rfl : s = s' := Option.some.inj (hs.symm.trans hs')
    rw [hgo] at hgo'
    cases hgo'
    exact hphase
  · exact fun hphase => ⟨s, u, hs, hgo, hphase⟩

open Classical in
/-- **The counter of a stage is the number of the pivots before it.** -/
theorem pivots_eq_card (hs : (p.start settings).after rule p.objective n = some s) :
    s.pivots = ((Finset.range n).filter (· ∈ p.pivotTimes settings rule)).card := by
  induction n generalizing s with
  | zero =>
    cases hs
    rfl
  | succ n ih =>
    obtain ⟨u, hu, hgo⟩ := exists_of_after_succ hs
    have hmem := mem_pivotTimes hu hgo
    rw [Finset.range_add_one, Finset.filter_insert]
    obtain ⟨-, ⟨_, _, _, _, -, -, -, rfl⟩ | ⟨_, _, hphase, -, -, rfl⟩⟩ := Stage.advance_eq_go hgo
    · rw [if_pos (hmem.2 rfl), Finset.card_insert_of_notMem (by simp), ← ih hu]
    · have hnot : n ∉ p.pivotTimes settings rule := fun hn => by
        have htwo : Phase.two = u.phase := hmem.1 hn
        rw [hphase] at htwo
        cases htwo
      rw [if_neg hnot, ← ih hu]

/-- There are at least as many pivots as were made at a stage. -/
theorem pivots_le_totalPivots (hs : (p.start settings).after rule p.objective n = some s) :
    (s.pivots : ℕ∞) ≤ p.totalPivots settings rule := by
  classical
  rw [pivots_eq_card hs, ← Set.encard_coe_eq_coe_finsetCard]
  exact Set.encard_le_encard fun k hk => (Finset.mem_filter.1 hk).2

/-- The pivots that were made when the method stops are all that there are. -/
theorem totalPivots_eq_of_stop (hs : (p.start settings).after rule p.objective n = some s)
    (hstop : s.advance rule p.objective = .stop result) :
    p.totalPivots settings rule = s.pivots := by
  classical
  have hbefore : p.pivotTimes settings rule ⊆
      ((Finset.range n).filter (· ∈ p.pivotTimes settings rule) : Finset Nat) := by
    intro k hk
    obtain ⟨v, w, hv, hgo, -⟩ := id hk
    have hle := Stage.le_of_stop (Stage.after_succ_of_some hv hgo) hs hstop
    exact Finset.mem_coe.2 (Finset.mem_filter.2 ⟨Finset.mem_range.2 hle, hk⟩)
  refine le_antisymm ?_ (pivots_le_totalPivots hs)
  rw [pivots_eq_card hs, ← Set.encard_coe_eq_coe_finsetCard]
  exact Set.encard_le_encard hbefore

/-- A method that does not stop makes infinitely many pivots. -/
theorem totalPivots_eq_top
    (h : ∀ n, ∃ s, (p.start settings).after rule p.objective n = some s) :
    p.totalPivots settings rule = ⊤ := by
  refine ENat.eq_top_iff_forall_ge.2 fun L => ?_
  obtain ⟨s, hs⟩ := h (L + 1)
  obtain ⟨-, hle⟩ := le_pivots_of_after hs
  exact (Nat.cast_le.2 (Nat.le_of_succ_le_succ hle)).trans (pivots_le_totalPivots hs)

/-! ## The threshold -/

/-- What the method stops with is conclusive. -/
theorem conclusive_of_stop (h : s.advance rule p.objective = .stop result) :
    Conclusive result := by
  cases Stage.stops_of_advance h with
  | check | pivot | drop => exact .breach _
  | artificialUnbounded => exact .artificialUnbounded
  | infeasible | unbounded | optimal => exact .outcome _

/-- **A run makes all pivots there are, or one more than the limit allows.** -/
theorem run_pivots (h : p.check settings = .ok ()) (rule : PivotRule) (detail : Option Level) :
    ((p.run settings rule detail).pivots : ℕ∞) =
      min (p.totalPivots settings rule) (settings.pivotLimit + 1) := by
  obtain ⟨n, u, hu, hpivots, ⟨hlimit, -⟩ | ⟨hle, hstop⟩⟩ := run_spec h rule detail
  · have htotal := pivots_le_totalPivots hu
    rw [hlimit, Nat.cast_add_one] at htotal
    rw [hpivots, hlimit, Nat.cast_add_one, min_eq_right htotal]
  · rw [hpivots, totalPivots_eq_of_stop hu hstop, min_eq_left]
    exact_mod_cast Nat.le_succ_of_le hle

/-- **The limit is a pure threshold.** There is one conclusive result that a solver returns for
every limit from the total number of pivots on, while for every limit below it gives up. The pivots
of a run, those between the phases not counted, are all there are or one more than the limit. -/
theorem exists_result_forall_limit (h : p.check settings = .ok ()) (rule : PivotRule) :
    ∃ result, Conclusive result ∧ ∀ N : Nat,
      p.solve { settings with pivotLimit := N } rule =
        (if (N : ℕ∞) < p.totalPivots settings rule then .error (.error (.pivotLimit N))
          else result) ∧
      ∀ detail, ((p.run { settings with pivotLimit := N } rule detail).pivots : ℕ∞) =
        min (p.totalPivots settings rule) (N + 1) := by
  have hcheck : ∀ N, p.check { settings with pivotLimit := N } = .ok () := fun _ => h
  have hgives : ∀ {N n s}, (p.start settings).after rule p.objective n = some s → N < s.pivots →
      p.solve { settings with pivotLimit := N } rule = .error (.error (.pivotLimit N)) :=
    fun hs hlt => solve_eq_pivotLimit (hcheck _) hs hlt
  by_cases hends : ∃ n, (p.start settings).after rule p.objective n = none
  · obtain ⟨n, hnone⟩ := hends
    obtain ⟨m, s, result, hs, hstop⟩ := exists_stop_of_none hnone
    refine ⟨result, conclusive_of_stop hstop, fun N => ⟨?_, run_pivots (hcheck N) rule⟩⟩
    rw [totalPivots_eq_of_stop hs hstop]
    split
    · next hlt => exact hgives hs (Nat.cast_lt.1 hlt)
    · next hge => exact solve_eq_of_stop (hcheck N) hs hstop (Nat.cast_le.1 (not_lt.1 hge))
  · have hgoes : ∀ n, ∃ s, (p.start settings).after rule p.objective n = some s := fun n =>
      Option.ne_none_iff_exists'.1 fun hnone => hends ⟨n, hnone⟩
    -- Without an end every limit is below the total, and any result will do.
    refine ⟨_, .outcome .infeasible, fun N => ⟨?_, run_pivots (hcheck N) rule⟩⟩
    obtain ⟨s, hs⟩ := hgoes (N + 2)
    obtain ⟨-, hle⟩ := le_pivots_of_after hs
    rw [totalPivots_eq_top hgoes, if_pos (ENat.natCast_lt_top N)]
    exact hgives hs (Nat.le_of_succ_le_succ hle)

/-- Maximize `y` subject to `x = 0` and `y ≤ 1`. -/
def pinned : LinearProgram ℚ :=
  ⟨.maximize, ⟨[0, 1], 0⟩, [.linear [1, 0] .equal 0, .linear [0, 1] .atMost 1]⟩

/-- In `pinned` the artificial variable is replaced by a pivot between the phases, and the only
pivot that counts is the one of phase two. -/
theorem pinned_totalPivots : pinned.check .standard = .ok () ∧
    pinned.totalPivots .standard .steepest = 1 ∧
    ∀ N, pinned.solve { Settings.standard with pivotLimit := N } .steepest =
      if N < 1 then .error (.error (.pivotLimit N)) else .ok (.optimal [0, 1] 1) := by
  have hcheck : pinned.check .standard = .ok () := by decide +kernel
  obtain ⟨result, -, hlimit⟩ := exists_result_forall_limit hcheck .steepest
  have hone : pinned.solve { Settings.standard with pivotLimit := 1 } .steepest =
      .ok (.optimal [0, 1] 1) := by decide +kernel
  have hpivots : (pinned.run { Settings.standard with pivotLimit := 1 } .steepest none).pivots =
      1 := by decide +kernel
  have htotal : pinned.totalPivots .standard .steepest = 1 := by
    have hmin := (hlimit 1).2 none
    rw [hpivots] at hmin
    rcases min_choice (pinned.totalPivots .standard .steepest) ((1 : ℕ) + 1) with h | h
    · rw [h] at hmin
      exact_mod_cast hmin.symm
    · rw [h] at hmin
      exact absurd hmin (by norm_num)
  refine ⟨hcheck, htotal, fun N => ?_⟩
  have hresult : result = .ok (.optimal [0, 1] 1) := by
    have hsolve := (hlimit 1).1
    rwa [htotal, Nat.cast_one, if_neg (lt_irrefl _), hone, eq_comm] at hsolve
  have hcast : (N : ℕ∞) < 1 ↔ N < 1 := by rw [← Nat.cast_one, Nat.cast_lt]
  rw [(hlimit N).1, htotal, hresult]
  exact if_congr hcast rfl rfl

end LinearProgram

end Simplex
