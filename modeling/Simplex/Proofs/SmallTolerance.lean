import Mathlib.Data.List.Find
import Mathlib.Order.Filter.AtTopBot.Basic
import Mathlib.Order.Filter.Finite
import Simplex.Proofs.Cycling
import Simplex.Proofs.Exact

/-!
# Small tolerances

Every decision of the method compares a value with the tolerance, and for all tolerances below some
threshold the comparison comes out as if there were none (`eventually_le_iff`). A method that stops
makes finitely many of them, and one that goes round repeats itself, so below some threshold it goes
through the same stages as without a tolerance (`LinearProgram.eventually_forall_after`), where it
is right (`LinearProgram.correct_of_stop`). So a solver with a sufficiently small tolerance gives up
at its limit or is right (`LinearProgram.exists_tolerance_forall_correct`).

That something holds for all sufficiently small tolerances is written with the filter `atBot` of the
positive elements of the field.
-/

namespace Simplex

open Filter

section
variable {K : Type} [Field K] [LinearOrder K] [IsStrictOrderedRing K]

/-- The tolerances of a solver. -/
abbrev Tolerance (K : Type) [Field K] [LinearOrder K] : Type := {ε : K // 0 < ε}

instance : Nonempty (Tolerance K) := ⟨⟨1, zero_lt_one⟩⟩

/-! ## Comparisons with a small tolerance -/

/-- A value is at most all small tolerances if it is not positive. -/
theorem eventually_le_iff (x : K) : ∀ᶠ ε : Tolerance K in atBot, (x ≤ ε.1 ↔ x ≤ 0) := by
  rcases le_or_gt x 0 with hx | hx
  · exact .of_forall fun ε => iff_of_true (hx.trans ε.2.le) hx
  · filter_upwards [eventually_le_atBot (⟨x / 2, half_pos hx⟩ : Tolerance K)] with ε hε
    have hlt : ε.1 < x := lt_of_le_of_lt hε (half_lt_self hx)
    exact iff_of_false (not_le.2 hlt) (not_le.2 hx)

/-- A value exceeds all small tolerances if it is positive. -/
theorem eventually_lt_iff (x : K) : ∀ᶠ ε : Tolerance K in atBot, (ε.1 < x ↔ 0 < x) := by
  filter_upwards [eventually_le_iff x] with ε hε
  rw [← not_le, hε, not_le]

/-- A value is above minus all small tolerances if it is not negative. -/
theorem eventually_neg_le_iff (x : K) : ∀ᶠ ε : Tolerance K in atBot, (-ε.1 ≤ x ↔ 0 ≤ x) := by
  filter_upwards [eventually_le_iff (-x)] with ε hε
  rw [neg_le, hε, neg_nonpos]

/-- A value is below minus all small tolerances if it is negative. -/
theorem eventually_lt_neg_iff (x : K) : ∀ᶠ ε : Tolerance K in atBot, (x < -ε.1 ↔ x < 0) := by
  filter_upwards [eventually_neg_le_iff x] with ε hε
  rw [← not_le, hε, not_le]

omit [IsStrictOrderedRing K] in
/-- What holds of each member of a list for all small tolerances holds of all members at once. -/
theorem eventually_forall_mem {α : Type} {q : α → Tolerance K → Prop} (xs : List α)
    (h : ∀ x ∈ xs, ∀ᶠ ε in atBot, q x ε) : ∀ᶠ ε in atBot, ∀ x ∈ xs, q x ε :=
  (eventually_all_finite xs.finite_toSet).2 h

end

namespace Tableau

/-- The same tableau with another tolerance. -/
def withTolerance {F : Type} (ε : F) (t : Tableau F) : Tableau F := { t with tolerance := ε }

section
variable {F : Type} [Scalar F] {t : Tableau F} {r c : Nat}

/-- A pivot does not look at the tolerance. -/
theorem pivot_withTolerance (ε : F) (t : Tableau F) (r c : Nat) :
    (t.withTolerance ε).pivot r c = (t.pivot r c).map (withTolerance ε) := by
  have hpivot : (t.withTolerance ε).pivot r c =
      if !t.isConstraintRow r then .error (.notConstraint r)
      else if ¬ c < t.layout.variableCount then .error (.notVariable c)
      else if t.isBasic c then .error (.alreadyBasic c)
      else if t.entry r c == 0 then .error (.zeroPivot r c)
      else if !t.isBasic (t.basicColumn r) then .error .basis
      else .ok ((t.exchange r c).withTolerance ε) := rfl
  rw [hpivot, pivot]
  split
  · rfl
  · split
    · rfl
    · split
      · rfl
      · split
        · rfl
        · split <;> rfl

/-- A pivot keeps the tolerance. -/
theorem tolerance_of_pivot {u : Tableau F} (h : t.pivot r c = .ok u) :
    u.tolerance = t.tolerance := by
  obtain ⟨-, -, -, -, rfl⟩ := pivot_eq_ok h
  rfl

/-- What happens to a row keeps the tolerance. -/
theorem tolerance_of_replaceInRow {removed : List Nat} {v : Tableau F × List Nat}
    (h : replaceInRow (t, removed) r = .ok v) : v.1.tolerance = t.tolerance := by
  unfold replaceInRow at h
  dsimp only at h
  split at h
  · split at h
    · split at h
      · next hpivot =>
        cases h
        exact tolerance_of_pivot hpivot
      · cases h
    · cases h
      rfl
  · cases h
    rfl

end

section
variable {K : Type} [Field K] [LinearOrder K] [IsStrictOrderedRing K] {t : Tableau K}

/-! ## The decisions of a pivot -/

/-- The check of a tableau, for all small tolerances. -/
theorem eventually_checkFeasible (h : t.tolerance = 0) :
    ∀ᶠ ε : Tolerance K in atBot, (t.withTolerance ε.1).checkFeasible = t.checkFeasible := by
  filter_upwards [eventually_forall_mem t.constraintRows fun r _ =>
    eventually_neg_le_iff (t.right r)] with ε hε
  have hright : (t.withTolerance ε.1).rightIsNonnegative = t.rightIsNonnegative := by
    rw [Bool.eq_iff_iff, rightIsNonnegative_iff, rightIsNonnegative_iff, h, neg_zero]
    exact forall₂_congr hε
  have hcheck : (t.withTolerance ε.1).checkFeasible =
      if !t.basisAgrees then .error .basis
      else if !t.basisIsUnit then .error .notUnit
      else if !(t.withTolerance ε.1).rightIsNonnegative then .error .negativeValue
      else .ok () := rfl
  rw [hcheck, hright, checkFeasible]

/-- Whether a phase has what it wants, for all small tolerances. -/
theorem eventually_settled (h : t.tolerance = 0) (phase : Phase) :
    ∀ᶠ ε : Tolerance K in atBot, phase.settled (t.withTolerance ε.1) = phase.settled t := by
  cases phase with
  | two => exact .of_forall fun _ => rfl
  | one =>
    filter_upwards [eventually_le_iff t.value] with ε hε
    show decide (t.value ≤ ε.1) = decide (t.value ≤ t.tolerance)
    rw [h]
    exact decide_eq_decide.2 hε

/-- The entering column, for all small tolerances. -/
theorem eventually_entering (h : t.tolerance = 0) (rule : PivotRule) :
    ∀ᶠ ε : Tolerance K in atBot, (t.withTolerance ε.1).entering rule = t.entering rule := by
  filter_upwards [eventually_forall_mem t.nonBasic fun j _ =>
    eventually_lt_neg_iff (t.cost j)] with ε hε
  have hprofitable : ∀ j ∈ t.nonBasic, (t.withTolerance ε.1).isProfitable j = t.isProfitable j := by
    intro j hj
    rw [isProfitable, isProfitable, h, neg_zero]
    exact decide_eq_decide.2 (hε j hj)
  cases rule with
  | steepest =>
    rw [entering_steepest, entering_steepest]
    refine List.foldl_ext _ _ _ fun best j hj => ?_
    unfold keepBest
    rw [hprofitable j hj]
    rfl
  | first =>
    rw [entering_first, entering_first]
    exact List.find?_congr hprofitable

/-- The outcome of the ratio test on a list of candidates, for all small tolerances. -/
theorem eventually_foldl_challenge (others : List (Candidate K)) (first : Candidate K) :
    ∀ᶠ ε : Tolerance K in atBot, others.foldl (Candidate.challenge ε.1) first =
      others.foldl (Candidate.challenge 0) first := by
  induction others generalizing first with
  | nil => exact .of_forall fun _ => rfl
  | cons next others ih =>
    filter_upwards [eventually_le_iff (Scalar.abs (next.ratio - first.ratio)),
      ih (first.challenge 0 next)] with ε hε hrest
    have hchallenge : first.challenge ε.1 next = first.challenge 0 next := by
      rw [Candidate.challenge, Candidate.challenge]
      exact if_congr hε rfl rfl
    rw [List.foldl_cons, List.foldl_cons, hchallenge, hrest]

/-- The pivot row, for all small tolerances. -/
theorem eventually_leavingRow (h : t.tolerance = 0) (c : Nat) :
    ∀ᶠ ε : Tolerance K in atBot, (t.withTolerance ε.1).leavingRow c = t.leavingRow c := by
  have hcandidates : ∀ᶠ ε : Tolerance K in atBot,
      (t.withTolerance ε.1).candidates c = t.candidates c := by
    filter_upwards [eventually_forall_mem t.constraintRows fun r _ =>
      eventually_lt_iff (t.entry r c)] with ε hε
    rw [candidates, candidates, h]
    exact congrArg (List.map (t.candidate c))
      (List.filter_congr fun r hr => decide_eq_decide.2 (hε r hr))
  have htolerance : ∀ ε : K, (t.withTolerance ε).tolerance = ε := fun _ => rfl
  cases hlist : t.candidates c with
  | nil =>
    filter_upwards [hcandidates] with ε hε
    rw [leavingRow, leavingRow, hε, hlist]
  | cons first others =>
    filter_upwards [hcandidates, eventually_foldl_challenge others first] with ε hε hfold
    rw [leavingRow, leavingRow, hε, hlist, htolerance, h]
    dsimp only
    rw [hfold]

/-- The move, for all small tolerances. -/
theorem eventually_move (h : t.tolerance = 0) (rule : PivotRule) :
    ∀ᶠ ε : Tolerance K in atBot, (t.withTolerance ε.1).move rule = t.move rule := by
  cases hentering : t.entering rule with
  | none =>
    filter_upwards [eventually_entering h rule] with ε hε
    rw [move_eq, move_eq, hε, hentering]
  | some column =>
    filter_upwards [eventually_entering h rule, eventually_leavingRow h column] with ε hε hrow
    rw [move_eq, move_eq, hε, hentering]
    dsimp only
    rw [hrow]
    rfl

/-! ## Leaving phase one -/

/-- Which columns may replace an artificial variable, for all small tolerances. -/
theorem eventually_mayReplace (h : t.tolerance = 0) (r c : Nat) :
    ∀ᶠ ε : Tolerance K in atBot, (t.withTolerance ε.1).mayReplace r c = t.mayReplace r c := by
  filter_upwards [eventually_lt_iff (Scalar.abs (t.entry r c)),
    eventually_forall_mem t.constraintRows fun i _ =>
      eventually_neg_le_iff (t.right i - t.entry i c * (t.right r / t.entry r c))]
    with ε hentry hright
  have hkeeps : (t.withTolerance ε.1).keepsFeasible r c = t.keepsFeasible r c := by
    refine if_congr Iff.rfl rfl ?_
    rw [Bool.eq_iff_iff, List.all_eq_true, List.all_eq_true]
    refine forall₂_congr fun i hi => ?_
    rw [Bool.or_eq_true, Bool.or_eq_true, decide_eq_true_eq, decide_eq_true_eq, h, neg_zero]
    exact or_congr_right (hright i hi)
  have hmay : (t.withTolerance ε.1).mayReplace r c =
      if t.right r == 0 then decide (ε.1 < Scalar.abs (t.entry r c))
      else (t.withTolerance ε.1).keepsFeasible r c := rfl
  rw [hmay, hkeeps, mayReplace, h, decide_eq_decide.2 hentry]

/-- The replacement of an artificial variable, for all small tolerances. -/
theorem eventually_replacement (h : t.tolerance = 0) (r : Nat) :
    ∀ᶠ ε : Tolerance K in atBot, (t.withTolerance ε.1).replacement r = t.replacement r := by
  filter_upwards [eventually_forall_mem (t.nonBasic.filter (· < t.layout.artificialStart))
    fun c _ => eventually_mayReplace h r c] with ε hε
  rw [replacement_eq, replacement_eq]
  refine List.foldl_ext _ _ _ fun best j hj => ?_
  unfold keepBest
  rw [hε j hj]
  rfl

/-- What happens to one row, for all small tolerances. -/
theorem eventually_replaceInRow (h : t.tolerance = 0) (removed : List Nat) (r : Nat) :
    ∀ᶠ ε : Tolerance K in atBot, replaceInRow (t.withTolerance ε.1, removed) r =
      (replaceInRow (t, removed) r).map (Prod.map (withTolerance ε.1) id) := by
  filter_upwards [eventually_replacement h r] with ε hε
  have hbasis : (t.withTolerance ε.1).hasArtificialBasis r = t.hasArtificialBasis r := rfl
  by_cases hart : t.hasArtificialBasis r = true
  · cases hrep : t.replacement r with
    | none =>
      rw [replaceInRow_of_none hart hrep, replaceInRow_of_none (hbasis.trans hart) (hε.trans hrep)]
      rfl
    | some column =>
      rw [replaceInRow_of_some hart hrep, replaceInRow_of_some (hbasis.trans hart) (hε.trans hrep),
        pivot_withTolerance]
      cases t.pivot r column <;> rfl
  · rw [replaceInRow_of_not hart, replaceInRow_of_not (by rwa [hbasis])]
    rfl

/-- What happens to several rows, for all small tolerances. -/
theorem eventually_foldlM_replaceInRow (rows removed : List Nat) (h : t.tolerance = 0) :
    ∀ᶠ ε : Tolerance K in atBot, rows.foldlM replaceInRow (t.withTolerance ε.1, removed) =
      (rows.foldlM replaceInRow (t, removed)).map (Prod.map (withTolerance ε.1) id) := by
  induction rows generalizing t removed with
  | nil => exact .of_forall fun _ => rfl
  | cons r rows ih =>
    cases hrow : replaceInRow (t, removed) r with
    | error b =>
      filter_upwards [eventually_replaceInRow h removed r] with ε hε
      rw [List.foldlM_cons, List.foldlM_cons, hε, hrow]
      rfl
    | ok v =>
      have hv : v.1.tolerance = 0 := (tolerance_of_replaceInRow hrow).trans h
      filter_upwards [eventually_replaceInRow h removed r, ih v.2 hv] with ε hε hrest
      rw [List.foldlM_cons, List.foldlM_cons, hε, hrow]
      exact hrest

/-- What is left after phase one, for all small tolerances. -/
theorem eventually_dropArtificials (h : t.tolerance = 0) : ∀ᶠ ε : Tolerance K in atBot,
    (t.withTolerance ε.1).dropArtificials =
      t.dropArtificials.map (Prod.map (withTolerance ε.1) id) := by
  filter_upwards [eventually_foldlM_replaceInRow t.constraintRows [] h] with ε hε
  have hreplace : (t.withTolerance ε.1).replaceArtificials =
      t.replaceArtificials.map (Prod.map (withTolerance ε.1) id) := hε
  have hlayout : (t.withTolerance ε.1).layout = t.layout := rfl
  rw [dropArtificials, dropArtificials, hlayout, hreplace]
  split
  · cases t.replaceArtificials with
    | error b => rfl
    | ok v =>
      dsimp only [Except.map, Prod.map]
      split
      · next hall => exact (if_pos hall).symm ▸ rfl
      · next hall => exact (if_neg hall).symm ▸ rfl
  · rfl

end

end Tableau

namespace Stage

/-- The same stage with another tolerance. -/
def withTolerance {F : Type} (ε : F) (s : Stage F) : Stage F :=
  { s with tableau := s.tableau.withTolerance ε }

section
variable {K : Type} [Field K] [LinearOrder K] [IsStrictOrderedRing K] {rule : PivotRule}
  {objective : Affine K} {s : Stage K}

/-! ## Stages with a small tolerance -/

omit [IsStrictOrderedRing K] in
/-- A pivot does not look at the tolerance. -/
theorem pivot_withTolerance (ε : K) (s : Stage K) (row column : Nat) :
    (s.withTolerance ε).pivot row column = (s.pivot row column).map (withTolerance ε) := by
  dsimp only [pivot, withTolerance]
  rw [Tableau.pivot_withTolerance]
  cases s.tableau.pivot row column <;> rfl

/-- How phase one is left, for all small tolerances. -/
theorem eventually_leave (h : s.tableau.tolerance = 0) : ∀ᶠ ε : Tolerance K in atBot,
    (s.withTolerance ε.1).leave = s.leave.map (withTolerance ε.1) := by
  filter_upwards [eventually_lt_iff s.tableau.value, Tableau.eventually_dropArtificials h]
    with ε hε hdrop
  have htableau : (s.withTolerance ε.1).tableau = s.tableau.withTolerance ε.1 := rfl
  have hcost : (s.tableau.withTolerance ε.1).tolerance < (s.tableau.withTolerance ε.1).value ↔
      s.tableau.tolerance < s.tableau.value := by
    rw [h]
    exact hε
  rw [leave, leave, htableau, hdrop, if_congr hcost rfl rfl]
  split
  · rfl
  · cases s.tableau.dropArtificials <;> rfl

/-- **A transition, for all small tolerances.** -/
theorem eventually_advance (h : s.tableau.tolerance = 0) (rule : PivotRule)
    (objective : Affine K) : ∀ᶠ ε : Tolerance K in atBot,
      (s.withTolerance ε.1).advance rule objective =
        (s.advance rule objective).map (withTolerance ε.1) := by
  filter_upwards [Tableau.eventually_checkFeasible h, Tableau.eventually_settled h s.phase,
    Tableau.eventually_move h rule, eventually_leave h] with ε hcheck hsettled hmove hleave
  exact advance_map rfl hcheck hsettled hmove rfl (pivot_withTolerance ε.1 s) hleave

end

end Stage

namespace LinearProgram

section
variable {K : Type} [Field K] [LinearOrder K] [IsStrictOrderedRing K] {p : LinearProgram K}
  {nonnegative : Bool} {limit : Nat} {rule : PivotRule}

/-! ## Runs with a small tolerance -/

/-- **There is a threshold for the whole run.** A method that goes round goes through finitely many
tableaus, so below some threshold it does for good what it does without a tolerance. -/
theorem eventually_forall_after (hp : ∀ c ∈ p.constraints, c.left.arity = p.objective.arity)
    (nonnegative : Bool) (limit : Nat) (rule : PivotRule) : ∀ᶠ ε : Tolerance K in atBot, ∀ n,
      (p.start ⟨ε.1, limit, nonnegative⟩).after rule p.objective n =
        ((p.start ⟨0, limit, nonnegative⟩).after rule p.objective n).map
          (Stage.withTolerance ε.1) := by
  obtain ⟨N, hN⟩ := exists_bound_shift hp ⟨0, limit, nonnegative⟩ (le_refl 0) rule
  have hadvance : ∀ m ∈ List.range N, ∀ᶠ ε : Tolerance K in atBot, ∀ u,
      (p.start ⟨0, limit, nonnegative⟩).after rule p.objective m = some u →
        (u.withTolerance ε.1).advance rule p.objective =
          (u.advance rule p.objective).map (Stage.withTolerance ε.1) := by
    intro m _
    cases hm : (p.start ⟨0, limit, nonnegative⟩).after rule p.objective m with
    | none => exact .of_forall fun ε u hu => nomatch hu
    | some u =>
      obtain ⟨-, htolerance, -⟩ := represents_of_after hp (le_refl 0) hm
      filter_upwards [Stage.eventually_advance htolerance rule p.objective] with ε hε v hv
      cases hv
      exact hε
  filter_upwards [eventually_forall_mem (List.range N) hadvance] with ε hε n
  induction n with
  | zero => rfl
  | succ n ih =>
    rw [Stage.after_add, Stage.after_add, ih]
    cases hs : (p.start ⟨0, limit, nonnegative⟩).after rule p.objective n with
    | none => rfl
    | some s =>
      obtain ⟨m, hm, u, d, hu, rfl⟩ := hN n s hs
      have hstep := hε m (List.mem_range.2 hm) u hu
      have hshift : (u.shift d).withTolerance ε.1 = (u.withTolerance ε.1).shift d := rfl
      rw [Option.map_some, Option.bind_some, Option.bind_some, hshift, Stage.after_shift,
        Stage.after_shift]
      cases hgo : u.advance rule p.objective with
      | go v =>
        rw [hgo] at hstep
        rw [Stage.after_succ_of_go hgo, Stage.after_succ_of_go hstep]
        rfl
      | stop r =>
        rw [hgo] at hstep
        rw [Stage.after_succ_of_stop hgo, Stage.after_succ_of_stop hstep]
        rfl

/-- **For all small tolerances a run goes through the stages of the run without a tolerance.** -/
theorem eventually_after (hp : ∀ c ∈ p.constraints, c.left.arity = p.objective.arity) {n : Nat}
    {s : Stage K} (h : (p.start ⟨0, limit, nonnegative⟩).after rule p.objective n = some s) :
    ∀ᶠ ε : Tolerance K in atBot, (p.start ⟨ε.1, limit, nonnegative⟩).after rule p.objective n =
      some (s.withTolerance ε.1) := by
  filter_upwards [eventually_forall_after hp nonnegative limit rule] with ε hε
  rw [hε, h, Option.map_some]

/-- **A solver with a small tolerance is right.** For every program without a defect there is a
threshold such that with every tolerance below it a solver passes its limit on the pivots, or
returns an outcome, and then what the outcome says about the program is exactly true. -/
theorem exists_tolerance_forall_correct (h : p.validate = .ok ()) (nonnegative : Bool)
    (limit : Nat) (rule : PivotRule) :
    ∃ ε₀ > 0, ∀ ε, 0 < ε → ε < ε₀ →
      p.solve ⟨ε, limit, nonnegative⟩ rule = .error (.error (.pivotLimit limit)) ∨
        ∃ outcome, p.solve ⟨ε, limit, nonnegative⟩ rule = .ok outcome ∧
          p.Correct nonnegative outcome := by
  have hp := arity_of_validate h
  have hcheck : ∀ ε : Tolerance K, p.check ⟨ε.1, limit, nonnegative⟩ = .ok () := fun ε =>
    check_eq_ok.2 ⟨if_pos ⟨ε.2, rfl⟩, h⟩
  obtain ⟨n, u, hu, -, hends⟩ := Stage.twoPhases_spec rule limit p.objective
    (t := Trail.start none (.initial p nonnegative 0)) rfl
  have hu : (p.start ⟨0, limit, nonnegative⟩).after rule p.objective n = some u := hu
  have hsmall : ∀ᶠ ε : Tolerance K in atBot,
      p.solve ⟨ε.1, limit, nonnegative⟩ rule = .error (.error (.pivotLimit limit)) ∨
        ∃ outcome, p.solve ⟨ε.1, limit, nonnegative⟩ rule = .ok outcome ∧
          p.Correct nonnegative outcome := by
    rcases hends with ⟨hpivots, -⟩ | ⟨hpivots, hstop⟩
    · filter_upwards [eventually_after hp hu] with ε hafter
      refine .inl (solve_eq_pivotLimit (hcheck ε) hafter ?_)
      show limit < u.pivots
      omega
    · obtain ⟨outcome, hresult, hcorrect⟩ := correct_of_stop hp rfl hu hstop
      obtain ⟨-, htolerance, -⟩ := represents_of_after hp (le_refl 0) hu
      rw [hresult] at hstop
      filter_upwards [eventually_after hp hu,
        Stage.eventually_advance htolerance rule p.objective] with ε hafter hadvance
      refine .inr ⟨outcome, solve_eq_of_stop (hcheck ε) hafter ?_ hpivots, hcorrect⟩
      rw [hadvance, hstop]
      rfl
  obtain ⟨ε₀, hε₀⟩ := eventually_atBot.1 hsmall
  exact ⟨ε₀.1, ε₀.2, fun ε hε hlt => hε₀ ⟨ε, hε⟩ hlt.le⟩

/-- The program that loses its first constraint at the standard tolerance. With every sufficiently
small one its outcome is correct, if the run ends within the limit. -/
theorem exists_tolerance_lostRow : lostRow.validate = .ok () ∧
    ∃ ε₀ > 0, ∀ ε, 0 < ε → ε < ε₀ →
      lostRow.solve ⟨ε, 10000, true⟩ .steepest = .error (.error (.pivotLimit 10000)) ∨
        ∃ outcome, lostRow.solve ⟨ε, 10000, true⟩ .steepest = .ok outcome ∧
          lostRow.Correct true outcome := by
  have hvalid : lostRow.validate = .ok () := by decide +kernel
  exact ⟨hvalid, exists_tolerance_forall_correct hvalid true 10000 .steepest⟩

end

end LinearProgram

end Simplex
