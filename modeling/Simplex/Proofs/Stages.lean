import Simplex.Proofs.Program

/-!
# The method as a transition system

The loops of the two phases, with the change from one to the other, are one deterministic system. A
`Stage` is what the method knows between two pivots, and `Stage.advance` says what it does there: it
goes on to another stage or stops with a result. No limit on the number of pivots is part of it. A
limited run follows the same stages until it stops (`LinearProgram.solve_eq_of_stop`) or the limit
is passed (`LinearProgram.solve_eq_pivotLimit`), so what a run returns can be read off the stages.
-/

namespace Simplex

/-- The two phases of the method. -/
inductive Phase where
  | one
  | two
deriving DecidableEq, Repr

/-- When the loop of a phase has what it wants. -/
def Phase.settled {F : Type} [Scalar F] : Phase → Tableau F → Bool
  | one => fun t => t.value ≤ t.tolerance
  | two => fun _ => false

/-- The method between two pivots. -/
structure Stage (F : Type) where
  phase : Phase
  tableau : Tableau F
  /-- The pivots made so far, those between the phases not counted. -/
  pivots : Nat

/-- What the method does at a stage. -/
inductive Advance (F : Type) where
  /-- It goes on to another stage. -/
  | go (next : Stage F)
  /-- It stops. -/
  | stop (result : Except Failure (Outcome F))

/-- Change the stage that the method goes on to. -/
def Advance.map {F : Type} (f : Stage F → Stage F) : Advance F → Advance F
  | go u => .go (f u)
  | stop r => .stop r

namespace Stage

variable {F : Type} [Scalar F] {rule : PivotRule} {objective : Affine F} {s u : Stage F}

/-- Pivot, and stay in the phase. -/
def pivot (s : Stage F) (row column : Nat) : Advance F :=
  match s.tableau.pivot row column with
  | .error b => .stop (.error (.breach b))
  | .ok t => .go ⟨s.phase, t, s.pivots + 1⟩

/-- Leave phase one: the program is infeasible, or phase two begins. -/
def leave (s : Stage F) : Advance F :=
  if s.tableau.tolerance < s.tableau.value then .stop (.ok .infeasible)
  else
    match s.tableau.dropArtificials with
    | .error b => .stop (.error (.breach b))
    | .ok (t, _) => .go ⟨.two, t, s.pivots⟩

/-- What follows when the loop of the phase comes to rest. -/
def conclude (objective : Affine F) (s : Stage F) : Halt → Advance F
  | .unbounded =>
    match s.phase with
    | .one => .stop (.error (.error .artificialUnbounded))
    | .two => .stop (.ok .unbounded)
  | _ =>
    match s.phase with
    | .one => s.leave
    | .two => .stop (.ok (.optimal s.tableau.solution (objective.eval s.tableau.solution)))

/-- What the method does at a stage: the tableau is checked, and a pivot is made unless the loop of
the phase comes to rest. -/
def advance (rule : PivotRule) (objective : Affine F) (s : Stage F) : Advance F :=
  match s.tableau.checkFeasible with
  | .error b => .stop (.error (.breach b))
  | .ok () =>
    if s.phase.settled s.tableau then s.conclude objective .settled
    else
      match s.tableau.move rule with
      | .optimal => s.conclude objective .optimal
      | .unbounded _ => s.conclude objective .unbounded
      | .pivot row column _ => s.pivot row column

/-- The stage after so many transitions, none if the method stops before. -/
def after (rule : PivotRule) (objective : Affine F) : Nat → Stage F → Option (Stage F)
  | 0, s => some s
  | n + 1, s =>
    match s.advance rule objective with
    | .go next => after rule objective n next
    | .stop _ => none

/-- The first transition of several. -/
theorem after_succ_of_go (h : s.advance rule objective = .go u) (n : Nat) :
    s.after rule objective (n + 1) = u.after rule objective n := by
  rw [after, h]

/-- There is no transition after the last one. -/
theorem after_succ_of_stop {r : Except Failure (Outcome F)}
    (h : s.advance rule objective = .stop r) (n : Nat) :
    s.after rule objective (n + 1) = none := by
  rw [after, h]

/-- The transitions in two parts. -/
theorem after_add (m n : Nat) (s : Stage F) :
    s.after rule objective (m + n) =
      (s.after rule objective m).bind (·.after rule objective n) := by
  induction m generalizing s with
  | zero => rw [Nat.zero_add]; rfl
  | succ m ih =>
    rw [Nat.succ_add]
    cases h : s.advance rule objective with
    | go u => rw [after_succ_of_go h, after_succ_of_go h, ih]
    | stop r => rw [after_succ_of_stop h, after_succ_of_stop h, Option.bind_none]

/-- The transition after several. -/
theorem after_succ_of_some {n : Nat} {v : Stage F} (h : s.after rule objective n = some u)
    (hgo : u.advance rule objective = .go v) : s.after rule objective (n + 1) = some v := by
  rw [after_add, h, Option.bind_some, after_succ_of_go hgo]
  rfl

/-! ## The loop of a phase -/

/-- A trail as a stage of a phase. -/
def of (phase : Phase) (t : Trail F) : Stage F := ⟨phase, t.tableau, t.pivots⟩

/-- One iteration of the loop, at a tableau that passed the check and is not settled. -/
theorem advance_of_step (rule : PivotRule) (objective : Affine F) {phase : Phase} {t : Trail F}
    (hcheck : t.tableau.checkFeasible = .ok ())
    (hsettled : ¬ phase.settled t.tableau = true) :
    match t.step rule with
    | (t', .ok (.pivoted _ _)) =>
      (of phase t).advance rule objective = .go (of phase t') ∧ t'.pivots = t.pivots + 1
    | (t', .ok .optimal) => of phase t' = of phase t ∧
      (of phase t).advance rule objective = (of phase t).conclude objective .optimal
    | (t', .ok (.unbounded _)) => of phase t' = of phase t ∧
      (of phase t).advance rule objective = (of phase t).conclude objective .unbounded
    | (t', .error b) => of phase t' = of phase t ∧
      (of phase t).advance rule objective = .stop (.error (.breach b)) := by
  have hadvance : (of phase t).advance rule objective =
      match t.tableau.move rule with
      | .optimal => (of phase t).conclude objective .optimal
      | .unbounded _ => (of phase t).conclude objective .unbounded
      | .pivot row column _ => (of phase t).pivot row column := by
    have hcheck' : (of phase t).tableau.checkFeasible = .ok () := hcheck
    rw [advance, hcheck']
    exact if_neg hsettled
  rw [hadvance, Trail.step]
  cases t.tableau.move rule with
  | optimal => exact ⟨rfl, rfl⟩
  | unbounded column => exact ⟨rfl, rfl⟩
  | pivot row column cost =>
    have hpivot : (of phase t).pivot row column =
        match t.tableau.pivot row column with
        | .error b => .stop (.error (.breach b))
        | .ok u => .go ⟨phase, u, t.pivots + 1⟩ := rfl
    have hrecord : (t.record (.pivoting row column cost)).tableau = t.tableau := rfl
    simp only [hpivot, hrecord]
    cases t.tableau.pivot row column with
    | error b => exact ⟨rfl, rfl⟩
    | ok u => exact ⟨rfl, rfl⟩

/-- How the loop of a phase ends within a budget of pivots: it comes to rest, breaks off, or makes
one pivot too many. -/
def EndsLoop (rule : PivotRule) (objective : Affine F) (phase : Phase) (bound : Nat) :
    Trail F × Except Breach Halt → Prop
  | (t, .ok .limit) => t.pivots = bound + 1
  | (t, .ok halt) =>
    t.pivots ≤ bound ∧ (of phase t).advance rule objective = (of phase t).conclude objective halt
  | (t, .error b) =>
    t.pivots ≤ bound ∧ (of phase t).advance rule objective = .stop (.error (.breach b))

/-- **The loop of a phase follows the stages.** -/
theorem descend_spec (rule : PivotRule) (objective : Affine F) (phase : Phase) (budget : Nat)
    (t : Trail F) : ∃ n,
      (of phase t).after rule objective n =
        some (of phase (t.descend rule phase.settled budget).1) ∧
      EndsLoop rule objective phase (t.pivots + budget) (t.descend rule phase.settled budget) := by
  cases hcheck : t.tableau.checkFeasible with
  | error b =>
    have hcheck' : (of phase t).tableau.checkFeasible = .error b := hcheck
    unfold Trail.descend
    rw [hcheck]
    refine ⟨0, rfl, Nat.le_add_right _ _, ?_⟩
    rw [advance, hcheck']
  | ok =>
    by_cases hsettled : phase.settled t.tableau = true
    · have hcheck' : (of phase t).tableau.checkFeasible = .ok () := hcheck
      unfold Trail.descend
      rw [hcheck]
      dsimp only
      rw [if_pos hsettled]
      refine ⟨0, rfl, Nat.le_add_right _ _, ?_⟩
      rw [advance, hcheck']
      exact if_pos hsettled
    · have hstep := advance_of_step rule objective hcheck hsettled
      unfold Trail.descend
      rw [hcheck]
      dsimp only
      rw [if_neg hsettled]
      rcases hs : t.step rule with ⟨t', b | row | _ | _⟩ <;> rw [hs] at hstep
      · obtain ⟨hof, hadvance⟩ := hstep
        have hpivots : t'.pivots = t.pivots := congrArg pivots hof
        exact ⟨0, by rw [← hof]; rfl, by omega, by rw [hof, hadvance]⟩
      · obtain ⟨hgo, hpivots⟩ := hstep
        cases budget with
        | zero => exact ⟨1, after_succ_of_go hgo 0, hpivots⟩
        | succ budget =>
          obtain ⟨n, hafter, hends⟩ := descend_spec rule objective phase budget t'
          rw [hpivots, Nat.add_assoc, Nat.add_comm 1] at hends
          exact ⟨n + 1, (after_succ_of_go hgo n).trans hafter, hends⟩
      · obtain ⟨hof, hadvance⟩ := hstep
        have hpivots : t'.pivots = t.pivots := congrArg pivots hof
        exact ⟨0, by rw [← hof]; rfl, by omega, by rw [hof, hadvance]⟩
      · obtain ⟨hof, hadvance⟩ := hstep
        have hpivots : t'.pivots = t.pivots := congrArg pivots hof
        exact ⟨0, by rw [← hof]; rfl, by omega, by rw [hof, hadvance]⟩

/-! ## The whole run -/

/-- The stage with which a run on a tableau begins. -/
def start (t : Tableau F) : Stage F := ⟨if t.layout.inPhaseOne then .one else .two, t, 0⟩

/-- How a run with a limit on the pivots ends: it passes the limit, or the method stops. -/
def EndsRun (rule : PivotRule) (objective : Affine F) (limit : Nat) (s : Stage F)
    (result : Except Failure (Outcome F)) : Prop :=
  (s.pivots = limit + 1 ∧ result = .error (.error (.pivotLimit limit))) ∨
    (s.pivots ≤ limit ∧ s.advance rule objective = .stop result)

/-- The last part of a run follows the stages of phase two. -/
theorem finish_spec (rule : PivotRule) (limit : Nat) (objective : Affine F) {t : Trail F}
    (ht : t.pivots ≤ limit) : ∃ n u, (of .two t).after rule objective n = some u ∧
      (t.finish rule limit objective).pivots = u.pivots ∧
      EndsRun rule objective limit u (t.finish rule limit objective).result := by
  obtain ⟨n, hafter, hends⟩ := descend_spec rule objective .two (limit - t.pivots) t
  rw [Nat.add_sub_cancel' ht] at hends
  refine ⟨n, _, hafter, ?_⟩
  have hsettled : (fun _ : Tableau F => false) = Phase.two.settled := rfl
  rw [Trail.finish, Trail.phaseTwo, hsettled]
  rcases hrun : t.descend rule Phase.two.settled (limit - t.pivots) with ⟨t', b | _ | _ | _ | _⟩
    <;> rw [hrun] at hends
  · exact ⟨rfl, .inr hends⟩
  · exact ⟨rfl, .inr hends⟩
  · exact ⟨rfl, .inr hends⟩
  · exact ⟨rfl, .inr hends⟩
  · exact ⟨rfl, .inl ⟨hends, rfl⟩⟩

/-- What is left of a run once no pivot of phase one is to be made. -/
def leaveAndFinish (rule : PivotRule) (limit : Nat) (objective : Affine F)
    (t : Trail F) : Run F :=
  match t.leavePhaseOne with
  | (s, .error e) => ⟨s.pivots, s.journal, .error e⟩
  | (s, .ok .infeasible) => ⟨s.pivots, s.journal, .ok .infeasible⟩
  | (s, .ok (.feasible removed)) => (s.recordFeasible removed).finish rule limit objective

/-- Leaving phase one follows the stages. -/
theorem leave_spec (rule : PivotRule) (limit : Nat) (objective : Affine F) {t : Trail F}
    (ht : t.pivots ≤ limit) (hleave : (of .one t).advance rule objective = (of .one t).leave) :
    ∃ n u, (of .one t).after rule objective n = some u ∧
      (leaveAndFinish rule limit objective t).pivots = u.pivots ∧
      EndsRun rule objective limit u (leaveAndFinish rule limit objective t).result := by
  have hof : (of .one t).leave =
      if t.tableau.tolerance < t.tableau.value then .stop (.ok .infeasible)
      else
        match t.tableau.dropArtificials with
        | .error b => .stop (.error (.breach b))
        | .ok (v, _) => .go ⟨.two, v, t.pivots⟩ := rfl
  rw [hof] at hleave
  rw [leaveAndFinish, Trail.leavePhaseOne]
  by_cases hcost : t.tableau.tolerance < t.tableau.value
  · rw [if_pos hcost] at hleave ⊢
    exact ⟨0, _, rfl, rfl, .inr ⟨ht, hleave⟩⟩
  · rw [if_neg hcost] at hleave ⊢
    rcases hdrop : t.tableau.dropArtificials with b | ⟨v, removed⟩ <;> rw [hdrop] at hleave
    · exact ⟨0, _, rfl, rfl, .inr ⟨ht, hleave⟩⟩
    · have hrecord : of .two (({ t with tableau := v } : Trail F).recordFeasible removed) =
          ⟨.two, v, t.pivots⟩ := by
        rw [Trail.recordFeasible]
        split <;> rfl
      obtain ⟨n, u, hafter, hends⟩ := finish_spec rule limit objective
        (t := ({ t with tableau := v } : Trail F).recordFeasible removed)
        (Nat.le_trans (Nat.le_of_eq (congrArg pivots hrecord)) ht)
      rw [hrecord] at hafter
      exact ⟨n + 1, u, (after_succ_of_go hleave n).trans hafter, hends⟩

/-- **A run follows the stages.** -/
theorem twoPhases_spec (rule : PivotRule) (limit : Nat) (objective : Affine F) {t : Trail F}
    (ht : t.pivots = 0) : ∃ n u, (start t.tableau).after rule objective n = some u ∧
      (t.twoPhases rule limit objective).pivots = u.pivots ∧
      EndsRun rule objective limit u (t.twoPhases rule limit objective).result := by
  by_cases hphase : t.tableau.layout.inPhaseOne = true
  · obtain ⟨n, hafter, hends⟩ := descend_spec rule objective .one (limit - t.pivots) t
    have hstart : start t.tableau = of .one t := by
      rw [start, if_pos hphase, of, ht]
    rw [Nat.add_sub_cancel' (by omega)] at hends
    rw [Trail.twoPhases, if_pos hphase, hstart]
    have hsettled : (fun t : Tableau F => decide (t.value ≤ t.tolerance)) = Phase.one.settled := rfl
    rw [Trail.phaseOne, hsettled]
    rcases hrun : t.descend rule Phase.one.settled (limit - t.pivots) with ⟨t', b | _ | _ | _ | _⟩
      <;> rw [hrun] at hends hafter
    · exact ⟨n, _, hafter, rfl, .inr hends⟩
    · obtain ⟨m, u, hu, hends'⟩ := leave_spec rule limit objective hends.1 hends.2
      exact ⟨n + m, u, by rw [after_add, hafter, Option.bind_some, hu], hends'⟩
    · obtain ⟨m, u, hu, hends'⟩ := leave_spec rule limit objective hends.1 hends.2
      exact ⟨n + m, u, by rw [after_add, hafter, Option.bind_some, hu], hends'⟩
    · exact ⟨n, _, hafter, rfl, .inr hends⟩
    · exact ⟨n, _, hafter, rfl, .inl ⟨hends, rfl⟩⟩
  · have hstart : start t.tableau = of .two (t.record .slackBasis) := by
      rw [start, if_neg hphase, of]
      congr 1
      exact ht.symm
    rw [Trail.twoPhases, if_neg hphase, hstart]
    exact finish_spec rule limit objective (by show t.pivots ≤ limit; omega)

/-- A phase one that ends with a finding ends at a stage at which the method leaves it. -/
theorem exists_leave_of_phaseOne (objective : Affine F) {limit : Nat} {t t' : Trail F}
    {found : Feasibility} (h : t.phaseOne rule limit = (t', .ok found)) :
    ∃ n u, (of .one t).after rule objective n = some (of .one u) ∧
      u.leavePhaseOne = (t', .ok found) ∧
      (of .one u).advance rule objective = (of .one u).leave := by
  obtain ⟨n, hafter, hends⟩ := descend_spec rule objective .one (limit - t.pivots) t
  have hsettled : (fun t : Tableau F => decide (t.value ≤ t.tolerance)) = Phase.one.settled := rfl
  rw [Trail.phaseOne, hsettled] at h
  rcases hrun : t.descend rule Phase.one.settled (limit - t.pivots) with ⟨u, b | _ | _ | _ | _⟩
    <;> rw [hrun] at hafter hends h
  · cases h
  · exact ⟨n, u, hafter, h, hends.2⟩
  · exact ⟨n, u, hafter, h, hends.2⟩
  · cases h
  · cases h

/-- A phase one that finds no feasible basis ends at a stage at which the method stops. -/
theorem after_of_phaseOne (objective : Affine F) {limit : Nat} {t t' : Trail F}
    (h : t.phaseOne rule limit = (t', .ok .infeasible)) :
    ∃ n, (of .one t).after rule objective n = some (of .one t') ∧
      (of .one t').advance rule objective = .stop (.ok .infeasible) := by
  obtain ⟨n, u, hafter, hu, hadvance⟩ := exists_leave_of_phaseOne objective h
  unfold Trail.leavePhaseOne at hu
  split at hu
  · next hcost =>
    -- The last trail has an entry in the journal more, which the stage does not see.
    cases hu
    exact ⟨n, hafter, hadvance.trans (if_pos hcost)⟩
  · split at hu <;> cases hu

/-- A phase one that finds a feasible basis ends at a stage at which the artificial variables are
dropped, and reports the rows that this removes. -/
theorem after_of_phaseOne_feasible (objective : Affine F) {limit : Nat} {t t' : Trail F}
    {removed : List Nat} (h : t.phaseOne rule limit = (t', .ok (.feasible removed))) :
    ∃ n s v, (of .one t).after rule objective n = some s ∧ s.phase = .one ∧
      s.advance rule objective = .go ⟨.two, v, s.pivots⟩ ∧
      s.tableau.dropArtificials = .ok (v, removed) := by
  obtain ⟨n, u, hafter, hu, hadvance⟩ := exists_leave_of_phaseOne objective h
  unfold Trail.leavePhaseOne at hu
  split at hu
  · cases hu
  · next hcost =>
    split at hu
    · cases hu
    · next v removed' hdrop =>
      cases hu
      have hdrop' : (of .one u).tableau.dropArtificials = .ok (v, removed) := hdrop
      have hleave : (of .one u).leave = .go ⟨.two, v, (of .one u).pivots⟩ := by
        have hcost' : ¬ (of .one u).tableau.tolerance < (of .one u).tableau.value := hcost
        rw [leave, if_neg hcost', hdrop']
      exact ⟨n, of .one u, v, hafter, rfl, hadvance.trans hleave, hdrop'⟩

/-! ## What a transition can be -/

/-- Phase one is left when its loop comes to rest. -/
theorem conclude_one (h : s.phase = .one) {halt : Halt} (hhalt : halt ≠ .unbounded) :
    s.conclude objective halt = s.leave := by
  unfold conclude
  split
  · exact absurd rfl hhalt
  · rw [h]

/-- Phase two ends with an optimum when its loop comes to rest. -/
theorem conclude_two (h : s.phase = .two) {halt : Halt} (hhalt : halt ≠ .unbounded) :
    s.conclude objective halt =
      .stop (.ok (.optimal s.tableau.solution (objective.eval s.tableau.solution))) := by
  unfold conclude
  split
  · exact absurd rfl hhalt
  · rw [h]

/-- **What happens when the method goes on.** The tableau passed the check, and either a pivot was
made, or the artificial variables were dropped because their cost is down to the tolerance. -/
theorem advance_eq_go (h : s.advance rule objective = .go u) :
    s.tableau.checkFeasible = .ok () ∧
      ((∃ row column cost t, s.phase.settled s.tableau = false ∧
          s.tableau.move rule = .pivot row column cost ∧
          s.tableau.pivot row column = .ok t ∧ u = ⟨s.phase, t, s.pivots + 1⟩) ∨
        (∃ t removed, s.phase = .one ∧ ¬ s.tableau.tolerance < s.tableau.value ∧
          s.tableau.dropArtificials = .ok (t, removed) ∧ u = ⟨.two, t, s.pivots⟩)) := by
  have hconclude : ∀ {halt}, s.conclude objective halt = .go u →
      ∃ t removed, s.phase = .one ∧ ¬ s.tableau.tolerance < s.tableau.value ∧
        s.tableau.dropArtificials = .ok (t, removed) ∧ u = ⟨.two, t, s.pivots⟩ := by
    intro halt hgo
    obtain ⟨hphase, hleave⟩ : s.phase = .one ∧ s.leave = .go u := by
      unfold conclude at hgo
      split at hgo <;> split at hgo <;> first | exact ⟨‹_›, hgo⟩ | cases hgo
    unfold leave at hleave
    split at hleave
    · cases hleave
    · next hcost =>
      split at hleave
      · cases hleave
      · next t removed hdrop =>
        cases hleave
        exact ⟨t, removed, hphase, hcost, hdrop, rfl⟩
  unfold advance at h
  split at h
  · cases h
  · next hcheck =>
    refine ⟨hcheck, ?_⟩
    split at h
    · exact .inr (hconclude h)
    · next hsettled =>
      split at h
      · exact .inr (hconclude h)
      · exact .inr (hconclude h)
      · next row column cost hmove =>
        unfold pivot at h
        split at h
        · cases h
        · next t hpivot =>
          cases h
          exact .inl ⟨row, column, cost, t, by simpa using hsettled, hmove, hpivot, rfl⟩

/-- Why the method stops with a result: the tableau is in no basic feasible state, a pivot or the
change of phase is broken off, a column can grow forever, the artificial cost cannot come down to
the tolerance, or the cost cannot come down any further. -/
inductive Stops (rule : PivotRule) (objective : Affine F) (s : Stage F) :
    Except Failure (Outcome F) → Prop
  | check {b : Breach} (h : s.tableau.checkFeasible = .error b) :
    Stops rule objective s (.error (.breach b))
  | pivot {b : Breach} {row column : Nat} {cost : F} (hcheck : s.tableau.checkFeasible = .ok ())
    (hmove : s.tableau.move rule = .pivot row column cost)
    (h : s.tableau.pivot row column = .error b) : Stops rule objective s (.error (.breach b))
  | drop {b : Breach} (hcheck : s.tableau.checkFeasible = .ok ()) (hphase : s.phase = .one)
    (hcost : ¬ s.tableau.tolerance < s.tableau.value)
    (h : s.tableau.dropArtificials = .error b) : Stops rule objective s (.error (.breach b))
  | artificialUnbounded {column : Nat} (hcheck : s.tableau.checkFeasible = .ok ())
    (hphase : s.phase = .one) (hmove : s.tableau.move rule = .unbounded column) :
    Stops rule objective s (.error (.error .artificialUnbounded))
  | infeasible (hcheck : s.tableau.checkFeasible = .ok ()) (hphase : s.phase = .one)
    (hrest : Phase.one.settled s.tableau = true ∨ s.tableau.move rule = .optimal)
    (hcost : s.tableau.tolerance < s.tableau.value) : Stops rule objective s (.ok .infeasible)
  | unbounded {column : Nat} (hcheck : s.tableau.checkFeasible = .ok ()) (hphase : s.phase = .two)
    (hmove : s.tableau.move rule = .unbounded column) : Stops rule objective s (.ok .unbounded)
  | optimal (hcheck : s.tableau.checkFeasible = .ok ()) (hphase : s.phase = .two)
    (hmove : s.tableau.move rule = .optimal) :
    Stops rule objective s
      (.ok (.optimal s.tableau.solution (objective.eval s.tableau.solution)))

/-- **What happens when the method stops.** -/
theorem stops_of_advance {r : Except Failure (Outcome F)}
    (h : s.advance rule objective = .stop r) : Stops rule objective s r := by
  unfold advance at h
  split at h
  · next b hcheck =>
    cases h
    exact .check hcheck
  · next hcheck =>
    have hleave : s.phase = .one →
        (Phase.one.settled s.tableau = true ∨ s.tableau.move rule = .optimal) →
        s.leave = .stop r → Stops rule objective s r := by
      intro hphase hrest hstop
      unfold leave at hstop
      split at hstop
      · next hcost =>
        cases hstop
        exact .infeasible hcheck hphase hrest hcost
      · next hcost =>
        split at hstop
        · next b hdrop =>
          cases hstop
          exact .drop hcheck hphase hcost hdrop
        · cases hstop
    split at h
    · next hsettled =>
      cases hphase : s.phase with
      | one =>
        rw [hphase] at hsettled
        replace h := (conclude_one hphase (by decide)).symm.trans h
        exact hleave hphase (.inl hsettled) h
      | two =>
        rw [hphase] at hsettled
        cases hsettled
    · split at h
      · next hmove =>
        cases hphase : s.phase with
        | one =>
          replace h := (conclude_one hphase (by decide)).symm.trans h
          exact hleave hphase (.inr hmove) h
        | two =>
          replace h := (conclude_two hphase (by decide)).symm.trans h
          cases h
          exact .optimal hcheck hphase hmove
      · next column hmove =>
        cases hphase : s.phase with
        | one =>
          rw [conclude, hphase] at h
          cases h
          exact .artificialUnbounded hcheck hphase hmove
        | two =>
          rw [conclude, hphase] at h
          cases h
          exact .unbounded hcheck hphase hmove
      · next row column cost hmove =>
        unfold pivot at h
        split at h
        · next b hpivot =>
          cases h
          exact .pivot hcheck hmove hpivot
        · cases h

/-! ## Changes of a stage -/

/-- A change of a stage that keeps the phase, the decisions and the solution, and goes along with a
pivot and with the end of phase one, goes along with a transition. -/
theorem advance_map {f : Stage F → Stage F} (hphase : (f s).phase = s.phase)
    (hcheck : (f s).tableau.checkFeasible = s.tableau.checkFeasible)
    (hsettled : s.phase.settled (f s).tableau = s.phase.settled s.tableau)
    (hmove : (f s).tableau.move rule = s.tableau.move rule)
    (hsolution : (f s).tableau.solution = s.tableau.solution)
    (hpivot : ∀ row column, (f s).pivot row column = (s.pivot row column).map f)
    (hleave : (f s).leave = s.leave.map f) :
    (f s).advance rule objective = (s.advance rule objective).map f := by
  have hconclude : ∀ halt, (f s).conclude objective halt = (s.conclude objective halt).map f := by
    intro halt
    unfold conclude
    rw [hphase, hleave, hsolution]
    cases halt <;> cases s.phase <;> rfl
  unfold advance
  rw [hphase, hcheck, hsettled, hmove]
  cases s.tableau.checkFeasible with
  | error b => rfl
  | ok =>
    dsimp only
    split
    · exact hconclude .settled
    · cases s.tableau.move rule with
      | optimal => exact hconclude .optimal
      | unbounded column => exact hconclude .unbounded
      | pivot row column cost => exact hpivot row column

/-! ## Determinism -/

/-- A transition makes no pivot undone. -/
theorem pivots_le_of_go (h : s.advance rule objective = .go u) : s.pivots ≤ u.pivots := by
  obtain ⟨-, ⟨_, _, _, _, -, -, -, rfl⟩ | ⟨_, _, -, -, -, rfl⟩⟩ := advance_eq_go h
  · exact Nat.le_succ _
  · exact Nat.le_refl _

/-- The pivots only grow. -/
theorem pivots_le_of_after {n : Nat} (h : s.after rule objective n = some u) :
    s.pivots ≤ u.pivots := by
  induction n generalizing s with
  | zero =>
    cases h
    exact Nat.le_refl _
  | succ n ih =>
    cases hadvance : s.advance rule objective with
    | go v =>
      rw [after_succ_of_go hadvance] at h
      exact Nat.le_trans (pivots_le_of_go hadvance) (ih h)
    | stop r =>
      rw [after_succ_of_stop hadvance] at h
      cases h

/-- A stage at which the method stops is the last one. -/
theorem le_of_stop {r : Except Failure (Outcome F)} {m n : Nat} {v : Stage F}
    (hv : s.after rule objective m = some v) (hu : s.after rule objective n = some u)
    (hstop : u.advance rule objective = .stop r) : m ≤ n := by
  rcases Nat.lt_or_ge n m with hlt | hle
  · obtain ⟨k, rfl⟩ := Nat.exists_eq_add_of_lt hlt
    rw [Nat.add_assoc, after_add, hu, Option.bind_some, after_succ_of_stop hstop] at hv
    cases hv
  · exact hle

/-- Of two stages the later one has no fewer pivots. -/
theorem pivots_mono {m n : Nat} {v : Stage F} (hmn : m ≤ n)
    (hv : s.after rule objective m = some v) (hu : s.after rule objective n = some u) :
    v.pivots ≤ u.pivots := by
  obtain ⟨k, rfl⟩ := Nat.exists_eq_add_of_le hmn
  rw [after_add, hv, Option.bind_some] at hu
  exact pivots_le_of_after hu

end Stage

/-! ## What a solver returns -/

namespace LinearProgram

variable {F : Type} [Scalar F] {p : LinearProgram F} {settings : Settings F} {rule : PivotRule}

/-- The stage with which a run on a program begins. -/
def start (p : LinearProgram F) (settings : Settings F) : Stage F :=
  .start (Tableau.initial p settings.nonnegative settings.tolerance)

/-- With artificial variables a run begins with phase one. -/
theorem start_eq_of_one {detail : Option Level}
    (h : (p.opening settings detail).tableau.layout.inPhaseOne = true) :
    p.start settings = .of .one (p.opening settings detail) := by
  show (⟨if (p.opening settings detail).tableau.layout.inPhaseOne then .one else .two, _, _⟩ :
    Stage F) = _
  rw [if_pos h]
  rfl

/-- **A run on a program that passes the check follows the stages.** -/
theorem run_spec (h : p.check settings = .ok ()) (rule : PivotRule) (detail : Option Level) :
    ∃ n u, (p.start settings).after rule p.objective n = some u ∧
      (p.run settings rule detail).pivots = u.pivots ∧
      u.EndsRun rule p.objective settings.pivotLimit (p.run settings rule detail).result := by
  rw [run_eq h]
  exact Stage.twoPhases_spec rule settings.pivotLimit p.objective
    (t := p.opening settings detail) rfl

/-- A solver returns what the method stops with, if that is within the limit. -/
theorem solve_eq_of_stop (h : p.check settings = .ok ()) {n : Nat} {u : Stage F}
    {r : Except Failure (Outcome F)} (hu : (p.start settings).after rule p.objective n = some u)
    (hstop : u.advance rule p.objective = .stop r) (hlimit : u.pivots ≤ settings.pivotLimit) :
    p.solve settings rule = r := by
  obtain ⟨m, v, hv, -, hends⟩ := run_spec h rule none
  have hmn := Stage.le_of_stop hv hu hstop
  rcases hends with ⟨hpivots, -⟩ | ⟨-, hstop'⟩
  · have := Stage.pivots_mono hmn hv hu
    omega
  · obtain rfl : m = n := Nat.le_antisymm hmn (Stage.le_of_stop hu hv hstop')
    obtain rfl : v = u := Option.some.inj (hv.symm.trans hu)
    rw [hstop] at hstop'
    cases hstop'
    rfl

/-- A solver gives up if the method gets beyond the limit. -/
theorem solve_eq_pivotLimit (h : p.check settings = .ok ()) {n : Nat} {u : Stage F}
    (hu : (p.start settings).after rule p.objective n = some u)
    (hlimit : settings.pivotLimit < u.pivots) :
    p.solve settings rule = .error (.error (.pivotLimit settings.pivotLimit)) := by
  obtain ⟨m, v, hv, -, ⟨-, hresult⟩ | ⟨hpivots, hstop⟩⟩ := run_spec h rule none
  · exact hresult
  · have := Stage.pivots_mono (Stage.le_of_stop hu hv hstop) hu hv
    omega

/-- What a solver returns, unless it gives up, is what the method stops with at some stage. -/
theorem exists_stop_of_solve (h : p.check settings = .ok ()) {r : Except Failure (Outcome F)}
    (hsolve : p.solve settings rule = r)
    (hr : r ≠ .error (.error (.pivotLimit settings.pivotLimit))) :
    ∃ n s, (p.start settings).after rule p.objective n = some s ∧
      s.advance rule p.objective = .stop r := by
  obtain ⟨n, s, hs, -, ⟨-, hlimit⟩ | ⟨-, hstop⟩⟩ := run_spec h rule none
  · exact absurd (hsolve.symm.trans hlimit) hr
  · rw [solve] at hsolve
    rw [hsolve] at hstop
    exact ⟨n, s, hs, hstop⟩

/-- A run that reports an optimum stops at a stage of phase two that passes the check. -/
theorem exists_of_solve_optimal (h : p.check settings = .ok ()) {x : List F} {v : F}
    (hsolve : p.solve settings rule = .ok (.optimal x v)) :
    ∃ n s, (p.start settings).after rule p.objective n = some s ∧ s.phase = .two ∧
      s.tableau.checkFeasible = .ok () ∧
      s.advance rule p.objective = .stop (.ok (.optimal x v)) ∧ x = s.tableau.solution := by
  obtain ⟨n, s, hs, hstop⟩ := exists_stop_of_solve h hsolve fun hf => nomatch hf
  refine ⟨n, s, hs, ?_⟩
  cases Stage.stops_of_advance hstop with
  | optimal hcheck hphase => exact ⟨hphase, hcheck, hstop, rfl⟩

/-- Phase two does not find that a program is infeasible. -/
theorem finish_ne_infeasible (limit : Nat) (objective : Affine F) (t : Trail F) :
    (t.finish rule limit objective).result ≠ .ok .infeasible := by
  rw [Trail.finish, Trail.phaseTwo]
  rcases t.descend rule (fun _ => false) (limit - t.pivots) with ⟨u, b | _ | _ | _ | _⟩ <;>
    exact fun h => nomatch h

/-- A run reports that there is no feasible point exactly if phase one takes place and does so. -/
theorem solve_eq_infeasible_iff (h : p.check settings = .ok ()) :
    p.solve settings rule = .ok .infeasible ↔
      (p.opening settings none).tableau.layout.inPhaseOne = true ∧
        ((p.opening settings none).phaseOne rule settings.pivotLimit).2 = .ok .infeasible := by
  rw [solve, run_eq h, Trail.twoPhases]
  split
  · next hphase =>
    rw [and_iff_right hphase]
    rcases (p.opening settings none).phaseOne rule settings.pivotLimit with ⟨s, e | _ | removed⟩
    · exact iff_of_false (fun hf => nomatch hf) fun hf => nomatch hf
    · exact iff_of_true rfl rfl
    · exact iff_of_false (finish_ne_infeasible _ _ _) fun hf => nomatch hf
  · next hphase =>
    exact iff_of_false (finish_ne_infeasible _ _ _) fun hf => hphase hf.1

/-- A run that reports no feasible point does so in phase one. -/
theorem exists_of_solve_infeasible (h : p.check settings = .ok ())
    (hsolve : p.solve settings rule = .ok .infeasible) :
    ∃ s, (Trail.start none (Tableau.initial p settings.nonnegative
          settings.tolerance)).recordCreation.phaseOne rule settings.pivotLimit =
        (s, .ok .infeasible) ∧
      ∃ n, (p.start settings).after rule p.objective n = some (.of .one s) ∧
        (Stage.of .one s).advance rule p.objective = .stop (.ok .infeasible) := by
  obtain ⟨hphase, hresult⟩ := (solve_eq_infeasible_iff h).1 hsolve
  have hrun : (p.opening settings none).phaseOne rule settings.pivotLimit =
      (((p.opening settings none).phaseOne rule settings.pivotLimit).1, .ok .infeasible) :=
    Prod.ext rfl hresult
  rw [start_eq_of_one hphase]
  exact ⟨_, hrun, Stage.after_of_phaseOne p.objective hrun⟩

end LinearProgram

end Simplex
