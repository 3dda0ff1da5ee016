import Simplex.Proofs.Basis
import Simplex.Solve

/-!
# Two runs side by side

A relation between tableaus under which the method cannot tell one from the other is a simulation
(`Tableau.Simulation`): related tableaus pass the same checks and call for the same moves, and a
pivot leaves them related. Two runs that begin with related tableaus then go side by side, through
a step (`Tableau.Simulation.step`), through the loop of a phase (`Tableau.Simulation.descend`),
through phase one and out of it (`Tableau.Departure.phaseOne`), and to the end
(`Tableau.Departure.twoPhases`). They make the same pivots and fail alike; only what they read off
the last tableau may differ.
-/

namespace Simplex

/-- Two computations end alike: with related results, or with the same error. -/
inductive Alike {ε α β : Type} (R : α → β → Prop) : Except ε α → Except ε β → Prop
  | ok {a : α} {b : β} (h : R a b) : Alike R (.ok a) (.ok b)
  | error (e : ε) : Alike R (.error e) (.error e)

/-- A weaker relation between the results. -/
theorem Alike.imp {ε α β : Type} {R Q : α → β → Prop} {x : Except ε α} {y : Except ε β}
    (h : Alike R x y) (himp : ∀ a b, R a b → Q a b) : Alike Q x y := by
  cases h with
  | ok hab => exact .ok (himp _ _ hab)
  | error e => exact .error e

/-- What is known of the first result can be added to the relation. -/
theorem Alike.and_left {ε α β : Type} {R : α → β → Prop} {P : α → Prop} {x : Except ε α}
    {y : Except ε β} (h : Alike R x y) (hx : ∀ a, x = .ok a → P a) :
    Alike (fun a b => R a b ∧ P a) x y := by
  cases h with
  | ok hab => exact .ok ⟨hab, hx _ rfl⟩
  | error e => exact .error e

/-- Two computations that branch on the same condition end alike if both branches do. -/
theorem Alike.ite {ε α β : Type} {R : α → β → Prop} {c : Prop} [Decidable c] {x z : Except ε α}
    {y w : Except ε β} (hyes : c → Alike R x y) (hno : ¬ c → Alike R z w) :
    Alike R (if c then x else z) (if c then y else w) := by
  split
  · next h => exact hyes h
  · next h => exact hno h

/-- Two folds end alike if each of their steps does. -/
theorem Alike.foldlM {ε α β γ : Type} {R : α → β → Prop} {f : α → γ → Except ε α}
    {g : β → γ → Except ε β} {cs : List γ}
    (hstep : ∀ c ∈ cs, ∀ a b, R a b → Alike R (f a c) (g b c)) {a : α} {b : β} (h : R a b) :
    Alike R (cs.foldlM f a) (cs.foldlM g b) := by
  induction cs generalizing a b with
  | nil => exact .ok h
  | cons c cs ih =>
    obtain ⟨hc, hcs⟩ := List.forall_mem_cons.1 hstep
    have hfirst := hc a b h
    rw [List.foldlM_cons, List.foldlM_cons]
    generalize f a c = x at hfirst ⊢
    generalize g b c = y at hfirst ⊢
    cases hfirst with
    | ok hab => exact ih hcs hab
    | error e => exact .error e

section
variable {F : Type}

/-! ## Announced pivots -/

/-- The row, the column and its relative cost, if the event announces a pivot. -/
def Event.pivot? : Event F → Option (Nat × Nat × F)
  | .pivoting row column cost => some (row, column, cost)
  | _ => none

/-- The pivots that a journal announces, in their order. -/
def Journal.pivots (j : Journal F) : List (Nat × Nat × F) :=
  j.events.toList.filterMap Event.pivot?

/-- The detail of a journal never changes. -/
@[simp] theorem Journal.detail_record (j : Journal F) (e : Event F) :
    (j.record e).detail = j.detail := by
  unfold Journal.record
  split <;> rfl

/-- A journal that admits an announcement has it at its end. -/
theorem Journal.pivots_record (j : Journal F) (e : Event F) :
    (j.record e).pivots = j.pivots ++ if j.admits e.level then e.pivot?.toList else [] := by
  unfold Journal.record Journal.pivots
  split
  · cases e <;> simp [Event.pivot?]
  · simp

/-- Whether a journal admits an event depends on its detail only. -/
theorem Journal.admits_congr {j j' : Journal F} (h : j'.detail = j.detail) (level : Level) :
    j'.admits level = j.admits level := by
  cases level <;> simp only [admits, h]

/-- Replace the point and the value of an optimum. -/
def Outcome.map (point : List F → List F) (value : F → F) : Outcome F → Outcome F
  | infeasible => infeasible
  | optimal x v => optimal (point x) (value v)
  | unbounded => unbounded

/-- A second run makes the pivots of a first one, and its result is that of the first with another
point and value. -/
structure Run.Mirrors (point : List F → List F) (value : F → F) (r r' : Run F) : Prop where
  pivots : r'.pivots = r.pivots
  announced : r'.journal.pivots = r.journal.pivots
  result : r'.result = r.result.map (Outcome.map point value)

/-! ## Related trails -/

namespace Trail

/-- Two trails have related tableaus, as many pivots behind them, and announced the same ones. -/
structure Related (R : Tableau F → Tableau F → Prop) (s s' : Trail F) : Prop where
  tableau : R s.tableau s'.tableau
  pivots : s'.pivots = s.pivots
  detail : s'.journal.detail = s.journal.detail
  announced : s'.journal.pivots = s.journal.pivots

/-- Two parts of a run end with related trails and the same result. -/
structure Parallel {α : Type} (R : Tableau F → Tableau F → Prop) (x y : Trail F × α) : Prop where
  trail : x.1.Related R y.1
  result : y.2 = x.2

variable {R R' : Tableau F → Tableau F → Prop} {s s' : Trail F} {t t' : Tableau F}

/-- The tableaus may be related in another way. -/
theorem Related.withTableau (h : s.Related R s') (h' : R' t t') :
    ({ s with tableau := t } : Trail F).Related R' { s' with tableau := t' } :=
  ⟨h', h.pivots, h.detail, h.announced⟩

/-- Two parallel parts of a run as pairs. -/
theorem Parallel.exists_eq {α : Type} {x y : Trail F × α} (h : Parallel R x y) :
    ∃ u u' r, x = (u, r) ∧ y = (u', r) ∧ u.Related R u' :=
  ⟨x.1, y.1, x.2, rfl, Prod.ext rfl h.result, h.trail⟩

/-- Events of the same kind, that announce no different pivots, keep trails related. -/
theorem Related.record (h : s.Related R s') (e e' : Event F) (hlevel : e'.level = e.level)
    (hpivot : e'.pivot? = e.pivot?) : (s.record e).Related R (s'.record e') where
  tableau := h.tableau
  pivots := h.pivots
  detail := by simpa [Trail.record] using h.detail
  announced := by
    rw [Trail.record, Trail.record, Journal.pivots_record, Journal.pivots_record, h.announced,
      hpivot, hlevel, Journal.admits_congr h.detail]

/-- The end of phase one is reported on both trails. -/
theorem Related.recordFeasible (h : s.Related R s') (removed : List Nat) :
    (s.recordFeasible removed).Related R (s'.recordFeasible removed) := by
  have hremoved := h.record (.removedRedundant removed) (.removedRedundant removed) rfl rfl
  refine Related.record ?_ (.foundFeasible s.pivots) (.foundFeasible s'.pivots) rfl rfl
  split
  · exact h
  · exact hremoved

/-- Runs that begin with related tableaus begin with related trails. -/
theorem Related.opening (detail : Option Level) (h : R t t') :
    (start detail t).recordCreation.Related R (start detail t').recordCreation := by
  have hstart : (start detail t).Related R (start detail t') := ⟨h, rfl, rfl, rfl⟩
  exact (hstart.record (.created t.rowCount t.layout.columns t.layout.artificial)
    (.created t'.rowCount t'.layout.columns t'.layout.artificial) rfl rfl).record
    (.snapshot t) (.snapshot t') rfl rfl

end Trail

end

namespace Tableau

variable {F : Type} [Scalar F] {R R₁ R₂ : Tableau F → Tableau F → Prop} {s s' : Trail F}
  {rule : PivotRule} {limit : Nat}

/-! ## The loop of a phase -/

/-- The method cannot tell related tableaus from each other. -/
structure Simulation (R : Tableau F → Tableau F → Prop) : Prop where
  check {t u : Tableau F} (h : R t u) : u.checkFeasible = t.checkFeasible
  move {t u : Tableau F} (h : R t u) (rule : PivotRule) : u.move rule = t.move rule
  pivot {t u : Tableau F} (h : R t u) (row column : Nat) :
    Alike R (t.pivot row column) (u.pivot row column)

namespace Simulation

/-- A step goes the same way on related trails. -/
theorem step (hR : Simulation R) (h : s.Related R s') (rule : PivotRule) :
    Trail.Parallel R (s.step rule) (s'.step rule) := by
  rw [Trail.step, Trail.step, hR.move h.tableau]
  cases s.tableau.move rule with
  | optimal => exact ⟨h, rfl⟩
  | unbounded column => exact ⟨h, rfl⟩
  | pivot row column cost =>
    have hannounced := h.record (.pivoting row column cost) (.pivoting row column cost) rfl rfl
    have hpivot := hR.pivot hannounced.tableau row column
    dsimp only
    generalize (s.record _).tableau.pivot row column = x at hpivot ⊢
    generalize (s'.record _).tableau.pivot row column = y at hpivot ⊢
    cases hpivot with
    | error b => exact ⟨hannounced, rfl⟩
    | @ok t t' htableau =>
      refine ⟨Trail.Related.record ?_ (.snapshot t) (.snapshot t') rfl rfl, rfl⟩
      exact ⟨htableau, congrArg (· + 1) h.pivots, hannounced.detail, hannounced.announced⟩

/-- **The loop of a phase goes the same way on related trails.** -/
theorem descend (hR : Simulation R) (rule : PivotRule) (settled : Tableau F → Bool)
    (hsettled : ∀ {t u}, R t u → settled u = settled t) {s s' : Trail F} (h : s.Related R s')
    (budget : Nat) :
    Trail.Parallel R (s.descend rule settled budget) (s'.descend rule settled budget) := by
  unfold Trail.descend
  rw [hR.check h.tableau, hsettled h.tableau]
  cases s.tableau.checkFeasible with
  | error b => exact ⟨h, rfl⟩
  | ok =>
    dsimp only
    split
    · exact ⟨h, rfl⟩
    · obtain ⟨u, u', r, hstep, hstep', htrail⟩ := (hR.step h rule).exists_eq
      rw [hstep, hstep']
      rcases r with b | row | _ | _
      · exact ⟨htrail, rfl⟩
      · cases budget with
        | zero => exact ⟨htrail, rfl⟩
        | succ budget => exact descend hR rule settled hsettled htrail budget
      · exact ⟨htrail, rfl⟩
      · exact ⟨htrail, rfl⟩

/-- The last part of a run goes the same way on related trails, if the two optima that it reads off
related tableaus correspond. -/
theorem finish (hR : Simulation R) {objective objective' : Affine F} {point : List F → List F}
    {value : F → F}
    (hanswer : ∀ {t u}, R t u → Outcome.optimal u.solution (objective'.eval u.solution) =
      (Outcome.optimal t.solution (objective.eval t.solution)).map point value)
    (h : s.Related R s') :
    (s.finish rule limit objective).Mirrors point value (s'.finish rule limit objective') := by
  obtain ⟨u, u', r, hloop, hloop', htrail⟩ :=
    (hR.descend rule (fun _ => false) (fun _ => rfl) h (limit - s.pivots)).exists_eq
  rw [Trail.finish, Trail.finish, Trail.phaseTwo, Trail.phaseTwo, h.pivots, hloop, hloop']
  have hfinished : ∀ o o' : Outcome F, (u'.journal.record (.finished u'.pivots o')).pivots =
      (u.journal.record (.finished u.pivots o)).pivots := fun o o' =>
    (htrail.record (.finished u.pivots o) (.finished u'.pivots o') rfl rfl).announced
  have hoptimal := congrArg (Except.ok (ε := Failure)) (hanswer htrail.tableau)
  rcases r with b | _ | _ | _ | _
  · exact ⟨htrail.pivots, htrail.announced, rfl⟩
  · exact ⟨htrail.pivots, hfinished _ _, hoptimal⟩
  · exact ⟨htrail.pivots, hfinished _ _, hoptimal⟩
  · exact ⟨htrail.pivots, hfinished _ _, rfl⟩
  · exact ⟨htrail.pivots, htrail.announced, rfl⟩

/-- A pivot does not change which rows are constraint rows. -/
theorem pivot_constraintRows (hR : Simulation R) {t u : Tableau F} (h : R t u) (r c : Nat) :
    Alike (fun v w => R v w ∧ v.constraintRows = t.constraintRows) (t.pivot r c)
      (u.pivot r c) := by
  refine (hR.pivot h r c).and_left fun v hv => ?_
  obtain ⟨-, -, -, -, rfl⟩ := pivot_eq_ok hv
  exact exchange_constraintRows

/-- The artificial variable of a row is replaced in the same way, if related tableaus have one there
and choose the same column for it. -/
theorem replaceInRow (hR : Simulation R) {t u : Tableau F} (h : R t u) {r : Nat}
    (hartificial : u.layout.isArtificial (u.basicColumn r) =
      t.layout.isArtificial (t.basicColumn r))
    (hreplacement : u.replacement r = t.replacement r) (removed : List Nat) :
    Alike (fun x y => (R x.1 y.1 ∧ y.2 = x.2) ∧ x.1.constraintRows = t.constraintRows)
      (Tableau.replaceInRow (t, removed) r) (Tableau.replaceInRow (u, removed) r) := by
  unfold Tableau.replaceInRow
  dsimp only
  rw [hartificial, hreplacement]
  split
  · cases t.replacement r with
    | none => exact .ok ⟨⟨h, rfl⟩, rfl⟩
    | some column =>
      have hpivot := hR.pivot_constraintRows h r column
      dsimp only
      generalize t.pivot r column = x at hpivot ⊢
      generalize u.pivot r column = y at hpivot ⊢
      cases hpivot with
      | ok hboth => exact .ok ⟨⟨hboth.1, rfl⟩, hboth.2⟩
      | error b => exact .error b
  · exact .ok ⟨⟨h, rfl⟩, rfl⟩

/-- The artificial variables are replaced in the same way, if related tableaus have them in the same
rows and choose the same columns for them. -/
theorem replaceArtificials (hR : Simulation R)
    (hrows : ∀ {t u}, R t u → u.constraintRows = t.constraintRows)
    (hartificial : ∀ {t u}, R t u → ∀ r ∈ t.constraintRows,
      u.layout.isArtificial (u.basicColumn r) = t.layout.isArtificial (t.basicColumn r))
    (hreplacement : ∀ {t u}, R t u → ∀ r ∈ t.constraintRows, u.replacement r = t.replacement r)
    {t u : Tableau F} (h : R t u) :
    Alike (fun x y => R x.1 y.1 ∧ y.2 = x.2) t.replaceArtificials u.replaceArtificials := by
  -- The rows that are gone through stay the constraint rows.
  have hall : Alike (fun x y => (R x.1 y.1 ∧ y.2 = x.2) ∧ x.1.constraintRows = t.constraintRows)
      t.replaceArtificials u.replaceArtificials := by
    rw [Tableau.replaceArtificials, Tableau.replaceArtificials, hrows h]
    refine .foldlM ?_ ⟨⟨h, rfl⟩, rfl⟩
    rintro r hr ⟨v, removed⟩ ⟨w, removed'⟩ ⟨⟨hvw, hremoved⟩, hsame⟩
    obtain rfl : removed' = removed := hremoved
    have hr : r ∈ v.constraintRows := hsame ▸ hr
    have hrow := hR.replaceInRow hvw (hartificial hvw r hr) (hreplacement hvw r hr) removed'
    exact hrow.imp fun _ _ hboth => ⟨hboth.1, hboth.2.trans hsame⟩
  exact hall.imp fun _ _ hboth => hboth.1

end Simulation

/-! ## Phase one, and the whole run -/

/-- A simulation for phase one, with the relation that holds once phase one is left. -/
structure Departure (R₁ R₂ : Tableau F → Tableau F → Prop) : Prop extends Simulation R₁ where
  /-- The two artificial costs are the same, and so is what they are compared with. -/
  value {t u : Tableau F} (h : R₁ t u) : u.value = t.value
  tolerance {t u : Tableau F} (h : R₁ t u) : u.tolerance = t.tolerance
  /-- The relation of phase one is the finer one. -/
  weaken {t u : Tableau F} (h : R₁ t u) : R₂ t u
  /-- The same constraints are removed from both. -/
  drop {t u : Tableau F} (h : R₁ t u) :
    Alike (fun x y => R₂ x.1 y.1 ∧ y.2 = x.2) t.dropArtificials u.dropArtificials

namespace Departure

/-- Phase one is left in the same way. -/
theorem leavePhaseOne (hR : Departure R₁ R₂) (h : s.Related R₁ s') :
    Trail.Parallel R₂ s.leavePhaseOne s'.leavePhaseOne := by
  have hweak : s.Related R₂ s' := h.withTableau (hR.weaken h.tableau)
  have hdrop := hR.drop h.tableau
  rw [Trail.leavePhaseOne, Trail.leavePhaseOne, hR.value h.tableau, hR.tolerance h.tableau]
  split
  · exact ⟨hweak.record (.artificialCostRemains _) (.artificialCostRemains _) rfl rfl, rfl⟩
  · generalize s.tableau.dropArtificials = x at hdrop ⊢
    generalize s'.tableau.dropArtificials = y at hdrop ⊢
    cases hdrop with
    | error b => exact ⟨hweak, rfl⟩
    | ok hboth =>
      obtain ⟨htableau, hremoved⟩ := hboth
      have hresult := congrArg (fun l => Except.ok (ε := Failure) (Feasibility.feasible l)) hremoved
      exact ⟨h.withTableau htableau, hresult⟩

/-- **Phase one goes the same way on related trails**: it makes the same pivots, and finds the
same. -/
theorem phaseOne (hR : Departure R₁ R₂) (h : s.Related R₁ s') (rule : PivotRule) (limit : Nat) :
    Trail.Parallel R₂ (s.phaseOne rule limit) (s'.phaseOne rule limit) := by
  have hsettled : ∀ {t u}, R₁ t u →
      decide (u.value ≤ u.tolerance) = decide (t.value ≤ t.tolerance) := by
    intro t u htu
    rw [hR.value htu, hR.tolerance htu]
  obtain ⟨u, u', r, hloop, hloop', htrail⟩ := (hR.descend rule
    (fun t => t.value ≤ t.tolerance) hsettled h (limit - s.pivots)).exists_eq
  rw [Trail.phaseOne, Trail.phaseOne, h.pivots, hloop, hloop']
  have hweak : u.Related R₂ u' := htrail.withTableau (hR.weaken htrail.tableau)
  rcases r with b | _ | _ | _ | _
  · exact ⟨hweak, rfl⟩
  · exact hR.leavePhaseOne htrail
  · exact hR.leavePhaseOne htrail
  · exact ⟨hweak, rfl⟩
  · exact ⟨hweak, rfl⟩

/-- **Both phases go the same way on related trails.** -/
theorem twoPhases (hR : Departure R₁ R₂) (hR₂ : Simulation R₂) {objective objective' : Affine F}
    {point : List F → List F} {value : F → F}
    (hanswer : ∀ {t u}, R₂ t u → Outcome.optimal u.solution (objective'.eval u.solution) =
      (Outcome.optimal t.solution (objective.eval t.solution)).map point value)
    (hphase : s'.tableau.layout.inPhaseOne = s.tableau.layout.inPhaseOne)
    (h : s.Related R₂ s') (hone : s.tableau.layout.inPhaseOne = true → R₁ s.tableau s'.tableau) :
    (s.twoPhases rule limit objective).Mirrors point value
      (s'.twoPhases rule limit objective') := by
  rw [Trail.twoPhases, Trail.twoPhases, hphase]
  split
  · next hyes =>
    have hstart : s.Related R₁ s' := h.withTableau (hone hyes)
    obtain ⟨u, u', r, hphaseOne, hphaseOne', htrail⟩ :=
      (hR.phaseOne hstart rule limit).exists_eq
    rw [hphaseOne, hphaseOne']
    rcases r with e | _ | removed
    · exact ⟨htrail.pivots, htrail.announced, rfl⟩
    · exact ⟨htrail.pivots, htrail.announced, rfl⟩
    · exact hR₂.finish hanswer (htrail.recordFeasible removed)
  · exact hR₂.finish hanswer (h.record .slackBasis .slackBasis rfl rfl)

end Departure

end Tableau

end Simplex
