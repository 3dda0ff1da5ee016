import Simplex.Proofs.Independence

/-!
# Maximizing and minimizing

To maximize a function is to minimize its negation, and a constant does not matter to where the
optimum is (`LinearProgram.reverse`). The initial tableaus of the two programs agree in all rows but
for one place, on the right of the row of the objective, where the constant stands
(`LinearProgram.initial_reverse`). Every pivot changes what stands there, and the change of phase
shifts it into another row, but no choice depends on it: in phase one the costs that are minimized
are the artificial ones, and in phase two only its columns matter. So tableaus that agree everywhere
else (`Tableau.SameButValue`) cannot be told apart, and the two runs make the same pivots and end in
the same way, with the same point at an optimum (`LinearProgram.mirrors_reverse`).
-/

namespace Simplex

/-! ## The reversed program -/

/-- The opposite direction. -/
def Goal.reverse : Goal → Goal
  | minimize => maximize
  | maximize => minimize

section
variable {F : Type} [Scalar F]

/-- The program that optimizes the negated objective in the opposite direction, with another
constant. -/
def LinearProgram.reverse (p : LinearProgram F) (k : F) : LinearProgram F :=
  ⟨p.goal.reverse, ⟨p.objective.coefficients.map (- ·), k⟩, p.constraints⟩

/-- It has as many variables. -/
theorem LinearProgram.arity_reverse (p : LinearProgram F) (k : F) :
    (p.reverse k).objective.arity = p.objective.arity :=
  List.length_map _

end

namespace Tableau

section
variable {K : Type} [Field K] [LinearOrder K] {t u : Tableau K}

/-! ## One place that is not looked at -/

/-- Two sound tableaus agree everywhere but in one place, on the right of the row of the
objective. -/
structure SameButValue (t u : Tableau K) : Prop extends SameConstraints t u where
  cost : ∀ i < t.layout.costRows, ∀ j,
    (i + 1 = t.layout.costRows → j < t.layout.variableCount) → u.entry i j = t.entry i j
  tolerance_nonneg : 0 ≤ t.tolerance
  sound : t.Sound
  sound' : u.Sound

namespace SameButValue

/-- A pivot leads to tableaus that agree again. -/
theorem pivot (h : SameButValue t u) (r c : Nat) :
    Alike SameButValue (t.pivot r c) (u.pivot r c) := by
  refine (h.toSameConstraints.pivot r c).imp ?_
  rintro v w ⟨⟨hr, hc, hb, hz⟩, rfl, rfl⟩
  have hentry := ne_of_beq_false hz
  have hr' : r ∈ u.constraintRows := by rwa [h.constraintRows]
  have hc' : c < u.layout.variableCount := by rwa [h.layout]
  have hentry' : u.entry r c ≠ 0 := by rwa [h.entry hr]
  refine
    { toSameConstraints := h.exchange hr c
      cost := fun i hi j hj => ?_
      tolerance_nonneg := h.tolerance_nonneg
      sound := h.sound.exchange hr hc hb hentry
      sound' := h.sound'.exchange hr' hc' (by rwa [h.isBasic]) hentry' }
  rw [exchange_entry h.sound.toConsistent hr hc hentry,
    exchange_entry h.sound'.toConsistent hr' hc' hentry', h.entry hr, h.entry hr, h.cost i hi j hj,
    h.cost i hi c fun _ => hc]

/-- **The method does not look at the value of the objective.** -/
theorem simulation : Simulation (SameButValue (K := K)) where
  check h := by
    rw [h.sound.checkFeasible_eq, h.sound'.checkFeasible_eq, h.rightIsNonnegative]
  move h rule := h.move (fun j hj => h.cost 0 (costRows_pos _) j fun _ => hj) rule
  pivot h r c := h.pivot r c

/-- What is left without the artificial variables agrees again. -/
theorem strip (h : SameButValue t u) (hphase : t.layout.inPhaseOne = true) :
    SameButValue (t.strip t.artificialRows) (u.strip u.artificialRows) := by
  have ht := h.sound.toConsistent
  have hu := h.sound'.toConsistent
  have hphase' : u.layout.inPhaseOne = true := by rwa [h.layout]
  refine
    { toSameConstraints := h.toSameConstraints.strip ht hu hphase
      cost := fun i hi j hj => ?_
      tolerance_nonneg := h.tolerance_nonneg
      sound := h.sound.strip hphase
      sound' := h.sound'.strip hphase' }
  -- The only cost row that is left is that of the objective.
  obtain rfl : i = 0 := Nat.lt_one_iff.1 hi
  have hj : j < t.layout.artificialStart := hj rfl
  have hcosts := costRows_of_inPhaseOne hphase
  rw [entry_strip ht hphase (by omega) hj, entry_strip hu hphase' (by omega) (by rwa [h.layout])]
  exact h.cost 1 (by omega) j fun _ => hj.trans_le (Nat.le_add_right _ _)

variable [IsStrictOrderedRing K]

/-- Phase one is left in the same way. -/
theorem departure :
    Departure (fun t u : Tableau K => SameButValue t u ∧ t.layout.inPhaseOne = true)
      SameButValue where
  check h := simulation.check h.1
  move h rule := simulation.move h.1 rule
  pivot h r c := by
    refine (h.1.pivot r c).and_left fun v hv => ?_
    obtain ⟨-, -, -, -, rfl⟩ := pivot_eq_ok hv
    exact h.2
  value h := by
    obtain ⟨hsame, hphase⟩ := h
    have hcosts := costRows_of_inPhaseOne hphase
    rw [value, value, right, right, hsame.layout, hsame.cost 0 (by omega) _ (by omega)]
  tolerance h := h.1.tolerance
  weaken h := h.1
  drop h := by
    obtain ⟨v, w, removed, hvw, hphase, hdrop, hdrop'⟩ := simulation.exists_strip
      (fun h => ⟨h.toSameConstraints, h.tolerance_nonneg, h.sound, h.sound'⟩) h.1 h.2
    rw [hdrop, hdrop']
    exact .ok ⟨hvw.strip hphase, rfl⟩

end SameButValue

/-! ## The initial tableau -/

/-- The columns of a cost row do not depend on the constant. -/
theorem getD_costRow (l : Layout) (goal : Goal) (objective : Affine K)
    (harity : objective.arity = l.decision) {j : Nat} (hj : j < l.variableCount) :
    (costRow l goal objective).getD j 0 = (decisionGroup l.split goal.sign objective.coefficients ++
      unitGroup (l.slack + l.artificial) none).getD j 0 := by
  have hlength : (decisionGroup l.split (goal.sign : K) objective.coefficients ++
      unitGroup (l.slack + l.artificial) none).length = l.variableCount := by
    rw [List.length_append, length_decisionGroup _ _ harity, length_unitGroup, ← Nat.add_assoc]
    rfl
  rw [costRow, Array.getD_eq_getD_getElem?, List.getElem?_toArray,
    List.getElem?_append_left (by rwa [hlength]), List.getD_eq_getElem?_getD]

end

end Tableau

namespace LinearProgram

variable {K : Type} [Field K] [LinearOrder K] {p : LinearProgram K} {settings : Settings K}

/-- In the direction of the minimization the coefficients are the same. -/
theorem sign_mul_reverse (p : LinearProgram K) (k : K) :
    (p.reverse k).objective.coefficients.map ((p.reverse k).goal.sign * ·) =
      p.objective.coefficients.map (p.goal.sign * ·) := by
  rw [reverse, List.map_map]
  refine List.map_congr_left fun x _ => ?_
  cases p.goal with
  | minimize => exact neg_mul_neg 1 x
  | maximize => exact (mul_neg 1 x).trans (neg_mul 1 x).symm

/-- The value of the negated objective. -/
theorem eval_reverse (p : LinearProgram K) (k : K) (x : List K) :
    (p.reverse k).objective.eval x = k - (p.objective.eval x - p.objective.constant) := by
  rw [Affine.eval_eq, Affine.eval_eq, reverse, sum_zipWith_map_neg]
  ring

/-- The reversed program has the defects of the program. -/
theorem check_reverse (p : LinearProgram K) (k : K) (settings : Settings K) :
    (p.reverse k).check settings = p.check settings := by
  have hvalidate : (p.reverse k).validate = p.validate := by
    rw [validate, validate, arity_reverse, Affine.checkFinite_eq, Affine.checkFinite_eq]
    rfl
  rw [check, check, hvalidate]

/-- **The initial tableaus agree everywhere but in the value of the objective.** -/
theorem initial_reverse (h : p.check settings = .ok ()) (k : K) :
    (Tableau.initial p settings.nonnegative settings.tolerance).SameButValue
      (Tableau.initial (p.reverse k) settings.nonnegative settings.tolerance) := by
  obtain ⟨htol, hp⟩ := of_check h
  obtain ⟨-, hq⟩ := of_check ((check_reverse p k settings).trans h)
  have harity := arity_reverse p k
  have hconstraints : (p.reverse k).constraints = p.constraints := rfl
  obtain ⟨hlayout, hblock⟩ := layout_block_congr hconstraints harity settings.nonnegative
  refine
    { toSameConstraints := sameConstraints_initial hconstraints harity _ _
      cost := fun i hi j hj => ?_
      tolerance_nonneg := htol.le
      sound := Tableau.sound_initial hp
      sound' := Tableau.sound_initial hq }
  rw [Tableau.entry, Tableau.entry]
  rcases Tableau.costRow_cases hi with rfl | ⟨hphase, rfl⟩
  · have hlast := Tableau.costRow_initial (p.reverse k) settings.nonnegative settings.tolerance
    have hj : j < (p.layout settings.nonnegative).variableCount :=
      hj (Nat.sub_add_cancel (Tableau.costRows_pos _))
    have hgroup : ∀ split, Tableau.decisionGroup split ((p.reverse k).goal.sign : K)
        (p.reverse k).objective.coefficients =
          Tableau.decisionGroup split p.goal.sign p.objective.coefficients := fun split => by
      rw [Tableau.decisionGroup, Tableau.decisionGroup, sign_mul_reverse]
    rw [hlayout] at hlast
    rw [Tableau.layout_initial, hlast, Tableau.costRow_initial,
      Tableau.getD_costRow _ _ _ harity hj, Tableau.getD_costRow _ _ _ rfl hj, hgroup]
  · rw [Tableau.artificialCostRow_initial hphase,
      Tableau.artificialCostRow_initial (by rwa [hlayout]), hlayout, hblock]

/-- **To maximize is to minimize the negation**, and the constant does not matter. The program and
its reversal are solved by the same pivots. Both fail in the same way or have the same kind of
outcome, and at an optimum they have the same point, while the values are opposite once the
constants are taken off. -/
theorem mirrors_reverse [IsStrictOrderedRing K] (p : LinearProgram K) (k : K)
    (settings : Settings K) (rule : PivotRule) (detail : Option Level) :
    (p.run settings rule detail).Mirrors id (fun v => k - (v - p.objective.constant))
      ((p.reverse k).run settings rule detail) := by
  have hanswer : ∀ {t u : Tableau K}, t.SameButValue u →
      Outcome.optimal u.solution ((p.reverse k).objective.eval u.solution) =
        (Outcome.optimal t.solution (p.objective.eval t.solution)).map id
          fun v => k - (v - p.objective.constant) := by
    intro t u h
    rw [h.solution, eval_reverse]
    rfl
  have hcheck := check_reverse p k settings
  rcases hp : p.check settings with e | _
  · rw [hp] at hcheck
    rw [run, run, hp, hcheck]
    exact ⟨rfl, rfl, rfl⟩
  · have hsame := initial_reverse hp k
    rw [run_eq hp, run_eq (hcheck.trans hp)]
    exact Tableau.SameButValue.departure.twoPhases Tableau.SameButValue.simulation hanswer
      (congrArg (·.inPhaseOne) hsame.layout) (.opening detail hsame) fun hphase => ⟨hsame, hphase⟩

/-- To maximize `x - 2 y + 3` under the constraints of `flipped`, with variables of both signs,
takes the three pivots that it takes to minimize `-x + 2 y + 10`, and `2 - 3 = -(11 - 10)`. -/
theorem flipped_mirrors_reverse : ∃ settings r r', settings.nonnegative = false ∧
    r = flipped.run settings .first (some .trace) ∧
    r' = (flipped.reverse 10).run settings .first (some .trace) ∧
    r.journal.pivots = [(3, 1, -1), (2, 2, -1), (3, 3, -1)] ∧
    r.result = .ok (.optimal [-3, -1] 2) ∧ r'.result = .ok (.optimal [-3, -1] 11) ∧
    r.Mirrors id (fun v => 10 - (v - 3)) r' :=
  ⟨{ Settings.standard with nonnegative := false }, _, _, rfl, rfl, rfl, by decide +kernel,
    by decide +kernel, by decide +kernel, mirrors_reverse flipped 10 _ .first (some .trace)⟩

end LinearProgram

end Simplex
