import Simplex.Proofs.Certificates
import Simplex.Proofs.Simulation

/-!
# Phase one does not look at the objective

The row of the objective is carried along in phase one and shifted into the first place when it
ends, but no choice depends on it. Two tableaus that agree in everything but the cost rows
(`Tableau.SameConstraints`) call for the same pivot row in every column and for the same replacement
of every artificial variable, and for the same move if the costs that are minimized agree too. So in
phase one, where these are the artificial costs, two programs with the same constraints cannot be
told apart (`Tableau.SamePhaseOne.departure`), and what phase one finds is the same for all
objectives (`LinearProgram.phaseOne_parallel`).
-/

namespace Simplex

namespace Tableau

section
variable {F : Type}

/-- Two tableaus agree in everything but the cost rows. -/
structure SameConstraints (t u : Tableau F) : Prop where
  layout : u.layout = t.layout
  tolerance : u.tolerance = t.tolerance
  rowCount : u.rowCount = t.rowCount
  basis : u.basis = t.basis
  basicColumns : u.basicColumns = t.basicColumns
  row : ∀ r ∈ t.constraintRows, u.rows.getD r #[] = t.rows.getD r #[]

namespace SameConstraints

variable {t u : Tableau F}

/-- The constraint rows stand in the same places. -/
theorem constraintRows (h : SameConstraints t u) : u.constraintRows = t.constraintRows :=
  constraintRows_congr h.layout h.rowCount

/-- The rows have the same basic columns. -/
theorem basicColumn (h : SameConstraints t u) : u.basicColumn = t.basicColumn := by
  funext r
  simp only [Tableau.basicColumn, h.basis, h.layout]

/-- The same columns are basic. -/
theorem isBasic (h : SameConstraints t u) : u.isBasic = t.isBasic := by
  funext j
  simp only [Tableau.isBasic, h.basicColumns]

/-- The same columns are outside of the basis. -/
theorem nonBasic (h : SameConstraints t u) : u.nonBasic = t.nonBasic := by
  simp only [Tableau.nonBasic, h.layout, h.isBasic]

/-- The same rows have an artificial variable in the basis. -/
theorem hasArtificialBasis (h : SameConstraints t u) :
    u.hasArtificialBasis = t.hasArtificialBasis := by
  funext r
  rw [Tableau.hasArtificialBasis, Tableau.hasArtificialBasis, h.basicColumn, h.layout]

/-- The same rows are removed with the artificial variables. -/
theorem artificialRows (h : SameConstraints t u) : u.artificialRows = t.artificialRows := by
  rw [Tableau.artificialRows, Tableau.artificialRows, h.constraintRows, h.hasArtificialBasis]

/-- The same rows survive. -/
theorem survivors (h : SameConstraints t u) : u.survivors = t.survivors := by
  rw [Tableau.survivors, Tableau.survivors, h.constraintRows, h.hasArtificialBasis]

end SameConstraints

variable [Scalar F] {t u : Tableau F} {r c : Nat}

namespace SameConstraints

/-- The entries of the constraint rows are the same. -/
theorem entry (h : SameConstraints t u) (hr : r ∈ t.constraintRows) (j : Nat) :
    u.entry r j = t.entry r j := by
  rw [Tableau.entry, Tableau.entry, h.row r hr]

/-- The right-hand sides are the same. -/
theorem right (h : SameConstraints t u) (hr : r ∈ t.constraintRows) : u.right r = t.right r := by
  rw [Tableau.right, Tableau.right, h.layout, h.entry hr]

/-- No right-hand side is negative in one exactly if none is in the other. -/
theorem rightIsNonnegative (h : SameConstraints t u) :
    u.rightIsNonnegative = t.rightIsNonnegative := by
  rw [Tableau.rightIsNonnegative, Tableau.rightIsNonnegative, h.constraintRows, h.tolerance,
    Bool.eq_iff_iff, List.all_eq_true, List.all_eq_true]
  exact forall₂_congr fun r hr => by rw [h.right hr]

/-- The solutions are the same. -/
theorem solution (h : SameConstraints t u) : u.solution = t.solution := by
  have hvalues : u.variableValues = t.variableValues := by
    rw [variableValues, variableValues, h.constraintRows, h.layout, h.basicColumn]
    exact List.foldl_ext _ _ _ fun values r hr => by rw [h.right hr]
  rw [Tableau.solution, Tableau.solution, hvalues, h.layout]

/-! ## The same choices -/

/-- The ratio test chooses the same row. -/
theorem leavingRow (h : SameConstraints t u) (c : Nat) : u.leavingRow c = t.leavingRow c := by
  have hcandidates : u.candidates c = t.candidates c := by
    rw [candidates, candidates, h.constraintRows, h.tolerance]
    have hfilter : t.constraintRows.filter (fun r => decide (t.tolerance < u.entry r c)) =
        t.constraintRows.filter fun r => decide (t.tolerance < t.entry r c) :=
      List.filter_congr fun r hr => by rw [h.entry hr]
    rw [hfilter]
    refine List.map_congr_left fun r hr => ?_
    have hr := (List.mem_filter.1 hr).1
    rw [candidate, candidate, h.right hr, h.entry hr, h.basicColumn]
  rw [Tableau.leavingRow, Tableau.leavingRow, hcandidates, h.tolerance]

/-- The same column enters if the costs agree. -/
theorem entering (h : SameConstraints t u)
    (hcost : ∀ j < t.layout.variableCount, u.cost j = t.cost j) (rule : PivotRule) :
    u.entering rule = t.entering rule := by
  have hlt : ∀ j ∈ t.nonBasic, j < t.layout.variableCount := fun j hj => (mem_nonBasic.1 hj).1
  have hprofit : ∀ j < t.layout.variableCount, u.isProfitable j = t.isProfitable j := by
    intro j hj
    rw [isProfitable, isProfitable, hcost j hj, h.tolerance]
  cases rule with
  | steepest =>
    rw [entering_steepest, entering_steepest, h.nonBasic]
    refine foldl_keepBest_congr hprofit (fun j k hj hk => ?_) hlt (by simp)
    rw [hcost j hj, hcost k hk]
  | first =>
    rw [entering_first, entering_first, h.nonBasic]
    rw [← List.head?_filter, ← List.head?_filter,
      List.filter_congr fun j hj => hprofit j (hlt j hj)]

/-- **The move is the same** if the costs agree. -/
theorem move (h : SameConstraints t u)
    (hcost : ∀ j < t.layout.variableCount, u.cost j = t.cost j) (rule : PivotRule) :
    u.move rule = t.move rule := by
  rw [move_eq, move_eq, h.entering hcost]
  cases hentering : t.entering rule with
  | none => rfl
  | some c =>
    have hc : c < t.layout.variableCount := (mem_nonBasic.1 (entering_eq_some hentering).1).1
    dsimp only
    rw [h.leavingRow, hcost c hc]

/-- The same columns may replace an artificial variable. -/
theorem mayReplace (h : SameConstraints t u) (hr : r ∈ t.constraintRows) (c : Nat) :
    u.mayReplace r c = t.mayReplace r c := by
  have hkeeps : u.keepsFeasible r c = t.keepsFeasible r c := by
    unfold keepsFeasible
    dsimp only
    rw [h.entry hr, h.right hr, h.tolerance, h.constraintRows]
    split
    · rfl
    · rw [Bool.eq_iff_iff, List.all_eq_true, List.all_eq_true]
      exact forall₂_congr fun i hi => by rw [h.right hi, h.entry hi]
  rw [Tableau.mayReplace, Tableau.mayReplace, hkeeps, h.right hr, h.entry hr, h.tolerance]

/-- The same column replaces an artificial variable. -/
theorem replacement (h : SameConstraints t u) (hr : r ∈ t.constraintRows) :
    u.replacement r = t.replacement r := by
  rw [replacement_eq, replacement_eq, h.nonBasic, h.layout]
  refine foldl_keepBest_congr (P := fun _ => True) (fun j _ => h.mayReplace hr j)
    (fun j k _ _ => ?_) (fun _ _ => trivial) fun _ _ => trivial
  rw [h.entry hr, h.entry hr]

end SameConstraints

/-! ## Pivots -/

/-- A row after a pivot. -/
theorem row_exchange {i : Nat} (hi : i < t.rowCount) : (t.exchange r c).rows.getD i #[] =
    if i = r then t.scaledRow r c else clearColumn c (t.scaledRow r c) (t.rows.getD i #[]) :=
  getD_mapIdx _ _ hi #[] _

namespace SameConstraints

/-- Rows that are the same stay so in a pivot. -/
theorem row_exchange (h : SameConstraints t u) (hr : r ∈ t.constraintRows) {i : Nat}
    (hi : i < t.rowCount) (hrow : u.rows.getD i #[] = t.rows.getD i #[]) :
    (u.exchange r c).rows.getD i #[] = (t.exchange r c).rows.getD i #[] := by
  have hscaled : u.scaledRow r c = t.scaledRow r c := by
    rw [scaledRow, scaledRow, h.row r hr, h.entry hr]
  rw [Tableau.row_exchange hi, Tableau.row_exchange (h.rowCount ▸ hi), hscaled, hrow]

/-- The same pivot leads to tableaus that agree again. -/
theorem exchange (h : SameConstraints t u) (hr : r ∈ t.constraintRows) (c : Nat) :
    SameConstraints (t.exchange r c) (u.exchange r c) where
  layout := h.layout
  tolerance := h.tolerance
  rowCount := by rw [exchange_rowCount, exchange_rowCount, h.rowCount]
  basis := by
    simp only [Tableau.exchange, h.basis, h.layout]
  basicColumns := by
    simp only [Tableau.exchange, h.basicColumns, h.basicColumn]
  row i hi := by
    rw [exchange_constraintRows] at hi
    exact h.row_exchange hr (mem_constraintRows.1 hi).2 (h.row i hi)

/-- A pivot is made on both tableaus, or refused on both for the same reason. -/
theorem pivot (h : SameConstraints t u) (r c : Nat) :
    Alike (fun v w => (r ∈ t.constraintRows ∧ c < t.layout.variableCount ∧ t.isBasic c = false ∧
      (t.entry r c == 0) = false) ∧ v = t.exchange r c ∧ w = u.exchange r c)
      (t.pivot r c) (u.pivot r c) := by
  have hconstraint : u.isConstraintRow r = t.isConstraintRow r := by
    rw [isConstraintRow, isConstraintRow, h.layout, h.rowCount]
  rw [Tableau.pivot, Tableau.pivot, hconstraint, h.layout, h.isBasic, h.basicColumn]
  refine .ite (fun _ => .error _) fun hr => ?_
  have hr : r ∈ t.constraintRows := isConstraintRow_iff.1 (by simpa using hr)
  rw [h.entry hr]
  refine .ite (fun _ => .error _) fun hc => .ite (fun _ => .error _) fun hb => ?_
  refine .ite (fun _ => .error _) fun hz => .ite (fun _ => .error _) fun _ => ?_
  exact .ok ⟨⟨hr, Decidable.not_not.1 hc, by simpa using hb, by simpa using hz⟩, rfl, rfl⟩

end SameConstraints

/-! ## Without the artificial variables -/

namespace SameConstraints

/-- What is left agrees again. -/
theorem strip (h : SameConstraints t u) (ht : t.Consistent) (hu : u.Consistent)
    (hphase : t.layout.inPhaseOne = true) :
    SameConstraints (t.strip t.artificialRows) (u.strip u.artificialRows) := by
  have hphase' : u.layout.inPhaseOne = true := by rwa [h.layout]
  have horigin : u.origin = t.origin := by
    funext i
    rw [origin, origin, h.survivors]
  have hlayout : (u.strip u.artificialRows).layout = (t.strip t.artificialRows).layout := by
    rw [layout_strip, layout_strip, h.layout]
  refine ⟨hlayout, h.tolerance, ?_, ?_, ?_, ?_⟩
  · rw [rowCount_strip ht hphase, rowCount_strip hu hphase', h.survivors]
  · rw [basis_strip ht, basis_strip hu, h.survivors, h.basicColumn]
  · refine (ht.strip hphase).basicColumns_eq (hu.strip hphase') hlayout fun j => ?_
    rw [isBasic_strip ht, isBasic_strip hu, h.layout, h.isBasic]
  · intro s hs
    obtain ⟨k, hk, rfl⟩ := (mem_constraintRows_strip ht hphase).1 hs
    have hrow := (mem_survivors.1 (origin_mem hk)).1
    rw [row_strip ht hphase (by omega), row_strip hu hphase' (by rw [h.survivors]; omega), h.layout,
      horigin]
    congr 1
    exact List.map_congr_left fun j _ => h.entry hrow j

end SameConstraints

end

/-! ## Phase one -/

section
variable {K : Type} [Field K] [LinearOrder K] {t u : Tableau K} {r c : Nat}

/-- Sound tableaus that the method cannot tell apart, with the same constraint rows, lose the same
rows with their artificial variables, and what these are removed from cannot be told apart. -/
theorem Simulation.exists_strip [IsStrictOrderedRing K] {R : Tableau K → Tableau K → Prop}
    (hR : Simulation R)
    (hsame : ∀ {t u}, R t u → SameConstraints t u ∧ 0 ≤ t.tolerance ∧ t.Sound ∧ u.Sound)
    (h : R t u) (hphase : t.layout.inPhaseOne = true) :
    ∃ v w removed, R v w ∧ v.layout.inPhaseOne = true ∧
      t.dropArtificials = .ok (v.strip v.artificialRows, removed) ∧
      u.dropArtificials = .ok (w.strip w.artificialRows, removed) := by
  have hreplace := hR.replaceArtificials (fun h => (hsame h).1.constraintRows)
    (fun h r _ => congrFun (hsame h).1.hasArtificialBasis r)
    (fun h r hr => (hsame h).1.replacement hr) h
  obtain ⟨htu, htol, ht, hu⟩ := hsame h
  obtain ⟨v, hv, -, hprogram, -, hdrop⟩ := dropArtificials_spec ht htol hphase
  obtain ⟨w, hw, -, -, -, hdrop'⟩ := dropArtificials_spec hu (by rwa [htu.tolerance])
    (by rwa [htu.layout])
  rw [hv, hw] at hreplace
  cases hreplace with
  | ok hboth =>
    obtain ⟨hvw, -⟩ := hboth
    obtain ⟨hrows, -⟩ := hsame hvw
    refine ⟨v, w, _, hvw, by rwa [hprogram.layout], hdrop, ?_⟩
    rw [hdrop', hrows.artificialRows, hrows.layout]

/-- Two sound tableaus in phase one that agree in everything but the row of the objective. -/
structure SamePhaseOne (t u : Tableau K) : Prop extends SameConstraints t u where
  artificialCostRow : u.rows.getD 0 #[] = t.rows.getD 0 #[]
  inPhaseOne : t.layout.inPhaseOne = true
  tolerance_nonneg : 0 ≤ t.tolerance
  sound : t.Sound
  sound' : u.Sound

namespace SamePhaseOne

/-- The costs that are minimized in phase one agree. -/
theorem entry_zero (h : SamePhaseOne t u) (j : Nat) : u.entry 0 j = t.entry 0 j := by
  rw [Tableau.entry, Tableau.entry, h.artificialCostRow]

/-- A pivot leads to tableaus that agree again. -/
theorem pivot (h : SamePhaseOne t u) (r c : Nat) :
    Alike SamePhaseOne (t.pivot r c) (u.pivot r c) := by
  refine (h.toSameConstraints.pivot r c).imp ?_
  rintro v w ⟨⟨hr, hc, hb, hz⟩, rfl, rfl⟩
  have hentry := ne_of_beq_false hz
  have hr' : r ∈ u.constraintRows := by rwa [h.constraintRows]
  have hfirst : 0 < t.rowCount := (costRows_pos _).trans_le h.sound.costRows_le
  exact
    { toSameConstraints := h.exchange hr c
      artificialCostRow := h.row_exchange hr hfirst h.artificialCostRow
      inPhaseOne := h.inPhaseOne
      tolerance_nonneg := h.tolerance_nonneg
      sound := h.sound.exchange hr hc hb hentry
      sound' := h.sound'.exchange hr' (by rwa [h.layout]) (by rwa [h.isBasic])
        (by rwa [h.entry hr]) }

/-- **In phase one the row of the objective is not looked at.** That it is zero in the basic columns
is checked, but it always is. -/
theorem simulation : Simulation (SamePhaseOne (K := K)) where
  check h := by
    rw [h.sound.checkFeasible_eq, h.sound'.checkFeasible_eq, h.rightIsNonnegative]
  move h rule := h.move (fun j _ => h.entry_zero j) rule
  pivot h r c := h.pivot r c

variable [IsStrictOrderedRing K]

/-- The same constraints are removed, and what is left agrees in the constraints. -/
theorem dropArtificials (h : SamePhaseOne t u) :
    Alike (fun x y => SameConstraints x.1 y.1 ∧ y.2 = x.2) t.dropArtificials
      u.dropArtificials := by
  obtain ⟨v, w, removed, hvw, -, hdrop, hdrop'⟩ := simulation.exists_strip
    (fun h => ⟨h.toSameConstraints, h.tolerance_nonneg, h.sound, h.sound'⟩) h h.inPhaseOne
  rw [hdrop, hdrop']
  exact .ok ⟨hvw.strip hvw.sound.toConsistent hvw.sound'.toConsistent hvw.inPhaseOne, rfl⟩

/-- Phase one ends in the same way. -/
theorem departure : Departure (SamePhaseOne (K := K)) SameConstraints where
  toSimulation := simulation
  value h := by rw [value, value, right, right, h.layout, h.entry_zero]
  tolerance h := h.tolerance
  weaken h := h.toSameConstraints
  drop h := h.dropArtificials

end SamePhaseOne

end

end Tableau

/-! ## Programs with the same constraints -/

namespace LinearProgram

section
variable {F : Type} [Scalar F] {p q : LinearProgram F}

/-- The layout and the rows of the constraints come from the constraints. -/
theorem layout_block_congr (hconstraints : q.constraints = p.constraints)
    (harity : q.objective.arity = p.objective.arity) (nonnegative : Bool) :
    q.layout nonnegative = p.layout nonnegative ∧ q.block nonnegative = p.block nonnegative := by
  have hnormalized : q.normalized = p.normalized := by
    rw [normalized, normalized, hconstraints]
  have hlayout : q.layout nonnegative = p.layout nonnegative := by
    rw [layout, layout, hnormalized, harity]
  exact ⟨hlayout, by rw [block, block, hlayout, hnormalized]⟩

/-- The initial tableaus agree in everything but the row of the objective. -/
theorem sameConstraints_initial (hconstraints : q.constraints = p.constraints)
    (harity : q.objective.arity = p.objective.arity) (nonnegative : Bool) (tolerance : F) :
    (Tableau.initial p nonnegative tolerance).SameConstraints
      (Tableau.initial q nonnegative tolerance) := by
  obtain ⟨hlayout, hblock⟩ := layout_block_congr hconstraints harity nonnegative
  refine ⟨hlayout, rfl, ?_, ?_, ?_, fun r hr => ?_⟩
  · rw [Tableau.rowCount_initial, Tableau.rowCount_initial, hlayout, hconstraints]
  · exact congrArg (fun b => (b.map (·.2)).toArray) hblock
  · show ((q.block nonnegative).map (·.2)).foldl _
        (Array.replicate (q.layout nonnegative).variableCount false) = _
    rw [hblock, hlayout]
    rfl
  · obtain ⟨i, -, rfl⟩ := Tableau.mem_constraintRows_initial.1 hr
    rw [Tableau.getD_rows_initial, ← hblock, ← hlayout, Tableau.getD_rows_initial]

end

section
variable {K : Type} [Field K] [LinearOrder K] {p q : LinearProgram K} {settings : Settings K}

/-- If a program passes the check, so does every other with the same constraints and an objective
of as many variables. -/
theorem check_congr (h : p.check settings = .ok ()) (hconstraints : q.constraints = p.constraints)
    (harity : q.objective.arity = p.objective.arity) : q.check settings = .ok () := by
  obtain ⟨hsettings, hvalid⟩ := check_eq_ok.1 h
  obtain ⟨hpositive, hnil, hrows⟩ := validate_eq_ok_iff.1 hvalid
  refine check_eq_ok.2 ⟨hsettings, validate_eq_ok_iff.2 ?_⟩
  rw [hconstraints, harity]
  exact ⟨hpositive, hnil, hrows⟩

/-- In phase one the initial tableaus cannot be told apart. -/
theorem samePhaseOne_initial (h : p.check settings = .ok ())
    (hconstraints : q.constraints = p.constraints)
    (harity : q.objective.arity = p.objective.arity)
    (hphase : (p.layout settings.nonnegative).inPhaseOne = true) :
    (Tableau.initial p settings.nonnegative settings.tolerance).SamePhaseOne
      (Tableau.initial q settings.nonnegative settings.tolerance) := by
  obtain ⟨htol, hp⟩ := of_check h
  obtain ⟨-, hq⟩ := of_check (check_congr h hconstraints harity)
  have hsame := sameConstraints_initial hconstraints harity settings.nonnegative settings.tolerance
  refine ⟨hsame, ?_, hphase, htol.le, Tableau.sound_initial hp, Tableau.sound_initial hq⟩
  obtain ⟨hlayout, hblock⟩ := layout_block_congr hconstraints harity settings.nonnegative
  rw [Tableau.artificialCostRow_initial hphase,
    Tableau.artificialCostRow_initial (by rwa [hlayout]), hlayout, hblock]

variable [IsStrictOrderedRing K]

/-- **Phase one does not depend on the objective.** For two programs with the same constraints, and
objectives of as many variables, phase one takes place for both or for neither. It makes the same
pivots and ends in the same way, with the same constraints removed, and what it leaves agrees in the
basis and in the rows of the constraints. So one of them is reported to be infeasible exactly if the
other is. -/
theorem phaseOne_parallel (h : p.check settings = .ok ())
    (hconstraints : q.constraints = p.constraints)
    (harity : q.objective.arity = p.objective.arity) (rule : PivotRule) (detail : Option Level) :
    q.check settings = .ok () ∧
      (p.opening settings detail).Related Tableau.SameConstraints (q.opening settings detail) ∧
      ((p.layout settings.nonnegative).inPhaseOne = true →
        Trail.Parallel Tableau.SameConstraints
          ((p.opening settings detail).phaseOne rule settings.pivotLimit)
          ((q.opening settings detail).phaseOne rule settings.pivotLimit)) ∧
      (p.solve settings rule = .ok .infeasible ↔ q.solve settings rule = .ok .infeasible) := by
  have hcheck := check_congr h hconstraints harity
  have hsame := sameConstraints_initial hconstraints harity settings.nonnegative settings.tolerance
  have hparallel : ∀ detail, (p.layout settings.nonnegative).inPhaseOne = true →
      Trail.Parallel Tableau.SameConstraints
        ((p.opening settings detail).phaseOne rule settings.pivotLimit)
        ((q.opening settings detail).phaseOne rule settings.pivotLimit) := fun detail hphase =>
    Tableau.SamePhaseOne.departure.phaseOne
      (.opening detail (samePhaseOne_initial h hconstraints harity hphase)) rule _
  refine ⟨hcheck, .opening detail hsame, hparallel detail, ?_⟩
  have hlayout : (q.opening settings none).tableau.layout =
      (p.opening settings none).tableau.layout := hsame.layout
  rw [solve_eq_infeasible_iff h, solve_eq_infeasible_iff hcheck, hlayout]
  refine and_congr_right fun hphase => ?_
  rw [(hparallel none hphase).result]

/-- With another objective to maximize, the constraints of `doubled` take phase one through the same
pivot, and the same equation is removed. -/
theorem doubled_phaseOne_parallel : ∃ q : LinearProgram ℚ,
    q = ⟨.maximize, ⟨[3, 1], 5⟩, doubled.constraints⟩ ∧ doubled.check .standard = .ok () ∧
      (doubled.layout true).inPhaseOne = true ∧
      ∃ x y, x = (doubled.opening .standard (some .trace)).phaseOne .steepest 10000 ∧
        y = (q.opening .standard (some .trace)).phaseOne .steepest 10000 ∧
        x.1.journal.pivots = [(3, 0, -3)] ∧ x.2 = .ok (.feasible [0]) ∧
        Trail.Parallel Tableau.SameConstraints x y := by
  have hcheck : doubled.check .standard = .ok () := by decide +kernel
  have hphase : (doubled.layout true).inPhaseOne = true := by decide +kernel
  obtain ⟨-, -, hparallel, -⟩ := phaseOne_parallel (q := ⟨.maximize, ⟨[3, 1], 5⟩,
    doubled.constraints⟩) hcheck rfl rfl .steepest (some .trace)
  exact ⟨_, rfl, hcheck, hphase, _, _, rfl, rfl, by decide +kernel, by decide +kernel,
    hparallel hphase⟩

end

end LinearProgram

end Simplex
