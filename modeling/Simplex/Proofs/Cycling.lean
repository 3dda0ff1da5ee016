import Mathlib.Algebra.Order.Field.Rat
import Mathlib.Data.Fintype.Pigeonhole
import Mathlib.Data.Fintype.Pi
import Simplex.Proofs.Reachable

/-!
# Termination and cycling

The method decides what to do at a stage by the tableau alone (`Stage.after_shift`), and within a
phase the tableau is a function of its basis. As there are finitely many bases, the method stops
unless it comes back to a basis, and if it does so it goes round forever
(`LinearProgram.exists_limit_iff`). Neither of the two pivot rules excludes that, in spite of the
ratio test that breaks ties by the largest index: `LinearProgram.cycles_first` and
`LinearProgram.cycles_steepest` are two programs without an end. With or without an end, all stages
are among the first ones, apart from the number of pivots (`LinearProgram.exists_bound_shift`).
-/

namespace Simplex

namespace Stage

section
variable {F : Type} [Scalar F] {rule : PivotRule} {objective : Affine F} {s u : Stage F}

/-! ## The number of pivots is not looked at -/

/-- The same stage with some more pivots. -/
def shift (d : Nat) (s : Stage F) : Stage F := { s with pivots := s.pivots + d }

/-- More pivots do not change a single pivot. -/
theorem pivot_shift (d : Nat) (s : Stage F) (row column : Nat) :
    (s.shift d).pivot row column = (s.pivot row column).map (shift d) := by
  dsimp only [pivot, shift]
  cases s.tableau.pivot row column with
  | error b => rfl
  | ok t =>
    dsimp only [Advance.map, shift]
    rw [Nat.add_right_comm]

/-- More pivots do not change how phase one is left. -/
theorem leave_shift (d : Nat) (s : Stage F) : (s.shift d).leave = s.leave.map (shift d) := by
  dsimp only [leave, shift]
  split
  · rfl
  · cases s.tableau.dropArtificials <;> rfl

/-- More pivots do not change what the method does. -/
theorem advance_shift (rule : PivotRule) (objective : Affine F) (d : Nat) (s : Stage F) :
    (s.shift d).advance rule objective = (s.advance rule objective).map (shift d) :=
  advance_map rfl rfl rfl rfl rfl (pivot_shift d s) (leave_shift d s)

/-- More pivots do not change where the method gets. -/
theorem after_shift (d n : Nat) (s : Stage F) :
    (s.shift d).after rule objective n = (s.after rule objective n).map (shift d) := by
  induction n generalizing s with
  | zero => rfl
  | succ n ih =>
    have hadvance := advance_shift rule objective d s
    cases h : s.advance rule objective with
    | go u =>
      rw [h] at hadvance
      rw [after_succ_of_go hadvance, after_succ_of_go h, ih]
    | stop r =>
      rw [h] at hadvance
      rw [after_succ_of_stop hadvance, after_succ_of_stop h, Option.map_none]

/-- A stage that the method comes back to, apart from the number of pivots, is come back to any
number of times. -/
theorem after_mul {k d : Nat} (h : s.after rule objective k = some (s.shift d)) (j : Nat) :
    s.after rule objective (j * k) = some (s.shift (j * d)) := by
  induction j with
  | zero =>
    rw [Nat.zero_mul, Nat.zero_mul]
    rfl
  | succ j ih =>
    rw [Nat.succ_mul, after_add, ih, Option.bind_some, after_shift, h, Option.map_some]
    congr 1
    rw [shift, shift, shift, Nat.succ_mul, Nat.add_assoc, Nat.add_comm d]

/-- Before a stage there are stages. -/
theorem exists_after_of_le {m n : Nat} (h : s.after rule objective n = some u) (hmn : m ≤ n) :
    ∃ v, s.after rule objective m = some v := by
  obtain ⟨k, rfl⟩ := Nat.exists_eq_add_of_le hmn
  rw [after_add] at h
  obtain ⟨v, hv, -⟩ := Option.bind_eq_some_iff.1 h
  exact ⟨v, hv⟩

end

end Stage

namespace LinearProgram

section
variable {F : Type} [Scalar F] {p : LinearProgram F} {settings : Settings F} {rule : PivotRule}
  {n : Nat} {s : Stage F}

/-! ## A run without an end -/

/-- All transitions but one are pivots. -/
theorem le_pivots_of_after (h : (p.start settings).after rule p.objective n = some s) :
    (s.phase = .one → n = s.pivots) ∧ n ≤ s.pivots + 1 := by
  induction n generalizing s with
  | zero =>
    cases h
    exact ⟨fun _ => rfl, Nat.zero_le _⟩
  | succ n ih =>
    obtain ⟨u, hu, hgo⟩ := exists_of_after_succ h
    obtain ⟨hone, hle⟩ := ih hu
    obtain ⟨-, ⟨_, _, _, _, -, -, -, rfl⟩ | ⟨_, _, hphase, -, -, rfl⟩⟩ := Stage.advance_eq_go hgo
    · exact ⟨fun hphase => congrArg (· + 1) (hone hphase), Nat.succ_le_succ hle⟩
    · refine ⟨fun hphase' => (nomatch hphase'), Nat.succ_le_succ ?_⟩
      rw [hone hphase]

/-- A method that does not go on forever has a last stage. -/
theorem exists_stop_of_none {s₀ : Stage F} {objective : Affine F}
    (h : s₀.after rule objective n = none) :
    ∃ m s r, s₀.after rule objective m = some s ∧ s.advance rule objective = .stop r := by
  induction n with
  | zero => cases h
  | succ n ih =>
    cases hs : s₀.after rule objective n with
    | none => exact ih hs
    | some s =>
      cases hadvance : s.advance rule objective with
      | go u =>
        rw [Stage.after_succ_of_some hs hadvance] at h
        cases h
      | stop r => exact ⟨n, s, r, hs, hadvance⟩

/-- The method never stops because of a limit. -/
theorem ne_pivotLimit_of_stop {r : Except Failure (Outcome F)} {objective : Affine F}
    (h : s.advance rule objective = .stop r) (limit : Nat) :
    r ≠ .error (.error (.pivotLimit limit)) := by
  cases Stage.stops_of_advance h <;> exact fun hf => nomatch hf

/-- **With a limit that is high enough a run ends, exactly if the method stops.** -/
theorem exists_limit_iff_stops (h : p.check settings = .ok ()) :
    (∃ L, ∀ N, L ≤ N → p.solve { settings with pivotLimit := N } rule ≠
        .error (.error (.pivotLimit N))) ↔
      ∃ n, (p.start settings).after rule p.objective n = none := by
  constructor
  · rintro ⟨L, hL⟩
    by_contra hgoes
    have hsome : ∃ s, (p.start settings).after rule p.objective (L + 2) = some s :=
      Option.ne_none_iff_exists'.1 fun hnone => hgoes ⟨_, hnone⟩
    obtain ⟨s, hs⟩ := hsome
    obtain ⟨-, hle⟩ := le_pivots_of_after hs
    have hcheck : p.check { settings with pivotLimit := L } = .ok () := h
    refine hL L (Nat.le_refl _) (solve_eq_pivotLimit hcheck hs ?_)
    show L < s.pivots
    omega
  · rintro ⟨n, hnone⟩
    obtain ⟨m, s, r, hs, hstop⟩ := exists_stop_of_none hnone
    refine ⟨s.pivots, fun N hN => ?_⟩
    have hcheck : p.check { settings with pivotLimit := N } = .ok () := h
    rw [solve_eq_of_stop hcheck hs hstop hN]
    exact ne_pivotLimit_of_stop hstop N

end

section
variable {K : Type} [Field K] [LinearOrder K] [IsStrictOrderedRing K] {p : LinearProgram K}
  {settings : Settings K} {rule : PivotRule} {m n : Nat} {s u : Stage K}

/-! ## Coming back to a basis -/

/-- The method is in the same phase with the same basis at two stages. -/
def Recurs (p : LinearProgram K) (settings : Settings K) (rule : PivotRule) : Prop :=
  ∃ m n s u, m < n ∧ (p.start settings).after rule p.objective m = some s ∧
    (p.start settings).after rule p.objective n = some u ∧ s.phase = u.phase ∧
    s.tableau.basis = u.tableau.basis

/-- The tableaus of a phase have the same equations. -/
theorem sameProgram_of_phase (hp : ∀ c ∈ p.constraints, c.left.arity = p.objective.arity)
    (htol : 0 ≤ settings.tolerance) (hs : (p.start settings).after rule p.objective m = some s)
    (hu : (p.start settings).after rule p.objective n = some u) (hphase : s.phase = u.phase) :
    Tableau.SameProgram s.tableau u.tableau := by
  obtain ⟨-, -, hrep⟩ := represents_of_after hp htol hs
  obtain ⟨-, -, hrep'⟩ := represents_of_after hp htol hu
  rw [hphase] at hrep
  generalize u.phase = phase at hrep hrep'
  cases hrep with
  | one _ hsame =>
    cases hrep' with
    | one _ hsame' => exact hsame.symm.trans hsame'
  | direct hno hsame =>
    cases hrep' with
    | direct _ hsame' => exact hsame.symm.trans hsame'
    | dropped hyes => exact absurd hyes hno
  | dropped hyes hover _ _ hrest =>
    cases hrep' with
    | direct hno => exact absurd hyes hno
    | dropped _ hover' _ _ hrest' =>
      rw [hover.unique hover'] at hrest
      exact hrest.symm.trans hrest'

/-- A method that comes back to a basis comes back to a stage, apart from the number of pivots. -/
theorem Recurs.exists_shift (hp : ∀ c ∈ p.constraints, c.left.arity = p.objective.arity)
    (htol : 0 ≤ settings.tolerance) (h : p.Recurs settings rule) :
    ∃ k e d s, (p.start settings).after rule p.objective k = some s ∧
      s.after rule p.objective (e + 1) = some (s.shift d) := by
  obtain ⟨k, l, s, u, hkl, hs, hu, hphase, hbasis⟩ := h
  obtain ⟨hsound, -, -⟩ := represents_of_after hp htol hs
  obtain ⟨hsound', -, -⟩ := represents_of_after hp htol hu
  have htableau : u.tableau = s.tableau :=
    hsound.eq_of_basis_eq hsound' (sameProgram_of_phase hp htol hs hu hphase) hbasis.symm
  obtain ⟨d, hd⟩ := Nat.exists_eq_add_of_le (Stage.pivots_mono hkl.le hs hu)
  have hshift : u = s.shift d := by
    cases u
    simp only [Stage.shift, Stage.mk.injEq]
    exact ⟨hphase.symm, htableau, hd⟩
  obtain ⟨e, rfl⟩ := Nat.exists_eq_add_of_lt hkl
  rw [Nat.add_assoc, Stage.after_add, hs, Option.bind_some, hshift] at hu
  exact ⟨k, e, d, s, hs, hu⟩

/-- **A method that comes back to a basis goes round forever.** -/
theorem Recurs.exists_after (hp : ∀ c ∈ p.constraints, c.left.arity = p.objective.arity)
    (htol : 0 ≤ settings.tolerance) (h : p.Recurs settings rule) (n : Nat) :
    ∃ s, (p.start settings).after rule p.objective n = some s := by
  obtain ⟨k, e, d, s, hs, hround⟩ := h.exists_shift hp htol
  have hlong : (p.start settings).after rule p.objective (k + n * (e + 1)) =
      some (s.shift (n * d)) := by
    rw [Stage.after_add, hs, Option.bind_some, Stage.after_mul hround]
  refine Stage.exists_after_of_le hlong ?_
  have : n ≤ n * (e + 1) := Nat.le_mul_of_pos_right n (Nat.succ_pos e)
  omega

omit [IsStrictOrderedRing K] in
/-- From some stage on the phase stays the same. -/
theorem exists_phase_eq (stage : Nat → Stage K)
    (hstage : ∀ n, (p.start settings).after rule p.objective n = some (stage n)) :
    ∃ k, ∀ n, k ≤ n → (stage k).phase = (stage n).phase := by
  by_cases htwo : ∃ k, (stage k).phase = .two
  · obtain ⟨k, hk⟩ := htwo
    refine ⟨k, fun n hn => ?_⟩
    obtain ⟨e, rfl⟩ := Nat.exists_eq_add_of_le hn
    have hlater := hstage (k + e)
    rw [Stage.after_add, hstage k, Option.bind_some] at hlater
    rw [hk, phase_two_of_after hk hlater]
  · have hone : ∀ n, (stage n).phase = .one := fun n => by
      cases h : (stage n).phase with
      | one => rfl
      | two => exact absurd ⟨n, h⟩ htwo
    exact ⟨0, fun n _ => by rw [hone, hone]⟩

/-- **A method without an end comes back to a basis**, since a phase has only finitely many. -/
theorem recurs_of_forall_after (hp : ∀ c ∈ p.constraints, c.left.arity = p.objective.arity)
    (htol : 0 ≤ settings.tolerance)
    (h : ∀ n, ∃ s, (p.start settings).after rule p.objective n = some s) :
    p.Recurs settings rule := by
  choose stage hstage using h
  obtain ⟨k, hk⟩ := exists_phase_eq stage hstage
  have hsame : ∀ n, Tableau.SameProgram (stage k).tableau (stage (k + n)).tableau := fun n =>
    sameProgram_of_phase hp htol (hstage k) (hstage (k + n)) (hk _ (Nat.le_add_right _ _))
  have hsound : ∀ n, (stage n).tableau.Sound := fun n =>
    (represents_of_after hp htol (hstage n)).1
  have hrow : ∀ n, ∀ i < (stage k).tableau.constraintCount,
      (stage k).tableau.layout.costRows + i ∈ (stage (k + n)).tableau.constraintRows := by
    intro n i hi
    rw [(hsame n).constraintRows, Tableau.constraintRows, List.mem_range'_1]
    omega
  -- The basis of a stage as a function from rows to columns, of which there are finitely many.
  let basis : Nat → Fin (stage k).tableau.constraintCount →
      Fin (stage k).tableau.layout.variableCount := fun n i =>
    ⟨(stage (k + n)).tableau.basicColumn ((stage k).tableau.layout.costRows + i), by
      have hlt := (hsound (k + n)).basicColumn_lt (hrow n i i.2)
      rwa [(hsame n).layout] at hlt⟩
  have hequal : ∀ m n, basis m = basis n →
      (stage (k + m)).tableau.basis = (stage (k + n)).tableau.basis := by
    intro m n heq
    have hsize : ∀ n, (stage (k + n)).tableau.basis.size =
        (stage k).tableau.constraintCount := by
      intro n
      have hrows : (stage (k + n)).tableau.rows.size = (stage k).tableau.rows.size :=
        (hsame n).rowCount
      rw [(hsound _).basisSize, Tableau.constraintCount, Tableau.constraintCount, hrows,
        (hsame n).layout]
    refine Array.ext (by rw [hsize, hsize]) fun i hi hi' => ?_
    rw [Tableau.Consistent.basis_getElem hi, Tableau.Consistent.basis_getElem hi',
      (hsame m).layout, (hsame n).layout, Nat.add_comm i]
    have hcolumn := congrFun heq ⟨i, by rwa [hsize] at hi⟩
    exact congrArg Fin.val hcolumn
  obtain ⟨m, n, hne, heq⟩ := Finite.exists_ne_map_eq_of_infinite basis
  have hrecurs : ∀ m n, m < n → basis m = basis n → p.Recurs settings rule := fun m n hlt heq =>
    ⟨k + m, k + n, stage (k + m), stage (k + n), Nat.add_lt_add_left hlt k, hstage _, hstage _,
      (hk _ (Nat.le_add_right _ _)).symm.trans (hk _ (Nat.le_add_right _ _)), hequal m n heq⟩
  rcases lt_or_gt_of_ne hne with hlt | hlt
  · exact hrecurs m n hlt heq
  · exact hrecurs n m hlt heq.symm

/-- **All stages are, apart from the number of pivots, among the first ones**: the method stops, or
from some stage on it goes round. -/
theorem exists_bound_shift (hp : ∀ c ∈ p.constraints, c.left.arity = p.objective.arity)
    (settings : Settings K) (htol : 0 ≤ settings.tolerance) (rule : PivotRule) : ∃ N, ∀ n s,
      (p.start settings).after rule p.objective n = some s →
        ∃ m < N, ∃ u d, (p.start settings).after rule p.objective m = some u ∧ s = u.shift d := by
  by_cases hends : ∃ n, (p.start settings).after rule p.objective n = none
  · obtain ⟨N, hnone⟩ := hends
    refine ⟨N, fun n s hs => ⟨n, ?_, s, 0, hs, rfl⟩⟩
    by_contra hle
    obtain ⟨v, hv⟩ := Stage.exists_after_of_le hs (not_lt.1 hle)
    rw [hnone] at hv
    cases hv
  · obtain ⟨k, e, d, v, hv, hround⟩ := (recurs_of_forall_after hp htol fun n =>
      Option.ne_none_iff_exists'.1 fun hnone => hends ⟨n, hnone⟩).exists_shift hp htol
    refine ⟨k + (e + 1), fun n => ?_⟩
    induction n using Nat.strong_induction_on with
    | _ n ih =>
      intro s hs
      rcases Nat.lt_or_ge n (k + (e + 1)) with hlt | hge
      · exact ⟨n, hlt, s, 0, hs, rfl⟩
      · -- The stage one round before differs only in the number of pivots.
        obtain ⟨j, rfl⟩ := Nat.exists_eq_add_of_le hge
        rw [Stage.after_add, Stage.after_add, hv, Option.bind_some, hround, Option.bind_some,
          Stage.after_shift] at hs
        obtain ⟨w, hw, rfl⟩ := Option.map_eq_some_iff.1 hs
        have hbefore : (p.start settings).after rule p.objective (k + j) = some w := by
          rw [Stage.after_add, hv, Option.bind_some, hw]
        obtain ⟨m, hm, u, d', hu, rfl⟩ := ih (k + j) (by omega) w hbefore
        refine ⟨m, hm, u, d' + d, hu, ?_⟩
        rw [Stage.shift, Stage.shift, Stage.shift, Nat.add_assoc]

/-- A method that comes back to a basis passes arbitrarily high limits. -/
theorem Recurs.not_exists_limit (hrecurs : p.Recurs settings rule)
    (h : p.check settings = .ok ()) :
    ¬ ∃ L, ∀ N, L ≤ N → p.solve { settings with pivotLimit := N } rule ≠
      .error (.error (.pivotLimit N)) := by
  obtain ⟨htol, hp⟩ := of_check h
  rw [exists_limit_iff_stops h]
  rintro ⟨n, hnone⟩
  obtain ⟨s, hs⟩ := hrecurs.exists_after hp htol.le n
  rw [hs] at hnone
  cases hnone

/-- **When a method ends.** There is a limit from which on a run does not give up, exactly if the
method is in no phase at the same basis twice. -/
theorem exists_limit_iff (h : p.check settings = .ok ()) (rule : PivotRule) :
    (∃ L, ∀ N, L ≤ N → p.solve { settings with pivotLimit := N } rule ≠
        .error (.error (.pivotLimit N))) ↔ ¬ p.Recurs settings rule := by
  obtain ⟨htol, hp⟩ := of_check h
  constructor
  · exact fun hlimit hrecurs => hrecurs.not_exists_limit h hlimit
  · intro hnot
    rw [exists_limit_iff_stops h]
    by_contra hgoes
    exact hnot (recurs_of_forall_after hp htol.le fun n =>
      Option.ne_none_iff_exists'.1 fun hnone => hgoes ⟨n, hnone⟩)

end

/-! ## Two programs without an end -/

/-- The phase and the basis of a stage. -/
def position {F : Type} (s : Stage F) : Phase × Array Nat := (s.phase, s.tableau.basis)

/-- The method comes back to a position. -/
theorem recurs_of_position {K : Type} [Field K] [LinearOrder K] {p : LinearProgram K}
    {settings : Settings K} {rule : PivotRule} {m n : Nat} {b : Phase × Array Nat} (hmn : m < n)
    (hm : ((p.start settings).after rule p.objective m).map position = some b)
    (hn : ((p.start settings).after rule p.objective n).map position = some b) :
    p.Recurs settings rule := by
  obtain ⟨s, hs, hsb⟩ := Option.map_eq_some_iff.1 hm
  obtain ⟨u, hu, hub⟩ := Option.map_eq_some_iff.1 hn
  obtain ⟨hphase, hbasis⟩ := Prod.mk.inj (hsb.trans hub.symm)
  exact ⟨m, n, s, u, hmn, hs, hu, hphase, hbasis⟩

/-- Minimize `-x + 4y - 3z` subject to `x + z ≤ 0`, `-4x + 4y - 4z ≤ 0` and `x + 3y ≤ 0`. The
minimum is at the origin. -/
def endlessFirst : LinearProgram ℚ :=
  ⟨.minimize, ⟨[-1, 4, -3], 0⟩,
    [.linear [1, 0, 1] .atMost 0, .linear [-4, 4, -4] .atMost 0, .linear [1, 3, 0] .atMost 0]⟩

/-- **The first profitable column does not exclude cycles.** After six pivots the method is back at
the basis of the slack variables, so that every limit is passed. -/
theorem cycles_first : endlessFirst.check .standard = .ok () ∧
    endlessFirst.Recurs .standard .first ∧
    ¬ ∃ L, ∀ N, L ≤ N → endlessFirst.solve { Settings.standard with pivotLimit := N } .first ≠
      .error (.error (.pivotLimit N)) := by
  have hcheck : endlessFirst.check .standard = .ok () := by decide +kernel
  have hrecurs : endlessFirst.Recurs .standard .first :=
    recurs_of_position (m := 0) (n := 6) (b := (.two, #[3, 4, 5])) (by decide)
      (by decide +kernel) (by decide +kernel)
  exact ⟨hcheck, hrecurs, fun hlimit => (exists_limit_iff hcheck .first).1 hlimit hrecurs⟩

/-- Minimize `w + 2x - 2y - 2z` subject to `8w + 8y + 4z ≤ 0`, `8x + 4y ≤ 0` and
`3w + 2x - 8y - 2z ≤ 0`. The minimum is at the origin. -/
def endlessSteepest : LinearProgram ℚ :=
  ⟨.minimize, ⟨[1, 2, -2, -2], 0⟩,
    [.linear [8, 0, 8, 4] .atMost 0, .linear [0, 8, 4, 0] .atMost 0,
      .linear [3, 2, -8, -2] .atMost 0]⟩

/-- **Neither does the column of steepest descent.** The basis after two pivots is also the basis
after eight. -/
theorem cycles_steepest : endlessSteepest.check .standard = .ok () ∧
    ¬ ∃ L, ∀ N, L ≤ N → endlessSteepest.solve { Settings.standard with pivotLimit := N } .steepest ≠
      .error (.error (.pivotLimit N)) := by
  have hcheck : endlessSteepest.check .standard = .ok () := by decide +kernel
  have hrecurs : endlessSteepest.Recurs .standard .steepest :=
    recurs_of_position (m := 2) (n := 8) (b := (.two, #[3, 2, 6])) (by decide)
      (by decide +kernel) (by decide +kernel)
  exact ⟨hcheck, hrecurs.not_exists_limit hcheck⟩

end LinearProgram

end Simplex
