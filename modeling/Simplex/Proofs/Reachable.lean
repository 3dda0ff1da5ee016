import Simplex.Proofs.Encoding
import Simplex.Proofs.Stages

/-!
# The tableaus of a run

Whatever the tolerance, the tableaus that a run goes through are sound and have the equations of the
initial one, or of what is left of it when the artificial variables are dropped
(`LinearProgram.represents_of_after`). So they show the costs of the program, and have its proper
solutions among theirs. The artificial variables are dropped at most once, and so there is one
tableau, the `LinearProgram.Handover` of the run, that decides what is left in phase two.
-/

namespace Simplex

namespace LinearProgram

section
variable {F : Type} [Scalar F]

/-- The tableau of a run from which the artificial variables are dropped: they were replaced where
this was possible, and the rows in which they were not are about to be removed. -/
def Handover (p : LinearProgram F) (settings : Settings F) (rule : PivotRule) (u : Tableau F) :
    Prop :=
  ∃ n s removed v, (p.start settings).after rule p.objective n = some s ∧ s.phase = .one ∧
    s.advance rule p.objective = .go ⟨.two, v, s.pivots⟩ ∧
    s.tableau.replaceArtificials = .ok (u, removed)

variable {p : LinearProgram F} {settings : Settings F} {rule : PivotRule} {n : Nat}
  {s u : Stage F}

/-- A stage other than the first follows another one. -/
theorem exists_of_after_succ {s₀ : Stage F} {objective : Affine F}
    (h : s₀.after rule objective (n + 1) = some u) :
    ∃ s, s₀.after rule objective n = some s ∧ s.advance rule objective = .go u := by
  rw [Stage.after_add] at h
  obtain ⟨s, hs, hu⟩ := Option.bind_eq_some_iff.1 h
  refine ⟨s, hs, ?_⟩
  cases hadvance : s.advance rule objective with
  | go v =>
    rw [Stage.after_succ_of_go hadvance] at hu
    cases hu
    rfl
  | stop r =>
    rw [Stage.after_succ_of_stop hadvance] at hu
    cases hu

/-- There is no way back from phase two. -/
theorem phase_two_of_go {objective : Affine F} (h : s.advance rule objective = .go u)
    (hs : s.phase = .two) : u.phase = .two := by
  obtain ⟨-, ⟨_, _, _, _, -, -, -, rfl⟩ | ⟨_, _, -, -, -, rfl⟩⟩ := Stage.advance_eq_go h
  · exact hs
  · rfl

/-- Phase two lasts. -/
theorem phase_two_of_after {objective : Affine F} (hs : s.phase = .two)
    (h : s.after rule objective n = some u) : u.phase = .two := by
  induction n generalizing u with
  | zero =>
    cases h
    exact hs
  | succ n ih =>
    obtain ⟨v, hv, hgo⟩ := exists_of_after_succ h
    exact phase_two_of_go hgo (ih hv)

/-- Only a run that begins in phase one changes the phase. -/
theorem Handover.inPhaseOne {t : Tableau F} (h : p.Handover settings rule t) :
    (p.layout settings.nonnegative).inPhaseOne = true := by
  obtain ⟨n, s, removed, v, hs, hphase, -⟩ := h
  cases hone : (p.layout settings.nonnegative).inPhaseOne with
  | true => rfl
  | false =>
    have hstart : (p.start settings).phase = .two := by
      show (if (p.layout settings.nonnegative).inPhaseOne then Phase.one else .two) = .two
      rw [hone]
      rfl
    rw [phase_two_of_after hstart hs] at hphase
    cases hphase

/-- The phase changes only once. -/
theorem Handover.unique {t u : Tableau F} (ht : p.Handover settings rule t)
    (hu : p.Handover settings rule u) : t = u := by
  obtain ⟨m, s, removed, v, hs, hphase, hgo, hreplace⟩ := ht
  obtain ⟨n, s', removed', v', hs', hphase', hgo', hreplace'⟩ := hu
  have hlast : ∀ {m n : Nat} {s s' : Stage F} {v : Tableau F},
      (p.start settings).after rule p.objective m = some s →
      (p.start settings).after rule p.objective n = some s' →
      s.advance rule p.objective = .go ⟨.two, v, s.pivots⟩ → s'.phase = .one → n ≤ m := by
    intro m n s s' v hs hs' hgo hphase
    rcases Nat.lt_or_ge m n with hlt | hle
    · obtain ⟨k, rfl⟩ := Nat.exists_eq_add_of_lt hlt
      rw [Nat.add_right_comm, Stage.after_add, Stage.after_succ_of_some hs hgo,
        Option.bind_some] at hs'
      rw [phase_two_of_after rfl hs'] at hphase
      cases hphase
    · exact hle
  obtain rfl : m = n := Nat.le_antisymm (hlast hs' hs hgo' hphase) (hlast hs hs' hgo hphase')
  obtain rfl : s = s' := Option.some.inj (hs.symm.trans hs')
  rw [hreplace] at hreplace'
  cases hreplace'
  rfl

end

section
variable {K : Type} [Field K] [LinearOrder K]

/-- Which equations a tableau of a run has: those of the initial tableau, or of what is left of them
when the artificial variables are dropped. -/
inductive Represents (p : LinearProgram K) (settings : Settings K) (rule : PivotRule) :
    Phase → Tableau K → Prop
  /-- In phase one nothing is removed. -/
  | one {t : Tableau K} (hphase : (p.layout settings.nonnegative).inPhaseOne = true)
    (hsame : Tableau.SameProgram (.initial p settings.nonnegative settings.tolerance) t) :
    Represents p settings rule .one t
  /-- Without artificial variables there is nothing to remove. -/
  | direct {t : Tableau K} (hphase : ¬ (p.layout settings.nonnegative).inPhaseOne = true)
    (hsame : Tableau.SameProgram (.initial p settings.nonnegative settings.tolerance) t) :
    Represents p settings rule .two t
  /-- In phase two the artificial variables are gone. -/
  | dropped {t u : Tableau K} (hphase : (p.layout settings.nonnegative).inPhaseOne = true)
    (hover : p.Handover settings rule u) (hu : u.Sound)
    (hsame : Tableau.SameProgram (.initial p settings.nonnegative settings.tolerance) u)
    (hrest : Tableau.SameProgram (u.strip u.artificialRows) t) : Represents p settings rule .two t

variable {p : LinearProgram K} {settings : Settings K} {rule : PivotRule} {phase : Phase}
  {t u : Tableau K} {n : Nat} {s : Stage K}

/-- In phase one the equations are those of the initial tableau. -/
theorem Represents.of_one (h : p.Represents settings rule phase t) (hphase : phase = .one) :
    (p.layout settings.nonnegative).inPhaseOne = true ∧
      Tableau.SameProgram (.initial p settings.nonnegative settings.tolerance) t := by
  cases h with
  | one hone hsame => exact ⟨hone, hsame⟩
  | direct => cases hphase
  | dropped => cases hphase

/-- In phase one the artificial variables are there. -/
theorem Represents.inPhaseOne (h : p.Represents settings rule phase t) (hphase : phase = .one) :
    t.layout.inPhaseOne = true := by
  obtain ⟨hone, hsame⟩ := h.of_one hphase
  rw [hsame.layout]
  exact hone

/-- A pivot stays with the equations. -/
theorem Represents.pivot (h : p.Represents settings rule phase t)
    (hsame : Tableau.SameProgram t u) : p.Represents settings rule phase u := by
  cases h with
  | one hphase h => exact .one hphase (h.trans hsame)
  | direct hphase h => exact .direct hphase (h.trans hsame)
  | dropped hphase hover hu h hrest => exact .dropped hphase hover hu h (hrest.trans hsame)

/-- The columns are those of the initial tableau, with or without the artificial variables. -/
theorem Represents.layout_eq (h : p.Represents settings rule phase t) :
    t.layout = p.layout settings.nonnegative ∨
      t.layout = (p.layout settings.nonnegative).withoutArtificial := by
  cases h with
  | one _ hsame | direct _ hsame => exact .inl hsame.layout
  | dropped _ _ _ hsame hrest =>
    refine .inr ?_
    rw [hrest.layout, Tableau.layout_strip, hsame.layout]
    rfl

/-- The decision variables stand where they stood in the initial tableau. -/
theorem Represents.decode_eq (h : p.Represents settings rule phase t) (X : Nat → K) :
    t.layout.decode X = (p.layout settings.nonnegative).decode X := by
  rcases h.layout_eq with hlayout | hlayout
  · rw [hlayout]
  · rw [hlayout]
    rfl

/-- So the point of a basic solution is read off as in the initial tableau. -/
theorem Represents.solution_eq (h : p.Represents settings rule phase t) :
    t.solution = (p.layout settings.nonnegative).decode t.basicPoint := by
  rw [Tableau.solution_eq, h.decode_eq]

/-- The columns of the slack variables are still there. -/
theorem Represents.artificialStart_le (h : p.Represents settings rule phase t) :
    (p.layout settings.nonnegative).artificialStart ≤ t.layout.variableCount := by
  rcases h.layout_eq with hlayout | hlayout
  · rw [hlayout]
    exact Nat.le_add_right _ _
  · rw [hlayout]
    exact Nat.le_refl _

/-- In phase two the objective is the only cost. -/
theorem Represents.costRows_eq_one (h : p.Represents settings rule .two t) :
    t.layout.costRows = 1 := by
  cases h with
  | direct hno hsame =>
    rw [hsame.layout]
    exact if_neg hno
  | dropped _ _ _ _ hrest =>
    rw [hrest.layout, Tableau.layout_strip]
    rfl

/-- A proper solution stays one. -/
theorem Represents.proper (h : p.Represents settings rule phase t) {X : Nat → K}
    (hX : (Tableau.initial p settings.nonnegative settings.tolerance).Proper X) : t.Proper X := by
  cases h with
  | one _ hsame | direct _ hsame => exact hX.congr hsame
  | dropped hone _ hu hsame hrest =>
    exact ((hX.congr hsame).strip hu (by rw [hsame.layout]; exact hone)).congr hrest

/-- The cost rows show the costs of the program. -/
theorem Represents.showsCosts (h : p.Represents settings rule phase t)
    (hp : ∀ c ∈ p.constraints, c.left.arity = p.objective.arity) : t.ShowsCosts p := by
  have hinit := Tableau.showsCosts_initial hp settings.nonnegative settings.tolerance
  cases h with
  | one _ hsame | direct _ hsame => exact hinit.congr hsame
  | dropped hone _ hu hsame hrest =>
    exact ((hinit.congr hsame).strip hu (by rw [hsame.layout]; exact hone)).congr hrest

/-- In phase two the first row shows the objective. -/
theorem Represents.residual_eq (h : p.Represents settings rule .two t)
    (hp : ∀ c ∈ p.constraints, c.left.arity = p.objective.arity) {X : Nat → K} (hX : t.Solves X) :
    t.residual 0 X =
      p.goal.sign * p.objective.eval ((p.layout settings.nonnegative).decode X) := by
  have hobjective := (h.showsCosts hp).objective X hX
  rwa [h.costRows_eq_one, h.decode_eq] at hobjective

variable [IsStrictOrderedRing K]

/-- **The tableaus of a run are sound**, and their equations are those of the program. -/
theorem represents_of_after (hp : ∀ c ∈ p.constraints, c.left.arity = p.objective.arity)
    (htol : 0 ≤ settings.tolerance) (h : (p.start settings).after rule p.objective n = some s) :
    s.tableau.Sound ∧ s.tableau.tolerance = settings.tolerance ∧
      p.Represents settings rule s.phase s.tableau := by
  induction n generalizing s with
  | zero =>
    cases h
    refine ⟨Tableau.sound_initial hp, rfl, ?_⟩
    show p.Represents settings rule
      (if (p.layout settings.nonnegative).inPhaseOne then .one else .two) _
    split
    · next hphase => exact .one hphase (.refl _)
    · next hphase => exact .direct hphase (.refl _)
  | succ n ih =>
    obtain ⟨s, hs, hgo⟩ := exists_of_after_succ h
    obtain ⟨hsound, htolerance, hrep⟩ := ih hs
    obtain ⟨hcheck, ⟨r, c, cost, t, -, -, hpivot, rfl⟩ | ⟨t, removed, hphase, -, hdrop, rfl⟩⟩ :=
      Stage.advance_eq_go hgo
    · obtain ⟨hr, hc, hb, hentry, rfl⟩ := Tableau.pivot_eq_ok hpivot
      have hentry : s.tableau.entry r c ≠ 0 := by simpa using hentry
      exact ⟨hsound.exchange hr hc hb hentry, htolerance,
        hrep.pivot (.exchange hsound.toConsistent hr hc hentry)⟩
    · obtain ⟨hone, hsame⟩ := hrep.of_one hphase
      obtain ⟨v, hreplace, hv, hsame', -, hdrop'⟩ := Tableau.dropArtificials_spec hsound
        (by rwa [htolerance]) (by rw [hsame.layout]; exact hone)
      rw [hdrop'] at hdrop
      cases hdrop
      have hinit := hsame.trans hsame'
      refine ⟨hv.strip (by rw [hinit.layout]; exact hone), ?_, ?_⟩
      · rw [Tableau.tolerance_strip, hsame'.tolerance, htolerance]
      · exact .dropped hone ⟨n, s, _, _, hs, hphase, hgo, hreplace⟩ hv hinit (.refl _)

/-- A phase one that finds a feasible basis reports the rows of its last tableau in which an
artificial variable is basic. -/
theorem exists_handover_of_phaseOne (hp : ∀ c ∈ p.constraints, c.left.arity = p.objective.arity)
    (htol : 0 ≤ settings.tolerance) (hphase : (p.layout settings.nonnegative).inPhaseOne = true)
    {detail : Option Level} {t : Trail K} {removed : List Nat}
    (hone : (p.opening settings detail).phaseOne rule settings.pivotLimit =
      (t, .ok (.feasible removed))) :
    ∃ u, p.Handover settings rule u ∧ u.Sound ∧
      Tableau.SameProgram (.initial p settings.nonnegative settings.tolerance) u ∧
      removed = u.artificialRows.map (· - u.layout.costRows) := by
  obtain ⟨n, s, v, hs, hstage, hgo, hdrop⟩ := Stage.after_of_phaseOne_feasible p.objective hone
  have hstart : p.start settings = .of .one (p.opening settings detail) := start_eq_of_one hphase
  rw [← hstart] at hs
  obtain ⟨hsound, htolerance, hrep⟩ := represents_of_after hp htol hs
  obtain ⟨-, hsame⟩ := hrep.of_one hstage
  obtain ⟨u, hreplace, hu, hsame', -, hdrop'⟩ := Tableau.dropArtificials_spec hsound
    (by rwa [htolerance]) (by rw [hsame.layout]; exact hphase)
  rw [hdrop'] at hdrop
  cases hdrop
  exact ⟨u, ⟨n, s, _, _, hs, hstage, hgo, hreplace⟩, hu, hsame.trans hsame', rfl⟩

end

end LinearProgram

end Simplex
