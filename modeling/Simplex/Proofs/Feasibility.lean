import Mathlib.Algebra.Order.Field.Rat
import Simplex.Proofs.Points
import Simplex.Proofs.Reachable

/-!
# When the reported point is feasible

The basic solution that a run reports solves the equations that were left, with values that are not
negative beyond the tolerance. A constraint whose artificial variable is zero there holds within the
tolerance, so the signs are right and the only constraints at risk are those whose artificial
variable was still basic in a row that was removed. Such a variable takes what its row leaves for it
(`Tableau.remainder`), and the point is feasible exactly if all the constraints concerned admit that
(`LinearProgram.feasible_iff_remainder`). A row may leave any amount, because a row is also removed
when its right-hand side is not zero and no column may replace the artificial variable without
pushing another right-hand side too low (`LinearProgram.solve_missed_constraint`).
-/

namespace Simplex

section
variable {K : Type} [Field K] [LinearOrder K]

/-- The values of a basic solution are not negative beyond the tolerance, if the right-hand sides
are not. -/
theorem Tableau.Sound.neg_tolerance_le_basicPoint [IsStrictOrderedRing K] {t : Tableau K}
    (h : t.Sound) (htol : 0 ≤ t.tolerance) (hcheck : t.checkFeasible = .ok ()) (j : Nat) :
    -t.tolerance ≤ t.basicPoint j := by
  cases hb : t.isBasic j with
  | false =>
    rw [h.basicPoint_eq_zero hb]
    exact neg_nonpos.2 htol
  | true =>
    obtain ⟨r, hr, rfl⟩ := (h.isBasic_iff j).1 hb
    rw [h.basicPoint_basicColumn hr]
    exact h.checkFeasible_eq_ok.1 hcheck r hr

namespace LinearProgram

variable {p : LinearProgram K} {settings : Settings K} {rule : PivotRule} {x : List K} {v : K}

/-- The artificial variable of a constraint at the reported point is what its row leaves for it, if
it is still basic in a removed row, and zero otherwise. -/
theorem artificial_eq {u : Tableau K} (hu : u.Sound) {X Y : Nat → K} {i : Nat}
    (hlayout : u.layout = p.layout settings.nonnegative)
    (hzero : ∀ j, u.layout.isArtificial j = true → u.isBasic j = false → Y j = 0)
    (hremoved : ∀ r ∈ u.artificialRows, Y (u.basicColumn r) = u.remainder r X)
    (hneeds : p.needsArtificial i = true) :
    (∃ r ∈ u.artificialRows, u.basicColumn r = p.artificialColumn settings.nonnegative i ∧
      Y (p.artificialColumn settings.nonnegative i) = u.remainder r X) ∨
    ((∀ r ∈ u.artificialRows, u.basicColumn r ≠ p.artificialColumn settings.nonnegative i) ∧
      Y (p.artificialColumn settings.nonnegative i) = 0) := by
  have hart : u.layout.isArtificial (p.artificialColumn settings.nonnegative i) = true := by
    rw [hlayout]
    exact Tableau.isArtificial_artificialColumn hneeds
  cases hb : u.isBasic (p.artificialColumn settings.nonnegative i) with
  | true =>
    obtain ⟨r, hr, heq⟩ := (hu.isBasic_iff _).1 hb
    have hrow : r ∈ u.artificialRows := Tableau.mem_artificialRows.2
      ⟨hr, by rw [Tableau.hasArtificialBasis, heq, hart]⟩
    exact .inl ⟨r, hrow, heq, heq ▸ hremoved r hrow⟩
  | false =>
    refine .inr ⟨fun r hr heq => ?_, hzero _ hart hb⟩
    rw [← heq, hu.isBasic_basicColumn (Tableau.mem_artificialRows.1 hr).1] at hb
    cases hb

variable [IsStrictOrderedRing K]

/-- Without artificial variables the solutions stand for feasible points. -/
theorem feasible_of_solves (hp : ∀ c ∈ p.constraints, c.left.arity = p.objective.arity)
    {nonnegative : Bool} {tolerance ε : K} (hε : 0 ≤ ε)
    (hphase : ¬ (p.layout nonnegative).inPhaseOne = true) {X : Nat → K}
    (hsolves : (Tableau.initial p nonnegative tolerance).Solves X) (hX : ∀ j, -ε ≤ X j) :
    p.Feasible nonnegative ε ((p.layout nonnegative).decode X) :=
  feasible_decode hp hε hsolves (fun j _ => hX j) fun _ hj =>
    absurd (Tableau.inPhaseOne_of_isArtificial hj) hphase

/-- A solution of what is left when the artificial variables are dropped stands for a feasible point
exactly if the constraints that lost their row admit what this row leaves for them. -/
theorem feasible_iff_of_strip (hp : ∀ c ∈ p.constraints, c.left.arity = p.objective.arity)
    {u : Tableau K} {ε : K} (hε : 0 ≤ ε)
    (hphase : (p.layout settings.nonnegative).inPhaseOne = true) (hu : u.Sound)
    (hsame : Tableau.SameProgram (.initial p settings.nonnegative settings.tolerance) u)
    {X : Nat → K} (hsolves : (u.strip u.artificialRows).Solves X) (hX : ∀ j, -ε ≤ X j) :
    p.Feasible settings.nonnegative ε ((p.layout settings.nonnegative).decode X) ↔
      ∀ r ∈ u.artificialRows, ∀ i c, p.normalized[i]? = some c → p.needsArtificial i = true →
        u.basicColumn r = p.artificialColumn settings.nonnegative i →
        c.comparison.Admits ε (-(c.comparison.slackSign * X (p.slackColumn settings.nonnegative i) +
          u.remainder r X)) := by
  have hlayout := hsame.layout
  obtain ⟨Y, hY, hagree, hzero, hremoved⟩ := Tableau.exists_extension hu
    (by rw [hlayout]; exact hphase) hsolves
  rw [hlayout, Tableau.layout_initial] at hagree
  have hdecode : (p.layout settings.nonnegative).decode X =
      (p.layout settings.nonnegative).decode Y :=
    Tableau.decode_congr fun j hj => (hagree j (hj.trans_le (Nat.le_add_right _ _))).symm
  have hslack : ∀ {i : Nat} {c : Constraint K}, p.normalized[i]? = some c →
      c.comparison.slackSign * Y (p.slackColumn settings.nonnegative i) =
        c.comparison.slackSign * X (p.slackColumn settings.nonnegative i) := fun hc =>
    Tableau.slackSign_mul_congr _ hc fun j _ hj => hagree j hj
  have hholds : ∀ {i : Nat} {c : Constraint K}, p.normalized[i]? = some c →
      (c.holds ((p.layout settings.nonnegative).decode X) ε = true ↔
        c.comparison.Admits ε (-(c.comparison.slackSign *
            X (p.slackColumn settings.nonnegative i) +
          if p.needsArtificial i then Y (p.artificialColumn settings.nonnegative i) else 0))) :=
    fun hc => by rw [hdecode, Tableau.holds_decode_iff hp ((hsame.solves Y).1 hY) hc, hslack hc]
  rw [feasible_decode_iff fun j _ => hX j]
  constructor
  · intro hall r hr i c hc hneeds hcolumn
    have hadmits := (hholds hc).1 (hall i c hc)
    rwa [if_pos hneeds, ← hcolumn, hremoved r hr] at hadmits
  · intro hall i c hc
    rw [hholds hc]
    by_cases hneeds : p.needsArtificial i = true
    · rw [if_pos hneeds]
      rcases artificial_eq hu hlayout hzero hremoved hneeds with ⟨r, hr, hcolumn, heq⟩ | ⟨-, heq⟩
      · rw [heq]
        exact hall r hr i c hc hneeds hcolumn
      · rw [heq]
        exact Tableau.admits_slack hε fun _ => hX _
    · rw [if_neg hneeds]
      exact Tableau.admits_slack hε fun _ => hX _

/-- **When the reported point is feasible.** All constraints hold there within the tolerance, and
the signs are right, exactly if every constraint whose artificial variable was still basic in a
removed row admits what this row leaves for it. -/
theorem feasible_iff_remainder (h : p.check settings = .ok ())
    (hsolve : p.solve settings rule = .ok (.optimal x v)) :
    ∃ n s, (p.start settings).after rule p.objective n = some s ∧
      s.advance rule p.objective = .stop (.ok (.optimal x v)) ∧
      (p.Feasible settings.nonnegative settings.tolerance x ↔
        ∀ u, p.Handover settings rule u → ∀ r ∈ u.artificialRows, ∀ i c,
          p.normalized[i]? = some c → p.needsArtificial i = true →
          u.basicColumn r = p.artificialColumn settings.nonnegative i →
          c.comparison.Admits settings.tolerance
            (-(c.comparison.slackSign *
                s.tableau.basicPoint (p.slackColumn settings.nonnegative i) +
              u.remainder r s.tableau.basicPoint))) := by
  obtain ⟨htol, hp⟩ := of_check h
  obtain ⟨n, s, hs, hphase, hcheck, hstop, rfl⟩ := exists_of_solve_optimal h hsolve
  obtain ⟨hsound, htolerance, hrep⟩ := represents_of_after hp htol.le hs
  refine ⟨n, s, hs, hstop, ?_⟩
  have hX : ∀ j, -settings.tolerance ≤ s.tableau.basicPoint j := fun j => by
    rw [← htolerance]
    exact hsound.neg_tolerance_le_basicPoint (by rw [htolerance]; exact htol.le) hcheck j
  have hsolves := hsound.solves_basicPoint
  rw [hphase] at hrep
  rw [hrep.solution_eq]
  cases hrep with
  | direct hno hsame =>
    exact iff_of_true (feasible_of_solves hp htol.le hno ((hsame.solves _).1 hsolves) hX)
      fun u hu => absurd hu.inPhaseOne hno
  | dropped hone hover hu hsame hrest =>
    rw [feasible_iff_of_strip hp htol.le hone hu hsame ((hrest.solves _).1 hsolves) hX]
    constructor
    · intro hall u' hu'
      rw [hu'.unique hover]
      exact hall
    · exact fun hall => hall _ hover

/-! ## A program whose first constraint is lost -/

/-- Maximize `2048 x - y` subject to `x = 1 / 2097152`, `1024 x ≤ y` and `x ≤ 1`. The maximum is
`1 / 2048`. -/
def lostRow : LinearProgram ℚ :=
  ⟨.maximize, ⟨[2048, -1], 0⟩,
    [.linear [1, 0] .equal (1 / 2097152), .linear [1024, -1] .atMost 0, .linear [1, 0] .atMost 1]⟩

/-- **A constraint can be lost.** The reported point is not feasible: the first constraint is taken
for redundant, as every pivot in its row would push the second right-hand side below minus the
tolerance. -/
theorem solve_missed_constraint : lostRow.check .standard = .ok () ∧
    lostRow.solve .standard .steepest = .ok (.optimal [1, 1024] 1024) ∧
    lostRow.constraints.map (·.holds [1, 1024] (1 / 1000000)) = [false, true, true] ∧
    ∃ u, lostRow.Handover .standard .steepest u ∧ ∃ r ∈ u.artificialRows, ∃ i c,
      lostRow.normalized[i]? = some c ∧ u.basicColumn r = lostRow.artificialColumn true i := by
  have hcheck : lostRow.check .standard = .ok () := by decide +kernel
  have hsolve : lostRow.solve .standard .steepest = .ok (.optimal [1, 1024] 1024) := by
    decide +kernel
  have hholds : lostRow.constraints.map (·.holds [1, 1024] (1 / 1000000)) =
      [false, true, true] := by decide +kernel
  obtain ⟨n, s, -, -, hiff⟩ := feasible_iff_remainder hcheck hsolve
  have hnot : ¬ lostRow.Feasible true (1 / 1000000) [1, 1024] := fun h =>
    absurd ((List.cons.inj hholds).1.symm.trans (h.holds _ (.head _))) (by decide)
  have hlost := hiff.not.1 hnot
  push Not at hlost
  obtain ⟨u, hu, r, hr, i, c, hc, -, hcolumn, -⟩ := hlost
  exact ⟨hcheck, hsolve, hholds, u, hu, r, hr, i, c, hc, hcolumn⟩

end LinearProgram

end

end Simplex
