import Simplex.Proofs.Encoding
import Simplex.Trail

/-!
# The tableaus that pivots lead to

Whatever pivots are made, and in whatever order, the tableau stands for the same program
(`Tableau.Reaches.sameProgram`). Dropping the artificial variables keeps every solution that does
not use them, adds none unless a row is removed, and leaves the objective to be shown on all
solutions, those that violate a removed row included (`Tableau.exists_dropArtificials`). So the
initial tableau can be followed through any pivots before and after
(`LinearProgram.solves_iff_of_reaches`).
-/

namespace Simplex

namespace Tableau

section
variable {F : Type} [Scalar F] {t u : Tableau F}

/-! ## Sequences of pivots -/

/-- The tableaus that a tableau leads to by pivots, each on a position that allows it. -/
inductive Reaches (t : Tableau F) : Tableau F → Prop
  | refl : Reaches t t
  | pivot {u v : Tableau F} {row column : Nat} (h : Reaches t u)
    (hpivot : u.pivot row column = .ok v) : Reaches t v

/-- A step of the method makes a pivot or changes nothing. -/
theorem Reaches.step {s : Trail F} (h : t.Reaches s.tableau) (rule : PivotRule) :
    t.Reaches (s.step rule).1.tableau := by
  rw [Trail.step]
  cases s.tableau.move rule with
  | optimal => exact h
  | unbounded column => exact h
  | pivot row column cost =>
    have hrecord : (s.record (.pivoting row column cost)).tableau = s.tableau := rfl
    dsimp only
    rw [hrecord]
    cases hpivot : s.tableau.pivot row column with
    | error b => exact h
    | ok v => exact h.pivot hpivot

end

section
variable {K : Type} [Field K] [LinearOrder K] {p : LinearProgram K} {t u : Tableau K}

/-- **Pivots stay with the program**, and with a sound tableau. -/
theorem Reaches.sameProgram (h : t.Reaches u) (ht : t.Sound) : u.Sound ∧ SameProgram t u := by
  induction h with
  | refl => exact ⟨ht, .refl t⟩
  | pivot _ hpivot ih =>
    obtain ⟨hu, hsame⟩ := ih
    obtain ⟨hr, hc, hb, hentry, rfl⟩ := pivot_eq_ok hpivot
    have hentry := ne_of_beq_false hentry
    exact ⟨hu.exchange hr hc hb hentry, hsame.trans (.exchange hu.toConsistent hr hc hentry)⟩

/-- A pivot on a position that allows it leads on. -/
theorem Reaches.exchange (h : t.Reaches u) (ht : t.Sound) {r c : Nat}
    (hposition : r ∈ u.constraintRows ∧ c < u.layout.variableCount ∧ u.isBasic c = false ∧
      (u.entry r c == 0) = false) : t.Reaches (u.exchange r c) := by
  obtain ⟨hr, hc, hb, hentry⟩ := hposition
  exact h.pivot ((h.sameProgram ht).1.pivot_eq hr hc hb hentry)

variable [IsStrictOrderedRing K]

/-! ## Dropping the artificial variables -/

/-- **What remains without the artificial variables.** The solutions that do not use them remain,
no other is added if no row is removed, and the objective is shown on all solutions. -/
theorem exists_dropArtificials (ht : t.Sound) (htol : 0 ≤ t.tolerance) (hcosts : t.ShowsCosts p) :
    ∃ u removed, t.dropArtificials = .ok (u, removed) ∧ u.Sound ∧ u.ShowsCosts p ∧
      u.layout = t.layout.withoutArtificial ∧
      ∀ X, (∀ j, t.layout.isArtificial j = true → X j = 0) →
        (t.Solves X → u.Solves X) ∧ (removed = [] → u.Solves X → t.Solves X) := by
  by_cases hphase : t.layout.inPhaseOne = true
  · obtain ⟨u, -, hu, hsame, -, hdrop⟩ := dropArtificials_spec ht htol hphase
    have hphase' : u.layout.inPhaseOne = true := by rwa [hsame.layout]
    refine ⟨_, _, hdrop, hu.strip hphase', (hcosts.congr hsame).strip hu hphase', ?_, ?_⟩
    · rw [layout_strip, hsame.layout]
    · intro X hX
      rw [← hsame.layout] at hX
      have hstrip := solves_strip hu hphase' fun j hj _ => hX j hj
      rw [← hsame.solves]
      refine ⟨fun h => (hstrip.1 h).1, fun hremoved h => hstrip.2 ⟨h, fun r hr => ?_⟩⟩
      rw [List.map_eq_nil_iff.1 hremoved] at hr
      cases hr
  · have hlayout : t.layout = t.layout.withoutArtificial := by
      have hzero : t.layout.artificial = 0 := by
        simpa [Layout.inPhaseOne] using hphase
      rw [Layout.withoutArtificial, ← hzero]
    exact ⟨t, [], if_neg hphase, ht, hcosts, hlayout, fun X _ => ⟨id, fun _ => id⟩⟩

end

end Tableau

namespace LinearProgram

variable {K : Type} [Field K] [LinearOrder K] [IsStrictOrderedRing K] {p : LinearProgram K}
  {nonnegative : Bool} {tolerance : K} {t₀ t : Tableau K}

/-! ## From the initial tableau on -/

/-- **All tableaus stand for the program.** A tableau that any pivots lead to has the solutions of
the initial one, and shows the artificial cost and the objective on them. Then the artificial
variables can be dropped. After any further pivots the solutions without artificial variables are
still there, with no others if no row was removed, and all solutions show the objective. -/
theorem solves_iff_of_reaches (h₀ : Tableau.ofProgram p nonnegative tolerance = .ok t₀)
    (h : t₀.Reaches t) :
    t.layout = t₀.layout ∧ (∀ X, t.Solves X ↔ t₀.Solves X) ∧ t.ShowsCosts p ∧
      ∃ u removed, t.dropArtificials = .ok (u, removed) ∧ ∀ v, u.Reaches v →
        v.layout = t₀.layout.withoutArtificial ∧ v.ShowsCosts p ∧
        ∀ X, (∀ j, t₀.layout.isArtificial j = true → X j = 0) →
          (t₀.Solves X → v.Solves X) ∧ (removed = [] → v.Solves X → t₀.Solves X) := by
  obtain ⟨hp, htol, rfl⟩ := ofProgram_eq_ok_iff.1 h₀
  obtain ⟨ht, hsame⟩ := h.sameProgram (Tableau.sound_initial hp)
  have hcosts := (Tableau.showsCosts_initial hp nonnegative tolerance).congr hsame
  have htol' : 0 ≤ t.tolerance := by
    rw [hsame.tolerance]
    exact htol.le
  obtain ⟨u, removed, hdrop, hu, hcosts', hlayout, hsolves⟩ :=
    Tableau.exists_dropArtificials ht htol' hcosts
  refine ⟨hsame.layout, hsame.solves, hcosts, u, removed, hdrop, fun v hv => ?_⟩
  obtain ⟨-, hrest⟩ := hv.sameProgram hu
  refine ⟨?_, hcosts'.congr hrest, fun X hX => ?_⟩
  · rw [hrest.layout, hlayout, hsame.layout]
  · rw [hrest.solves, ← hsame.solves]
    rw [← hsame.layout] at hX
    exact hsolves X hX

/-- In `flipped` the first step of the method brings the second variable into the basis for the only
artificial one, which stands in the column 6. Dropping it removes no row, so what is left has the
same solutions without it. -/
theorem flipped_solves_iff : ∃ t₀ t u, Tableau.ofProgram flipped false (1 / 1000000) = .ok t₀ ∧
    t₀.Reaches t ∧ t.basis = #[4, 1, 5] ∧ t.dropArtificials = .ok (u, []) ∧
    ∀ X, X 6 = 0 → (u.Solves X ↔ t₀.Solves X) := by
  let t₀ := Tableau.initial flipped false (1 / 1000000)
  let t := ((Trail.start none t₀).step .first).1.tableau
  have hinitial : Tableau.ofProgram flipped false (1 / 1000000) = .ok t₀ :=
    ofProgram_eq_ok_iff.2 ⟨by decide +kernel, by norm_num, rfl⟩
  have hreaches : t₀.Reaches t := Tableau.Reaches.refl.step (s := Trail.start none t₀) .first
  have hremoved : t.dropArtificials.toOption.map (·.2) = some [] := by decide +kernel
  obtain ⟨-, -, -, u, removed, hdrop, hall⟩ := solves_iff_of_reaches hinitial hreaches
  obtain ⟨-, -, hsolves⟩ := hall u .refl
  obtain rfl : removed = [] := by
    rw [hdrop] at hremoved
    exact Option.some.inj hremoved
  refine ⟨t₀, t, u, hinitial, hreaches, by decide +kernel, hdrop, fun X hX => ?_⟩
  have hgroup : t₀.layout.artificialStart = 6 ∧ t₀.layout.variableCount = 7 := by decide +kernel
  obtain ⟨hthere, hback⟩ := hsolves X fun j hj => by
    obtain ⟨hle, hlt⟩ := Tableau.isArtificial_iff.1 hj
    obtain rfl : j = 6 := by omega
    exact hX
  exact ⟨hback rfl, hthere⟩

end LinearProgram

end Simplex
