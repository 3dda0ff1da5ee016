import Simplex.Proofs.BasisInvariant

/-!
# What the change of phase leaves alone

The artificial variables are replaced row by row, and each row sees what the replacements before it
have made of the tableau. None of them pushes a right-hand side below minus the tolerance, so what
is left of a tableau in a basic feasible state is in such a state again, whatever the values of the
artificial variables were (`LinearProgram.checkFeasible_dropArtificials`).

A replacement in a row with the right-hand side zero moves no right-hand side, and the basic
solution stays where it is (`Tableau.StandsStill`). The right-hand sides of the artificial rows to
come stay zero by the same argument. So if all artificial variables are zero, dropping them changes
neither the solution nor the cost, nor the right-hand sides of the rows that are left
(`LinearProgram.solution_dropArtificials`).
-/

namespace Simplex

namespace Tableau

section
variable {F : Type} {u : Tableau F}

/-! ## The rows that are left -/

/-- The rows that are left are those of the constraints that are not reported as removed. -/
theorem survivors_eq_filter (u : Tableau F) :
    u.survivors = u.constraintRows.filter fun r =>
      r - u.layout.costRows ∉ u.artificialRows.map (· - u.layout.costRows) := by
  refine List.filter_congr fun r hr => ?_
  have hmem : r - u.layout.costRows ∈ u.artificialRows.map (· - u.layout.costRows) ↔
      u.hasArtificialBasis r = true := by
    rw [List.mem_map]
    constructor
    · rintro ⟨s, hs, heq⟩
      obtain ⟨hrow, hart⟩ := mem_artificialRows.1 hs
      have hle := (mem_constraintRows.1 hr).1
      have hle' := (mem_constraintRows.1 hrow).1
      obtain rfl : s = r := by omega
      exact hart
    · exact fun hart => ⟨r, mem_artificialRows.2 ⟨hr, hart⟩, rfl⟩
  rw [Bool.eq_iff_iff, decide_eq_true_eq, hmem]
  simp

variable [Scalar F]

/-- The right-hand sides of the constraint rows that are left. -/
theorem map_right_strip (hu : u.Consistent) (hphase : u.layout.inPhaseOne = true) :
    (u.strip u.artificialRows).constraintRows.map (u.strip u.artificialRows).right =
      u.survivors.map u.right := by
  have hcount : (u.strip u.artificialRows).constraintCount = u.survivors.length := by
    have hrows : (u.strip u.artificialRows).rows.size = 1 + u.survivors.length :=
      rowCount_strip hu hphase
    rw [constraintCount, hrows, layout_strip, costRows_withoutArtificial, Nat.add_sub_cancel_left]
  refine List.ext_getElem (by simp [constraintRows, hcount]) fun k hk hk' => ?_
  have hk : k < u.survivors.length := by simpa using hk'
  have horigin : u.origin (1 + k) = u.survivors[k] := by
    rw [Nat.add_comm, origin, List.getD_cons_succ, List.getD_eq_getElem?_getD,
      List.getElem?_eq_getElem hk, Option.getD_some]
  rw [List.getElem_map, List.getElem_map, ← horigin, ← right_strip hu hphase (by omega)]
  simp [constraintRows, costRows_withoutArtificial]

/-- The basic solution of what is left is that of the whole tableau, without the artificial
variables. -/
theorem basicPoint_strip (hu : u.Consistent) (hphase : u.layout.inPhaseOne = true) {j : Nat}
    (hj : j < u.layout.artificialStart) :
    (u.strip u.artificialRows).basicPoint j = u.basicPoint j := by
  have hstrip := hu.strip hphase
  have hbasic : (u.strip u.artificialRows).isBasic j = u.isBasic j := by
    rw [isBasic_strip hu, decide_eq_true hj, Bool.true_and]
  cases hb : u.isBasic j with
  | false => rw [hstrip.basicPoint_eq_zero (hbasic.trans hb), hu.basicPoint_eq_zero hb]
  | true =>
    obtain ⟨s, hs, rfl⟩ := (hstrip.isBasic_iff j).1 (hbasic.trans hb)
    obtain ⟨k, hk, rfl⟩ := (mem_constraintRows_strip hu hphase).1 hs
    rw [hstrip.basicPoint_basicColumn hs, right_strip hu hphase (by omega),
      basicColumn_strip hu hk,
      hu.basicPoint_basicColumn (mem_survivors.1 (origin_mem hk)).1]

end

section
variable {K : Type} [Field K] [LinearOrder K] {t u v : Tableau K} {r c : Nat}

/-! ## Replacements at value zero -/

/-- A second tableau has the right-hand sides and the basic solution of a first one. -/
structure StandsStill (t u : Tableau K) : Prop where
  right : ∀ i, u.right i = t.right i
  basicPoint : ∀ j, u.basicPoint j = t.basicPoint j

/-- The relation composes. -/
theorem StandsStill.trans (h : StandsStill t u) (h' : StandsStill u v) : StandsStill t v where
  right i := (h'.right i).trans (h.right i)
  basicPoint j := (h'.basicPoint j).trans (h.basicPoint j)

/-- **A pivot in a row with the right-hand side zero moves nothing.** The entering variable becomes
basic at zero, which it was, and so was the leaving one. -/
theorem Sound.standsStill_exchange (h : t.Sound) (hr : r ∈ t.constraintRows)
    (hc : c < t.layout.variableCount) (hb : t.isBasic c = false) (hp : t.entry r c ≠ 0)
    (hzero : t.right r = 0) : StandsStill t (t.exchange r c) := by
  have hright : ∀ i, (t.exchange r c).right i = t.right i := by
    intro i
    rw [exchange_right h.toConsistent hr hc hp, hzero, zero_div, mul_zero, sub_zero]
    split
    · next hir => rw [hir, hzero]
    · rfl
  refine ⟨hright, fun j => ?_⟩
  have hexchange := h.toConsistent.exchange hr hc hb
  cases hj : (t.exchange r c).isBasic j with
  | true =>
    obtain ⟨s, hs, rfl⟩ := (hexchange.isBasic_iff j).1 hj
    rw [hexchange.basicPoint_basicColumn hs, hright]
    rw [exchange_constraintRows] at hs
    rw [exchange_basicColumn h.toConsistent hr hs]
    split
    · next hsr => rw [hsr, hzero, h.basicPoint_eq_zero hb]
    · rw [h.basicPoint_basicColumn hs]
  | false =>
    rw [hexchange.basicPoint_eq_zero hj]
    rw [exchange_isBasic h.toConsistent hc] at hj
    split at hj
    · cases hj
    · split at hj
      · next hleaves => rw [hleaves, h.basicPoint_basicColumn hr, hzero]
      · rw [h.basicPoint_eq_zero hj]

/-- What is left of a tableau shows its solution. -/
theorem solution_strip (hu : u.Consistent) (hphase : u.layout.inPhaseOne = true) :
    (u.strip u.artificialRows).solution = u.solution := by
  rw [solution_eq, solution_eq]
  exact decode_congr fun j hj => basicPoint_strip hu hphase (hj.trans_le (Nat.le_add_right _ _))

/-- A tableau that stands still shows the same solution. -/
theorem StandsStill.solution_eq (h : StandsStill t u) (hlayout : u.layout = t.layout) :
    u.solution = t.solution := by
  rw [Tableau.solution_eq, Tableau.solution_eq, hlayout]
  exact decode_congr fun j _ => h.basicPoint j

variable [IsStrictOrderedRing K]

/-- **Replacing artificial variables that are zero moves nothing.** The rows whose turn comes later
still have the right-hand side zero then. -/
theorem Sound.standsStill_replaceArtificials (ht : t.Sound) (htol : 0 ≤ t.tolerance)
    (hzero : ∀ r ∈ t.artificialRows, t.right r = 0) :
    ∃ u, t.replaceArtificials = .ok (u, u.artificialRows) ∧ u.Sound ∧ SameProgram t u ∧
      StandsStill t u := by
  have hpivot : ∀ u (removed : List Nat) r c, u.Sound → SameProgram t u →
      (StandsStill t u ∧ ∀ r ∈ u.artificialRows, u.right r = 0) → r ∈ u.constraintRows →
      r ∉ removed → u.hasArtificialBasis r = true → u.replacement r = some c →
      StandsStill t (u.exchange r c) ∧
        ∀ s ∈ (u.exchange r c).artificialRows, (u.exchange r c).right s = 0 := by
    rintro u removed r c hu hsame ⟨hstill, hzero⟩ hr - hart hrep
    obtain ⟨hlt, hb, -, hentry⟩ := replacement_eq_some (by rwa [hsame.tolerance]) hrep
    have hc : c < u.layout.variableCount := hlt.trans_le (Nat.le_add_right _ _)
    have hstep := hu.standsStill_exchange hr hc hb hentry
      (hzero r (mem_artificialRows.2 ⟨hr, hart⟩))
    refine ⟨hstill.trans hstep, fun s hs => ?_⟩
    obtain ⟨hrow, hart'⟩ := mem_artificialRows.1 hs
    rw [exchange_constraintRows] at hrow
    rw [hasArtificialBasis_exchange hu.toConsistent hr hlt hrow] at hart'
    split at hart'
    · cases hart'
    · rw [hstep.right, hzero s (mem_artificialRows.2 ⟨hrow, hart'⟩)]
  obtain ⟨u, hreplace, hu, hsame, hstill, -⟩ := replaceArtificials_rule ht htol
    (fun u _ => StandsStill t u ∧ ∀ r ∈ u.artificialRows, u.right r = 0)
    ⟨⟨fun _ => rfl, fun _ => rfl⟩, hzero⟩ hpivot fun _ _ _ _ _ hmotive _ _ _ => hmotive
  exact ⟨u, hreplace, hu, hsame, hstill⟩

/-! ## Dropping the artificial variables -/

/-- **Dropping artificial variables that are zero moves nothing.** -/
theorem Sound.exists_dropArtificials_of_eq_zero (ht : t.Sound) (htol : 0 ≤ t.tolerance)
    (hzero : ∀ r ∈ t.artificialRows, t.right r = 0) :
    ∃ u removed, t.dropArtificials = .ok (u, removed) ∧ u.solution = t.solution ∧
      u.right 0 = t.right (t.layout.costRows - 1) ∧
      u.constraintRows.map u.right =
        (t.constraintRows.filter fun r => r - t.layout.costRows ∉ removed).map t.right := by
  by_cases hphase : t.layout.inPhaseOne = true
  · obtain ⟨u, hreplace, hu, hsame, hstill⟩ := ht.standsStill_replaceArtificials htol hzero
    have hphase' : u.layout.inPhaseOne = true := by rwa [hsame.layout]
    refine ⟨_, _, dropArtificials_eq hphase hreplace hu hsame, ?_, ?_, ?_⟩
    · rw [solution_strip hu.toConsistent hphase', hstill.solution_eq hsame.layout]
    · rw [right_strip hu.toConsistent hphase' (by omega), hstill.right,
        costRows_of_inPhaseOne hphase]
      rfl
    · rw [map_right_strip hu.toConsistent hphase', survivors_eq_filter, hsame.constraintRows,
        hsame.layout]
      exact List.map_congr_left fun r _ => hstill.right r
  · refine ⟨t, [], if_neg hphase, rfl, ?_, ?_⟩
    · have hcosts : t.layout.costRows = 1 := if_neg hphase
      rw [hcosts]
    · simp

end

end Tableau

namespace LinearProgram

variable {K : Type} [Field K] [LinearOrder K] [IsStrictOrderedRing K] {p : LinearProgram K}
  {nonnegative : Bool} {tolerance : K} {t₀ t : Tableau K}

/-- **The change of phase keeps a basis feasible.** Whatever pivots led to a tableau without a
right-hand side below minus the tolerance, its artificial variables can be dropped. What is left has
no artificial columns, passes the check, and has no such right-hand side either. -/
theorem checkFeasible_dropArtificials (h₀ : Tableau.ofProgram p nonnegative tolerance = .ok t₀)
    (h : t₀.Reaches t) (hright : ∀ r ∈ t.constraintRows, -tolerance ≤ t.right r) :
    ∃ u removed, t.dropArtificials = .ok (u, removed) ∧ u.checkFeasible = .ok () ∧
      u.layout = t₀.layout.withoutArtificial ∧
      (∀ row ∈ u.rows, row.size = t₀.layout.artificialStart + 1) ∧
      ∀ r ∈ u.constraintRows, -tolerance ≤ u.right r := by
  obtain ⟨hp, htol, rfl⟩ := ofProgram_eq_ok_iff.1 h₀
  obtain ⟨ht, hsame⟩ := h.sameProgram (Tableau.sound_initial hp)
  have htolerance : t.tolerance = tolerance := hsame.tolerance
  have htol' : 0 ≤ t.tolerance := htolerance.ge.trans' htol.le
  have hcheck : t.checkFeasible = .ok () := ht.checkFeasible_eq_ok.2 (by rwa [htolerance])
  obtain ⟨u, removed, hdrop, hu, -, hlayout, -⟩ := Tableau.exists_dropArtificials ht htol'
    ((Tableau.showsCosts_initial hp nonnegative tolerance).congr hsame)
  obtain ⟨-, htolerance'⟩ := (Tableau.Arises.refl.drop hdrop).sound ht htol'
  have hcheck' := checkFeasible_of_drop ht htol' hcheck hdrop
  refine ⟨u, removed, hdrop, hcheck', by rw [hlayout, hsame.layout], fun row hrow => ?_, ?_⟩
  · rw [hu.size_of_mem hrow, hlayout, hsame.layout]
    rfl
  · have hright' := hu.checkFeasible_eq_ok.1 hcheck'
    rwa [htolerance', htolerance] at hright'

/-- Minimize `x + y` subject to `x - y = 1`, `x = 1 + 1 / 2097152` and `2 x = 2 + 3 / 2097152`. -/
def nearMiss : LinearProgram ℚ :=
  ⟨.minimize, ⟨[1, 1], 0⟩,
    [.linear [1, -1] .equal 1, .linear [1, 0] .equal (1 + 1 / 2097152),
      .linear [2, 0] .equal (2 + 3 / 2097152)]⟩

/-- When `x` enters in the second row of `nearMiss`, the artificial variables of the other two come
down to values within the tolerance, one of them negative and one positive. Dropping them lets `y`
take the place of the first one, removes the third row, and leaves a feasible basis. -/
theorem nearMiss_checkFeasible : ∃ t₀ t u,
    Tableau.ofProgram nearMiss true (1 / 1000000) = .ok t₀ ∧ t₀.Reaches t ∧
    t.artificialRows = [2, 4] ∧ t.right 2 < 0 ∧ 0 < t.right 4 ∧
    t.dropArtificials = .ok (u, [2]) ∧ u.basis = #[1, 0] ∧ u.checkFeasible = .ok () := by
  let t₀ := Tableau.initial nearMiss true (1 / 1000000)
  let t := t₀.exchange 3 0
  have h₀ : Tableau.ofProgram nearMiss true (1 / 1000000) = .ok t₀ :=
    ofProgram_eq_ok_iff.2 ⟨by decide +kernel, by norm_num, rfl⟩
  have hreaches : t₀.Reaches t :=
    Tableau.Reaches.refl.exchange (Tableau.sound_initial (by decide +kernel)) (by decide +kernel)
  obtain ⟨u, removed, hdrop, hcheck, -⟩ :=
    checkFeasible_dropArtificials h₀ hreaches (by decide +kernel)
  have hresult : t.dropArtificials.toOption.map (fun x => (x.1.basis, x.2)) =
      some (#[1, 0], [2]) := by decide +kernel
  rw [hdrop] at hresult
  obtain ⟨hbasis, rfl⟩ := Prod.mk.inj (Option.some.inj hresult)
  exact ⟨t₀, t, u, h₀, hreaches, by decide +kernel, by decide +kernel, by decide +kernel, hdrop,
    hbasis, hcheck⟩

/-- **The change of phase does not move the solution** if all artificial variables are zero,
whatever pivots led there and whatever the other right-hand sides are. The cost stays as well, and
so do the right-hand sides of the rows that are left. -/
theorem solution_dropArtificials (h₀ : Tableau.ofProgram p nonnegative tolerance = .ok t₀)
    (h : t₀.Reaches t) (hzero : ∀ r ∈ t.artificialRows, t.right r = 0) :
    ∃ u removed, t.dropArtificials = .ok (u, removed) ∧ u.solution = t.solution ∧
      u.right 0 = t.right (t.layout.costRows - 1) ∧
      u.constraintRows.map u.right =
        (t.constraintRows.filter fun r => r - t.layout.costRows ∉ removed).map t.right := by
  obtain ⟨hp, htol, rfl⟩ := ofProgram_eq_ok_iff.1 h₀
  obtain ⟨ht, hsame⟩ := h.sameProgram (Tableau.sound_initial hp)
  refine ht.exists_dropArtificials_of_eq_zero ?_ hzero
  rw [hsame.tolerance]
  exact htol.le

/-- Minimize `x + y - z` subject to `x - 2 y = 0`, `2 x - 4 y = 0`, `z ≤ 1` and `z ≤ 2`. -/
def pivotedPast : LinearProgram ℚ :=
  ⟨.minimize, ⟨[1, 1, -1], 0⟩,
    [.linear [1, -2, 0] .equal 0, .linear [2, -4, 0] .equal 0, .linear [0, 0, 1] .atMost 1,
      .linear [0, 0, 1] .atMost 2]⟩

/-- A pivot in the last row of `pivotedPast` goes past the bound of the row before, whose right-hand
side is far below zero then. Dropping the artificial variables makes a pivot on a negative entry and
removes the second row, and the solution stays. -/
theorem pivotedPast_solution : ∃ t₀ t u,
    Tableau.ofProgram pivotedPast true (1 / 1000000) = .ok t₀ ∧ t₀.Reaches t ∧
    t.artificialRows = [2, 3] ∧ t.constraintRows.map t.right = [0, 0, -1, 2] ∧
    t.dropArtificials = .ok (u, [1]) ∧ u.basis = #[1, 3, 2] ∧ u.solution = t.solution ∧
    u.right 0 = t.right 1 ∧ u.constraintRows.map u.right = [0, -1, 2] := by
  let t₀ := Tableau.initial pivotedPast true (1 / 1000000)
  let t := t₀.exchange 5 2
  have h₀ : Tableau.ofProgram pivotedPast true (1 / 1000000) = .ok t₀ :=
    ofProgram_eq_ok_iff.2 ⟨by decide +kernel, by norm_num, rfl⟩
  have hreaches : t₀.Reaches t :=
    Tableau.Reaches.refl.exchange (Tableau.sound_initial (by decide +kernel)) (by decide +kernel)
  obtain ⟨u, removed, hdrop, hsolution, hcost, hright⟩ :=
    solution_dropArtificials h₀ hreaches (by decide +kernel)
  have hresult : t.dropArtificials.toOption.map (fun x => (x.1.basis, x.2)) =
      some (#[1, 3, 2], [1]) := by decide +kernel
  rw [hdrop] at hresult
  obtain ⟨hbasis, rfl⟩ := Prod.mk.inj (Option.some.inj hresult)
  have hcosts : t.layout.costRows = 2 := by decide +kernel
  have hleft : (t.constraintRows.filter fun r => r - t.layout.costRows ∉ [1]).map t.right =
      [0, -1, 2] := by decide +kernel
  rw [hcosts] at hcost
  exact ⟨t₀, t, u, h₀, hreaches, by decide +kernel, by decide +kernel, hdrop, hbasis, hsolution,
    hcost, hright.trans hleft⟩

end LinearProgram

end Simplex
