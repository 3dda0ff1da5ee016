import Simplex.Proofs.BasisInvariant

/-!
# The two parts of a decision variable

Where a decision variable may be negative it has two columns, and in the initial tableau the second
is the first with all signs changed (`Tableau.opposed_initial`): in the rows of the constraints and
of the objective as they are written, in the row of the artificial cost as that is a sum of rows. A
pivot works on all columns alike, and what it writes into the pivot column is what it would compute
there, so the two columns stay opposite even if one of them is the pivot column
(`Tableau.Opposed.exchange`). What is removed with the artificial variables takes nothing from one
of them that it leaves in the other (`Tableau.Opposed.strip`).

Hence, whatever is done, at most one of the two parts is basic, and it alone decides the coordinate
of the solution (`LinearProgram.oppositeParts_of_arises`).
-/

namespace Simplex

namespace Tableau

section
variable {K : Type} [Field K] [LinearOrder K] {t u : Tableau K} {p : LinearProgram K}
  {tolerance : K} {r c : Nat}

/-- The columns of the two parts of a decision variable are opposite in every row. -/
structure Opposed (t : Tableau K) : Prop where
  split : t.layout.split = true
  entry : ∀ i, ∀ j < t.layout.decision, t.entry i (t.layout.decision + j) = -t.entry i j

/-! ## The initial tableau -/

/-- The columns of the two parts in a row that begins with those of the decision variables. -/
theorem getD_decisionGroup (factor : K) {coefficients : List K} (rest : List K) {j : Nat}
    (hj : j < coefficients.length) :
    (decisionGroup true factor coefficients ++ rest).toArray.getD (coefficients.length + j) 0 =
      -(decisionGroup true factor coefficients ++ rest).toArray.getD j 0 := by
  have hpositive : (decisionGroup true factor coefficients ++ rest)[j]? =
      some (factor * coefficients[j]) := by
    simp [decisionGroup, List.getElem?_append, hj]
  have hnegative : (decisionGroup true factor coefficients ++ rest)[coefficients.length + j]? =
      some (-(factor * coefficients[j])) := by
    simp [decisionGroup, List.getElem?_append, hj]
  rw [Array.getD_eq_getD_getElem?, Array.getD_eq_getD_getElem?, List.getElem?_toArray,
    List.getElem?_toArray, hpositive, hnegative, Option.getD_some, Option.getD_some]

/-- They are opposite in the rows of the constraints. -/
theorem constraintRow_opposed (hp : ∀ c ∈ p.constraints, c.left.arity = p.objective.arity) (i : Nat)
    {j : Nat} (hj : j < p.objective.arity) :
    (initial p false tolerance).entry ((p.layout false).costRows + i) (p.objective.arity + j) =
      -(initial p false tolerance).entry ((p.layout false).costRows + i) j := by
  rcases Nat.lt_or_ge i p.constraints.length with hi | hi
  · obtain ⟨c, hc⟩ := exists_normalized hi
    have harity : c.left.coefficients.length = p.objective.arity :=
      arity_of_normalized hp (List.mem_of_getElem? hc)
    rw [entry, entry, row_initial false tolerance hc, constraintRow, List.append_assoc,
      List.append_assoc, ← harity]
    exact getD_decisionGroup 1 _ (by rwa [harity])
  · have hle : (initial p false tolerance).rowCount ≤ (p.layout false).costRows + i := by
      rw [rowCount_initial]
      exact Nat.add_le_add_left hi _
    rw [entry_of_rowCount_le hle, entry_of_rowCount_le hle, neg_zero]

/-- They are opposite in the row of the objective. -/
theorem costRow_opposed (p : LinearProgram K) (tolerance : K) {j : Nat}
    (hj : j < p.objective.arity) :
    (initial p false tolerance).entry ((p.layout false).costRows - 1) (p.objective.arity + j) =
      -(initial p false tolerance).entry ((p.layout false).costRows - 1) j := by
  rw [entry, entry, costRow_initial, costRow, List.append_assoc]
  exact getD_decisionGroup _ _ hj

/-- They are opposite in the row of the artificial cost, which is a sum of constraint rows there. -/
theorem artificialCostRow_opposed (hp : ∀ c ∈ p.constraints, c.left.arity = p.objective.arity)
    (hphase : (p.layout false).inPhaseOne = true) {j : Nat} (hj : j < p.objective.arity) :
    (initial p false tolerance).entry 0 (p.objective.arity + j) =
      -(initial p false tolerance).entry 0 j := by
  have hsum : ∀ k < p.objective.arity + p.objective.arity,
      (initial p false tolerance).entry 0 k = -∑ i ∈ Finset.range p.constraints.length,
        if p.needsArtificial i then
          (initial p false tolerance).entry ((p.layout false).costRows + i) k else 0 := by
    intro k hk
    have hlt : k < (p.layout false).artificialStart := hk.trans_le (Nat.le_add_right _ _)
    have hnot : (p.layout false).isArtificial k = false := by
      rw [Layout.isArtificial, decide_eq_false (Nat.not_le_of_lt hlt), Bool.false_and]
    have hcolumn : k < (p.layout false).columns :=
      Nat.lt_succ_of_lt (hlt.trans_le (Nat.le_add_right _ _))
    rw [entry_initial_artificialCost hphase hcolumn, hnot, if_neg Bool.false_ne_true]
  rw [hsum _ (Nat.add_lt_add_left hj _), hsum j (Nat.lt_add_right _ hj), neg_inj,
    ← Finset.sum_neg_distrib]
  refine Finset.sum_congr rfl fun i _ => ?_
  split
  · exact constraintRow_opposed hp i hj
  · exact neg_zero.symm

/-- **In the initial tableau the columns of the two parts are opposite.** -/
theorem opposed_initial (hp : ∀ c ∈ p.constraints, c.left.arity = p.objective.arity) :
    (initial p false tolerance).Opposed where
  split := rfl
  entry i j hj := by
    rcases Nat.lt_or_ge i (p.layout false).costRows with hcosts | hcosts
    · rcases costRow_cases hcosts with rfl | ⟨hphase, rfl⟩
      · exact costRow_opposed p tolerance hj
      · exact artificialCostRow_opposed hp hphase hj
    · obtain ⟨k, rfl⟩ := Nat.exists_eq_add_of_le hcosts
      exact constraintRow_opposed hp k hj

/-! ## What is kept -/

/-- A pivot keeps the columns opposite, whichever column it is made in. -/
theorem Opposed.exchange (h : t.Opposed) (ht : t.Consistent) (hr : r ∈ t.constraintRows)
    (hc : c < t.layout.variableCount) (hentry : t.entry r c ≠ 0) : (t.exchange r c).Opposed where
  split := h.split
  entry i j hj := by
    rw [exchange_entry ht hr hc hentry, exchange_entry ht hr hc hentry, exchange_layout,
      h.entry i j hj, h.entry r j hj]
    split <;> ring

/-- The columns of the two parts come before the artificial ones. -/
theorem Opposed.lt_artificialStart (h : t.Opposed) {j : Nat} (hj : j < t.layout.decision) :
    t.layout.decision + j < t.layout.artificialStart := by
  rw [Layout.artificialStart, Layout.slackStart, if_pos h.split]
  omega

/-- Dropping the artificial variables keeps the columns opposite. -/
theorem Opposed.strip (h : t.Opposed) (ht : t.Consistent) (hphase : t.layout.inPhaseOne = true) :
    (t.strip t.artificialRows).Opposed where
  split := h.split
  entry i j hj := by
    have hlt := h.lt_artificialStart hj
    rcases Nat.lt_or_ge i (1 + t.survivors.length) with hi | hi
    · have hpositive := entry_strip ht hphase hi ((Nat.le_add_left _ _).trans_lt hlt)
      have hnegative := entry_strip ht hphase hi hlt
      rw [hpositive, ← h.entry _ j hj, ← hnegative]
      rfl
    · have hle : (t.strip t.artificialRows).rowCount ≤ i := by rwa [rowCount_strip ht hphase]
      rw [entry_of_rowCount_le hle, entry_of_rowCount_le hle, neg_zero]

/-! ## The parts in the basis -/

/-- Of the two parts of a variable at most one is basic, as the other has minus one in its row. -/
theorem Opposed.isBasic_eq_false (h : t.Opposed) (ht : t.Sound) {j : Nat}
    (hj : j < t.layout.decision) (hb : t.isBasic j = true) :
    t.isBasic (t.layout.decision + j) = false := by
  obtain ⟨r, hr, hcolumn⟩ := (ht.isBasic_iff j).1 hb
  refine Bool.eq_false_iff.2 fun hb' => ?_
  obtain ⟨s, hs, hcolumn'⟩ := (ht.isBasic_iff _).1 hb'
  have hne : r ≠ s := by
    rintro rfl
    omega
  have hone := h.entry r j hj
  rw [← hcolumn', ht.unit s hs, if_neg hne, ← hcolumn, ht.unit r hr, if_pos rfl] at hone
  exact neg_ne_zero.2 one_ne_zero hone.symm

/-- The two parts of each of the `n` decision variables of a tableau. -/
structure OppositeParts (t : Tableau K) (n : Nat) : Prop where
  /-- The entries of the two parts are opposite in every row, those of the costs included. -/
  entryAt : ∀ i < t.rowCount, ∀ j < n, ∃ x, t.entryAt i j = .ok x ∧ t.entryAt i (n + j) = .ok (-x)
  notBoth : ∀ j < n, ¬ (t.isBasic j = true ∧ t.isBasic (n + j) = true)
  length : t.solution.length = n
  /-- A coordinate is zero, or what is on the right of the row of the positive part, or minus what
  is on the right of the row of the negative part. -/
  coordinate : ∀ j < n, ∃ v, t.solution[j]? = some v ∧
    ((t.basicRow j = none ∧ t.basicRow (n + j) = none ∧ v = 0) ∨
      (∃ r, t.basicRow j = some r ∧ t.basicRow (n + j) = none ∧ v = t.right r) ∨
      ∃ r, t.basicRow j = none ∧ t.basicRow (n + j) = some r ∧ v = -t.right r)

/-- A variable is zero in the basic solution if its column is basic in no row, and otherwise what is
on the right of the row. -/
theorem Sound.basicPoint_cases (ht : t.Sound) (j : Nat) :
    (t.basicRow j = none ∧ t.basicPoint j = 0) ∨
      ∃ r, t.basicRow j = some r ∧ t.isBasic j = true ∧ t.basicPoint j = t.right r := by
  cases hrow : t.basicRow j with
  | none =>
    refine .inl ⟨rfl, ht.basicPoint_eq_zero ?_⟩
    rw [← ht.wellBased.isSome_basicRow, hrow]
    rfl
  | some r =>
    obtain ⟨hr, rfl⟩ := ht.basicRow_eq_some_iff.1 hrow
    exact .inr ⟨r, rfl, ht.isBasic_basicColumn hr, ht.basicPoint_basicColumn hr⟩

/-- In a sound tableau the parts of the decision variables are opposite if their columns are. -/
theorem Opposed.oppositeParts (h : t.Opposed) (ht : t.Sound) :
    t.OppositeParts t.layout.decision where
  entryAt i hi j hj := by
    have hcolumns : t.layout.decision + j < t.layout.columns :=
      Nat.lt_succ_of_lt ((h.lt_artificialStart hj).trans_le (Nat.le_add_right _ _))
    refine ⟨t.entry i j, if_pos ⟨hi, (Nat.le_add_left _ _).trans_lt hcolumns⟩, ?_⟩
    rw [Tableau.entryAt, if_pos ⟨hi, hcolumns⟩, h.entry i j hj]
  notBoth j hj := by
    rintro ⟨hb, hb'⟩
    rw [h.isBasic_eq_false ht hj hb] at hb'
    cases hb'
  length := by
    rw [solution, List.length_map, List.length_range]
  coordinate j hj := by
    refine ⟨t.basicPoint j - t.basicPoint (t.layout.decision + j), ?_, ?_⟩
    · rw [solution_eq, Layout.decode, List.getElem?_map, List.getElem?_range hj, Option.map_some,
        if_pos h.split]
    · rcases ht.basicPoint_cases j with ⟨hrow, hpoint⟩ | ⟨r, hrow, hb, hpoint⟩ <;>
        rcases ht.basicPoint_cases (t.layout.decision + j) with
          ⟨hrow', hpoint'⟩ | ⟨s, hrow', hb', hpoint'⟩ <;> rw [hpoint, hpoint']
      · exact .inl ⟨hrow, hrow', sub_zero 0⟩
      · exact .inr (.inr ⟨s, hrow, hrow', zero_sub _⟩)
      · exact .inr (.inl ⟨r, hrow, hrow', sub_zero _⟩)
      · rw [h.isBasic_eq_false ht hj hb] at hb'
        cases hb'

end

end Tableau

namespace LinearProgram

variable {K : Type} [Field K] [LinearOrder K] [IsStrictOrderedRing K] {p : LinearProgram K}
  {tolerance : K} {t₀ t : Tableau K}

/-- **The two parts of a decision variable stay opposite whatever is done**: in every tableau that
arises from that of a program with variables of both signs, by pivots, steps and dropping the
artificial variables. -/
theorem oppositeParts_of_arises (h₀ : Tableau.ofProgram p false tolerance = .ok t₀)
    (h : t₀.Arises t) : t.OppositeParts p.objective.arity := by
  obtain ⟨hp, htol, rfl⟩ := ofProgram_eq_ok_iff.1 h₀
  obtain ⟨ht, -, hopposed, hdecision⟩ := h.rule (Tableau.sound_initial hp) htol.le
    (fun u => u.Opposed ∧ u.layout.decision = p.objective.arity)
    ⟨Tableau.opposed_initial hp, rfl⟩
    (fun u r c hu ⟨hopposed, hdecision⟩ hr hc _ hentry =>
      ⟨hopposed.exchange hu.toConsistent hr hc hentry, hdecision⟩)
    fun u hu ⟨hopposed, hdecision⟩ hphase => ⟨hopposed.strip hu.toConsistent hphase, hdecision⟩
  rw [← hdecision]
  exact hopposed.oppositeParts ht

/-- A run on `flipped` with variables of both signs drops an artificial variable, lets the second
positive part into the basis and out again, and ends with both negative parts in the basis. -/
theorem flipped_oppositeParts : ∃ t₀ t, Tableau.ofProgram flipped false (1 / 1000000) = .ok t₀ ∧
    t₀.Arises t ∧ t.basis = #[4, 2, 3] ∧ t.solution = [-3, -1] ∧ t.OppositeParts 2 := by
  let settings : Settings ℚ := { Settings.standard with nonnegative := false }
  have h₀ : Tableau.ofProgram flipped false (1 / 1000000) =
      .ok (.initial flipped false (1 / 1000000)) :=
    ofProgram_eq_ok_iff.2 ⟨by decide +kernel, by norm_num, rfl⟩
  have hstage : ((flipped.start settings).after .first flipped.objective 4).map
      (fun s => (s.tableau.basis, s.tableau.solution)) = some (#[4, 2, 3], [-3, -1]) := by
    decide +kernel
  obtain ⟨s, hs, heq⟩ := Option.map_eq_some_iff.1 hstage
  obtain ⟨hbasis, hsolution⟩ := Prod.mk.inj heq
  have harises : (Tableau.initial flipped false (1 / 1000000)).Arises s.tableau :=
    Tableau.arises_of_after hs
  exact ⟨_, _, h₀, harises, hbasis, hsolution, oppositeParts_of_arises h₀ harises⟩

end LinearProgram

end Simplex
