import Simplex.Proofs.Equations

/-!
# Basic solutions

In a sound tableau the equation of a row gives its basic variable in terms of the variables outside
of the basis (`Tableau.Sound.solves_iff`), so these can be chosen freely
(`Tableau.Sound.exists_solves`) and determine the rest. The basic solution, which a tableau reports,
has them all zero (`Tableau.Sound.solves_basicPoint`). As the solutions show every entry, two sound
tableaus of the same program with the same basic columns have the same rows, in an order that their
basic columns tell (`Tableau.Sound.row_eq`), and are equal if they have the same basis
(`Tableau.Sound.eq_of_basis_eq`).
-/

namespace Simplex

/-- The values of the decision variables that the values of all variables stand for. -/
def Layout.decode {K : Type} [Field K] (l : Layout) (X : Nat → K) : List K :=
  (List.range l.decision).map fun j => if l.split then X j - X (l.decision + j) else X j

namespace Tableau

/-- Writing values keeps the size of an array. -/
theorem size_foldl_setIfInBounds {α : Type} (position : Nat → Nat) (value : Nat → α)
    (rows : List Nat) (xs : Array α) :
    (rows.foldl (fun xs r => xs.setIfInBounds (position r) (value r)) xs).size = xs.size := by
  induction rows generalizing xs with
  | nil => rfl
  | cons r rows ih => rw [List.foldl_cons, ih, Array.size_setIfInBounds]

/-- Writing values at distinct positions leaves each of them in place, and the rest of the array as
it was. -/
theorem getD_foldl_setIfInBounds {α : Type} (position : Nat → Nat) (value : Nat → α) (d : α)
    (rows : List Nat) (xs : Array α)
    (hinj : ∀ r ∈ rows, ∀ s ∈ rows, position r = position s → r = s)
    (hlt : ∀ r ∈ rows, position r < xs.size) :
    (∀ r ∈ rows, (rows.foldl (fun xs r => xs.setIfInBounds (position r) (value r)) xs).getD
      (position r) d = value r) ∧
    ∀ j, (∀ r ∈ rows, position r ≠ j) →
      (rows.foldl (fun xs r => xs.setIfInBounds (position r) (value r)) xs).getD j d =
        xs.getD j d := by
  induction rows generalizing xs with
  | nil => exact ⟨fun _ hr => (nomatch hr), fun _ _ => rfl⟩
  | cons s rows ih =>
    obtain ⟨hin, hout⟩ := ih (xs.setIfInBounds (position s) (value s))
      (fun r hr r' hr' => hinj r (.tail _ hr) r' (.tail _ hr'))
      (fun r hr => by simpa using hlt r (.tail _ hr))
    refine ⟨fun r hr => ?_, fun j hj => ?_⟩
    · rw [List.foldl_cons]
      by_cases hmem : r ∈ rows
      · exact hin r hmem
      · obtain rfl : r = s := (List.mem_cons.1 hr).resolve_right hmem
        rw [hout]
        · rw [getD_setIfInBounds, if_pos ⟨rfl, hlt r hr⟩]
        · intro r' hr' heq
          exact hmem (hinj r' (.tail _ hr') r hr heq ▸ hr')
    · rw [List.foldl_cons, hout j fun r hr => hj r (.tail _ hr), getD_setIfInBounds,
        if_neg fun h => hj s List.mem_cons_self h.1]

section
variable {F : Type} [Scalar F] {t : Tableau F}

/-- The value of every variable in the basic solution. -/
def basicPoint (t : Tableau F) (j : Nat) : F := t.variableValues.getD j 0

/-- A basic variable has the right-hand side of its row as its value. -/
theorem Consistent.basicPoint_basicColumn (h : t.Consistent) {r : Nat}
    (hr : r ∈ t.constraintRows) : t.basicPoint (t.basicColumn r) = t.right r :=
  (getD_foldl_setIfInBounds t.basicColumn t.right 0 t.constraintRows _ h.injective
    fun s hs => by simpa using h.basicColumn_lt hs).1 r hr

/-- A variable outside of the basis is zero. -/
theorem Consistent.basicPoint_eq_zero (h : t.Consistent) {j : Nat} (hj : t.isBasic j = false) :
    t.basicPoint j = 0 := by
  have hinit := (getD_foldl_setIfInBounds t.basicColumn t.right 0 t.constraintRows
    (Array.replicate t.layout.variableCount 0) h.injective
    fun s hs => by simpa using h.basicColumn_lt hs).2 j fun r hr => h.basicColumn_ne hr hj
  rw [basicPoint, variableValues, hinit, getD_replicate]

end

section
variable {F : Type} {t u : Tableau F}

/-- The columns of the variables outside of the basis, as a set. -/
def outside (t : Tableau F) : Finset Nat :=
  (Finset.range t.layout.variableCount).filter fun j => t.isBasic j = false

/-- The columns outside of the basis are those that are not marked. -/
theorem mem_outside {j : Nat} :
    j ∈ t.outside ↔ j < t.layout.variableCount ∧ t.isBasic j = false := by
  simp [outside]

/-- The basic columns determine what is outside of the basis. -/
theorem Consistent.isBasic_congr (h : t.Consistent) (h' : u.Consistent)
    (hrows : u.constraintRows = t.constraintRows)
    (hbasis : ∀ r ∈ t.constraintRows, u.basicColumn r = t.basicColumn r) (j : Nat) :
    u.isBasic j = t.isBasic j := by
  rw [Bool.eq_iff_iff, h.isBasic_iff, h'.isBasic_iff, hrows]
  exact exists_congr fun r => and_congr_right fun hr => by rw [hbasis r hr]

/-- The marks are the same if the same columns are basic. -/
theorem Consistent.basicColumns_eq (h : t.Consistent) (h' : u.Consistent)
    (hlayout : u.layout = t.layout) (hbasic : ∀ j, u.isBasic j = t.isBasic j) :
    u.basicColumns = t.basicColumns := by
  refine Array.ext (by rw [h.maskSize, h'.maskSize, hlayout]) fun j hj hj' => ?_
  have hb := hbasic j
  simpa [isBasic, Array.getElem?_eq_getElem hj, Array.getElem?_eq_getElem hj'] using hb

/-- A row of a second tableau takes the place of a row of the first: a cost row stands where it
stood, and a constraint row has the same basic column. -/
def Corresponds (t u : Tableau F) (i k : Nat) : Prop :=
  (i < t.layout.costRows ∧ k = i) ∨
    (i ∈ t.constraintRows ∧ k ∈ u.constraintRows ∧ u.basicColumn k = t.basicColumn i)

/-- Corresponding rows are rows. -/
theorem Corresponds.lt {i k : Nat} (hik : Corresponds t u i k) (h : t.Consistent)
    (h' : u.Consistent) (hlayout : u.layout = t.layout) : i < t.rowCount ∧ k < u.rowCount := by
  rcases hik with ⟨hcosts, rfl⟩ | ⟨hi, hk, -⟩
  · exact ⟨hcosts.trans_le h.costRows_le, (hlayout ▸ hcosts).trans_le h'.costRows_le⟩
  · exact ⟨(mem_constraintRows.1 hi).2, (mem_constraintRows.1 hk).2⟩

/-- Of two corresponding rows both are the row in which a column is basic, or none is. -/
theorem Corresponds.eq_iff {i k r s : Nat} (hik : Corresponds t u i k) (h : t.Consistent)
    (h' : u.Consistent) (hlayout : u.layout = t.layout) (hr : r ∈ t.constraintRows)
    (hs : s ∈ u.constraintRows) (hcolumn : u.basicColumn s = t.basicColumn r) :
    i = r ↔ k = s := by
  rcases hik with ⟨hcosts, rfl⟩ | ⟨hi, hk, hik⟩
  · have hr' := (mem_constraintRows.1 hr).1
    have hs' := (mem_constraintRows.1 hs).1
    rw [hlayout] at hs'
    exact iff_of_false (by omega) (by omega)
  · constructor
    · rintro rfl
      exact h'.injective k hk s hs (hik.trans hcolumn.symm)
    · rintro rfl
      exact h.injective i hi r hr (hik.symm.trans hcolumn)

end

section
variable {K : Type} [Field K] [LinearOrder K] {t u : Tableau K} {r c : Nat}

/-- The decision variables of the basic solution. -/
theorem solution_eq (t : Tableau K) : t.solution = t.layout.decode t.basicPoint := rfl

/-! ## Free variables -/

/-- The activity of a row splits into its basic variable, if it has one, and the variables outside
of the basis. -/
theorem Sound.activity_eq (h : t.Sound) (i : Nat) (X : Nat → K) :
    t.activity i X = (if i ∈ t.constraintRows then X (t.basicColumn i) else 0) +
      ∑ j ∈ t.outside, t.entry i j * X j := by
  have hinside : ∑ j ∈ (Finset.range t.layout.variableCount).filter
      (fun j => ¬ t.isBasic j = false), t.entry i j * X j =
        if i ∈ t.constraintRows then X (t.basicColumn i) else 0 := by
    split
    · next hi =>
      rw [Finset.sum_eq_single (t.basicColumn i), h.unit i hi, if_pos rfl, one_mul]
      · intro j hj hne
        obtain ⟨-, hj⟩ := Finset.mem_filter.1 hj
        obtain ⟨s, hs, rfl⟩ := (h.isBasic_iff j).1 (by simpa using hj)
        rw [h.entry_eq_zero hs (fun heq => hne (by rw [heq])), zero_mul]
      · intro hnot
        refine absurd (Finset.mem_filter.2 ⟨Finset.mem_range.2 (h.basicColumn_lt hi), ?_⟩) hnot
        simp [h.isBasic_basicColumn hi]
    · next hi =>
      refine Finset.sum_eq_zero fun j hj => ?_
      obtain ⟨-, hj⟩ := Finset.mem_filter.1 hj
      obtain ⟨s, hs, rfl⟩ := (h.isBasic_iff j).1 (by simpa using hj)
      rw [h.entry_eq_zero hs (fun heq => by subst heq; exact hi hs), zero_mul]
  rw [activity, ← Finset.sum_filter_add_sum_filter_not _ (fun j => t.isBasic j = false), hinside,
    add_comm]
  rfl

/-- The activity of a constraint row. -/
theorem Sound.activity_constraintRow (h : t.Sound) (hr : r ∈ t.constraintRows) (X : Nat → K) :
    t.activity r X = X (t.basicColumn r) + ∑ j ∈ t.outside, t.entry r j * X j := by
  rw [h.activity_eq, if_pos hr]

/-- The activity of a cost row. -/
theorem Sound.activity_costRow (h : t.Sound) {i : Nat} (hi : i < t.layout.costRows)
    (X : Nat → K) : t.activity i X = ∑ j ∈ t.outside, t.entry i j * X j := by
  rw [h.activity_eq, if_neg, zero_add]
  intro hr
  have := (mem_constraintRows.1 hr).1
  omega

/-- The solutions: every basic variable is what its row leaves for it. -/
theorem Sound.solves_iff (h : t.Sound) (X : Nat → K) :
    t.Solves X ↔ ∀ r ∈ t.constraintRows,
      X (t.basicColumn r) = t.right r - ∑ j ∈ t.outside, t.entry r j * X j := by
  refine forall₂_congr fun r hr => ?_
  rw [residual, h.activity_constraintRow hr, sub_eq_zero, eq_sub_iff_add_eq]

/-- The variables outside of the basis can be chosen freely. -/
theorem Sound.exists_solves (h : t.Sound) (N : Nat → K) :
    ∃ X, t.Solves X ∧ ∀ j, t.isBasic j = false → X j = N j := by
  classical
  have hrow : ∀ j, ∃ r, t.isBasic j = true → r ∈ t.constraintRows ∧ t.basicColumn r = j := by
    intro j
    cases hj : t.isBasic j with
    | false => exact ⟨0, fun hf => (nomatch hf)⟩
    | true =>
      obtain ⟨r, hr⟩ := (h.isBasic_iff j).1 hj
      exact ⟨r, fun _ => hr⟩
  choose row hrow using hrow
  refine ⟨fun j => if t.isBasic j then
    t.right (row j) - ∑ k ∈ t.outside, t.entry (row j) k * N k else N j, ?_, ?_⟩
  · rw [h.solves_iff]
    intro r hr
    have hb := h.isBasic_basicColumn hr
    obtain ⟨hmem, heq⟩ := hrow _ hb
    rw [if_pos hb, h.injective _ hmem r hr heq]
    congr 1
    refine Finset.sum_congr rfl fun j hj => ?_
    rw [(mem_outside.1 hj).2, if_neg Bool.false_ne_true]
  · intro j hj
    exact if_neg (by simp [hj])

/-- One variable outside of the basis moves away from zero, and the basic variables follow. -/
theorem Sound.exists_edge (h : t.Sound) (hc : c < t.layout.variableCount)
    (hb : t.isBasic c = false) (θ : K) :
    ∃ X, t.Solves X ∧ X c = θ ∧ (∀ j, t.isBasic j = false → j ≠ c → X j = 0) ∧
      (∀ r ∈ t.constraintRows, X (t.basicColumn r) = t.right r - t.entry r c * θ) ∧
      ∀ i < t.layout.costRows, t.residual i X = t.entry i c * θ - t.right i := by
  obtain ⟨X, hX, hN⟩ := h.exists_solves fun j => if j = c then θ else 0
  have hXc : X c = θ := by rw [hN c hb, if_pos rfl]
  have hzero : ∀ j, t.isBasic j = false → j ≠ c → X j = 0 := fun j hj hne => by
    rw [hN j hj, if_neg hne]
  have hsum : ∀ i, ∑ j ∈ t.outside, t.entry i j * X j = t.entry i c * θ := by
    intro i
    rw [Finset.sum_eq_single_of_mem c (mem_outside.2 ⟨hc, hb⟩), hXc]
    intro j hj hne
    rw [hzero j (mem_outside.1 hj).2 hne, mul_zero]
  refine ⟨X, hX, hXc, hzero, fun r hr => ?_, fun i hi => ?_⟩
  · rw [(h.solves_iff X).1 hX r hr, hsum]
  · rw [residual, h.activity_costRow hi, hsum]

/-- The basic solution is a solution. -/
theorem Sound.solves_basicPoint (h : t.Sound) : t.Solves t.basicPoint := by
  rw [h.solves_iff]
  intro r hr
  rw [h.basicPoint_basicColumn hr, Finset.sum_eq_zero, sub_zero]
  intro j hj
  rw [h.basicPoint_eq_zero (mem_outside.1 hj).2, mul_zero]

/-- In the basic solution a cost row shows its cost in the last column. -/
theorem Sound.residual_basicPoint (h : t.Sound) {i : Nat} (hi : i < t.layout.costRows) :
    t.residual i t.basicPoint = -t.right i := by
  rw [residual, h.activity_costRow hi, Finset.sum_eq_zero, zero_sub]
  intro j hj
  rw [h.basicPoint_eq_zero (mem_outside.1 hj).2, mul_zero]

/-! ## A tableau is a function of its basis -/

/-- On the solutions, corresponding rows of two sound tableaus of the same program with the same
basic columns leave the same for the variables outside of the basis. -/
theorem Sound.right_sub_eq (h : t.Sound) (h' : u.Sound) (hsame : SameProgram t u)
    (hbasic : ∀ j, u.isBasic j = t.isBasic j) {i k : Nat} (hik : Corresponds t u i k)
    {X : Nat → K} (hX : t.Solves X) :
    u.right k - ∑ j ∈ t.outside, u.entry k j * X j =
      t.right i - ∑ j ∈ t.outside, t.entry i j * X j := by
  have houtside : u.outside = t.outside := by
    ext j
    rw [mem_outside, mem_outside, hsame.layout, hbasic]
  rcases hik with ⟨hcosts, rfl⟩ | ⟨hi, hk, hcolumn⟩
  · have hres := hsame.cost X hX k hcosts
    rw [residual, residual, h.activity_costRow hcosts,
      h'.activity_costRow (by rwa [hsame.layout]), houtside] at hres
    rw [← neg_inj, neg_sub, neg_sub, hres]
  · have hval := (h'.solves_iff X).1 ((hsame.solves X).2 hX) k hk
    rw [← houtside, ← hval, hcolumn, (h.solves_iff X).1 hX i hi, houtside]

/-- Every entry of a sound tableau can be read off its solutions, so corresponding rows of two
tableaus of the same program with the same basic columns have the same entries. -/
theorem Sound.entry_eq (h : t.Sound) (h' : u.Sound) (hsame : SameProgram t u)
    (hbasic : ∀ j, u.isBasic j = t.isBasic j) {i k : Nat} (hik : Corresponds t u i k) :
    u.right k = t.right i ∧ ∀ j < t.layout.variableCount, u.entry k j = t.entry i j := by
  have hright : u.right k = t.right i := by
    have hbase := h.right_sub_eq h' hsame hbasic hik h.solves_basicPoint
    rwa [Finset.sum_eq_zero, Finset.sum_eq_zero, sub_zero, sub_zero] at hbase <;>
      intro j hj <;> rw [h.basicPoint_eq_zero (mem_outside.1 hj).2, mul_zero]
  refine ⟨hright, fun j hj => ?_⟩
  cases hb : t.isBasic j with
  | true =>
    obtain ⟨r, hr, rfl⟩ := (h.isBasic_iff j).1 hb
    obtain ⟨s, hs, hcolumn⟩ := (h'.isBasic_iff _).1 ((hbasic _).trans hb)
    rw [h.unit r hr, ← hcolumn, h'.unit s hs]
    exact if_congr (hik.eq_iff h.toConsistent h'.toConsistent hsame.layout hr hs hcolumn).symm
      rfl rfl
  | false =>
    obtain ⟨X, hX, hXj, hzero, -, -⟩ := h.exists_edge hj hb 1
    have hsum : ∀ (v : Tableau K) (l : Nat),
        ∑ m ∈ t.outside, v.entry l m * X m = v.entry l j := by
      intro v l
      rw [Finset.sum_eq_single_of_mem j (mem_outside.2 ⟨hj, hb⟩), hXj, mul_one]
      intro m hm hne
      rw [hzero m (mem_outside.1 hm).2 hne, mul_zero]
    have hedge := h.right_sub_eq h' hsame hbasic hik hX
    rwa [hsum, hsum, hright, sub_right_inj] at hedge

/-- Corresponding rows of two sound tableaus of the same program with the same basic columns are
equal. -/
theorem Sound.row_eq (h : t.Sound) (h' : u.Sound) (hsame : SameProgram t u)
    (hbasic : ∀ j, u.isBasic j = t.isBasic j) {i k : Nat} (hik : Corresponds t u i k) :
    u.rows.getD k #[] = t.rows.getD i #[] := by
  obtain ⟨hi, hk⟩ := hik.lt h.toConsistent h'.toConsistent hsame.layout
  have hsize : (u.rows.getD k #[]).size = (t.rows.getD i #[]).size := by
    rw [h.rowSize i hi, h'.rowSize k hk, hsame.layout]
  obtain ⟨hright, hentry⟩ := h.entry_eq h' hsame hbasic hik
  refine Array.ext hsize fun j hj hj' => ?_
  have hat : u.entry k j = t.entry i j := by
    have hlt : j < t.layout.columns := by rwa [← h.rowSize i hi]
    rcases Nat.lt_succ_iff_lt_or_eq.1 hlt with hlt | rfl
    · exact hentry j hlt
    · rwa [right, right, hsame.layout] at hright
  rw [Array.getElem_eq_getD 0, Array.getElem_eq_getD 0]
  exact hat

/-- **A tableau is a function of its basis.** Two sound tableaus of the same program that have the
same basic column in every row are equal. -/
theorem Sound.eq_of_basis_eq (h : t.Sound) (h' : u.Sound) (hsame : SameProgram t u)
    (hbasis : u.basis = t.basis) : u = t := by
  have hcolumn : ∀ r, u.basicColumn r = t.basicColumn r := fun r => by
    rw [basicColumn, basicColumn, hbasis, hsame.layout]
  have hbasic := h.isBasic_congr h'.toConsistent hsame.constraintRows fun r _ => hcolumn r
  have hrows : u.rows = t.rows := by
    refine Array.ext hsame.rowCount fun i hi hi' => ?_
    have hii : Corresponds t u i i := by
      rcases Nat.lt_or_ge i t.layout.costRows with hcosts | hcosts
      · exact .inl ⟨hcosts, rfl⟩
      · have hr : i ∈ t.constraintRows := mem_constraintRows.2 ⟨hcosts, hi'⟩
        exact .inr ⟨hr, by rwa [hsame.constraintRows], hcolumn i⟩
    rw [Array.getElem_eq_getD #[], Array.getElem_eq_getD #[]]
    exact h.row_eq h' hsame hbasic hii
  cases t
  cases u
  simp only [mk.injEq]
  exact ⟨hsame.layout, hsame.tolerance, hrows, hbasis,
    h.basicColumns_eq h'.toConsistent hsame.layout hbasic⟩

end

end Tableau

end Simplex
