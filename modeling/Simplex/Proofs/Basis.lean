import Mathlib.Data.List.Nodup
import Simplex.Tableau.Feasible
import Simplex.Tableau.Pivot

/-!
# The bookkeeping of the basis

A tableau keeps its basis twice: the basic column of every row, and for every column whether it is
basic. `Tableau.Consistent` says that all sizes are those of the layout and that the two agree: the
basic columns of the constraint rows are distinct, and they are the columns that are marked. No
law of arithmetic is involved, so every pivot keeps it whatever the scalars do
(`Tableau.Consistent.exchange`), and the part of the feasibility check that is about the basis
always passes (`Tableau.Consistent.basisAgrees`).
-/

namespace Simplex

section
variable {α : Type}

/-- Reading an array after a write. -/
theorem getD_setIfInBounds (xs : Array α) (i j : Nat) (a d : α) :
    (xs.setIfInBounds i a).getD j d = if i = j ∧ i < xs.size then a else xs.getD j d := by
  rw [Array.getD_eq_getD_getElem?, Array.getElem?_setIfInBounds, Array.getD_eq_getD_getElem?]
  grind

/-- Reading an array whose members were replaced one by one. -/
theorem getD_mapIdx {β : Type} (f : Nat → α → β) (xs : Array α) {i : Nat} (hi : i < xs.size)
    (d : α) (e : β) : (xs.mapIdx f).getD i e = f i (xs.getD i d) := by
  simp [Array.getElem?_eq_getElem hi]

/-- Reading an array of equal members. -/
theorem getD_replicate (n : Nat) (a : α) (i : Nat) : (Array.replicate n a).getD i a = a := by
  rw [Array.getD_eq_getD_getElem?, Array.getElem?_replicate]
  split <;> rfl

end

namespace Tableau

section
variable {F : Type} {t : Tableau F}

/-! ## Rows and columns -/

/-- The constraint rows are those after the cost rows. -/
theorem mem_constraintRows {r : Nat} :
    r ∈ t.constraintRows ↔ t.layout.costRows ≤ r ∧ r < t.rowCount := by
  simp only [constraintRows, constraintCount, rowCount, List.mem_range'_1]
  omega

/-- The constraint rows are determined by the layout and the number of rows. -/
theorem constraintRows_congr {u : Tableau F} (hlayout : u.layout = t.layout)
    (hcount : u.rowCount = t.rowCount) : u.constraintRows = t.constraintRows := by
  have hrows : u.rows.size = t.rows.size := hcount
  simp only [constraintRows, constraintCount, hlayout, hrows]

/-- The constraint rows are distinct. -/
theorem nodup_constraintRows (t : Tableau F) : t.constraintRows.Nodup := List.nodup_range'

/-- The test for a constraint row agrees with the list of them. -/
theorem isConstraintRow_iff {r : Nat} : t.isConstraintRow r = true ↔ r ∈ t.constraintRows := by
  simp only [isConstraintRow, mem_constraintRows, Bool.and_eq_true, decide_eq_true_eq]

/-- The columns outside of the basis are those of a variable that is not marked. -/
theorem mem_nonBasic {j : Nat} :
    j ∈ t.nonBasic ↔ j < t.layout.variableCount ∧ t.isBasic j = false := by
  simp [nonBasic]

/-- There is a cost row. -/
theorem costRows_pos (l : Layout) : 0 < l.costRows := by
  unfold Layout.costRows
  split <;> omega

/-- The last cost row is that of the objective, and the only other one is that of the artificial
cost. -/
theorem costRow_cases {l : Layout} {i : Nat} (hi : i < l.costRows) :
    i = l.costRows - 1 ∨ (l.inPhaseOne = true ∧ i = 0) := by
  rw [Layout.costRows] at hi ⊢
  split at hi
  · next hphase =>
    rw [if_pos hphase]
    rcases Nat.lt_succ_iff_lt_or_eq.1 hi with hlt | heq
    · exact .inr ⟨hphase, Nat.lt_one_iff.1 hlt⟩
    · exact .inl heq
  · next hphase =>
    rw [if_neg hphase]
    exact .inl (Nat.lt_one_iff.1 hi)

/-! ## Consistency -/

/-- The sizes of a tableau are those of its layout, and the two records of its basis agree. -/
structure Consistent (t : Tableau F) : Prop where
  costRows_le : t.layout.costRows ≤ t.rowCount
  rowSize : ∀ i < t.rowCount, (t.rows.getD i #[]).size = t.layout.columns
  basisSize : t.basis.size = t.constraintCount
  maskSize : t.basicColumns.size = t.layout.variableCount
  isBasic_iff : ∀ c, t.isBasic c = true ↔ ∃ r ∈ t.constraintRows, t.basicColumn r = c
  injective : ∀ r ∈ t.constraintRows, ∀ s ∈ t.constraintRows,
    t.basicColumn r = t.basicColumn s → r = s

namespace Consistent

/-- The basic column of a constraint row is basic. -/
theorem isBasic_basicColumn (h : t.Consistent) {r : Nat} (hr : r ∈ t.constraintRows) :
    t.isBasic (t.basicColumn r) = true :=
  (h.isBasic_iff _).2 ⟨r, hr, rfl⟩

/-- A basic column belongs to a variable. -/
theorem lt_of_isBasic (h : t.Consistent) {c : Nat} (hc : t.isBasic c = true) :
    c < t.layout.variableCount := by
  rw [← h.maskSize]
  by_contra hlt
  rw [isBasic, Array.getD_eq_getD_getElem?, Array.getElem?_eq_none (Nat.le_of_not_lt hlt)] at hc
  cases hc

/-- The basic column of a constraint row belongs to a variable. -/
theorem basicColumn_lt (h : t.Consistent) {r : Nat} (hr : r ∈ t.constraintRows) :
    t.basicColumn r < t.layout.variableCount :=
  h.lt_of_isBasic (h.isBasic_basicColumn hr)

/-- A column outside of the basis is not the basic column of a row. -/
theorem basicColumn_ne (h : t.Consistent) {r c : Nat} (hr : r ∈ t.constraintRows)
    (hc : t.isBasic c = false) : t.basicColumn r ≠ c := by
  rintro rfl
  rw [h.isBasic_basicColumn hr] at hc
  cases hc

/-- The entry of the basis of a constraint row. -/
theorem basis_getElem {k : Nat} (hk : k < t.basis.size) :
    t.basis[k] = t.basicColumn (k + t.layout.costRows) := by
  rw [basicColumn, Nat.add_sub_cancel, Array.getD_eq_getD_getElem?, Array.getElem?_eq_getElem hk]
  rfl

/-- The basis lists the basic columns of the constraint rows. -/
theorem basis_toList (h : t.Consistent) :
    t.basis.toList = t.constraintRows.map t.basicColumn := by
  apply List.ext_getElem
  · simp [constraintRows, h.basisSize]
  · intro k hk hk'
    rw [Array.getElem_toList, basis_getElem hk, List.getElem_map]
    simp [constraintRows, Nat.add_comm]

/-- No column is basic in two rows. -/
theorem nodup_basis (h : t.Consistent) : t.basis.toList.Nodup := by
  rw [h.basis_toList]
  exact List.Nodup.map_on (fun r hr s hs => h.injective r hr s hs) t.nodup_constraintRows

/-- The members of the basis are the marked columns. -/
theorem isBasic_iff_mem_basis (h : t.Consistent) {c : Nat} : t.isBasic c = true ↔ c ∈ t.basis := by
  rw [h.isBasic_iff, ← Array.mem_toList_iff, h.basis_toList, List.mem_map]

/-- Looking for the row of a column finds the row in which it is basic. -/
theorem basicRow_eq_some_iff (h : t.Consistent) {c r : Nat} :
    t.basicRow c = some r ↔ r ∈ t.constraintRows ∧ t.basicColumn r = c := by
  have hread : ∀ {k} (hk : k < t.basis.toList.length),
      k + t.layout.costRows ∈ t.constraintRows ∧
        t.basis.toList[k] = t.basicColumn (k + t.layout.costRows) := by
    intro k hk
    rw [Array.length_toList] at hk
    refine ⟨?_, by rw [Array.getElem_toList, basis_getElem hk]⟩
    rw [constraintRows, ← h.basisSize, List.mem_range'_1]
    omega
  unfold basicRow
  constructor
  · intro hrow
    split at hrow
    · obtain ⟨k, hk, rfl⟩ := Option.map_eq_some_iff.1 hrow
      obtain ⟨hlt, hc, -⟩ := List.findIdx?_eq_some_iff_getElem.1 hk
      obtain ⟨hmem, hcolumn⟩ := hread hlt
      exact ⟨hmem, hcolumn.symm.trans (beq_iff_eq.1 hc)⟩
    · cases hrow
  · rintro ⟨hr, rfl⟩
    obtain ⟨k, rfl⟩ := Nat.exists_eq_add_of_le' (mem_constraintRows.1 hr).1
    have hlt : k < t.basis.toList.length := by
      rw [constraintRows, ← h.basisSize, List.mem_range'_1] at hr
      rw [Array.length_toList]
      omega
    have hfirst : t.basis.toList.findIdx? (· == t.basicColumn (k + t.layout.costRows)) =
        some k := by
      refine List.findIdx?_eq_some_iff_getElem.2 ⟨hlt, ?_, fun j hj heq => ?_⟩
      · rw [(hread hlt).2, beq_self_eq_true]
      · obtain ⟨hmem, hcolumn⟩ := hread (Nat.lt_trans hj hlt)
        rw [hcolumn, beq_iff_eq] at heq
        have := h.injective _ hmem _ hr heq
        omega
    rw [if_pos (h.isBasic_basicColumn hr), hfirst, Option.map_some]

/-- The basis is consistent for the feasibility check. -/
theorem basisAgrees (h : t.Consistent) : t.basisAgrees = true := by
  have hcount : t.basicColumns.toList.count true = t.basis.size := by
    have hmarked : ((List.range t.basicColumns.size).filter t.isBasic).Perm t.basis.toList := by
      refine (List.perm_ext_iff_of_nodup (List.nodup_range.filter _) h.nodup_basis).2
        fun c => ?_
      rw [List.mem_filter, List.mem_range, h.maskSize, h.basis_toList, List.mem_map,
        and_iff_right_of_imp h.lt_of_isBasic, h.isBasic_iff]
    have hmask : t.basicColumns.toList = (List.range t.basicColumns.size).map t.isBasic := by
      apply List.ext_getElem
      · simp
      · intro k hk _
        rw [Array.getElem_toList, List.getElem_map, List.getElem_range, isBasic,
          Array.getD_eq_getD_getElem?, Array.getElem?_eq_getElem (by simpa using hk)]
        rfl
    have hbeq : (· == true) ∘ t.isBasic = t.isBasic := funext fun c => by simp
    rw [hmask, List.count, List.countP_map, hbeq, List.countP_eq_length_filter,
      hmarked.length_eq, Array.length_toList]
  have hall : t.basis.all t.isBasic = true := by
    rw [Array.all_eq_true]
    intro k hk
    rw [basis_getElem hk]
    refine h.isBasic_basicColumn (mem_constraintRows.2 ?_)
    have := h.basisSize
    have := h.costRows_le
    simp only [constraintCount, rowCount] at *
    omega
  rw [Tableau.basisAgrees, hcount, hall, h.basisSize]
  simp

end Consistent

end

/-! ## Pivots -/

section
variable {F : Type} [Scalar F] {t : Tableau F} {r c : Nat}

@[simp] theorem exchange_layout : (t.exchange r c).layout = t.layout := rfl

@[simp] theorem exchange_tolerance : (t.exchange r c).tolerance = t.tolerance := rfl

@[simp] theorem exchange_rowCount : (t.exchange r c).rowCount = t.rowCount := by
  simp [exchange, rowCount]

@[simp] theorem exchange_constraintRows : (t.exchange r c).constraintRows = t.constraintRows := by
  simp [constraintRows, constraintCount, exchange]

/-- After a pivot the entering column is basic in the pivot row, and nothing else moved. -/
theorem exchange_basicColumn (h : t.Consistent) (hr : r ∈ t.constraintRows) {s : Nat}
    (hs : s ∈ t.constraintRows) :
    (t.exchange r c).basicColumn s = if s = r then c else t.basicColumn s := by
  have hr' := mem_constraintRows.1 hr
  have hs' := mem_constraintRows.1 hs
  have hsize := h.basisSize
  simp only [basicColumn, exchange, getD_setIfInBounds]
  simp only [constraintCount, rowCount] at *
  congr 1
  simp only [eq_iff_iff]
  omega

/-- After a pivot the entering column is marked, and the leaving column is not. -/
theorem exchange_isBasic (h : t.Consistent) (hc : c < t.layout.variableCount) (j : Nat) :
    (t.exchange r c).isBasic j =
      if j = c then true else if j = t.basicColumn r then false else t.isBasic j := by
  rw [← h.maskSize] at hc
  simp only [isBasic, exchange, getD_setIfInBounds, Array.size_setIfInBounds, hc, and_true]
  by_cases hjc : j = c
  · rw [if_pos hjc.symm, if_pos hjc]
  · rw [if_neg (Ne.symm hjc), if_neg hjc]
    by_cases hjl : j = t.basicColumn r
    · subst hjl
      rw [if_pos rfl]
      split
      · rfl
      · next hlt =>
        rw [Array.getD_eq_getD_getElem?, Array.getElem?_eq_none (by omega)]
        rfl
    · rw [if_neg (fun h => hjl h.1.symm), if_neg hjl]

/-- The pivot row keeps its length when it is scaled. -/
theorem size_scaledRow : (t.scaledRow r c).size = (t.rows.getD r #[]).size := by
  simp [scaledRow]

/-- A row keeps its length when the pivot column is cleared. -/
theorem size_clearColumn (scaled entries : Array F) (h : scaled.size = entries.size) :
    (clearColumn c scaled entries).size = entries.size := by
  unfold clearColumn
  dsimp only
  split
  · rfl
  · simp [h]

/-- **A pivot keeps the two records of the basis in step.** -/
theorem Consistent.exchange (h : t.Consistent) (hr : r ∈ t.constraintRows)
    (hc : c < t.layout.variableCount) (hb : t.isBasic c = false) :
    (t.exchange r c).Consistent where
  costRows_le := by simpa using h.costRows_le
  rowSize i hi := by
    rw [exchange_rowCount] at hi
    have hlt : i < t.rows.size := hi
    have hsize := h.rowSize i hi
    have hscaled : (t.scaledRow r c).size = t.layout.columns := by
      rw [size_scaledRow, h.rowSize r (mem_constraintRows.1 hr).2]
    show (Array.getD (t.rows.mapIdx _) i #[]).size = t.layout.columns
    rw [getD_mapIdx _ _ hlt #[]]
    by_cases hir : i = r
    · rw [if_pos hir, hscaled]
    · rw [if_neg hir, size_clearColumn _ _ (by rw [hscaled, hsize]), hsize]
  basisSize := by simpa [Tableau.exchange, constraintCount] using h.basisSize
  maskSize := by simpa [Tableau.exchange] using h.maskSize
  isBasic_iff j := by
    rw [exchange_isBasic h hc, exchange_constraintRows]
    constructor
    · intro hj
      split at hj
      · next hjc => exact ⟨r, hr, by rw [exchange_basicColumn h hr hr, if_pos rfl, hjc]⟩
      · split at hj
        · cases hj
        · next _ hjl =>
          obtain ⟨s, hs, rfl⟩ := (h.isBasic_iff j).1 hj
          refine ⟨s, hs, ?_⟩
          rw [exchange_basicColumn h hr hs, if_neg]
          rintro rfl
          exact hjl rfl
    · rintro ⟨s, hs, rfl⟩
      rw [exchange_basicColumn h hr hs]
      by_cases hsr : s = r
      · rw [if_pos hsr, if_pos rfl]
      · rw [if_neg hsr, if_neg (h.basicColumn_ne hs hb),
          if_neg (fun heq => hsr (h.injective s hs r hr heq))]
        exact h.isBasic_basicColumn hs
  injective s hs s' hs' heq := by
    rw [exchange_constraintRows] at hs hs'
    rw [exchange_basicColumn h hr hs, exchange_basicColumn h hr hs'] at heq
    split at heq
    · next h₁ =>
      split at heq
      · next h₂ => rw [h₁, h₂]
      · exact absurd heq.symm (h.basicColumn_ne hs' hb)
    · split at heq
      · exact absurd heq (h.basicColumn_ne hs hb)
      · exact h.injective s hs s' hs' heq

/-- What a pivot that was made had to satisfy, and what it did. -/
theorem pivot_eq_ok {u : Tableau F} (h : t.pivot r c = .ok u) :
    r ∈ t.constraintRows ∧ c < t.layout.variableCount ∧ t.isBasic c = false ∧
      (t.entry r c == 0) = false ∧ u = t.exchange r c := by
  unfold pivot at h
  split at h
  · cases h
  · next hr =>
    split at h
    · cases h
    · next hc =>
      split at h
      · cases h
      · next hb =>
        split at h
        · cases h
        · next hz =>
          split at h
          · cases h
          · cases h
            exact ⟨isConstraintRow_iff.1 (by simpa using hr), Decidable.not_not.1 hc,
              by simpa using hb, by simpa using hz, rfl⟩

/-- A pivot on a position that allows it is made. -/
theorem Consistent.pivot_eq (h : t.Consistent) (hr : r ∈ t.constraintRows)
    (hc : c < t.layout.variableCount) (hb : t.isBasic c = false)
    (hz : (t.entry r c == 0) = false) : t.pivot r c = .ok (t.exchange r c) := by
  rw [pivot, isConstraintRow_iff.2 hr, hb, hz, h.isBasic_basicColumn hr]
  simp [hc]

end

end Tableau

end Simplex
