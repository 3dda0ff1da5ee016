import Simplex.Proofs.Basis
import Simplex.Proofs.Field

/-!
# The equations of a tableau

A row of a tableau is an equation in the variables: its activity, the sum of its entries times the
values, equals its right-hand side. `Tableau.residual` is the difference of the two, and
`Tableau.Solves` says that it is zero in every constraint row. A pivot replaces rows by
combinations of rows: it keeps the solutions (`Tableau.solves_exchange`) and, on them, the
residuals of the cost rows, which are the costs. `Tableau.SameProgram` is this relation, and it
holds along any sequence of pivots.

A tableau is `Sound` if its basis is consistent and every basic column is the unit vector of its
row. Then its solutions are given by the variables outside of the basis
(`Tableau.Sound.solves_iff`), and the one in which these are zero is the basic solution.
-/

namespace Simplex

section
variable {α : Type}

/-- Reading an array whose members were mapped. -/
theorem getD_map {β : Type} (f : α → β) (xs : Array α) (i : Nat) (d : α) (e : β) (he : f d = e) :
    (xs.map f).getD i e = f (xs.getD i d) := by
  simp only [Array.getD_eq_getD_getElem?, Array.getElem?_map]
  cases xs[i]? with
  | none => simp [he]
  | some a => rfl

/-- Reading an array that combines two of the same size. -/
theorem getD_zipWith (f : α → α → α) (xs ys : Array α) (hsize : xs.size = ys.size) (i : Nat)
    (d : α) (hd : f d d = d) :
    (Array.zipWith f xs ys).getD i d = f (xs.getD i d) (ys.getD i d) := by
  simp only [Array.getD_eq_getD_getElem?, Array.getElem?_zipWith]
  rcases Nat.lt_or_ge i xs.size with hi | hi
  · rw [Array.getElem?_eq_getElem hi, Array.getElem?_eq_getElem (by omega)]
    rfl
  · rw [Array.getElem?_eq_none hi, Array.getElem?_eq_none (by omega)]
    simp [hd]

end

namespace Tableau

section
variable {K : Type} [Field K] [LinearOrder K] {t u v : Tableau K} {r c : Nat}

/-! ## Entries after a pivot -/

/-- There is nothing outside of the rows. -/
theorem entry_of_rowCount_le {i : Nat} (hi : t.rowCount ≤ i) (j : Nat) : t.entry i j = 0 := by
  have hrow : t.rows.getD i #[] = #[] := by
    rw [Array.getD_eq_getD_getElem?, Array.getElem?_eq_none hi]
    rfl
  rw [entry, hrow]
  rfl

/-- The pivot row divided by the pivot entry. -/
theorem getD_scaledRow (h : t.Consistent) (hr : r ∈ t.constraintRows)
    (hc : c < t.layout.variableCount) (hp : t.entry r c ≠ 0) (j : Nat) :
    (t.scaledRow r c).getD j 0 = t.entry r j / t.entry r c := by
  have hsize : c < ((t.rows.getD r #[]).map (· / t.entry r c)).size := by
    rw [Array.size_map, h.rowSize r (mem_constraintRows.1 hr).2]
    exact Nat.lt_succ_of_lt hc
  rw [scaledRow, getD_setIfInBounds, getD_map (· / t.entry r c) _ _ 0 0 (zero_div _)]
  split
  · next hcj => rw [← hcj.1, div_self hp]
  · rfl

/-- A row after the pivot column was cleared: what is written there is what would be computed. -/
theorem getD_clearColumn (scaled entries : Array K) (hsize : entries.size = scaled.size)
    (hc : scaled.getD c 0 = 1) (j : Nat) :
    (clearColumn c scaled entries).getD j 0 =
      entries.getD j 0 - entries.getD c 0 * scaled.getD j 0 := by
  unfold clearColumn
  dsimp only
  by_cases hzero : entries.getD c 0 = 0
  · rw [if_pos (beq_iff_eq.2 hzero), hzero, zero_mul, sub_zero]
  · rw [if_neg (fun hz => hzero (beq_iff_eq.1 hz)), getD_setIfInBounds,
      getD_zipWith _ _ _ hsize _ _ (by simp)]
    split
    · next hcj => rw [← hcj.1, hc, mul_one, sub_self]
    · rfl

/-- The entries after a pivot, all by one formula: in exact arithmetic the entries of the pivot
column come out as they are written. -/
theorem exchange_entry (h : t.Consistent) (hr : r ∈ t.constraintRows)
    (hc : c < t.layout.variableCount) (hp : t.entry r c ≠ 0) (i j : Nat) :
    (t.exchange r c).entry i j =
      if i = r then t.entry r j / t.entry r c
      else t.entry i j - t.entry i c * (t.entry r j / t.entry r c) := by
  have hscaled := getD_scaledRow h hr hc hp
  rcases Nat.lt_or_ge i t.rowCount with hi | hi
  · have hlt : i < t.rows.size := hi
    show (Array.getD (t.rows.mapIdx _) i #[]).getD j 0 = _
    rw [getD_mapIdx _ _ hlt #[]]
    by_cases hir : i = r
    · rw [if_pos hir, if_pos hir, hscaled]
    · have hsize : (t.rows.getD i #[]).size = (t.scaledRow r c).size := by
        rw [size_scaledRow, h.rowSize i hi, h.rowSize r (mem_constraintRows.1 hr).2]
      rw [if_neg hir, if_neg hir, getD_clearColumn _ _ hsize (by rw [hscaled, div_self hp]),
        hscaled]
      rfl
  · have hir : i ≠ r := fun hir => by
      have := (mem_constraintRows.1 hr).2
      omega
    rw [if_neg hir, entry_of_rowCount_le (by rwa [exchange_rowCount]), entry_of_rowCount_le hi,
      entry_of_rowCount_le hi, zero_mul, sub_zero]

/-! ## Sound tableaus -/

/-- A tableau whose basis is consistent and whose basic columns are unit vectors over all rows, the
cost rows included. -/
structure Sound (t : Tableau K) : Prop extends t.Consistent where
  unit : ∀ r ∈ t.constraintRows, ∀ i, t.entry i (t.basicColumn r) = if i = r then 1 else 0

/-- A basic column of another row is zero in the pivot row. -/
theorem Sound.entry_eq_zero (h : t.Sound) {s : Nat} (hs : s ∈ t.constraintRows) (hne : r ≠ s) :
    t.entry r (t.basicColumn s) = 0 := by
  rw [h.unit s hs, if_neg hne]

/-- **A pivot keeps a tableau sound.** -/
theorem Sound.exchange (h : t.Sound) (hr : r ∈ t.constraintRows)
    (hc : c < t.layout.variableCount) (hb : t.isBasic c = false) (hp : t.entry r c ≠ 0) :
    (t.exchange r c).Sound where
  toConsistent := h.toConsistent.exchange hr hc hb
  unit s hs i := by
    rw [exchange_constraintRows] at hs
    rw [exchange_entry h.toConsistent hr hc hp, exchange_basicColumn h.toConsistent hr hs]
    by_cases hsr : s = r
    · subst hsr
      rw [if_pos rfl, div_self hp, mul_one, sub_self]
    · rw [if_neg hsr, h.entry_eq_zero hs (Ne.symm hsr), zero_div, mul_zero, sub_zero,
        h.unit s hs]
      by_cases hir : i = r
      · rw [if_pos hir, if_neg (hir ▸ Ne.symm hsr)]
      · rw [if_neg hir]

/-- The unit columns pass the feasibility check. -/
theorem Sound.basisIsUnit (h : t.Sound) : t.basisIsUnit = true := by
  rw [Tableau.basisIsUnit, List.all_eq_true]
  intro r hr
  rw [List.all_eq_true]
  intro i _
  rw [beq_iff_eq]
  exact h.unit r hr i

/-- Of a sound tableau the feasibility check only looks at the right-hand sides. -/
theorem Sound.checkFeasible_eq (h : t.Sound) :
    t.checkFeasible = if t.rightIsNonnegative then .ok () else .error .negativeValue := by
  rw [checkFeasible, h.basisAgrees, h.basisIsUnit]
  cases t.rightIsNonnegative <;> rfl

/-- The check of the right-hand sides. -/
theorem rightIsNonnegative_iff :
    t.rightIsNonnegative = true ↔ ∀ r ∈ t.constraintRows, -t.tolerance ≤ t.right r := by
  simp [rightIsNonnegative]

/-- A sound tableau passes the check exactly if no right-hand side is below minus the tolerance. -/
theorem Sound.checkFeasible_eq_ok (h : t.Sound) :
    t.checkFeasible = .ok () ↔ ∀ r ∈ t.constraintRows, -t.tolerance ≤ t.right r := by
  rw [h.checkFeasible_eq, ← rightIsNonnegative_iff]
  split
  · next hright => exact iff_of_true rfl hright
  · next hright => exact iff_of_false (fun hf => nomatch hf) hright

/-! ## Activities and residuals -/

/-- The sum of the entries of a row times the values of the variables. -/
def activity (t : Tableau K) (i : Nat) (X : Nat → K) : K :=
  ∑ j ∈ Finset.range t.layout.variableCount, t.entry i j * X j

/-- The activity of a row minus its right-hand side. -/
def residual (t : Tableau K) (i : Nat) (X : Nat → K) : K := t.activity i X - t.right i

/-- The values satisfy the equations of all constraint rows. -/
def Solves (t : Tableau K) (X : Nat → K) : Prop := ∀ r ∈ t.constraintRows, t.residual r X = 0

/-- Only the values of the variables count. -/
theorem residual_congr {i : Nat} {X Y : Nat → K} (h : ∀ j < t.layout.variableCount, X j = Y j) :
    t.residual i X = t.residual i Y := by
  rw [residual, residual, activity, activity]
  congr 1
  exact Finset.sum_congr rfl fun j hj => by rw [h j (Finset.mem_range.1 hj)]

/-- The residuals of a row determine its entries. -/
theorem entry_eq_residual_sub (i : Nat) {j : Nat} (hj : j < t.layout.variableCount) :
    t.entry i j = t.residual i (fun k => if k = j then 1 else 0) - t.residual i fun _ => 0 := by
  simp [residual, activity, hj]

/-- The activities after a pivot. -/
theorem exchange_activity (h : t.Consistent) (hr : r ∈ t.constraintRows)
    (hc : c < t.layout.variableCount) (hp : t.entry r c ≠ 0) (i : Nat) (X : Nat → K) :
    (t.exchange r c).activity i X =
      if i = r then t.activity r X / t.entry r c
      else t.activity i X - t.entry i c * (t.activity r X / t.entry r c) := by
  simp only [activity, exchange_layout, exchange_entry h hr hc hp]
  by_cases hir : i = r
  · simp only [if_pos hir, Finset.sum_div]
    exact Finset.sum_congr rfl fun j _ => by ring
  · simp only [if_neg hir, Finset.sum_div, Finset.mul_sum, ← Finset.sum_sub_distrib]
    exact Finset.sum_congr rfl fun j _ => by ring

/-- The right-hand sides after a pivot. -/
theorem exchange_right (h : t.Consistent) (hr : r ∈ t.constraintRows)
    (hc : c < t.layout.variableCount) (hp : t.entry r c ≠ 0) (i : Nat) :
    (t.exchange r c).right i =
      if i = r then t.right r / t.entry r c
      else t.right i - t.entry i c * (t.right r / t.entry r c) :=
  exchange_entry h hr hc hp i _

/-- The residuals after a pivot. -/
theorem exchange_residual (h : t.Consistent) (hr : r ∈ t.constraintRows)
    (hc : c < t.layout.variableCount) (hp : t.entry r c ≠ 0) (i : Nat) (X : Nat → K) :
    (t.exchange r c).residual i X =
      if i = r then t.residual r X / t.entry r c
      else t.residual i X - t.entry i c * (t.residual r X / t.entry r c) := by
  simp only [residual, exchange_activity h hr hc hp, exchange_right h hr hc hp]
  split <;> ring

/-- A pivot keeps the solutions. -/
theorem solves_exchange (h : t.Consistent) (hr : r ∈ t.constraintRows)
    (hc : c < t.layout.variableCount) (hp : t.entry r c ≠ 0) (X : Nat → K) :
    (t.exchange r c).Solves X ↔ t.Solves X := by
  unfold Solves
  rw [exchange_constraintRows]
  constructor
  · intro hX
    have hzero : t.residual r X = 0 := by
      have hrow := hX r hr
      rw [exchange_residual h hr hc hp, if_pos rfl, div_eq_zero_iff] at hrow
      exact hrow.resolve_right hp
    intro i hi
    by_cases hir : i = r
    · rw [hir, hzero]
    · have hrow := hX i hi
      rwa [exchange_residual h hr hc hp, if_neg hir, hzero, zero_div, mul_zero, sub_zero] at hrow
  · intro hX i hi
    rw [exchange_residual h hr hc hp, hX r hr, zero_div, mul_zero, sub_zero, hX i hi]
    exact ite_self 0

/-! ## Tableaus of the same program -/

/-- Two tableaus with the same variables, the same solutions and, on these, the same costs. -/
structure SameProgram (t u : Tableau K) : Prop where
  layout : u.layout = t.layout
  tolerance : u.tolerance = t.tolerance
  rowCount : u.rowCount = t.rowCount
  solves : ∀ X, u.Solves X ↔ t.Solves X
  cost : ∀ X, t.Solves X → ∀ i < t.layout.costRows, u.residual i X = t.residual i X

namespace SameProgram

/-- A tableau is a tableau of its own program. -/
theorem refl (t : Tableau K) : SameProgram t t :=
  ⟨rfl, rfl, rfl, fun _ => Iff.rfl, fun _ _ _ _ => rfl⟩

/-- The relation composes. -/
theorem trans (h : SameProgram t u) (h' : SameProgram u v) : SameProgram t v where
  layout := h'.layout.trans h.layout
  tolerance := h'.tolerance.trans h.tolerance
  rowCount := h'.rowCount.trans h.rowCount
  solves X := (h'.solves X).trans (h.solves X)
  cost X hX i hi := by
    rw [h'.cost X ((h.solves X).2 hX) i (by rwa [h.layout]), h.cost X hX i hi]

/-- The relation is symmetric. -/
theorem symm (h : SameProgram t u) : SameProgram u t where
  layout := h.layout.symm
  tolerance := h.tolerance.symm
  rowCount := h.rowCount.symm
  solves X := (h.solves X).symm
  cost X hX i hi := (h.cost X ((h.solves X).1 hX) i (by rwa [← h.layout])).symm

/-- The constraint rows are the same. -/
theorem constraintRows (h : SameProgram t u) : u.constraintRows = t.constraintRows :=
  constraintRows_congr h.layout h.rowCount

/-- **A pivot leads to a tableau of the same program.** -/
theorem exchange (h : t.Consistent) (hr : r ∈ t.constraintRows)
    (hc : c < t.layout.variableCount) (hp : t.entry r c ≠ 0) :
    SameProgram t (t.exchange r c) where
  layout := rfl
  tolerance := rfl
  rowCount := exchange_rowCount
  solves := solves_exchange h hr hc hp
  cost X hX i hi := by
    have hir : i ≠ r := fun hir => by
      have := (mem_constraintRows.1 hr).1
      omega
    rw [exchange_residual h hr hc hp, if_neg hir, hX r hr, zero_div, mul_zero, sub_zero]

end SameProgram

end

end Tableau

end Simplex
