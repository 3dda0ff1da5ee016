import Simplex.Proofs.Pivots

/-!
# Pivots that lead to the same basic columns

Within a phase the tableau depends on its basic columns only, and not on the pivots that led to
them. Two tableaus with the same basic columns have the same rows, those of the constraints maybe
in another order (`Tableau.Rearranged`), and a pivot is undone by the one that lets the column that
left come back in the same row (`Tableau.Sound.pivot_back`).
-/

namespace Simplex

namespace Tableau

section
variable {F : Type}

/-- The constraint rows, each with its basic column. -/
def basicRows (t : Tableau F) : List (Nat × Array F) :=
  t.constraintRows.map fun r => (t.basicColumn r, t.rows.getD r #[])

/-- A second tableau has the same basic columns and the same rows as a first one, maybe with the
constraints in another order. -/
structure Rearranged (t u : Tableau F) : Prop where
  layout : u.layout = t.layout
  tolerance : u.tolerance = t.tolerance
  rowCount : u.rowCount = t.rowCount
  basicColumns : u.basicColumns = t.basicColumns
  costRow : ∀ i < t.layout.costRows, u.rows.getD i #[] = t.rows.getD i #[]
  basicRow : ∀ r ∈ t.constraintRows, ∀ s ∈ u.constraintRows, u.basicColumn s = t.basicColumn r →
    u.rows.getD s #[] = t.rows.getD r #[]
  perm : u.basicRows.Perm t.basicRows

/-- No two constraint rows share their basic column. -/
theorem Consistent.nodup_basicRows {t : Tableau F} (h : t.Consistent) : t.basicRows.Nodup := by
  refine List.Nodup.map_on (fun r hr s hs heq => ?_) t.nodup_constraintRows
  exact h.injective r hr s hs (Prod.mk.inj heq).1

namespace Rearranged

variable {t u : Tableau F}

/-- The first tableau is a rearrangement of the second one. -/
theorem symm (h : t.Rearranged u) : u.Rearranged t where
  layout := h.layout.symm
  tolerance := h.tolerance.symm
  rowCount := h.rowCount.symm
  basicColumns := h.basicColumns.symm
  costRow i hi := (h.costRow i (by rwa [← h.layout])).symm
  basicRow r hr s hs hcolumn := (h.basicRow s hs r hr hcolumn.symm).symm
  perm := h.perm.symm

/-- Every constraint row is there, maybe in another place. -/
theorem exists_row (h : t.Rearranged u) {r : Nat} (hr : r ∈ t.constraintRows) :
    ∃ s ∈ u.constraintRows, u.basicColumn s = t.basicColumn r := by
  have hmem : (t.basicColumn r, t.rows.getD r #[]) ∈ t.basicRows := List.mem_map.2 ⟨r, hr, rfl⟩
  obtain ⟨s, hs, heq⟩ := List.mem_map.1 (h.perm.mem_iff.2 hmem)
  exact ⟨s, hs, (Prod.mk.inj heq).1⟩

/-- The entries of a row that is in another place. -/
theorem entry_eq [Scalar F] (h : t.Rearranged u) {r s : Nat} (hr : r ∈ t.constraintRows)
    (hs : s ∈ u.constraintRows) (hcolumn : u.basicColumn s = t.basicColumn r) (j : Nat) :
    u.entry s j = t.entry r j := by
  rw [entry, entry, h.basicRow r hr s hs hcolumn]

/-- The right-hand side of a row that is in another place. -/
theorem right_eq [Scalar F] (h : t.Rearranged u) {r s : Nat} (hr : r ∈ t.constraintRows)
    (hs : s ∈ u.constraintRows) (hcolumn : u.basicColumn s = t.basicColumn r) :
    u.right s = t.right r := by
  rw [right, right, h.layout, h.entry_eq hr hs hcolumn]

end Rearranged

end

section
variable {K : Type} [Field K] [LinearOrder K] {t u : Tableau K} {r c : Nat}

/-- With the same basic columns, each constraint row of a tableau is one of the other. -/
theorem Sound.mem_basicRows (h : t.Sound) (h' : u.Sound) (hsame : SameProgram t u)
    (hbasic : ∀ j, u.isBasic j = t.isBasic j) {x : Nat × Array K} (hx : x ∈ t.basicRows) :
    x ∈ u.basicRows := by
  obtain ⟨r, hr, rfl⟩ := List.mem_map.1 hx
  have hmarked : u.isBasic (t.basicColumn r) = true := by
    rw [hbasic]
    exact h.isBasic_basicColumn hr
  obtain ⟨s, hs, hcolumn⟩ := (h'.isBasic_iff _).1 hmarked
  refine List.mem_map.2 ⟨s, hs, ?_⟩
  rw [hcolumn, h.row_eq h' hsame hbasic (.inr ⟨hr, hs, hcolumn⟩)]

/-- **Tableaus with the same basic columns are the same up to the order of the constraints.** -/
theorem Sound.rearranged (h : t.Sound) (h' : u.Sound) (hsame : SameProgram t u)
    (hbasic : ∀ j, u.isBasic j = t.isBasic j) : t.Rearranged u where
  layout := hsame.layout
  tolerance := hsame.tolerance
  rowCount := hsame.rowCount
  basicColumns := h.basicColumns_eq h'.toConsistent hsame.layout hbasic
  costRow i hi := h.row_eq h' hsame hbasic (.inl ⟨hi, rfl⟩)
  basicRow r hr s hs hcolumn := h.row_eq h' hsame hbasic (.inr ⟨hr, hs, hcolumn⟩)
  perm := by
    refine (List.perm_ext_iff_of_nodup h'.nodup_basicRows h.nodup_basicRows).2 fun x => ?_
    exact ⟨h'.mem_basicRows h hsame.symm fun j => (hbasic j).symm, h.mem_basicRows h' hsame hbasic⟩

/-- Pivots after which the same columns are basic have only rearranged the rows. -/
theorem Reaches.rearranged (hu : t.Reaches u) (h : t.Sound)
    (hmarks : u.basicColumns = t.basicColumns) : t.Rearranged u := by
  obtain ⟨hsound, hsame⟩ := hu.sameProgram h
  refine h.rearranged hsound hsame fun c => ?_
  rw [isBasic, hmarks, isBasic]

/-- Letting the column that left come back in the same row restores the basis. -/
theorem exchange_exchange_basis (t : Tableau K) (r c : Nat) :
    ((t.exchange r c).exchange r (t.basicColumn r)).basis = t.basis := by
  have htwice : ∀ (xs : Array Nat) (k : Nat),
      (xs.setIfInBounds k c).setIfInBounds k (xs.getD k 0) = xs := by
    intro xs k
    rw [Array.setIfInBounds_setIfInBounds]
    refine Array.ext (by simp) fun j hj hj' => ?_
    rw [Array.getElem_setIfInBounds]
    split
    · next hkj =>
      subst hkj
      rw [Array.getElem_eq_getD 0]
    · rfl
  exact htwice t.basis (r - t.layout.costRows)

/-- **A pivot can be undone.** The column that left may come back in the same row, and this gives
the tableau from before. -/
theorem Sound.pivot_back (h : t.Sound) (hpivot : t.pivot r c = .ok u) :
    u.pivot r (t.basicColumn r) = .ok t := by
  obtain ⟨hu, hsame⟩ := (Reaches.refl.pivot hpivot).sameProgram h
  obtain ⟨hr, hc, hb, hentry, rfl⟩ := pivot_eq_ok hpivot
  have hentry := ne_of_beq_false hentry
  have hback : (t.exchange r c).pivot r (t.basicColumn r) =
      .ok ((t.exchange r c).exchange r (t.basicColumn r)) := by
    refine hu.pivot_eq (by rwa [exchange_constraintRows]) (h.basicColumn_lt hr) ?_ ?_
    · rw [exchange_isBasic h.toConsistent hc, if_neg (h.basicColumn_ne hr hb), if_pos rfl]
    · rw [exchange_entry h.toConsistent hr hc hentry, if_pos rfl, h.unit r hr, if_pos rfl]
      exact beq_false_of_ne (one_div_ne_zero hentry)
  obtain ⟨hv, hsame'⟩ := (Reaches.refl.pivot hback).sameProgram hu
  rw [hback, h.eq_of_basis_eq hv (hsame.trans hsame') (exchange_exchange_basis t r c)]

end

end Tableau

namespace LinearProgram

variable {K : Type} [Field K] [LinearOrder K] {p : LinearProgram K}
  {nonnegative : Bool} {tolerance : K} {t₀ t u : Tableau K}

/-- **A tableau is a function of its basic columns.** Whatever pivots are made from the initial
tableau on, with the same basic columns the cost rows are the same, and so is the row in which a
column is basic. With the same basis everything is the same. In particular a pivot is undone by the
one that lets the column that left come back. -/
theorem rearranged_of_reaches (h₀ : Tableau.ofProgram p nonnegative tolerance = .ok t₀)
    (ht : t₀.Reaches t) (hu : t₀.Reaches u) :
    ((∀ c, u.isBasic c = t.isBasic c) → t.Rearranged u) ∧ (u.basis = t.basis → u = t) ∧
      ∀ r c v, t.pivot r c = .ok v → v.pivot r (t.basicColumn r) = .ok t := by
  obtain ⟨hp, -, rfl⟩ := ofProgram_eq_ok_iff.1 h₀
  obtain ⟨hsound, hsame⟩ := ht.sameProgram (Tableau.sound_initial hp)
  obtain ⟨hsound', hsame'⟩ := hu.sameProgram (Tableau.sound_initial hp)
  have hboth := hsame.symm.trans hsame'
  exact ⟨hsound.rearranged hsound' hboth, hsound.eq_of_basis_eq hsound' hboth,
    fun _ _ _ hpivot => hsound.pivot_back hpivot⟩

/-- In `flipped` the two decision variables can enter the rows 2 and 3 either way round. The two
tableaus are rearrangements of each other, and the first pivot can be undone. -/
theorem flipped_rearranged : ∃ t₀ s t u, Tableau.ofProgram flipped false (1 / 1000000) = .ok t₀ ∧
    t₀.Reaches t ∧ t.basis = #[0, 1, 5] ∧ t₀.Reaches u ∧ u.basis = #[1, 0, 5] ∧ t.Rearranged u ∧
    t₀.pivot 2 0 = .ok s ∧ s.pivot 2 4 = .ok t₀ := by
  let t₀ := Tableau.initial flipped false (1 / 1000000)
  have h₀ : Tableau.ofProgram flipped false (1 / 1000000) = .ok t₀ :=
    ofProgram_eq_ok_iff.2 ⟨by decide +kernel, by norm_num, rfl⟩
  have hpivot : ∀ {v r c}, t₀.Reaches v → r ∈ v.constraintRows ∧ c < v.layout.variableCount ∧
      v.isBasic c = false ∧ (v.entry r c == 0) = false → v.pivot r c = .ok (v.exchange r c) := by
    rintro v r c hv ⟨hr, hc, hb, hentry⟩
    obtain ⟨hsound, -⟩ := hv.sameProgram (Tableau.sound_initial (by decide +kernel))
    exact hsound.pivot_eq hr hc hb hentry
  have hs : t₀.pivot 2 0 = .ok (t₀.exchange 2 0) := hpivot .refl (by decide +kernel)
  have ht : t₀.Reaches ((t₀.exchange 2 0).exchange 3 1) :=
    (Tableau.Reaches.refl.pivot hs).pivot (hpivot (.pivot .refl hs) (by decide +kernel))
  have hs' : t₀.pivot 3 0 = .ok (t₀.exchange 3 0) := hpivot .refl (by decide +kernel)
  have hu : t₀.Reaches ((t₀.exchange 3 0).exchange 2 1) :=
    (Tableau.Reaches.refl.pivot hs').pivot (hpivot (.pivot .refl hs') (by decide +kernel))
  have hbasic : ∀ c, ((t₀.exchange 3 0).exchange 2 1).isBasic c =
      ((t₀.exchange 2 0).exchange 3 1).isBasic c := by
    have hmarks : ((t₀.exchange 3 0).exchange 2 1).basicColumns =
        ((t₀.exchange 2 0).exchange 3 1).basicColumns := by decide +kernel
    intro c
    rw [Tableau.isBasic, hmarks, Tableau.isBasic]
  obtain ⟨hrearranged, -, -⟩ := rearranged_of_reaches h₀ ht hu
  obtain ⟨-, -, hback⟩ := rearranged_of_reaches h₀ .refl hu
  have hleft : t₀.basicColumn 2 = 4 := by decide +kernel
  refine ⟨t₀, _, _, _, h₀, ht, by decide +kernel, hu, by decide +kernel, hrearranged hbasic, hs, ?_⟩
  rw [← hleft]
  exact hback 2 0 _ hs

end LinearProgram

end Simplex
