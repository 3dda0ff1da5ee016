import Simplex.Proofs.Breach
import Simplex.Proofs.Certificates
import Simplex.Proofs.Pivots

/-!
# The basis along any operations

Pivots, steps of the method and dropping the artificial variables can follow each other in any order
(`Tableau.Arises`). None of them tears apart the two records of the basis and the matrix
(`Tableau.WellBased`), and none breaks off by itself (`Tableau.Operable`): a pivot is refused only
on a position that does not allow it, a step never is, and whatever dropping the artificial
variables removes, it removes at positions that are there. Both hold at every tableau that arises
from the initial one of a program (`LinearProgram.wellBased_of_arises`).
-/

namespace Simplex

/-! ## Removals -/

/-- The positions may be removed from an array: there are not too many of them, they are in order
and distinct, and all of them exist. -/
structure Removable {α : Type} (positions : List Nat) (xs : Array α) : Prop where
  length_le : positions.length ≤ xs.size
  sorted : positions.Pairwise (· ≤ ·)
  nodup : positions.Nodup
  lt : ∀ p ∈ positions, p < xs.size

/-- Increasing positions that exist may be removed. -/
theorem Removable.of_pairwise {α : Type} {positions : List Nat} {xs : Array α}
    (hincreasing : positions.Pairwise (· < ·)) (hlt : ∀ p ∈ positions, p < xs.size) :
    Removable positions xs where
  length_le := by
    have hnodup : positions.Nodup := hincreasing.imp Nat.ne_of_lt
    have hsub : positions ⊆ List.range xs.size := fun p hp => List.mem_range.2 (hlt p hp)
    have hle := (hnodup.subperm hsub).length_le
    rwa [List.length_range] at hle
  sorted := hincreasing.imp Nat.le_of_lt
  nodup := hincreasing.imp Nat.ne_of_lt
  lt := hlt

namespace Tableau

section
variable {F : Type} [Scalar F]

/-- The tableaus that arise from a tableau by pivots, steps of the method, and dropping the
artificial variables. -/
inductive Arises (t : Tableau F) : Tableau F → Prop
  | refl : Arises t t
  | pivot {u v : Tableau F} {row column : Nat} (h : Arises t u)
    (hpivot : u.pivot row column = .ok v) : Arises t v
  | step {s : Trail F} (h : Arises t s.tableau) (rule : PivotRule) :
    Arises t (s.step rule).1.tableau
  | drop {u v : Tableau F} {removed : List Nat} (h : Arises t u)
    (hdrop : u.dropArtificials = .ok (v, removed)) : Arises t v

/-- **The basis of a tableau fits its matrix.** -/
structure WellBased (t : Tableau F) : Prop where
  /-- After the cost rows, of which there are two as long as there are artificial columns, there is
  one row for each member of the basis. -/
  rowCount : t.rowCount = (if 0 < t.layout.artificial then 2 else 1) + t.basis.size
  constraintRows : t.constraintRows =
    List.range' (if 0 < t.layout.artificial then 2 else 1) t.basis.size
  rowSize : ∀ row ∈ t.rows, row.size = t.layout.columns
  nodup : t.basis.toList.Nodup
  lt_variableCount : ∀ c ∈ t.basis, c < t.layout.variableCount
  /-- The members of the basis are the columns that are marked. -/
  isBasic_iff : ∀ c, t.isBasic c = true ↔ c ∈ t.basis
  /-- A basic column is the unit vector of its row over all rows, by the equality test of the
  scalars. In floating point a zero of either sign will do. -/
  unit : ∀ r ∈ t.constraintRows, ∀ i < t.rowCount,
    (t.entry i (t.basicColumn r) == if i = r then 1 else 0) = true
  basicRow_basicColumn : ∀ r ∈ t.constraintRows, t.basicRow (t.basicColumn r) = some r
  basicColumn_of_basicRow : ∀ c r, t.basicRow c = some r →
    r ∈ t.constraintRows ∧ t.basicColumn r = c
  isSome_basicRow : ∀ c, (t.basicRow c).isSome = t.isBasic c

/-- The rows, the members of the basis and the columns that go with the artificial variables can be
removed. -/
structure Removals (u : Tableau F) (removed : List Nat) : Prop where
  basis : Removable (removed.map (· - u.layout.costRows)) u.basis
  /-- Each of the columns that leave the basis with a removed row is there when its turn comes. -/
  distinct : (removed.map u.basicColumn).Nodup ∧
    ∀ r ∈ removed, u.isBasic (u.basicColumn r) = true
  rows : Removable (0 :: removed) u.rows
  columns : ∀ row ∈ u.rows, Removable u.layout.artificialColumns row

/-- **No operation on a tableau breaks off by itself.** -/
structure Operable (t : Tableau F) : Prop where
  /-- A pivot is made on every position that allows it. -/
  pivot : ∀ r c, (∃ u, t.pivot r c = .ok u) ↔ r ∈ t.constraintRows ∧
    c < t.layout.variableCount ∧ t.isBasic c = false ∧ (t.entry r c == 0) = false
  step : ∀ (rule : PivotRule) (s : Trail F), s.tableau = t → ∃ a, (s.step rule).2 = .ok a
  replace : ∃ u removed, t.replaceArtificials = .ok (u, removed) ∧ u.Removals removed
  drop : ∃ u removed, t.dropArtificials = .ok (u, removed)

/-- The tableaus of a run arise from the first one. -/
theorem arises_of_after {rule : PivotRule} {objective : Affine F} {n : Nat} {s u : Stage F}
    (h : s.after rule objective n = some u) : s.tableau.Arises u.tableau := by
  induction n generalizing u with
  | zero =>
    cases h
    exact .refl
  | succ n ih =>
    obtain ⟨v, hv, hgo⟩ := LinearProgram.exists_of_after_succ h
    obtain ⟨-, ⟨_, _, _, _, -, -, hpivot, rfl⟩ | ⟨_, _, -, -, hdrop, rfl⟩⟩ :=
      Stage.advance_eq_go hgo
    · exact (ih hv).pivot hpivot
    · exact (ih hv).drop hdrop

end

section
variable {F : Type} {t u : Tableau F}

/-- The rows of a consistent tableau all have the length of its layout. -/
theorem Consistent.size_of_mem (h : t.Consistent) {row : Array F} (hrow : row ∈ t.rows) :
    row.size = t.layout.columns := by
  obtain ⟨i, hi, rfl⟩ := Array.getElem_of_mem hrow
  rw [Array.getElem_eq_getD #[]]
  exact h.rowSize i hi

/-- A consistent tableau has two cost rows as long as it has artificial columns. -/
theorem costRows_eq (l : Layout) : l.costRows = if 0 < l.artificial then 2 else 1 := by
  simp [Layout.costRows, Layout.inPhaseOne]

/-- A consistent tableau is well based if the feasibility check accepts its basic columns. -/
theorem Consistent.wellBased [Scalar F] (h : t.Consistent) (hunit : t.basisIsUnit = true) :
    t.WellBased where
  rowCount := by
    have hle := h.costRows_le
    rw [← costRows_eq, h.basisSize, constraintCount]
    exact (Nat.add_sub_cancel' hle).symm
  constraintRows := by
    rw [← costRows_eq, h.basisSize]
    rfl
  rowSize _ hrow := h.size_of_mem hrow
  nodup := h.nodup_basis
  lt_variableCount c hc := h.lt_of_isBasic (h.isBasic_iff_mem_basis.2 hc)
  isBasic_iff _ := h.isBasic_iff_mem_basis
  unit r hr i hi := List.all_eq_true.1 (List.all_eq_true.1 hunit r hr) i (List.mem_range.2 hi)
  basicRow_basicColumn r hr := h.basicRow_eq_some_iff.2 ⟨hr, rfl⟩
  basicColumn_of_basicRow _ _ hrow := h.basicRow_eq_some_iff.1 hrow
  isSome_basicRow c := by
    rw [Bool.eq_iff_iff, Option.isSome_iff_exists, h.isBasic_iff]
    exact exists_congr fun r => h.basicRow_eq_some_iff

/-- What is removed with the artificial variables can be removed. -/
theorem Consistent.removals (hu : u.Consistent) : u.Removals u.artificialRows where
  basis := by
    refine .of_pairwise u.pairwise_removedConstraints fun k hk => ?_
    obtain ⟨r, hr, rfl⟩ := List.mem_map.1 hk
    have hrow := mem_constraintRows.1 (mem_artificialRows.1 hr).1
    rw [hu.basisSize, constraintCount]
    exact Nat.sub_lt_sub_right hrow.1 hrow.2
  distinct := by
    refine ⟨List.Nodup.map_on (fun r hr s hs => ?_) ?_, fun r hr => ?_⟩
    · exact hu.injective r (mem_artificialRows.1 hr).1 s (mem_artificialRows.1 hs).1
    · exact u.nodup_constraintRows.filter _
    · exact hu.isBasic_basicColumn (mem_artificialRows.1 hr).1
  rows := by
    refine .of_pairwise u.pairwise_zero_artificialRows fun r hr => ?_
    rcases List.mem_cons.1 hr with rfl | hr
    · exact (costRows_pos u.layout).trans_le hu.costRows_le
    · exact (mem_constraintRows.1 (mem_artificialRows.1 hr).1).2
  columns row hrow := by
    refine .of_pairwise List.pairwise_lt_range' fun j hj => ?_
    rw [hu.size_of_mem hrow]
    exact Nat.lt_succ_of_lt (List.mem_range'_1.1 hj).2

end

section
variable {K : Type} [Field K] [LinearOrder K] {t u : Tableau K}

/-- A sound tableau is well based. -/
theorem Sound.wellBased (h : t.Sound) : t.WellBased := h.toConsistent.wellBased h.basisIsUnit

/-- With exact scalars the basic columns of a well based tableau are equal to unit vectors. -/
theorem WellBased.entry_basicColumn (h : t.WellBased) {r i : Nat} (hr : r ∈ t.constraintRows)
    (hi : i < t.rowCount) : t.entry i (t.basicColumn r) = if i = r then 1 else 0 :=
  eq_of_beq (h.unit r hr i hi)

/-- A step on a sound tableau never breaks off. -/
theorem Sound.exists_step {s : Trail K} (h : s.tableau.Sound) (htol : 0 ≤ s.tableau.tolerance)
    (rule : PivotRule) : ∃ a, (s.step rule).2 = .ok a := by
  rw [Trail.step]
  cases hmove : s.tableau.move rule with
  | optimal => exact ⟨_, rfl⟩
  | unbounded column => exact ⟨_, rfl⟩
  | pivot row column cost =>
    obtain ⟨-, -, -, -, hpivot⟩ := h.pivot_of_move htol hmove
    have hrecord : (s.record (.pivoting row column cost)).tableau = s.tableau := rfl
    dsimp only
    rw [hrecord, hpivot]
    exact ⟨_, rfl⟩

variable [IsStrictOrderedRing K]

/-- A sound tableau is operable. -/
theorem Sound.operable (h : t.Sound) (htol : 0 ≤ t.tolerance) : t.Operable where
  pivot r c := by
    constructor
    · rintro ⟨u, hpivot⟩
      obtain ⟨hr, hc, hb, hentry, -⟩ := pivot_eq_ok hpivot
      exact ⟨hr, hc, hb, hentry⟩
    · rintro ⟨hr, hc, hb, hentry⟩
      exact ⟨_, h.pivot_eq hr hc hb hentry⟩
  step rule s hs := by
    subst hs
    exact h.exists_step htol rule
  replace := by
    obtain ⟨u, hreplace, hu, -⟩ := replaceArtificials_rule h htol (fun _ _ => True) trivial
      (fun _ _ _ _ _ _ _ _ _ _ _ => trivial) fun _ _ _ _ _ _ _ _ _ => trivial
    exact ⟨u, _, hreplace, hu.removals⟩
  drop := by
    by_cases hphase : t.layout.inPhaseOne = true
    · obtain ⟨u, -, -, -, -, hdrop⟩ := dropArtificials_spec h htol hphase
      exact ⟨_, _, hdrop⟩
    · exact ⟨t, [], if_neg hphase⟩

/-- **What pivots and the removal of artificial variables keep lasts whatever is done**, as long as
it is only asked for of sound tableaus. All tableaus that arise from a sound one are sound. -/
theorem Arises.rule (h : t.Arises u) (ht : t.Sound) (htol : 0 ≤ t.tolerance)
    (motive : Tableau K → Prop) (hstart : motive t)
    (hpivot : ∀ u r c, u.Sound → motive u → r ∈ u.constraintRows → c < u.layout.variableCount →
      u.isBasic c = false → u.entry r c ≠ 0 → motive (u.exchange r c))
    (hstrip : ∀ u, u.Sound → motive u → u.layout.inPhaseOne = true →
      motive (u.strip u.artificialRows)) :
    u.Sound ∧ u.tolerance = t.tolerance ∧ motive u := by
  have hreaches : ∀ {u v : Tableau K}, u.Reaches v →
      u.Sound ∧ u.tolerance = t.tolerance ∧ motive u →
      v.Sound ∧ v.tolerance = t.tolerance ∧ motive v := by
    intro u v h hu
    induction h with
    | refl => exact hu
    | pivot _ hmade ih =>
      obtain ⟨hv, htolerance, hmotive⟩ := ih
      obtain ⟨hr, hc, hb, hentry, rfl⟩ := pivot_eq_ok hmade
      have hentry := ne_of_beq_false hentry
      exact ⟨hv.exchange hr hc hb hentry, htolerance, hpivot _ _ _ hv hmotive hr hc hb hentry⟩
  induction h with
  | refl => exact ⟨ht, rfl, hstart⟩
  | pivot _ hmade ih => exact hreaches (Reaches.refl.pivot hmade) ih
  | step _ rule ih => exact hreaches (Reaches.refl.step rule) ih
  | @drop v w removed _ hdrop ih =>
    obtain ⟨hv, htolerance, hmotive⟩ := ih
    by_cases hphase : v.layout.inPhaseOne = true
    · obtain ⟨u', hreplace, hu', hsame, hmotive'⟩ := replaceArtificials_rule hv
        (by rwa [htolerance]) (fun u _ => motive u) hmotive
        (fun u _ r c hu hsame hmotive hr _ _ hrep => by
          obtain ⟨hlt, hb, -, hentry⟩ :=
            replacement_eq_some (by rwa [hsame.tolerance, htolerance]) hrep
          exact hpivot u r c hu hmotive hr (hlt.trans_le (Nat.le_add_right _ _)) hb hentry)
        fun u _ _ _ _ hmotive _ _ _ => hmotive
      have hphase' : u'.layout.inPhaseOne = true := by rwa [hsame.layout]
      rw [dropArtificials_eq hphase hreplace hu' hsame] at hdrop
      cases hdrop
      exact ⟨hu'.strip hphase', hsame.tolerance.trans htolerance, hstrip u' hu' hmotive' hphase'⟩
    · rw [dropArtificials, if_neg hphase] at hdrop
      cases hdrop
      exact ⟨hv, htolerance, hmotive⟩

/-- **Every operation keeps a tableau sound**, and its tolerance. -/
theorem Arises.sound (h : t.Arises u) (ht : t.Sound) (htol : 0 ≤ t.tolerance) :
    u.Sound ∧ u.tolerance = t.tolerance := by
  obtain ⟨hu, htolerance, -⟩ := h.rule ht htol (fun _ => True) trivial
    (fun _ _ _ _ _ _ _ _ _ => trivial) fun _ _ _ _ => trivial
  exact ⟨hu, htolerance⟩

end

end Tableau

namespace LinearProgram

variable {K : Type} [Field K] [LinearOrder K] [IsStrictOrderedRing K] {p : LinearProgram K}
  {nonnegative : Bool} {tolerance : K} {t₀ t : Tableau K}

/-- **The basis is in order whatever is done.** At every tableau that arises from the initial one by
pivots, steps and dropping the artificial variables, the two records of the basis agree with each
other and with the matrix, and no operation breaks off by itself. -/
theorem wellBased_of_arises (h₀ : Tableau.ofProgram p nonnegative tolerance = .ok t₀)
    (h : t₀.Arises t) : t.WellBased ∧ t.Operable := by
  obtain ⟨hp, htol, rfl⟩ := ofProgram_eq_ok_iff.1 h₀
  obtain ⟨ht, htolerance⟩ := h.sound (Tableau.sound_initial hp) htol.le
  exact ⟨ht.wellBased, ht.operable (by rw [htolerance]; exact htol.le)⟩

/-- In `doubled` one step of the method lets the first variable into the basis, and dropping the
artificial variables then removes the first row. What is left is in order. -/
theorem doubled_wellBased : ∃ t₀ s t, Tableau.ofProgram doubled true (1 / 1000000) = .ok t₀ ∧
    t₀.Arises s ∧ s.basis = #[3, 0, 2] ∧ s.WellBased ∧ s.dropArtificials = .ok (t, [0]) ∧
    t₀.Arises t ∧ t.basis = #[0, 2] ∧ t.WellBased ∧ t.Operable := by
  let t₀ := Tableau.initial doubled true (1 / 1000000)
  let s := ((Trail.start none t₀).step .steepest).1.tableau
  have h₀ : Tableau.ofProgram doubled true (1 / 1000000) = .ok t₀ :=
    ofProgram_eq_ok_iff.2 ⟨by decide +kernel, by norm_num, rfl⟩
  have hs : t₀.Arises s := .step (s := Trail.start none t₀) .refl .steepest
  obtain ⟨hbased, hoperable⟩ := wellBased_of_arises h₀ hs
  obtain ⟨t, removed, hdrop⟩ := hoperable.drop
  have hresult : s.dropArtificials.toOption.map (fun x => (x.1.basis, x.2)) =
      some (#[0, 2], [0]) := by decide +kernel
  rw [hdrop] at hresult
  obtain ⟨hbasis, rfl⟩ := Prod.mk.inj (Option.some.inj hresult)
  obtain ⟨hbased', hoperable'⟩ := wellBased_of_arises h₀ (hs.drop hdrop)
  exact ⟨t₀, s, t, h₀, hs, by decide +kernel, hbased, hdrop, hs.drop hdrop, hbasis, hbased',
    hoperable'⟩

end LinearProgram

end Simplex
