import Simplex.Proofs.BasicSolution
import Simplex.Proofs.Choice
import Simplex.Tableau.Artificial

/-!
# Leaving phase one

Replacing the artificial variables of a sound tableau never fails: it makes pivots, and the rows it
collects are exactly those in which an artificial variable is still basic
(`Tableau.replaceArtificials_rule`). Without these rows, the artificial cost and the artificial
columns the tableau is sound again (`Tableau.Sound.strip`). Its equations are those of the rows that
are left with the artificial variables at zero (`Tableau.residual_strip`), and each of its solutions
extends to one of the full tableau, in which only the artificial variables of the removed rows need
not be zero (`Tableau.exists_extension`).
-/

namespace Simplex

/-! ## Removing positions -/

section
variable {α : Type} {index : Nat} {ps : List Nat}

/-- A member that stands before all positions is kept. -/
theorem removeFrom_keep (h : ∀ p ∈ ps, index < p) (x : α) (xs : List α) :
    removeFrom index ps (x :: xs) = x :: removeFrom (index + 1) ps xs := by
  cases ps with
  | nil => rw [removeFrom_nil, removeFrom_nil]
  | cons p ps => exact if_pos (h p List.mem_cons_self)

/-- A member at the first position is removed. -/
theorem removeFrom_drop (index : Nat) (ps : List Nat) (x : α) (xs : List α) :
    removeFrom index (index :: ps) (x :: xs) = removeFrom (index + 1) ps xs :=
  if_neg (Nat.lt_irrefl index)

/-- The place of the next member is either before all positions or the first of them. -/
theorem position_cases (hps : ps.Pairwise (· < ·)) (hle : ∀ p ∈ ps, index ≤ p) :
    (∀ p ∈ ps, index < p) ∨
      ∃ qs, ps = index :: qs ∧ qs.Pairwise (· < ·) ∧ ∀ q ∈ qs, index < q := by
  cases ps with
  | nil => exact .inl fun _ hp => nomatch hp
  | cons p ps =>
    obtain ⟨hhead, htail⟩ := List.pairwise_cons.1 hps
    rcases Nat.lt_or_eq_of_le (hle p List.mem_cons_self) with hlt | rfl
    · exact .inl (List.forall_mem_cons.2 ⟨hlt, fun q hq => hlt.trans (hhead q hq)⟩)
    · exact .inr ⟨ps, rfl, htail, hhead⟩

end

/-- Removing the members at increasing positions keeps those at all other positions. -/
theorem removeFrom_map_range' {α : Type} (f : Nat → α) (n index : Nat) (ps : List Nat)
    (hps : ps.Pairwise (· < ·)) (hle : ∀ p ∈ ps, index ≤ p) :
    removeFrom index ps ((List.range' index n).map f) =
      ((List.range' index n).filter (· ∉ ps)).map f := by
  induction n generalizing index ps with
  | zero => simp [removeFrom]
  | succ n ih =>
    rw [List.range'_succ, List.map_cons]
    rcases position_cases hps hle with hkeep | ⟨qs, rfl, hqs, hgt⟩
    · have hnot : index ∉ ps := fun hmem => absurd (hkeep index hmem) (Nat.lt_irrefl index)
      rw [removeFrom_keep hkeep, List.filter_cons_of_pos (by simpa using hnot), List.map_cons,
        ih (index + 1) ps hps hkeep]
    · rw [removeFrom_drop, List.filter_cons_of_neg (by simp), ih (index + 1) qs hqs hgt]
      congr 1
      refine List.filter_congr fun q hq => ?_
      have hne : q ≠ index := by
        have := (List.mem_range'_1.1 hq).1
        omega
      simp [hne]

/-- Removing positions from an array that is read by position. -/
theorem removeAt_eq {α : Type} {ps : List Nat} (hps : ps.Pairwise (· < ·)) (xs : Array α)
    (f : Nat → α) (hf : ∀ i (h : i < xs.size), xs[i] = f i) :
    removeAt ps xs = (((List.range xs.size).filter (· ∉ ps)).map f).toArray := by
  have hlist : xs.toList = (List.range' 0 xs.size).map f := by
    refine List.ext_getElem (by simp) fun i hi _ => ?_
    simpa using hf i (by simpa using hi)
  rw [removeAt, removePositions, hlist,
    removeFrom_map_range' f xs.size 0 ps hps fun _ _ => Nat.zero_le _, List.range_eq_range']

namespace Tableau

section
variable {F : Type} [Scalar F] {t u : Tableau F} {r : Nat}

/-! ## Replacing artificial variables -/

/-- Looking for a replacement is a search for the best position. -/
theorem replacement_eq (t : Tableau F) (r : Nat) :
    t.replacement r = (t.nonBasic.filter (· < t.layout.artificialStart)).foldl
      (keepBest (t.mayReplace r)
        fun j k => decide (Scalar.abs (t.entry r k) < Scalar.abs (t.entry r j))) none := by
  unfold replacement
  congr 1
  funext best j
  unfold keepBest
  cases best <;> simp

/-- There is no replacement exactly if no column may replace the artificial variable. -/
theorem replacement_eq_none_iff : t.replacement r = none ↔
    ∀ c < t.layout.artificialStart, t.isBasic c = false → t.mayReplace r c = false := by
  rw [replacement_eq, foldl_keepBest_eq_none_iff, and_iff_right rfl]
  constructor
  · intro h c hc hb
    refine h c (List.mem_filter.2 ⟨mem_nonBasic.2 ⟨?_, hb⟩, by simpa using hc⟩)
    exact Nat.lt_of_lt_of_le hc (Nat.le_add_right _ _)
  · intro h c hc
    obtain ⟨hmem, hlt⟩ := List.mem_filter.1 hc
    exact h c (by simpa using hlt) (mem_nonBasic.1 hmem).2

/-- Whether an artificial variable is basic in a row. -/
def hasArtificialBasis (t : Tableau F) (r : Nat) : Bool := t.layout.isArtificial (t.basicColumn r)

/-- The rows in which an artificial variable is basic. -/
def artificialRows (t : Tableau F) : List Nat := t.constraintRows.filter t.hasArtificialBasis

/-- A row whose basic variable is not artificial is left alone. -/
theorem replaceInRow_of_not {removed : List Nat} (h : ¬ u.hasArtificialBasis r = true) :
    replaceInRow (u, removed) r = .ok (u, removed) := if_neg h

/-- A row with a replacement gets it by a pivot. -/
theorem replaceInRow_of_some {removed : List Nat} {c : Nat} (h : u.hasArtificialBasis r = true)
    (hrep : u.replacement r = some c) :
    replaceInRow (u, removed) r = (u.pivot r c).map fun v => (v, removed) := by
  have h' : u.layout.isArtificial (u.basicColumn r) = true := h
  rw [replaceInRow, if_pos h', hrep]
  dsimp only
  cases u.pivot r c <;> rfl

/-- A row without a replacement is noted. -/
theorem replaceInRow_of_none {removed : List Nat} (h : u.hasArtificialBasis r = true)
    (hrep : u.replacement r = none) : replaceInRow (u, removed) r = .ok (u, removed ++ [r]) := by
  have h' : u.layout.isArtificial (u.basicColumn r) = true := h
  rw [replaceInRow, if_pos h', hrep]

end

section
variable {K : Type} [Field K] [LinearOrder K] [IsStrictOrderedRing K] {t u : Tableau K}
  {r c : Nat}

/-- A column with a sufficient entry, or with one of the right sign, has an entry at all. -/
theorem entry_ne_zero_of_mayReplace (htol : 0 ≤ t.tolerance) (h : t.mayReplace r c = true) :
    t.entry r c ≠ 0 := by
  intro hzero
  unfold mayReplace at h
  split at h
  · rw [hzero, Scalar.abs_eq_abs, abs_zero, decide_eq_true_eq] at h
    exact absurd h (not_lt.2 htol)
  · rw [keepsFeasible, hzero] at h
    simp at h

/-- The replacement is a column outside of the basis that is not artificial, and whose entry in the
row is not zero. -/
theorem replacement_eq_some (htol : 0 ≤ t.tolerance) (h : t.replacement r = some c) :
    c < t.layout.artificialStart ∧ t.isBasic c = false ∧ t.mayReplace r c = true ∧
      t.entry r c ≠ 0 := by
  rw [replacement_eq] at h
  obtain ⟨hmem, hmay⟩ := (foldl_keepBest_eq_some h).resolve_left fun hf => nomatch hf
  obtain ⟨hmem, hlt⟩ := List.mem_filter.1 hmem
  exact ⟨by simpa using hlt, (mem_nonBasic.1 hmem).2, hmay, entry_ne_zero_of_mayReplace htol hmay⟩

/-- A replacement is made by a pivot. -/
theorem pivot_replacement (hu : u.Sound) (htol : 0 ≤ u.tolerance) (hr : r ∈ u.constraintRows)
    (h : u.replacement r = some c) : u.pivot r c = .ok (u.exchange r c) ∧
      (u.exchange r c).Sound ∧ SameProgram u (u.exchange r c) := by
  obtain ⟨hlt, hb, -, hentry⟩ := replacement_eq_some htol h
  have hc : c < u.layout.variableCount := hlt.trans_le (Nat.le_add_right _ _)
  exact ⟨hu.pivot_eq hr hc hb (by simpa using hentry), hu.exchange hr hc hb hentry,
    .exchange hu.toConsistent hr hc hentry⟩

omit [IsStrictOrderedRing K] in
/-- A replacement changes in no other row whether an artificial variable is basic, and in its own
row none is. -/
theorem hasArtificialBasis_exchange (hu : u.Consistent) (hr : r ∈ u.constraintRows)
    (hlt : c < u.layout.artificialStart) {s : Nat} (hs : s ∈ u.constraintRows) :
    (u.exchange r c).hasArtificialBasis s = if s = r then false else u.hasArtificialBasis s := by
  rw [hasArtificialBasis, exchange_basicColumn hu hr hs, exchange_layout]
  split
  · rw [Layout.isArtificial, decide_eq_false (Nat.not_le_of_lt hlt), Bool.false_and]
  · rfl

/-- The rows that come after some, with what is true of the tableau and of the rows that were noted
for removal among those. -/
theorem foldlM_replaceInRow (htol : 0 ≤ t.tolerance) (motive : Tableau K → List Nat → Prop)
    (hpivot : ∀ u removed r c, u.Sound → SameProgram t u → motive u removed →
      r ∈ u.constraintRows → r ∉ removed → u.hasArtificialBasis r = true →
      u.replacement r = some c → motive (u.exchange r c) removed)
    (hskip : ∀ u removed r, u.Sound → SameProgram t u → motive u removed →
      r ∈ u.constraintRows → u.hasArtificialBasis r = true →
      u.replacement r = none → motive u (removed ++ [r])) :
    ∀ (rest done : List Nat) (u : Tableau K), u.constraintRows = done ++ rest → u.Sound →
      SameProgram t u → motive u (done.filter u.hasArtificialBasis) →
      ∃ v, rest.foldlM replaceInRow (u, done.filter u.hasArtificialBasis) =
          .ok (v, v.artificialRows) ∧ v.Sound ∧ SameProgram t v ∧ motive v v.artificialRows
  | [], done, u, hrows, hu, hsame, hmotive => by
    have hdone : done.filter u.hasArtificialBasis = u.artificialRows := by
      rw [artificialRows, hrows, List.append_nil]
    rw [hdone] at hmotive ⊢
    exact ⟨u, rfl, hu, hsame, hmotive⟩
  | r :: rest, done, u, hrows, hu, hsame, hmotive => by
    have hr : r ∈ u.constraintRows := by
      rw [hrows]
      exact List.mem_append_right _ List.mem_cons_self
    have hdone : r ∉ done := fun hmem => by
      have hnodup := hrows ▸ u.nodup_constraintRows
      exact (List.nodup_append.1 hnodup).2.2 r hmem r List.mem_cons_self rfl
    have hnext : u.constraintRows = (done ++ [r]) ++ rest := by rw [hrows, List.append_assoc]; rfl
    have htol' : 0 ≤ u.tolerance := by rwa [hsame.tolerance]
    -- The row goes from the rows to come to those that are done, in each of three ways.
    have hstep : ∀ {v}, replaceInRow (u, done.filter u.hasArtificialBasis) r =
          .ok (v, (done ++ [r]).filter v.hasArtificialBasis) →
        v.constraintRows = (done ++ [r]) ++ rest → v.Sound → SameProgram t v →
        motive v ((done ++ [r]).filter v.hasArtificialBasis) →
        ∃ w, (r :: rest).foldlM replaceInRow (u, done.filter u.hasArtificialBasis) =
          .ok (w, w.artificialRows) ∧ w.Sound ∧ SameProgram t w ∧ motive w w.artificialRows := by
      intro v hrow hrows' hv hsame' hmotive'
      rw [List.foldlM_cons, hrow]
      exact foldlM_replaceInRow htol motive hpivot hskip rest (done ++ [r]) v hrows' hv hsame'
        hmotive'
    by_cases hart : u.hasArtificialBasis r = true
    · have hnoted : (done ++ [r]).filter u.hasArtificialBasis =
          done.filter u.hasArtificialBasis ++ [r] := by
        rw [List.filter_append, List.filter_cons_of_pos hart, List.filter_nil]
      rcases hrep : u.replacement r with _ | c
      · refine hstep ?_ hnext hu hsame ?_
        · rw [hnoted, replaceInRow_of_none hart hrep]
        · rw [hnoted]
          exact hskip u _ r hu hsame hmotive hr hart hrep
      · obtain ⟨hpivot', hsound, hprogram⟩ := pivot_replacement hu htol' hr hrep
        obtain ⟨hlt, -, -, -⟩ := replacement_eq_some htol' hrep
        have hbasis := fun {s} => hasArtificialBasis_exchange hu.toConsistent hr hlt (s := s)
        have hkept : (done ++ [r]).filter (u.exchange r c).hasArtificialBasis =
            done.filter u.hasArtificialBasis := by
          rw [List.filter_append, List.filter_cons_of_neg (by rw [hbasis hr, if_pos rfl]; simp),
            List.filter_nil, List.append_nil]
          refine List.filter_congr fun s hs => ?_
          rw [hbasis (by rw [hrows]; exact List.mem_append_left _ hs),
            if_neg fun heq : s = r => hdone (heq ▸ hs)]
        refine hstep ?_ (by rw [exchange_constraintRows, hnext]) hsound (hsame.trans hprogram) ?_
        · rw [hkept, replaceInRow_of_some hart hrep, hpivot']
          rfl
        · rw [hkept]
          exact hpivot u _ r c hu hsame hmotive hr (fun hmem => hdone (List.mem_filter.1 hmem).1)
            hart hrep
    · have hkept : (done ++ [r]).filter u.hasArtificialBasis =
          done.filter u.hasArtificialBasis := by
        rw [List.filter_append, List.filter_cons_of_neg hart, List.filter_nil, List.append_nil]
      refine hstep ?_ hnext hu hsame ?_
      · rw [hkept, replaceInRow_of_not hart]
      · rwa [hkept]

/-- **Replacing the artificial variables never fails.** What holds at the start and is kept by every
replacement, and by every row that is noted because it has none, holds in the end. -/
theorem replaceArtificials_rule (ht : t.Sound) (htol : 0 ≤ t.tolerance)
    (motive : Tableau K → List Nat → Prop) (hstart : motive t [])
    (hpivot : ∀ u removed r c, u.Sound → SameProgram t u → motive u removed →
      r ∈ u.constraintRows → r ∉ removed → u.hasArtificialBasis r = true →
      u.replacement r = some c → motive (u.exchange r c) removed)
    (hskip : ∀ u removed r, u.Sound → SameProgram t u → motive u removed →
      r ∈ u.constraintRows → u.hasArtificialBasis r = true →
      u.replacement r = none → motive u (removed ++ [r])) :
    ∃ u, t.replaceArtificials = .ok (u, u.artificialRows) ∧ u.Sound ∧ SameProgram t u ∧
      motive u u.artificialRows :=
  foldlM_replaceInRow htol motive hpivot hskip t.constraintRows [] t rfl ht (.refl t) hstart

end

section
variable {F : Type} {t u : Tableau F} {r : Nat}

/-! ## The shape of what is left -/

/-- The constraint rows in which no artificial variable is basic. -/
def survivors (u : Tableau F) : List Nat :=
  u.constraintRows.filter fun r => !u.hasArtificialBasis r

/-- The row from which a row of the smaller tableau comes. The cost row is the second one. -/
def origin (u : Tableau F) (i : Nat) : Nat := (1 :: u.survivors).getD i 0

/-- A row survives if no artificial variable is basic in it. -/
theorem mem_survivors :
    r ∈ u.survivors ↔ r ∈ u.constraintRows ∧ u.hasArtificialBasis r = false := by
  simp [survivors]

/-- A row is removed if an artificial variable is basic in it. -/
theorem mem_artificialRows :
    r ∈ u.artificialRows ↔ r ∈ u.constraintRows ∧ u.hasArtificialBasis r = true := by
  simp [artificialRows]

/-- In phase one there are two cost rows. -/
theorem costRows_of_inPhaseOne {l : Layout} (h : l.inPhaseOne = true) : l.costRows = 2 := if_pos h

/-- The removed rows are increasing. -/
theorem pairwise_artificialRows : u.artificialRows.Pairwise (· < ·) :=
  List.Pairwise.filter _ List.pairwise_lt_range'

/-- The removed rows come after that of the artificial cost. -/
theorem pairwise_zero_artificialRows (u : Tableau F) :
    (0 :: u.artificialRows).Pairwise (· < ·) := by
  refine List.pairwise_cons.2 ⟨fun r hr => ?_, pairwise_artificialRows⟩
  exact (costRows_pos u.layout).trans_le (mem_constraintRows.1 (mem_artificialRows.1 hr).1).1

/-- The constraints of the removed rows are increasing. -/
theorem pairwise_removedConstraints (u : Tableau F) :
    (u.artificialRows.map (· - u.layout.costRows)).Pairwise (· < ·) := by
  refine List.pairwise_map.2 (pairwise_artificialRows.imp_of_mem fun hr _ hlt => ?_)
  have := (mem_constraintRows.1 (mem_artificialRows.1 hr).1).1
  omega

/-- The rows that are left, besides the artificial cost. -/
theorem filter_rows (hu : u.Consistent) (hphase : u.layout.inPhaseOne = true) :
    (List.range u.rowCount).filter (· ∉ 0 :: u.artificialRows) = 1 :: u.survivors := by
  have hcosts := costRows_of_inPhaseOne hphase
  have hrows := hu.costRows_le
  obtain ⟨m, hm⟩ := Nat.exists_eq_add_of_le hrows
  have hlist : u.constraintRows = List.range' 2 m := by
    rw [constraintRows, constraintCount, hcosts]
    congr 1
    rw [rowCount] at hm
    omega
  have hmem : ∀ r ∈ u.artificialRows, 2 ≤ r := fun r hr => by
    have := (mem_constraintRows.1 (mem_artificialRows.1 hr).1).1
    omega
  rw [hcosts, Nat.add_comm] at hm
  rw [hm, List.range_eq_range', List.range'_succ, List.range'_succ,
    List.filter_cons_of_neg (by simp), List.filter_cons_of_pos, survivors, hlist]
  · congr 1
    refine List.filter_congr fun r hr => ?_
    have hle := (List.mem_range'_1.1 hr).1
    have hrow : r ∈ u.constraintRows := by rwa [hlist]
    rw [Bool.eq_iff_iff, decide_eq_true_eq, List.mem_cons, mem_artificialRows]
    simp [hrow, show r ≠ 0 by omega]
  · have h1 : 1 ∉ u.artificialRows := fun h => by
      have := hmem 1 h
      omega
    simp [h1]

/-- The columns that are left. -/
theorem filter_columns (l : Layout) :
    (List.range l.columns).filter (· ∉ l.artificialColumns) =
      List.range l.artificialStart ++ [l.variableCount] := by
  have hrange : List.range l.columns =
      List.range l.artificialStart ++ l.artificialColumns ++ [l.variableCount] := by
    rw [Layout.columns, List.range_succ, Layout.variableCount, Layout.artificialColumns,
      List.range_eq_range', List.range_eq_range']
    have h : List.range' 0 l.artificialStart ++
        List.range' (0 + 1 * l.artificialStart) l.artificial =
          List.range' 0 (l.artificialStart + l.artificial) := List.range'_append
    rw [Nat.zero_add, Nat.one_mul] at h
    rw [← h]
  rw [hrange, List.filter_append, List.filter_append, List.filter_eq_self.2,
    List.filter_eq_nil_iff.2, List.append_nil, List.filter_cons_of_pos, List.filter_nil]
  · simp [Layout.artificialColumns, Layout.variableCount]
  · intro j hj
    simpa using hj
  · intro j hj
    have hlt := List.mem_range.1 hj
    simp [Layout.artificialColumns]
    omega

@[simp] theorem layout_strip {removed : List Nat} :
    (u.strip removed).layout = u.layout.withoutArtificial := rfl

@[simp] theorem tolerance_strip {removed : List Nat} :
    (u.strip removed).tolerance = u.tolerance := rfl

/-- Without artificial variables there is one cost row. -/
theorem costRows_withoutArtificial (l : Layout) : l.withoutArtificial.costRows = 1 := rfl

/-- Without artificial variables the right-hand sides stand where these began. -/
theorem variableCount_withoutArtificial (l : Layout) :
    l.withoutArtificial.variableCount = l.artificialStart := rfl

/-- The rows of the smaller tableau. -/
theorem rows_strip (hu : u.Consistent) (hphase : u.layout.inPhaseOne = true) :
    (u.strip u.artificialRows).rows =
      ((1 :: u.survivors).map fun i =>
        removeAt u.layout.artificialColumns (u.rows.getD i #[])).toArray := by
  have hrows := removeAt_eq u.pairwise_zero_artificialRows u.rows
    (fun i => u.rows.getD i #[]) fun _ _ => Array.getElem_eq_getD #[]
  have hfilter := filter_rows hu hphase
  rw [rowCount] at hfilter
  rw [hfilter] at hrows
  show (removeAt (0 :: u.artificialRows) u.rows).map (removeAt u.layout.artificialColumns) = _
  rw [hrows, List.map_toArray, List.map_map]
  rfl

/-- The number of rows of the smaller tableau. -/
theorem rowCount_strip (hu : u.Consistent) (hphase : u.layout.inPhaseOne = true) :
    (u.strip u.artificialRows).rowCount = 1 + u.survivors.length := by
  rw [rowCount, rows_strip hu hphase, List.size_toArray, List.length_map, List.length_cons,
    Nat.add_comm]

/-- The basis of the smaller tableau. -/
theorem basis_strip (hu : u.Consistent) :
    (u.strip u.artificialRows).basis = (u.survivors.map u.basicColumn).toArray := by
  have hbasis := removeAt_eq u.pairwise_removedConstraints u.basis
    (fun k => u.basicColumn (k + u.layout.costRows)) fun k hk => Consistent.basis_getElem hk
  show removeAt (u.artificialRows.map (· - u.layout.costRows)) u.basis = _
  rw [hbasis, survivors, constraintRows, ← hu.basisSize]
  have hrange : List.range' u.layout.costRows u.basis.size =
      (List.range u.basis.size).map (· + u.layout.costRows) := by
    rw [List.range'_eq_map_range]
    exact List.map_congr_left fun k _ => Nat.add_comm _ _
  rw [hrange, List.filter_map, List.map_map]
  congr 2
  refine List.filter_congr fun k hk => ?_
  have hk : k < u.basis.size := List.mem_range.1 hk
  have hrow : k + u.layout.costRows ∈ u.constraintRows := by
    rw [constraintRows, ← hu.basisSize, List.mem_range'_1]
    omega
  have hmem : k ∈ u.artificialRows.map (· - u.layout.costRows) ↔
      k + u.layout.costRows ∈ u.artificialRows := by
    rw [List.mem_map]
    constructor
    · rintro ⟨r, hr, rfl⟩
      have := (mem_constraintRows.1 (mem_artificialRows.1 hr).1).1
      rwa [Nat.sub_add_cancel this]
    · exact fun h => ⟨_, h, Nat.add_sub_cancel _ _⟩
  rw [Bool.eq_iff_iff, decide_eq_true_eq, hmem, mem_artificialRows]
  simp [hrow]

/-- The basic columns of the smaller tableau are those of the rows that they come from. -/
theorem basicColumn_strip (hu : u.Consistent) {k : Nat} (hk : k < u.survivors.length) :
    (u.strip u.artificialRows).basicColumn (k + 1) = u.basicColumn (u.origin (k + 1)) := by
  rw [basicColumn, basis_strip hu, layout_strip, costRows_withoutArtificial, Nat.add_sub_cancel,
    Array.getD_eq_getD_getElem?, List.getElem?_toArray, List.getElem?_map,
    origin, List.getD_cons_succ, List.getD_eq_getElem?_getD, List.getElem?_eq_getElem hk]
  rfl

/-- The columns that are basic in the smaller tableau are the basic ones that are not artificial. -/
theorem isBasic_strip (hu : u.Consistent) (j : Nat) :
    (u.strip u.artificialRows).isBasic j =
      (decide (j < u.layout.artificialStart) && u.isBasic j) := by
  have hmask : (u.strip u.artificialRows).basicColumns =
      (u.artificialRows.foldl (fun s r => s.setIfInBounds (u.basicColumn r) false)
        u.basicColumns).take u.layout.artificialStart := rfl
  rw [isBasic, hmask, Array.getD_eq_getD_getElem?, Array.take_eq_extract, Array.getElem?_extract,
    size_foldl_setIfInBounds, Nat.zero_add, Nat.sub_zero]
  by_cases hj : j < u.layout.artificialStart
  · have hlt : j < min u.layout.artificialStart u.basicColumns.size := by
      rw [hu.maskSize]
      exact Nat.lt_min.2 ⟨hj, Nat.lt_of_lt_of_le hj (Nat.le_add_right _ _)⟩
    have hkeep := (getD_foldl_setIfInBounds u.basicColumn (fun _ => false) false u.artificialRows
      u.basicColumns
      (fun r hr s hs => hu.injective r (mem_artificialRows.1 hr).1 s (mem_artificialRows.1 hs).1)
      fun r hr => by
        rw [hu.maskSize]
        exact hu.basicColumn_lt (mem_artificialRows.1 hr).1).2 j fun r hr heq => by
          have hart := (mem_artificialRows.1 hr).2
          rw [hasArtificialBasis, heq, Layout.isArtificial, decide_eq_false (by omega)] at hart
          cases hart
    rw [if_pos hlt, decide_eq_true hj, Bool.true_and, ← Array.getD_eq_getD_getElem?, hkeep]
    rfl
  · rw [if_neg fun hlt => hj (Nat.lt_min.1 hlt).1, decide_eq_false hj, Bool.false_and]
    rfl

/-- The constraint rows of the smaller tableau follow its only cost row. -/
theorem mem_constraintRows_strip (hu : u.Consistent) (hphase : u.layout.inPhaseOne = true) :
    r ∈ (u.strip u.artificialRows).constraintRows ↔ ∃ k < u.survivors.length, r = k + 1 := by
  rw [mem_constraintRows, rowCount_strip hu hphase, layout_strip, costRows_withoutArtificial]
  constructor
  · rintro ⟨hle, hlt⟩
    exact ⟨r - 1, by omega, by omega⟩
  · rintro ⟨k, hk, rfl⟩
    omega

/-- Every constraint row of the smaller tableau comes from a row that survives. -/
theorem origin_mem {k : Nat} (hk : k < u.survivors.length) :
    u.origin (k + 1) ∈ u.survivors := by
  rw [origin, List.getD_cons_succ, List.getD_eq_getElem?_getD, List.getElem?_eq_getElem hk]
  exact List.getElem_mem hk

/-- Every row that survives is a constraint row of the smaller tableau. -/
theorem exists_origin_eq (hr : r ∈ u.survivors) :
    ∃ k < u.survivors.length, u.origin (k + 1) = r := by
  obtain ⟨k, hk, rfl⟩ := List.getElem_of_mem hr
  refine ⟨k, hk, ?_⟩
  rw [origin, List.getD_cons_succ, List.getD_eq_getElem?_getD, List.getElem?_eq_getElem hk]
  rfl

/-- Different rows come from different rows. -/
theorem origin_injective (hphase : u.layout.inPhaseOne = true) {i k : Nat}
    (hi : i < 1 + u.survivors.length) (hk : k < 1 + u.survivors.length)
    (heq : u.origin i = u.origin k) : i = k := by
  have hnodup : (1 :: u.survivors).Nodup := by
    refine List.nodup_cons.2 ⟨fun hmem => ?_, u.nodup_constraintRows.filter _⟩
    have := (mem_constraintRows.1 (mem_survivors.1 hmem).1).1
    have := costRows_of_inPhaseOne hphase
    omega
  have hlength : (1 :: u.survivors).length = 1 + u.survivors.length := Nat.add_comm _ _
  rw [origin, origin, List.getD_eq_getElem?_getD, List.getD_eq_getElem?_getD,
    List.getElem?_eq_getElem (by omega), List.getElem?_eq_getElem (by omega)] at heq
  exact (hnodup.getElem_inj_iff).1 heq

variable [Scalar F]

/-- A row without its artificial columns. -/
theorem removeAt_artificialColumns (l : Layout) {row : Array F} (hsize : row.size = l.columns) :
    removeAt l.artificialColumns row =
      ((List.range l.artificialStart ++ [l.variableCount]).map (row.getD · 0)).toArray := by
  have hincreasing : l.artificialColumns.Pairwise (· < ·) := List.pairwise_lt_range'
  rw [removeAt_eq hincreasing row (row.getD · 0) fun _ _ => Array.getElem_eq_getD 0, hsize,
    filter_columns]

/-- A row of the smaller tableau. -/
theorem row_strip (hu : u.Consistent) (hphase : u.layout.inPhaseOne = true) {i : Nat}
    (hi : i < 1 + u.survivors.length) :
    (u.strip u.artificialRows).rows.getD i #[] =
      ((List.range u.layout.artificialStart ++ [u.layout.variableCount]).map
        (u.entry (u.origin i) ·)).toArray := by
  have horigin : (1 :: u.survivors)[i]? = some (u.origin i) := by
    rw [origin, List.getD_eq_getElem?_getD]
    have hlt : i < (1 :: u.survivors).length := by
      rw [List.length_cons]
      omega
    rw [List.getElem?_eq_getElem hlt, Option.getD_some]
  have hrow : u.origin i < u.rowCount := by
    have hcosts := costRows_of_inPhaseOne hphase
    have hle := hu.costRows_le
    rcases List.mem_cons.1 (List.mem_of_getElem? horigin) with h | h
    · omega
    · exact (mem_constraintRows.1 (mem_survivors.1 h).1).2
  rw [rows_strip hu hphase, Array.getD_eq_getD_getElem?, List.getElem?_toArray, List.getElem?_map,
    horigin, Option.map_some, Option.getD_some, removeAt_artificialColumns _ (hu.rowSize _ hrow)]
  rfl

/-- The entries of the smaller tableau are those of the rows that they come from. -/
theorem entry_strip (hu : u.Consistent) (hphase : u.layout.inPhaseOne = true) {i : Nat}
    (hi : i < 1 + u.survivors.length) {j : Nat} (hj : j < u.layout.artificialStart) :
    (u.strip u.artificialRows).entry i j = u.entry (u.origin i) j := by
  rw [entry, row_strip hu hphase hi, Array.getD_eq_getD_getElem?, List.getElem?_toArray,
    List.getElem?_map, List.getElem?_append_left (by simpa using hj), List.getElem?_range hj]
  rfl

/-- The right-hand sides of the smaller tableau are those of the rows that they come from. -/
theorem right_strip (hu : u.Consistent) (hphase : u.layout.inPhaseOne = true) {i : Nat}
    (hi : i < 1 + u.survivors.length) :
    (u.strip u.artificialRows).right i = u.right (u.origin i) := by
  rw [right, entry, row_strip hu hphase hi, Array.getD_eq_getD_getElem?, List.getElem?_toArray,
    List.getElem?_map, layout_strip, Layout.rightColumn, variableCount_withoutArtificial,
    List.getElem?_append_right (by simp), List.length_range, Nat.sub_self]
  rfl

/-- **What is left is consistent.** -/
theorem Consistent.strip (hu : u.Consistent) (hphase : u.layout.inPhaseOne = true) :
    (u.strip u.artificialRows).Consistent where
  costRows_le := by
    rw [rowCount_strip hu hphase, layout_strip, costRows_withoutArtificial]
    exact Nat.le_add_right _ _
  rowSize i hi := by
    rw [rowCount_strip hu hphase] at hi
    rw [row_strip hu hphase hi, List.size_toArray, List.length_map, List.length_append,
      List.length_range]
    rfl
  basisSize := by
    have hrows : (u.strip u.artificialRows).rows.size = _ := rowCount_strip hu hphase
    rw [basis_strip hu, List.size_toArray, List.length_map, constraintCount, hrows, layout_strip,
      costRows_withoutArtificial, Nat.add_sub_cancel_left]
  maskSize := by
    have hsize : ((u.artificialRows.foldl (fun s r => s.setIfInBounds (u.basicColumn r) false)
        u.basicColumns).take u.layout.artificialStart).size = u.layout.artificialStart := by
      rw [Array.take_eq_extract, Array.size_extract, size_foldl_setIfInBounds, hu.maskSize,
        Nat.sub_zero]
      exact Nat.min_eq_left (Nat.le_add_right _ _)
    exact hsize
  isBasic_iff j := by
    rw [isBasic_strip hu, Bool.and_eq_true, decide_eq_true_eq, hu.isBasic_iff]
    constructor
    · rintro ⟨hj, s, hs, rfl⟩
      have hsurvives : s ∈ u.survivors := by
        refine mem_survivors.2 ⟨hs, ?_⟩
        rw [hasArtificialBasis, Layout.isArtificial, decide_eq_false (Nat.not_le_of_lt hj),
          Bool.false_and]
      obtain ⟨k, hk, horigin⟩ := exists_origin_eq hsurvives
      refine ⟨k + 1, (mem_constraintRows_strip hu hphase).2 ⟨k, hk, rfl⟩, ?_⟩
      rw [basicColumn_strip hu hk, horigin]
    · rintro ⟨s, hs, rfl⟩
      obtain ⟨k, hk, rfl⟩ := (mem_constraintRows_strip hu hphase).1 hs
      obtain ⟨hrow, hart⟩ := mem_survivors.1 (origin_mem hk)
      rw [basicColumn_strip hu hk]
      refine ⟨?_, _, hrow, rfl⟩
      by_contra hnot
      rw [hasArtificialBasis, Layout.isArtificial, decide_eq_true (by omega),
        decide_eq_true (hu.basicColumn_lt hrow)] at hart
      cases hart
  injective s hs s' hs' heq := by
    obtain ⟨k, hk, rfl⟩ := (mem_constraintRows_strip hu hphase).1 hs
    obtain ⟨k', hk', rfl⟩ := (mem_constraintRows_strip hu hphase).1 hs'
    rw [basicColumn_strip hu hk, basicColumn_strip hu hk'] at heq
    exact origin_injective hphase (by omega) (by omega) (hu.injective _
      (mem_survivors.1 (origin_mem hk)).1 _ (mem_survivors.1 (origin_mem hk')).1 heq)

end

section
variable {K : Type} [Field K] [LinearOrder K] {t u : Tableau K} {r c : Nat} {X : Nat → K}

/-- **What is left is sound.** -/
theorem Sound.strip (hu : u.Sound) (hphase : u.layout.inPhaseOne = true) :
    (u.strip u.artificialRows).Sound where
  toConsistent := hu.toConsistent.strip hphase
  unit s hs i := by
    obtain ⟨k, hk, rfl⟩ := (mem_constraintRows_strip hu.toConsistent hphase).1 hs
    have hrow := (mem_survivors.1 (origin_mem hk)).1
    have hlt : (u.strip u.artificialRows).basicColumn (k + 1) < u.layout.artificialStart :=
      (hu.toConsistent.strip hphase).basicColumn_lt hs
    rcases Nat.lt_or_ge i (1 + u.survivors.length) with hi | hi
    · rw [entry_strip hu.toConsistent hphase hi hlt, basicColumn_strip hu.toConsistent hk,
        hu.unit _ hrow]
      exact if_congr ⟨origin_injective hphase hi (by omega), fun h => by rw [h]⟩ rfl rfl
    · rw [entry_of_rowCount_le (by rwa [rowCount_strip hu.toConsistent hphase]),
        if_neg (by omega)]

/-! ## The equations of what is left -/

/-- The activity of a row for values that are zero in the artificial columns outside of the basis,
in a row that survives or is a cost row. -/
theorem residual_strip (hu : u.Sound) (hphase : u.layout.inPhaseOne = true)
    (hX : ∀ j, u.layout.isArtificial j = true → u.isBasic j = false → X j = 0) {i : Nat}
    (hi : i < 1 + u.survivors.length) :
    (u.strip u.artificialRows).residual i X = u.residual (u.origin i) X := by
  have hcount : u.layout.variableCount = u.layout.artificialStart + u.layout.artificial := rfl
  have htail : ∑ j ∈ Finset.range u.layout.artificial,
      u.entry (u.origin i) (u.layout.artificialStart + j) *
        X (u.layout.artificialStart + j) = 0 := by
    refine Finset.sum_eq_zero fun j hj => ?_
    have hart : u.layout.isArtificial (u.layout.artificialStart + j) = true := by
      have := Finset.mem_range.1 hj
      rw [Layout.isArtificial, decide_eq_true (by omega), decide_eq_true (by omega), Bool.true_and]
    cases hb : u.isBasic (u.layout.artificialStart + j) with
    | false => rw [hX _ hart hb, mul_zero]
    | true =>
      obtain ⟨s, hs, heq⟩ := (hu.isBasic_iff _).1 hb
      rw [← heq, hu.entry_eq_zero hs, zero_mul]
      intro horigin
      have hremoved : u.hasArtificialBasis s = true := by rw [hasArtificialBasis, heq, hart]
      rcases i with _ | k
      · have hone : u.origin 0 = 1 := rfl
        have := (mem_constraintRows.1 hs).1
        have := costRows_of_inPhaseOne hphase
        omega
      · have hkept := (mem_survivors.1 (origin_mem (u := u) (k := k) (by omega))).2
        rw [horigin, hremoved] at hkept
        cases hkept
  rw [residual, residual, right_strip hu.toConsistent hphase hi, activity, activity, layout_strip,
    variableCount_withoutArtificial, hcount, Finset.sum_range_add, htail, add_zero]
  congr 1
  refine Finset.sum_congr rfl fun j hj => ?_
  rw [entry_strip hu.toConsistent hphase hi (Finset.mem_range.1 hj)]

/-- The solutions of what is left are those of the whole tableau that also solve the removed rows,
for values that are zero in the artificial columns outside of the basis. -/
theorem solves_strip (hu : u.Sound) (hphase : u.layout.inPhaseOne = true)
    (hX : ∀ j, u.layout.isArtificial j = true → u.isBasic j = false → X j = 0) :
    u.Solves X ↔ (u.strip u.artificialRows).Solves X ∧
      ∀ r ∈ u.artificialRows, u.residual r X = 0 := by
  constructor
  · intro h
    refine ⟨fun s hs => ?_, fun r hr => h r (mem_artificialRows.1 hr).1⟩
    obtain ⟨k, hk, rfl⟩ := (mem_constraintRows_strip hu.toConsistent hphase).1 hs
    rw [residual_strip hu hphase hX (by omega)]
    exact h _ (mem_survivors.1 (origin_mem hk)).1
  · rintro ⟨hstrip, hremoved⟩ r hr
    cases hart : u.hasArtificialBasis r with
    | true => exact hremoved r (mem_artificialRows.2 ⟨hr, hart⟩)
    | false =>
      obtain ⟨k, hk, rfl⟩ := exists_origin_eq (mem_survivors.2 ⟨hr, hart⟩)
      rw [← residual_strip hu hphase hX (by omega)]
      exact hstrip _ ((mem_constraintRows_strip hu.toConsistent hphase).2 ⟨k, hk, rfl⟩)

/-- What the equation of a row leaves for its artificial variable when the other artificial
variables are zero. -/
def remainder (u : Tableau K) (r : Nat) (X : Nat → K) : K :=
  u.right r - ∑ j ∈ Finset.range u.layout.artificialStart, u.entry r j * X j

/-- In a removed row, only the artificial variable that is basic there adds to the others. -/
theorem sum_outside_eq (hu : u.Sound) (hr : r ∈ u.artificialRows)
    (hX : ∀ j, u.layout.isArtificial j = true → u.isBasic j = false → X j = 0) :
    ∑ j ∈ u.outside, u.entry r j * X j =
      ∑ j ∈ Finset.range u.layout.artificialStart, u.entry r j * X j := by
  have hfree : ∑ j ∈ u.outside.filter (· < u.layout.artificialStart), u.entry r j * X j =
      ∑ j ∈ u.outside, u.entry r j * X j := by
    refine Finset.sum_subset_zero_on_sdiff (Finset.filter_subset _ _) (fun j hj => ?_)
      fun _ _ => rfl
    obtain ⟨hmem, hnot⟩ := Finset.mem_sdiff.1 hj
    obtain ⟨hlt, hb⟩ := mem_outside.1 hmem
    have hle : ¬ j < u.layout.artificialStart := fun h => hnot (Finset.mem_filter.2 ⟨hmem, h⟩)
    rw [hX j (by rw [Layout.isArtificial, decide_eq_true (by omega), decide_eq_true hlt]; rfl) hb,
      mul_zero]
  rw [← hfree]
  refine Finset.sum_subset_zero_on_sdiff (fun j hj => ?_) (fun j hj => ?_) fun _ _ => rfl
  · exact Finset.mem_range.2 (Finset.mem_filter.1 hj).2
  · obtain ⟨hmem, hnot⟩ := Finset.mem_sdiff.1 hj
    have hlt := Finset.mem_range.1 hmem
    have hb : u.isBasic j = true := by
      by_contra hb
      refine hnot (Finset.mem_filter.2 ⟨mem_outside.2 ⟨?_, by simpa using hb⟩, hlt⟩)
      exact Nat.lt_of_lt_of_le hlt (Nat.le_add_right _ _)
    obtain ⟨s, hs, rfl⟩ := (hu.isBasic_iff j).1 hb
    rw [hu.entry_eq_zero hs, zero_mul]
    rintro rfl
    have hart := (mem_artificialRows.1 hr).2
    rw [hasArtificialBasis, Layout.isArtificial, decide_eq_false (Nat.not_le_of_lt hlt)] at hart
    cases hart

/-- **A solution of what is left extends to the whole tableau.** The artificial variables of the
removed rows take what these rows leave for them, and all others are zero. -/
theorem exists_extension (hu : u.Sound) (hphase : u.layout.inPhaseOne = true)
    (hX : (u.strip u.artificialRows).Solves X) :
    ∃ Y, u.Solves Y ∧ (∀ j < u.layout.artificialStart, Y j = X j) ∧
      (∀ j, u.layout.isArtificial j = true → u.isBasic j = false → Y j = 0) ∧
      ∀ r ∈ u.artificialRows, Y (u.basicColumn r) = u.remainder r X := by
  obtain ⟨Y, hY, hN⟩ := hu.exists_solves fun j =>
    if j < u.layout.artificialStart then X j else 0
  have hzero : ∀ j, u.layout.isArtificial j = true → u.isBasic j = false → Y j = 0 := by
    intro j hart hb
    rw [hN j hb, if_neg]
    intro hlt
    rw [Layout.isArtificial, decide_eq_false (Nat.not_le_of_lt hlt)] at hart
    cases hart
  have hstrip := ((solves_strip hu hphase hzero).1 hY).1
  have hsound := hu.strip hphase
  have hfree : ∀ j < u.layout.artificialStart, u.isBasic j = false → Y j = X j := by
    intro j hj hb
    rw [hN j hb, if_pos hj]
  have hagree : ∀ j < u.layout.artificialStart, Y j = X j := by
    intro j hj
    cases hb : u.isBasic j with
    | false => exact hfree j hj hb
    | true =>
      have hb' : (u.strip u.artificialRows).isBasic j = true := by
        rw [isBasic_strip hu.toConsistent, hb, decide_eq_true hj]
        rfl
      obtain ⟨s, hs, rfl⟩ := (hsound.isBasic_iff j).1 hb'
      rw [(hsound.solves_iff Y).1 hstrip s hs, (hsound.solves_iff X).1 hX s hs]
      congr 1
      refine Finset.sum_congr rfl fun k hk => ?_
      obtain ⟨hlt, hout⟩ := mem_outside.1 hk
      rw [layout_strip, variableCount_withoutArtificial] at hlt
      rw [isBasic_strip hu.toConsistent, decide_eq_true hlt, Bool.true_and] at hout
      rw [hfree k hlt hout]
  refine ⟨Y, hY, hagree, hzero, fun r hr => ?_⟩
  rw [(hu.solves_iff Y).1 hY r (mem_artificialRows.1 hr).1, sum_outside_eq hu hr hzero, remainder]
  congr 1
  exact Finset.sum_congr rfl fun j hj => by rw [hagree j (Finset.mem_range.1 hj)]

/-! ## The change of phase -/

/-- Once the artificial variables are replaced, what is left is what remains without the rows and
columns that are no longer needed. -/
theorem dropArtificials_eq (hphase : t.layout.inPhaseOne = true)
    (h : t.replaceArtificials = .ok (u, u.artificialRows)) (hu : u.Sound)
    (hsame : SameProgram t u) :
    t.dropArtificials =
      .ok (u.strip u.artificialRows, u.artificialRows.map (· - u.layout.costRows)) := by
  have hremoved : u.artificialRows.all (fun row => u.isBasic (u.basicColumn row)) = true := by
    rw [List.all_eq_true]
    exact fun r hr => hu.isBasic_basicColumn (mem_artificialRows.1 hr).1
  have hbasis : (u.strip u.artificialRows).basis.all
      (· < (u.strip u.artificialRows).layout.variableCount) = true := by
    rw [Array.all_eq_true]
    intro k hk
    have hsound := hu.toConsistent.strip (by rwa [hsame.layout])
    rw [Consistent.basis_getElem hk, decide_eq_true_eq]
    refine hsound.basicColumn_lt (mem_constraintRows.2 ?_)
    have := hsound.basisSize
    have := hsound.costRows_le
    simp only [constraintCount, rowCount] at *
    omega
  rw [dropArtificials, if_pos hphase, h]
  dsimp only
  rw [hremoved, hbasis]
  rfl

variable [IsStrictOrderedRing K]

/-- A replacement keeps the right-hand sides above minus the tolerance. -/
theorem right_replacement (hu : u.Sound) (htol : 0 ≤ u.tolerance) (hr : r ∈ u.constraintRows)
    (hrep : u.replacement r = some c)
    (hright : ∀ s ∈ u.constraintRows, -u.tolerance ≤ u.right s) :
    ∀ s ∈ u.constraintRows, -u.tolerance ≤ (u.exchange r c).right s := by
  obtain ⟨hlt, hb, hmay, hentry⟩ := replacement_eq_some htol hrep
  have hc : c < u.layout.variableCount := hlt.trans_le (Nat.le_add_right _ _)
  intro s hs
  rw [exchange_right hu.toConsistent hr hc hentry]
  unfold mayReplace at hmay
  by_cases hzero : u.right r = 0
  · -- At value zero no right-hand side moves.
    rw [hzero, zero_div, mul_zero, sub_zero]
    split
    · exact neg_nonpos.2 htol
    · exact hright s hs
  · rw [if_neg (by simpa using hzero), keepsFeasible] at hmay
    dsimp only at hmay
    split at hmay
    · cases hmay
    · next hsign =>
      split
      · have hstep : 0 ≤ u.right r / u.entry r c := by
          simp only [Bool.or_eq_true, bne_iff_ne, not_or, Ne, not_not, decide_eq_decide] at hsign
          rcases lt_or_gt_of_ne hentry with hneg | hpos
          · have hvalue : u.right r ≤ 0 := not_lt.1 fun h => lt_asymm hneg (hsign.2.2 h)
            exact div_nonneg_of_nonpos hvalue hneg.le
          · exact div_nonneg (hsign.2.1 hpos).le hpos.le
        exact (neg_nonpos.2 htol).trans hstep
      · next hsr =>
        have hall := List.all_eq_true.1 hmay s hs
        simpa [hsr] using hall

/-- **Leaving phase one never fails.** The result is sound, and no right-hand side falls below minus
the tolerance if none is there before. -/
theorem dropArtificials_spec (ht : t.Sound) (htol : 0 ≤ t.tolerance)
    (hphase : t.layout.inPhaseOne = true) :
    ∃ u, t.replaceArtificials = .ok (u, u.artificialRows) ∧ u.Sound ∧ SameProgram t u ∧
      ((∀ s ∈ t.constraintRows, -t.tolerance ≤ t.right s) →
        ∀ s ∈ u.constraintRows, -u.tolerance ≤ u.right s) ∧
      t.dropArtificials =
        .ok (u.strip u.artificialRows, u.artificialRows.map (· - u.layout.costRows)) := by
  obtain ⟨u, hreplace, hu, hsame, hright⟩ := replaceArtificials_rule ht htol
    (fun u _ => (∀ s ∈ t.constraintRows, -t.tolerance ≤ t.right s) →
      ∀ s ∈ u.constraintRows, -u.tolerance ≤ u.right s) id
    (fun u _ r c hu hsame hmotive hr _ _ hrep hright s hs =>
      right_replacement hu (by rwa [hsame.tolerance]) hr hrep (hmotive hright) s
        (by rwa [exchange_constraintRows] at hs))
    fun u _ _ _ _ hmotive _ _ _ => hmotive
  exact ⟨u, hreplace, hu, hsame, hright, dropArtificials_eq hphase hreplace hu hsame⟩

end

end Tableau

end Simplex
