import Mathlib.Data.Nat.Nth
import Simplex.Proofs.BasisInvariant

/-!
# Which positions are removed

The removal of positions passes once through a list, with the positions still to be removed at hand.
It removes exactly these: what is left at a place stood at the position of that rank among those
that are not removed (`removeAt_keeps`). The pass does not look at the members, so lists that are
passed with the same positions stay in step (`removeFrom_zip`), and positions in the first part of a
list do not interfere with those in the rest (`removeFrom_append`). So a constraint row, below the
cost rows, and the member of the basis that belongs to it keep belonging to each other
(`Tableau.getElem?_strip`).
-/

namespace Simplex

section
variable {α β : Type} {index : Nat} {ps : List Nat}

/-! ## One pass -/

/-- The members do not matter: they can be exchanged before or after the pass. -/
theorem removeFrom_map (f : α → β) (index : Nat) (ps : List Nat) (xs : List α) :
    removeFrom index ps (xs.map f) = (removeFrom index ps xs).map f := by
  induction xs generalizing index ps with
  | nil => rw [List.map_nil, removeFrom, removeFrom, List.map_nil]
  | cons x xs ih =>
    cases ps with
    | nil => rw [removeFrom_nil, removeFrom_nil]
    | cons p ps =>
      rw [List.map_cons, removeFrom, removeFrom]
      split
      · rw [List.map_cons, ih]
      · rw [ih]

/-- **Two lists that are passed with the same positions stay in step.** -/
theorem removeFrom_zip (index : Nat) (ps : List Nat) (xs : List α) (ys : List β) :
    removeFrom index ps (xs.zip ys) = (removeFrom index ps xs).zip (removeFrom index ps ys) := by
  induction xs generalizing index ps ys with
  | nil => rw [List.zip_nil_left, removeFrom, removeFrom, List.zip_nil_left]
  | cons x xs ih =>
    cases ys with
    | nil => rw [List.zip_nil_right, removeFrom, removeFrom, List.zip_nil_right]
    | cons y ys =>
      cases ps with
      | nil => rw [removeFrom_nil, removeFrom_nil, removeFrom_nil]
      | cons p ps =>
        rw [List.zip_cons_cons, removeFrom, removeFrom, removeFrom]
        split
        · rw [List.zip_cons_cons, ih]
        · rw [ih]

/-- Only the distance of the positions from the place of the first member matters. -/
theorem removeFrom_shift (n index : Nat) (ps : List Nat) (xs : List α) :
    removeFrom (index + n) (ps.map (· + n)) xs = removeFrom index ps xs := by
  induction xs generalizing index ps with
  | nil => rw [removeFrom, removeFrom]
  | cons x xs ih =>
    cases ps with
    | nil => rw [List.map_nil, removeFrom_nil, removeFrom_nil]
    | cons p ps =>
      have hcons : (p + n) :: ps.map (· + n) = (p :: ps).map (· + n) := rfl
      rw [List.map_cons, removeFrom, removeFrom, hcons, Nat.add_right_comm, ih, ih]
      exact if_congr Nat.add_lt_add_iff_right rfl rfl

/-- **A list in two parts is passed part by part.** -/
theorem removeFrom_append {qs : List Nat} (hqs : qs.Pairwise (· < ·)) (hle : ∀ q ∈ qs, index ≤ q)
    {heads : List α} (hlt : ∀ q ∈ qs, q < index + heads.length)
    (hps : ∀ p ∈ ps, index + heads.length ≤ p) (xs : List α) :
    removeFrom index (qs ++ ps) (heads ++ xs) =
      removeFrom index qs heads ++ removeFrom (index + heads.length) ps xs := by
  induction heads generalizing index qs with
  | nil =>
    have hnil : qs = [] := List.eq_nil_iff_forall_not_mem.2 fun q hq =>
      absurd (hlt q hq) (Nat.not_lt_of_le (hle q hq))
    rw [hnil, List.nil_append, List.nil_append, removeFrom_nil, List.nil_append, List.length_nil,
      Nat.add_zero]
  | cons x heads ih =>
    rw [List.length_cons, Nat.add_comm heads.length 1, ← Nat.add_assoc] at hlt hps ⊢
    have hrest : ∀ p ∈ ps, index < p := fun p hp => by
      have := hps p hp
      omega
    rcases position_cases hqs hle with hkeep | ⟨qs, rfl, hqs, hgt⟩
    · have hall : ∀ p ∈ qs ++ ps, index < p := fun p hp =>
        (List.mem_append.1 hp).elim (hkeep p) (hrest p)
      rw [List.cons_append, removeFrom_keep hall, removeFrom_keep hkeep, List.cons_append,
        ih hqs hkeep hlt hps]
    · rw [List.cons_append, List.cons_append, removeFrom_drop, removeFrom_drop,
        ih hqs hgt (fun q hq => hlt q (.tail _ hq)) hps]

/-! ## What is left -/

/-- The positions of a list that are not removed, read off the list. -/
theorem map_some_removePositions (hps : ps.Pairwise (· < ·)) (xs : List α) :
    (removePositions ps xs).map some =
      ((List.range xs.length).filter (· ∉ ps)).map (xs[·]?) := by
  have hread : xs.map some = (List.range' 0 xs.length).map (xs[·]?) := by
    refine List.ext_getElem? fun i => ?_
    rw [List.getElem?_map, List.getElem?_map, ← List.range_eq_range']
    rcases Nat.lt_or_ge i xs.length with hi | hi
    · rw [List.getElem?_eq_getElem hi, List.getElem?_range hi, Option.map_some, Option.map_some,
        List.getElem?_eq_getElem hi]
    · rw [List.getElem?_eq_none hi, List.getElem?_eq_none (by simpa using hi), Option.map_none,
        Option.map_none]
  rw [removePositions, ← removeFrom_map, hread,
    removeFrom_map_range' _ _ 0 ps hps fun _ _ => Nat.zero_le _, List.range_eq_range']

/-- A member of an initial segment of the numbers with a property, by its rank. -/
theorem getElem?_filter_range (q : Nat → Prop) [DecidablePred q] {n k : Nat}
    (hk : k < Nat.count q n) : ((List.range n).filter q)[k]? = some (Nat.nth q k) := by
  induction n with
  | zero =>
    rw [Nat.count_zero] at hk
    exact absurd hk (Nat.not_lt_zero k)
  | succ n ih =>
    have hlength : ((List.range n).filter q).length = Nat.count q n :=
      List.countP_eq_length_filter.symm
    rw [List.range_succ, List.filter_append]
    rcases Nat.lt_or_ge k (Nat.count q n) with hlt | hge
    · rw [List.getElem?_append_left (by rwa [hlength]), ih hlt]
    · rw [Nat.count_succ] at hk
      have hn : q n := by
        by_contra hn
        rw [if_neg hn] at hk
        omega
      rw [if_pos hn] at hk
      obtain rfl : k = Nat.count q n := by omega
      rw [List.getElem?_append_right hlength.le, hlength, Nat.sub_self, Nat.nth_count hn,
        List.filter_cons_of_pos (by simpa using hn)]
      rfl

/-- The number of positions that are not removed. -/
theorem count_notMem {n : Nat} (hps : ps.Nodup) (hlt : ∀ p ∈ ps, p < n) :
    Nat.count (· ∉ ps) n = n - ps.length := by
  have hremoved : ((List.range n).filter (· ∈ ps)).Perm ps := by
    refine (List.perm_ext_iff_of_nodup (List.nodup_range.filter _) hps).2 fun p => ?_
    rw [List.mem_filter, List.mem_range, decide_eq_true_iff, and_iff_right_of_imp (hlt p)]
  have htotal := List.length_eq_countP_add_countP (fun p => decide (p ∈ ps)) (l := List.range n)
  rw [List.length_range, List.countP_eq_length_filter, hremoved.length_eq] at htotal
  have hkept : Nat.count (· ∉ ps) n =
      (List.range n).countP fun p => decide (¬ decide (p ∈ ps) = true) := by
    refine List.countP_congr fun p _ => ?_
    simp
  omega

/-- The positions that are not removed, in increasing order. -/
noncomputable def keptPosition (ps : List Nat) (k : Nat) : Nat := Nat.nth (· ∉ ps) k

/-- The positions that are not removed are those of the array. -/
theorem keptPosition_lt {n k : Nat} (hps : ps.Pairwise (· < ·)) (hlt : ∀ p ∈ ps, p < n)
    (hk : k < n - ps.length) : keptPosition ps k < n :=
  Nat.nth_lt_of_lt_count (by rwa [count_notMem (hps.imp Nat.ne_of_lt) hlt])

variable {xs : Array α}

/-- Each position that is removed costs one member. -/
theorem size_removeAt (hps : ps.Pairwise (· < ·)) (hlt : ∀ p ∈ ps, p < xs.size) :
    (removeAt ps xs).size = xs.size - ps.length := by
  have hlength := congrArg List.length (map_some_removePositions hps xs.toList)
  rw [List.length_map, List.length_map, ← List.countP_eq_length_filter] at hlength
  have hcount : Nat.count (· ∉ ps) xs.toList.length = xs.size - ps.length :=
    count_notMem (hps.imp Nat.ne_of_lt) hlt
  rw [removeAt, List.size_toArray, hlength, ← hcount]
  rfl

/-- What is left at a place is what stood at the position of that rank. -/
theorem getElem?_removeAt (hps : ps.Pairwise (· < ·)) (hlt : ∀ p ∈ ps, p < xs.size) {k : Nat}
    (hk : k < xs.size - ps.length) : (removeAt ps xs)[k]? = xs[keptPosition ps k]? := by
  have hcount : Nat.count (· ∉ ps) xs.toList.length = xs.size - ps.length :=
    count_notMem (hps.imp Nat.ne_of_lt) hlt
  have hread := congrArg (fun ys => ys[k]?) (map_some_removePositions hps xs.toList)
  rw [List.getElem?_map, List.getElem?_map, getElem?_filter_range _ (by rwa [hcount]),
    Option.map_some, Option.map_eq_some_iff] at hread
  obtain ⟨x, hx, hkept⟩ := hread
  rw [removeAt, List.getElem?_toArray, hx, hkept, Array.getElem?_toList]
  rfl

/-- Two arrays of which the same positions are removed stay in step. -/
theorem removeAt_zip (ps : List Nat) (xs : Array α) (ys : Array β) :
    removeAt ps (xs.zip ys) = (removeAt ps xs).zip (removeAt ps ys) := by
  apply Array.ext'
  rw [Array.toList_zip]
  simp only [removeAt, Array.toList_zip]
  exact removeFrom_zip 0 ps xs.toList ys.toList

/-- Positions in the first part of an array do not interfere with those in the rest. -/
theorem removeAt_append {qs : List Nat} {heads : Array α} (hqs : qs.Pairwise (· < ·))
    (hlt : ∀ q ∈ qs, q < heads.size) (ps : List Nat) (xs : Array α) :
    removeAt (qs ++ ps.map (· + heads.size)) (heads ++ xs) =
      removeAt qs heads ++ removeAt ps xs := by
  apply Array.ext'
  have hrest : ∀ p ∈ ps.map (· + heads.size), 0 + heads.toList.length ≤ p := by
    intro p hp
    obtain ⟨q, -, rfl⟩ := List.mem_map.1 hp
    rw [Array.length_toList, Nat.zero_add]
    exact Nat.le_add_left _ _
  have happend := removeFrom_append hqs (fun _ _ => Nat.zero_le _)
    (fun q hq => by rw [Array.length_toList, Nat.zero_add]; exact hlt q hq) hrest xs.toList
  rw [Array.length_toList, removeFrom_shift] at happend
  simpa only [removeAt, removePositions, Array.toList_append] using happend

/-- **Removing positions removes exactly these.** Increasing positions that exist may be removed.
What is left has one member less for each of them, and its member at a place is the one at the
position of that rank among those that are kept. So of two arrays of one size what stood side by
side still does, also if one of them has other members in front that keep their own positions. -/
theorem removeAt_keeps (hps : ps.Pairwise (· < ·)) (hlt : ∀ p ∈ ps, p < xs.size) :
    Removable ps xs ∧ (removeAt ps xs).size = xs.size - ps.length ∧
      (∀ k < (removeAt ps xs).size, (removeAt ps xs)[k]? = xs[keptPosition ps k]?) ∧
      ∀ ys : Array β, ys.size = xs.size → (removeAt ps ys).size = (removeAt ps xs).size ∧
        (removeAt ps xs).zip (removeAt ps ys) = removeAt ps (xs.zip ys) ∧
        ∀ (heads : Array β) (qs : List Nat), qs.Pairwise (· < ·) → (∀ q ∈ qs, q < heads.size) →
          removeAt (qs ++ ps.map (· + heads.size)) (heads ++ ys) =
            removeAt qs heads ++ removeAt ps ys := by
  have hsize := size_removeAt hps hlt
  refine ⟨.of_pairwise hps hlt, hsize, fun k hk => ?_, fun ys hys => ⟨?_, ?_, ?_⟩⟩
  · exact getElem?_removeAt hps hlt (by rwa [← hsize])
  · rw [size_removeAt hps (by rwa [hys]), hys, hsize]
  · exact (removeAt_zip ps xs ys).symm
  · exact fun heads qs hqs hheads => removeAt_append hqs hheads ps ys

/-- The first two and the last of six letters, and the numbers beside the letters, are removed,
below two other numbers of which the first is removed as well. -/
theorem removeAt_keeps_letters : let letters := #['a', 'b', 'c', 'd', 'e', 'f']
    let numbers := #[10, 11, 12, 13, 14, 15]
    removeAt [0, 1, 5] letters = #['c', 'd', 'e'] ∧ Removable [0, 1, 5] letters ∧
      (∀ k < 3, (removeAt [0, 1, 5] letters)[k]? = letters[keptPosition [0, 1, 5] k]?) ∧
      removeAt [0, 1, 5] (letters.zip numbers) = #[('c', 12), ('d', 13), ('e', 14)] ∧
      removeAt [0, 2, 3, 7] (#[1, 2] ++ numbers) = #[2] ++ removeAt [0, 1, 5] numbers := by
  intro letters numbers
  have hletters : removeAt [0, 1, 5] letters = #['c', 'd', 'e'] := by decide
  have hnumbers : removeAt [0, 1, 5] numbers = #[12, 13, 14] := by decide
  have hincreasing : [0, 1, 5].Pairwise (· < ·) := by decide
  have hlt : ∀ p ∈ [0, 1, 5], p < letters.size := by decide
  obtain ⟨hremovable, hsize, hkept, hbeside⟩ := removeAt_keeps hincreasing hlt
  obtain ⟨-, hzip, hfront⟩ := hbeside numbers rfl
  refine ⟨hletters, hremovable, fun k hk => hkept k (by rwa [hsize]), ?_, ?_⟩
  · rw [← hzip, hletters, hnumbers]
    simp
  · exact hfront #[1, 2] [0] (by decide) (by decide)

end

/-! ## Rows and basis -/

namespace Tableau

variable {F : Type} {t : Tableau F} {ps : List Nat} {k : Nat}

/-- **The constraint rows that are left keep their basic columns.** Below the cost row, a row and the
member of the basis at the same place come from the same constraint. -/
theorem getElem?_strip (hphase : t.layout.inPhaseOne = true)
    (hrows : t.rows.size = t.layout.costRows + t.basis.size) (hps : ps.Pairwise (· < ·))
    (hlt : ∀ p ∈ ps, p < t.basis.size) (hk : k < t.basis.size - ps.length) :
    (t.strip (ps.map (· + t.layout.costRows))).basis[k]? = t.basis[keptPosition ps k]? ∧
      (t.strip (ps.map (· + t.layout.costRows))).rows[k + 1]? =
        (t.rows[keptPosition ps k + t.layout.costRows]?).map
          (removeAt t.layout.artificialColumns) := by
  have hcosts : t.layout.costRows = 2 := costRows_of_inPhaseOne hphase
  constructor
  · have hback : (ps.map (· + t.layout.costRows)).map (· - t.layout.costRows) = ps := by
      rw [List.map_map]
      exact List.map_id'' (fun p => Nat.add_sub_cancel p t.layout.costRows) ps
    show (removeAt ((ps.map (· + t.layout.costRows)).map (· - t.layout.costRows)) t.basis)[k]? = _
    rw [hback, getElem?_removeAt hps hlt hk]
  · have hsize : t.rows.size = 2 + t.basis.size := by rw [hrows, hcosts]
    have hheads : (t.rows.extract 0 2).size = 2 := by simp [hsize]
    have hbody : (t.rows.extract 2).size = t.basis.size := by simp [hsize]
    -- The cost rows are passed first, and the first of them is removed.
    have hzero : ∀ q ∈ [0], q < (t.rows.extract 0 2).size := by simp [hheads]
    have hparts : t.rows.extract 0 2 ++ t.rows.extract 2 = t.rows := by simp [hsize]
    have hremove := removeAt_append (List.pairwise_singleton _ 0) hzero ps (t.rows.extract 2)
    have hcost : (removeAt [0] (t.rows.extract 0 2)).size = 1 := by
      rw [size_removeAt (List.pairwise_singleton _ 0) hzero, hheads, List.length_singleton]
    rw [hparts, hheads] at hremove
    show ((removeAt (0 :: ps.map (· + t.layout.costRows)) t.rows).map
      (removeAt t.layout.artificialColumns))[k + 1]? = _
    rw [hcosts, Array.getElem?_map, ← List.singleton_append, hremove,
      Array.getElem?_append_right (by rw [hcost]; exact Nat.le_add_left 1 k), hcost,
      Nat.add_sub_cancel, getElem?_removeAt hps (by rwa [hbody]) (by rwa [hbody]),
      Array.getElem?_extract, if_pos, Nat.add_comm]
    rw [Nat.min_self, hsize, Nat.add_sub_cancel_left]
    exact keptPosition_lt hps hlt hk

end Tableau

end Simplex
