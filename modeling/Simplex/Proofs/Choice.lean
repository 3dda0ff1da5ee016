import Simplex.Proofs.Basis
import Simplex.Proofs.Field
import Simplex.Trail

/-!
# Which pivot is made

The searches of the method are single passes that keep the best position so far. Each finds a
position that it may take, and finds none only if there is none: for the entering column a
profitable column outside of the basis (`Tableau.entering_eq_some`, `Tableau.entering_eq_none_iff`),
for the pivot row a constraint row whose entry is above the tolerance
(`Tableau.leavingRow_eq_some`, `Tableau.leavingRow_eq_none_iff`). Without a tolerance the ratio of
the pivot row is the least of all (`Tableau.ratio_le_of_leavingRow`).
-/

namespace Simplex

/-! ## Searches that keep the best position -/

/-- One step of a search for the best position among the admissible ones. -/
def keepBest (admissible : Nat → Bool) (better : Nat → Nat → Bool) (best : Option Nat) (j : Nat) :
    Option Nat :=
  if admissible j then
    match best with
    | none => some j
    | some k => if better j k then some j else some k
  else best

section
variable {admissible : Nat → Bool} {better : Nat → Nat → Bool} {j : Nat}

/-- A position that is not admissible changes nothing. -/
theorem keepBest_of_not {best : Option Nat} (h : admissible j = false) :
    keepBest admissible better best j = best := by
  rw [keepBest.eq_def, h]
  rfl

/-- The first admissible position is kept. -/
theorem keepBest_none (h : admissible j = true) :
    keepBest admissible better none j = some j := if_pos h

/-- An admissible position takes the place of the one that is kept if it is better. -/
theorem keepBest_some {k : Nat} (h : admissible j = true) :
    keepBest admissible better (some k) j = if better j k then some j else some k := if_pos h

/-- What is kept after a step was kept before, or it is the position of the step. -/
theorem keepBest_eq_some {best : Option Nat} {c : Nat}
    (h : keepBest admissible better best j = some c) :
    best = some c ∨ c = j ∧ admissible c = true := by
  cases hadm : admissible j with
  | false => exact .inl (by rwa [keepBest_of_not hadm] at h)
  | true =>
    cases best with
    | none =>
      rw [keepBest_none hadm] at h
      cases h
      exact .inr ⟨rfl, hadm⟩
    | some k =>
      rw [keepBest_some hadm] at h
      split at h
      · cases h
        exact .inr ⟨rfl, hadm⟩
      · exact .inl h

end

/-- A search ends with a position it started with or an admissible one that it came by. -/
theorem foldl_keepBest_eq_some {admissible : Nat → Bool} {better : Nat → Nat → Bool} {c : Nat}
    {js : List Nat} {best : Option Nat} (h : js.foldl (keepBest admissible better) best = some c) :
    best = some c ∨ c ∈ js ∧ admissible c = true := by
  induction js generalizing best with
  | nil => exact .inl h
  | cons j js ih =>
    rcases ih h with hbest | ⟨hmem, hadm⟩
    · rcases keepBest_eq_some hbest with hbest | ⟨rfl, hadm⟩
      · exact .inl hbest
      · exact .inr ⟨.head _, hadm⟩
    · exact .inr ⟨.tail _ hmem, hadm⟩

/-- A search that starts with nothing ends with nothing when no position is admissible. -/
theorem foldl_keepBest_eq_none_iff {admissible : Nat → Bool} {better : Nat → Nat → Bool}
    {js : List Nat} {best : Option Nat} : js.foldl (keepBest admissible better) best = none ↔
      best = none ∧ ∀ j ∈ js, admissible j = false := by
  induction js generalizing best with
  | nil => simp
  | cons j js ih =>
    rw [List.foldl_cons, ih, List.forall_mem_cons, ← and_assoc]
    refine and_congr_left fun _ => ?_
    unfold keepBest
    split
    · next hadm =>
      simp only [hadm, Bool.true_eq_false, and_false, iff_false]
      split
      · exact fun h => nomatch h
      · split <;> exact fun h => nomatch h
    · next hadm => simp [hadm]

/-- Two searches through the same positions find the same, if they judge these positions alike. -/
theorem foldl_keepBest_congr {admissible admissible' : Nat → Bool}
    {better better' : Nat → Nat → Bool} {P : Nat → Prop}
    (hadm : ∀ j, P j → admissible' j = admissible j)
    (hbetter : ∀ j k, P j → P k → better' j k = better j k) {js : List Nat} (hjs : ∀ j ∈ js, P j)
    {best : Option Nat} (hbest : ∀ k, best = some k → P k) :
    js.foldl (keepBest admissible' better') best = js.foldl (keepBest admissible better) best := by
  induction js generalizing best with
  | nil => rfl
  | cons j js ih =>
    obtain ⟨hj, hjs⟩ := List.forall_mem_cons.1 hjs
    have hstep : keepBest admissible' better' best j = keepBest admissible better best j := by
      unfold keepBest
      rw [hadm j hj]
      split
      · cases best with
        | none => rfl
        | some k =>
          dsimp only
          rw [hbetter j k hj (hbest k rfl)]
      · rfl
    rw [List.foldl_cons, List.foldl_cons, hstep]
    refine ih hjs fun k hk => ?_
    rcases keepBest_eq_some hk with hk | ⟨rfl, -⟩
    · exact hbest k hk
    · exact hj

namespace Tableau

section
variable {F : Type} [Scalar F] {t : Tableau F} {rule : PivotRule} {r c : Nat}

/-! ## The entering column -/

/-- Looking for the least relative cost is a search for the best position. The cost that is kept
beside a position is that of the position. -/
theorem steepest_eq : t.steepest = (t.nonBasic.foldl
    (keepBest t.isProfitable fun j k => decide (t.cost j < t.cost k)) none).map
      fun j => (j, t.cost j) := by
  unfold steepest
  refine @List.foldl_hom _ _ _ (Option.map fun j => (j, t.cost j)) _ _ t.nonBasic none
    fun best j => ?_
  unfold keepBest
  cases t.isProfitable j with
  | false => rfl
  | true =>
    cases best with
    | none => rfl
    | some k =>
      simp only [Option.map_some, Option.all_some, Bool.true_and, ↓reduceIte]
      split <;> rfl

/-- Under the steepest rule the best profitable column enters. -/
theorem entering_steepest : t.entering .steepest = t.nonBasic.foldl
    (keepBest t.isProfitable fun j k => decide (t.cost j < t.cost k)) none := by
  rw [entering, select, steepest_eq, Option.map_map]
  exact Option.map_id'

/-- Under the other rule the first profitable column enters. -/
theorem entering_first : t.entering .first = t.nonBasic.find? t.isProfitable := by
  rw [entering, select, firstProfitable, Option.map_map]
  exact Option.map_id'

/-- A rule selects the column that enters, with its relative cost. -/
theorem select_eq (t : Tableau F) (rule : PivotRule) :
    t.select rule = (t.entering rule).map fun j => (j, t.cost j) := by
  cases rule with
  | steepest => rw [select, steepest_eq, entering_steepest]
  | first => rw [select, firstProfitable, entering_first]

/-- The entering column is a profitable column outside of the basis. -/
theorem entering_eq_some (h : t.entering rule = some c) :
    c ∈ t.nonBasic ∧ t.isProfitable c = true := by
  cases rule with
  | steepest =>
    rw [entering_steepest] at h
    exact (foldl_keepBest_eq_some h).resolve_left fun hf => nomatch hf
  | first =>
    rw [entering_first] at h
    exact ⟨List.mem_of_find?_eq_some h, List.find?_some h⟩

/-- No column enters exactly if none is profitable, under both rules. -/
theorem entering_eq_none_iff (t : Tableau F) (rule : PivotRule) :
    t.entering rule = none ↔ ∀ c ∈ t.nonBasic, t.isProfitable c = false := by
  cases rule with
  | steepest =>
    rw [entering_steepest, foldl_keepBest_eq_none_iff]
    exact and_iff_right rfl
  | first =>
    rw [entering_first, List.find?_eq_none]
    exact forall₂_congr fun _ _ => Bool.not_eq_true _ |>.to_iff

/-! ## The pivot row -/

/-- The rows that bound the growth of a column. -/
theorem mem_candidates {x : Candidate F} :
    x ∈ t.candidates c ↔
      ∃ r ∈ t.constraintRows, t.tolerance < t.entry r c ∧ x = t.candidate c r := by
  simp only [candidates, List.mem_map, List.mem_filter, decide_eq_true_eq, and_assoc]
  exact exists_congr fun r => and_congr_right fun _ => and_congr_right fun _ => eq_comm

/-- Whichever row wins a comparison is one of the two. -/
theorem Candidate.challenge_row (tolerance : F) (best next : Candidate F) :
    (best.challenge tolerance next).row = best.row ∨
      (best.challenge tolerance next).row = next.row := by
  unfold challenge
  split
  · dsimp only
    split
    · exact .inr rfl
    · exact .inl rfl
  · split
    · exact .inr rfl
    · exact .inl rfl

/-- The row that is left after all comparisons is one of those compared. -/
theorem foldl_challenge_row (tolerance : F) (others : List (Candidate F)) (first : Candidate F) :
    ∃ x ∈ first :: others, (others.foldl (Candidate.challenge tolerance) first).row = x.row := by
  induction others generalizing first with
  | nil => exact ⟨first, .head _, rfl⟩
  | cons next others ih =>
    obtain ⟨x, hx, hrow⟩ := ih (first.challenge tolerance next)
    rcases List.mem_cons.1 hx with rfl | hx
    · rcases first.challenge_row tolerance next with h | h
      · exact ⟨first, .head _, hrow.trans h⟩
      · exact ⟨next, .tail _ (.head _), hrow.trans h⟩
    · exact ⟨x, .tail _ (.tail _ hx), hrow⟩

/-- The pivot row is a constraint row whose entry is above the tolerance. -/
theorem leavingRow_eq_some (h : t.leavingRow c = some r) :
    r ∈ t.constraintRows ∧ t.tolerance < t.entry r c := by
  unfold leavingRow at h
  split at h
  · cases h
  · next first others hc =>
    obtain ⟨x, hx, hrow⟩ := foldl_challenge_row t.tolerance others first
    obtain ⟨s, hs, hentry, rfl⟩ := mem_candidates.1 (hc ▸ hx)
    cases h
    rw [hrow]
    exact ⟨hs, hentry⟩

/-- There is no pivot row exactly if no entry of the column is above the tolerance. -/
theorem leavingRow_eq_none_iff :
    t.leavingRow c = none ↔ ∀ r ∈ t.constraintRows, ¬ t.tolerance < t.entry r c := by
  have hnil : t.leavingRow c = none ↔ t.candidates c = [] := by
    unfold leavingRow
    split
    · next hc => exact iff_of_true rfl hc
    · next hc => exact iff_of_false (fun h => nomatch h) (by rw [hc]; exact List.cons_ne_nil _ _)
  rw [hnil, List.eq_nil_iff_forall_not_mem]
  constructor
  · intro h r hr hentry
    exact h _ (mem_candidates.2 ⟨r, hr, hentry, rfl⟩)
  · intro h x hx
    obtain ⟨r, hr, hentry, -⟩ := mem_candidates.1 hx
    exact h r hr hentry

/-! ## The move -/

/-- The move is decided by the entering column and the ratio test. -/
theorem move_eq (t : Tableau F) (rule : PivotRule) : t.move rule =
    match t.entering rule with
    | none => .optimal
    | some column =>
      match t.leavingRow column with
      | none => .unbounded column
      | some row => .pivot row column (t.cost column) := by
  rw [move, select_eq]
  cases t.entering rule <;> rfl

/-- A move to a pivot: a profitable column outside of the basis, and the row that the ratio test
finds for it. -/
theorem move_eq_pivot {cost : F} (h : t.move rule = .pivot r c cost) :
    t.entering rule = some c ∧ t.leavingRow c = some r ∧ cost = t.cost c := by
  rw [move_eq] at h
  split at h
  · cases h
  · next hc =>
    split at h
    · cases h
    · next hr =>
      cases h
      exact ⟨hc, hr, rfl⟩

/-- The position of a pivot that is made. -/
theorem position_of_move {cost : F} (h : t.move rule = .pivot r c cost) :
    r ∈ t.constraintRows ∧ c < t.layout.variableCount ∧ t.isBasic c = false ∧
      t.tolerance < t.entry r c := by
  obtain ⟨hc, hr, -⟩ := move_eq_pivot h
  obtain ⟨hlt, hb⟩ := mem_nonBasic.1 (entering_eq_some hc).1
  obtain ⟨hrow, hentry⟩ := leavingRow_eq_some hr
  exact ⟨hrow, hlt, hb, hentry⟩

/-- The method stops when no column outside of the basis is profitable. -/
theorem move_eq_optimal_iff :
    t.move rule = .optimal ↔ ∀ c ∈ t.nonBasic, t.isProfitable c = false := by
  rw [← entering_eq_none_iff t rule, move_eq]
  split
  · next hc => exact iff_of_true rfl hc
  · next hc =>
    rw [hc]
    split <;> exact iff_of_false (fun h => nomatch h) (fun h => nomatch h)

/-- A column that can grow forever is profitable, and none of its entries is above the
tolerance. -/
theorem move_eq_unbounded (h : t.move rule = .unbounded c) :
    c ∈ t.nonBasic ∧ t.isProfitable c = true ∧
      ∀ r ∈ t.constraintRows, ¬ t.tolerance < t.entry r c := by
  rw [move_eq] at h
  split at h
  · cases h
  · next hc =>
    split at h
    · next hr =>
      cases h
      exact ⟨(entering_eq_some hc).1, (entering_eq_some hc).2, leavingRow_eq_none_iff.1 hr⟩
    · cases h

end

section
variable {K : Type} [Field K] [LinearOrder K] {t : Tableau K} {r c : Nat}

/-- At an optimum no relative cost is below minus the tolerance. -/
theorem neg_tolerance_le_cost_of_move {rule : PivotRule} (h : t.move rule = .optimal) :
    ∀ j ∈ t.nonBasic, -t.tolerance ≤ t.cost j := by
  intro j hj
  have hnot := move_eq_optimal_iff.1 h j hj
  rwa [isProfitable, decide_eq_false_iff_not, not_lt] at hnot

/-! ## Exact ratios -/

variable [IsStrictOrderedRing K]

/-- Without a tolerance a comparison keeps a candidate that is no larger than the two. -/
theorem Candidate.challenge_zero (best next : Candidate K) :
    (best.challenge 0 next = best ∧ best.ratio ≤ next.ratio) ∨
      (best.challenge 0 next = next ∧ next.ratio ≤ best.ratio) := by
  unfold challenge
  rw [Scalar.abs_eq_abs, Scalar.least_eq_min]
  split
  · next h =>
    have heq : next.ratio = best.ratio := sub_eq_zero.1 (abs_nonpos_iff.1 h)
    rw [heq, min_self]
    dsimp only
    split
    · exact .inr ⟨by rw [← heq], le_refl _⟩
    · exact .inl ⟨rfl, le_refl _⟩
  · split
    · next h => exact .inr ⟨rfl, h.le⟩
    · next h => exact .inl ⟨rfl, not_lt.1 h⟩

/-- Without a tolerance the candidate that is left after all comparisons is the least. -/
theorem foldl_challenge_zero (others : List (Candidate K)) (first : Candidate K) :
    others.foldl (Candidate.challenge 0) first ∈ first :: others ∧
      ∀ x ∈ first :: others, (others.foldl (Candidate.challenge 0) first).ratio ≤ x.ratio := by
  induction others generalizing first with
  | nil => exact ⟨.head _, fun x hx => by rw [List.mem_singleton.1 hx]; exact le_refl _⟩
  | cons next others ih =>
    obtain ⟨hmem, hle⟩ := ih (first.challenge 0 next)
    have hhead := hle _ (.head _)
    rw [List.foldl_cons]
    rcases first.challenge_zero next with ⟨heq, hlt⟩ | ⟨heq, hlt⟩ <;> rw [heq] at hmem hhead ⊢
    · refine ⟨?_, ?_⟩
      · exact (List.mem_cons.1 hmem).elim (fun h => List.mem_cons.2 (.inl h))
          fun h => .tail _ (.tail _ h)
      · rw [List.forall_mem_cons, List.forall_mem_cons]
        exact ⟨hhead, hhead.trans hlt, fun x hx => heq ▸ hle x (.tail _ hx)⟩
    · refine ⟨?_, ?_⟩
      · exact (List.mem_cons.1 hmem).elim (fun h => .tail _ (List.mem_cons.2 (.inl h)))
          fun h => .tail _ (.tail _ h)
      · rw [List.forall_mem_cons, List.forall_mem_cons]
        exact ⟨hhead.trans hlt, hhead, fun x hx => heq ▸ hle x (.tail _ hx)⟩

/-- **Without a tolerance the pivot row has the least ratio.** -/
theorem ratio_le_of_leavingRow (hzero : t.tolerance = 0) (h : t.leavingRow c = some r)
    {s : Nat} (hs : s ∈ t.constraintRows) (hentry : 0 < t.entry s c) :
    t.right r / t.entry r c ≤ t.right s / t.entry s c := by
  unfold leavingRow at h
  split at h
  · cases h
  · next first others hc =>
    rw [hzero] at h
    obtain ⟨hmem, hle⟩ := foldl_challenge_zero others first
    obtain ⟨r', -, -, heq⟩ := mem_candidates.1 (hc ▸ hmem)
    have hcand := mem_candidates.2 ⟨s, hs, by rwa [hzero], rfl⟩
    have hratio := hle _ (hc ▸ hcand)
    rw [heq] at h hratio
    cases h
    exact hratio

end

end Tableau

end Simplex
