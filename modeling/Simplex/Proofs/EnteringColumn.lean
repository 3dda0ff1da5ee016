import Mathlib.Order.Bounds.Basic
import Simplex.Proofs.BasisInvariant

/-!
# The entering column

Each pivot rule passes once through the columns outside of the basis, and the test for an optimum
passes through them as well. With an order that is total and transitive, without any law of
arithmetic, the three agree on whether a column is profitable, and each rule selects one column
that is described without the pass: the first profitable one, or the first of those whose relative
cost is the least of all (`Tableau.rules_agree`).

The pass that keeps the least value so far ends with a position that comes before all others in the
order by values, and by positions among equal values (`Ahead`). Replacing the kept position only by
a strictly smaller value is what makes it the first.
-/

namespace Simplex

/-! ## The first position of the least value -/

section
variable {F : Type} [Scalar F] {value : Nat → F} {i j k c : Nat}

/-- A position is no worse than another one: its value is no larger, and it is smaller if the
position comes later. -/
def Ahead (value : Nat → F) (i j : Nat) : Prop :=
  value i ≤ value j ∧ (j < i → value i < value j)

/-- The first position of the least value among the admissible ones of a list. -/
def FirstBest (admissible : Nat → Bool) (value : Nat → F) (js : List Nat) (c : Nat) : Prop :=
  IsLeast {j | (j ∈ js ∧ admissible j = true) ∧
    ∀ k ∈ js, admissible k = true → value j ≤ value k} c

variable [Std.IsLinearPreorder F] [Std.LawfulOrderLT F]

omit [Std.LawfulOrderLT F] in
/-- A position is no worse than itself. -/
theorem Ahead.refl (value : Nat → F) (i : Nat) : Ahead value i i :=
  ⟨Std.le_refl _, fun h => absurd h (Nat.lt_irrefl i)⟩

/-- A position that is no worse than another one is no worse than what that one is no worse than. -/
theorem Ahead.trans (h : Ahead value i j) (h' : Ahead value j k) : Ahead value i k := by
  refine ⟨Std.le_trans h.1 h'.1, fun hlt => ?_⟩
  rcases Nat.lt_or_ge k j with hkj | hjk
  · exact Std.lt_of_le_of_lt h.1 (h'.2 hkj)
  · exact Std.lt_of_lt_of_le (h.2 (Nat.lt_of_le_of_lt hjk hlt)) h'.1

/-- A step of a search keeps a position that is no worse than the one that was kept before, and no
worse than its own if that one is admissible. -/
theorem keepBest_ahead (value : Nat → F) {admissible : Nat → Bool} {best : Option Nat}
    (hbest : ∀ b, best = some b → b < j) (hi : best = some i ∨ i = j ∧ admissible i = true) :
    ∃ a, keepBest admissible (fun j k => decide (value j < value k)) best j = some a ∧
      Ahead value a i := by
  cases hadm : admissible j with
  | false =>
    rw [keepBest_of_not hadm]
    rcases hi with hi | ⟨rfl, hi⟩
    · exact ⟨i, hi, .refl value i⟩
    · rw [hadm] at hi
      cases hi
  | true =>
    cases best with
    | none =>
      obtain ⟨rfl, -⟩ := hi.resolve_left fun hf => nomatch hf
      exact ⟨i, keepBest_none hadm, .refl value i⟩
    | some b =>
      have hlt : b < j := hbest b rfl
      rw [keepBest_some hadm]
      by_cases hless : value j < value b
      · refine ⟨j, if_pos (decide_eq_true hless), ?_⟩
        rcases hi with hi | ⟨rfl, -⟩
        · cases hi
          exact ⟨Std.le_of_lt hless, fun _ => hless⟩
        · exact .refl value i
      · refine ⟨b, if_neg (mt of_decide_eq_true hless), ?_⟩
        rcases hi with hi | ⟨rfl, -⟩
        · cases hi
          exact .refl value i
        · exact ⟨Std.not_lt.1 hless, fun hf => absurd hf hlt.asymm⟩

/-- A search through increasing positions ends with one that is no worse than what it started with
and than all admissible positions it came by. -/
theorem foldl_keepBest_ahead {admissible : Nat → Bool} {js : List Nat}
    (hjs : js.Pairwise (· < ·)) {best : Option Nat} (hbest : ∀ b, best = some b → ∀ j ∈ js, b < j)
    (h : js.foldl (keepBest admissible fun j k => decide (value j < value k)) best = some c)
    (hi : best = some i ∨ i ∈ js ∧ admissible i = true) : Ahead value c i := by
  induction js generalizing best i with
  | nil =>
    obtain hi | ⟨hi, -⟩ := hi
    · obtain rfl : c = i := Option.some.inj (h.symm.trans hi)
      exact .refl value c
    · cases hi
  | cons j js ih =>
    obtain ⟨hhead, htail⟩ := List.pairwise_cons.1 hjs
    rw [List.foldl_cons] at h
    -- Whatever is kept stands before the positions that are still to come.
    have hkept : ∀ b, keepBest admissible (fun j k => decide (value j < value k)) best j = some b →
        ∀ k ∈ js, b < k := by
      intro b hb k hk
      rcases keepBest_eq_some hb with hb | ⟨rfl, -⟩
      · exact hbest b hb k (.tail _ hk)
      · exact hhead k hk
    have hpassed : ∀ {i}, best = some i ∨ i = j ∧ admissible i = true → Ahead value c i := by
      intro i hi
      have hbefore : ∀ b, best = some b → b < j := fun b hb => hbest b hb j List.mem_cons_self
      obtain ⟨a, ha, hahead⟩ := keepBest_ahead value hbefore hi
      exact (ih htail hkept h (.inl ha)).trans hahead
    rcases hi with hi | ⟨hi, hadm⟩
    · exact hpassed (.inl hi)
    · rcases List.mem_cons.1 hi with rfl | hi
      · exact hpassed (.inr ⟨rfl, hadm⟩)
      · exact ih htail hkept h (.inr ⟨hi, hadm⟩)

/-- **A search for the least value finds its first position.** -/
theorem foldl_keepBest_eq_some_iff {admissible : Nat → Bool} {js : List Nat}
    (hjs : js.Pairwise (· < ·)) :
    js.foldl (keepBest admissible fun j k => decide (value j < value k)) none = some c ↔
      FirstBest admissible value js c := by
  have hfound : ∀ {c}, js.foldl (keepBest admissible fun j k => decide (value j < value k)) none =
      some c → FirstBest admissible value js c := by
    intro c h
    have hmem := (foldl_keepBest_eq_some h).resolve_left fun hf => nomatch hf
    have hnone : ∀ b, none = some b → ∀ j ∈ js, b < j := fun _ hf => nomatch hf
    have hahead : ∀ {i}, i ∈ js ∧ admissible i = true → Ahead value c i := fun hi =>
      foldl_keepBest_ahead hjs hnone h (.inr hi)
    refine ⟨⟨hmem, fun k hk hadm => (hahead ⟨hk, hadm⟩).1⟩, ?_⟩
    rintro j ⟨hj, hleast⟩
    by_contra hlt
    exact Std.not_lt.2 (hleast c hmem.1 hmem.2) ((hahead hj).2 (Nat.lt_of_not_le hlt))
  refine ⟨hfound, fun h => ?_⟩
  cases hresult : js.foldl (keepBest admissible fun j k => decide (value j < value k)) none with
  | none =>
    have hno := (foldl_keepBest_eq_none_iff.1 hresult).2 c h.1.1.1
    rw [h.1.1.2] at hno
    cases hno
  | some a => rw [(hfound hresult).unique h]

end

/-- Looking for the first position finds the least one, if the positions are increasing. -/
theorem find?_eq_some_iff_isLeast {admissible : Nat → Bool} {js : List Nat} {c : Nat}
    (hjs : js.Pairwise (· < ·)) :
    js.find? admissible = some c ↔ IsLeast {j | j ∈ js ∧ admissible j = true} c := by
  induction js with
  | nil => exact iff_of_false (fun h => nomatch h) fun h => nomatch h.1.1
  | cons j js ih =>
    obtain ⟨hhead, htail⟩ := List.pairwise_cons.1 hjs
    cases hadm : admissible j with
    | true =>
      have hleast : IsLeast {k | k ∈ j :: js ∧ admissible k = true} j := by
        refine ⟨⟨List.mem_cons_self, hadm⟩, ?_⟩
        rintro k ⟨hk, -⟩
        rcases List.mem_cons.1 hk with rfl | hk
        · exact Nat.le_refl k
        · exact (hhead k hk).le
      rw [List.find?_cons_of_pos hadm, Option.some_inj]
      exact ⟨fun h => h ▸ hleast, fun h => hleast.unique h⟩
    | false =>
      have hset : {k | k ∈ j :: js ∧ admissible k = true} =
          {k | k ∈ js ∧ admissible k = true} := by
        ext k
        refine and_congr_left fun hk => List.mem_cons.trans (or_iff_right ?_)
        rintro rfl
        rw [hadm] at hk
        cases hk
      rw [List.find?_cons_of_neg (by simp [hadm]), ih htail, hset]

namespace Tableau

section
variable {F : Type} [Scalar F] {t : Tableau F} {j : Nat}

/-! ## Columns that may enter -/

/-- The columns of the variables that are not members of the basis. -/
def offBasis (t : Tableau F) : Set Nat := {j | j < t.layout.variableCount ∧ j ∉ t.basis}

/-- The columns off the basis with a relative cost below minus the tolerance. -/
def profitable (t : Tableau F) : Set Nat := {j ∈ t.offBasis | t.cost j < -t.tolerance}

/-- The columns off the basis that attain the least relative cost of all of these. -/
def cheapest (t : Tableau F) : Set Nat := {j ∈ t.offBasis | ∀ k ∈ t.offBasis, t.cost j ≤ t.cost k}

/-- The two records of the basis agree on what is outside of it. -/
theorem WellBased.mem_nonBasic_iff (ht : t.WellBased) : j ∈ t.nonBasic ↔ j ∈ t.offBasis := by
  rw [mem_nonBasic, ← Bool.not_eq_true, ht.isBasic_iff]
  rfl

omit [Scalar F] in
/-- The columns outside of the basis are listed in increasing order. -/
theorem pairwise_nonBasic (t : Tableau F) : t.nonBasic.Pairwise (· < ·) :=
  List.pairwise_lt_range.filter _

/-- The relative cost may be asked for of the columns of variables. -/
theorem costAt_eq_ok {cost : F} :
    t.costAt j = .ok cost ↔ j < t.layout.variableCount ∧ cost = t.cost j := by
  rw [costAt, askColumn]
  split
  · next hlt => exact ⟨fun h => by cases h; exact ⟨hlt, rfl⟩, fun h => by rw [h.2]⟩
  · next hlt => exact iff_of_false (fun h => nomatch h) fun h => hlt h.1

/-- A rule selects the column that enters with its relative cost, which may be asked for. -/
theorem select_eq_some_iff {rule : PivotRule} {cost : F} :
    t.select rule = some (j, cost) ↔ t.costAt j = .ok cost ∧ t.entering rule = some j := by
  rw [select_eq, Option.map_eq_some_iff, costAt_eq_ok]
  constructor
  · rintro ⟨k, hk, heq⟩
    cases heq
    exact ⟨⟨(mem_nonBasic.1 (entering_eq_some hk).1).1, rfl⟩, hk⟩
  · rintro ⟨⟨-, rfl⟩, hj⟩
    exact ⟨j, hj, rfl⟩

/-- A step finds an optimum exactly if its rule selects no column. -/
theorem step_eq_optimal_iff (s : Trail F) (rule : PivotRule) :
    (s.step rule).2 = .ok .optimal ↔ s.tableau.select rule = none := by
  have hselect : s.tableau.select rule = none ↔ s.tableau.move rule = .optimal := by
    rw [select_eq, Option.map_eq_none_iff, entering_eq_none_iff, move_eq_optimal_iff]
  rw [hselect, Trail.step]
  cases s.tableau.move rule with
  | optimal => simp
  | unbounded column => simp
  | pivot row column cost =>
    dsimp only
    cases (s.record (.pivoting row column cost)).tableau.pivot row column <;> simp

/-- The first profitable column enters under the rule of this name. -/
theorem WellBased.entering_first_iff (ht : t.WellBased) :
    t.entering .first = some j ↔ IsLeast t.profitable j := by
  rw [entering_first, find?_eq_some_iff_isLeast t.pairwise_nonBasic]
  have hset : {k | k ∈ t.nonBasic ∧ t.isProfitable k = true} = t.profitable := by
    ext k
    exact and_congr ht.mem_nonBasic_iff decide_eq_true_iff
  rw [hset]

variable [Std.IsLinearPreorder F] [Std.LawfulOrderLT F]

/-- The test for an optimum succeeds exactly if a rule selects no column. -/
theorem isOptimal_iff_select (rule : PivotRule) :
    t.isOptimal = true ↔ t.select rule = none := by
  rw [select_eq, Option.map_eq_none_iff, entering_eq_none_iff, isOptimal, List.all_eq_true]
  refine forall₂_congr fun j _ => ?_
  rw [decide_eq_true_iff, isProfitable, decide_eq_false_iff_not, Std.not_lt]

/-- If some column is profitable, a column has the least cost of the profitable ones exactly if it
has the least cost of all. -/
theorem WellBased.mem_cheapest_iff (ht : t.WellBased) {c : Nat} (hc : c ∈ t.profitable) :
    ((j ∈ t.nonBasic ∧ t.isProfitable j = true) ∧
      ∀ k ∈ t.nonBasic, t.isProfitable k = true → t.cost j ≤ t.cost k) ↔ j ∈ t.cheapest := by
  constructor
  · rintro ⟨⟨hj, hprofitable⟩, hleast⟩
    refine ⟨ht.mem_nonBasic_iff.1 hj, fun k hk => ?_⟩
    by_cases hk' : t.isProfitable k = true
    · exact hleast k (ht.mem_nonBasic_iff.2 hk) hk'
    · rw [isProfitable, decide_eq_true_iff] at hprofitable hk'
      exact Std.le_trans (Std.le_of_lt hprofitable) (Std.not_lt.1 hk')
  · rintro ⟨hj, hleast⟩
    have hprofitable : t.cost j < -t.tolerance := Std.lt_of_le_of_lt (hleast c hc.1) hc.2
    exact ⟨⟨ht.mem_nonBasic_iff.2 hj, decide_eq_true hprofitable⟩,
      fun k hk _ => hleast k (ht.mem_nonBasic_iff.1 hk)⟩

/-- Under the steepest rule the first column of the least cost enters, if it is profitable. -/
theorem WellBased.entering_steepest_iff (ht : t.WellBased) :
    t.entering .steepest = some j ↔ t.cost j < -t.tolerance ∧ IsLeast t.cheapest j := by
  rw [entering_steepest, foldl_keepBest_eq_some_iff t.pairwise_nonBasic, FirstBest]
  constructor
  · intro h
    have hprofitable := decide_eq_true_iff.1 h.1.1.2
    have hc : j ∈ t.profitable := ⟨ht.mem_nonBasic_iff.1 h.1.1.1, hprofitable⟩
    rw [Set.ext fun k => ht.mem_cheapest_iff hc] at h
    exact ⟨hprofitable, h⟩
  · rintro ⟨hprofitable, h⟩
    rwa [Set.ext fun k => ht.mem_cheapest_iff ⟨h.1.1, hprofitable⟩]

/-- **The rules and the test for an optimum agree.** Neither rule selects a column exactly if the
test says that the tableau is optimal, and exactly then a step with either rule finds an optimum.
A column that is selected comes with its relative cost. Under the first rule it is the first
profitable column, and under the steepest rule the first of those with the least relative cost,
which is below minus the tolerance. -/
theorem rules_agree (ht : t.WellBased) :
    (t.firstProfitable = none ↔ t.isOptimal = true) ∧
      (t.steepest = none ↔ t.isOptimal = true) ∧
      (∀ (rule : PivotRule) (s : Trail F), s.tableau = t →
        ((s.step rule).2 = .ok .optimal ↔ t.isOptimal = true)) ∧
      (∀ j cost, t.firstProfitable = some (j, cost) ↔
        t.costAt j = .ok cost ∧ IsLeast t.profitable j) ∧
      ∀ j cost, t.steepest = some (j, cost) ↔
        t.costAt j = .ok cost ∧ cost < -t.tolerance ∧ IsLeast t.cheapest j := by
  refine ⟨(isOptimal_iff_select .first).symm, (isOptimal_iff_select .steepest).symm, ?_, ?_, ?_⟩
  · rintro rule s rfl
    rw [step_eq_optimal_iff, isOptimal_iff_select rule]
  · intro j cost
    show t.select .first = some (j, cost) ↔ _
    rw [select_eq_some_iff, ht.entering_first_iff]
  · intro j cost
    show t.select .steepest = some (j, cost) ↔ _
    rw [select_eq_some_iff]
    refine and_congr_right fun hcost => ?_
    rw [ht.entering_steepest_iff, (costAt_eq_ok.1 hcost).2]

end

end Tableau

namespace LinearProgram

/-- Minimize `-x / 1000000 - y - 2 z - 2 w` subject to `x + y + z + w ≤ 1`. The relative cost of `x`
is minus the tolerance, and those of `z` and `w` are equal. -/
def levelCosts : LinearProgram ℚ :=
  ⟨.minimize, ⟨[-1 / 1000000, -1, -2, -2], 0⟩, [.linear [1, 1, 1, 1] .atMost 1]⟩

/-- In `levelCosts` the first rule passes over `x`, whose cost is not below minus the tolerance, and
the steepest rule takes `z`, which comes before `w`. -/
theorem levelCosts_rules_agree : let t := Tableau.initial levelCosts true (1 / 1000000)
    t.WellBased ∧ t.cost 0 = -t.tolerance ∧ t.cost 2 = t.cost 3 ∧
      t.firstProfitable = some (1, -1) ∧ t.steepest = some (2, -2) ∧
      IsLeast t.profitable 1 ∧ IsLeast t.cheapest 2 ∧ t.isOptimal = false ∧
      ((Trail.start none t).step .first).2 ≠ .ok .optimal := by
  intro t
  have ht : t.WellBased := (Tableau.sound_initial (by decide +kernel)).wellBased
  have hfirst : t.firstProfitable = some (1, -1) := by decide +kernel
  have hsteepest : t.steepest = some (2, -2) := by decide +kernel
  obtain ⟨hnone, -, hstep, hleast, hcheapest⟩ := Tableau.rules_agree ht
  have hnot : ¬ t.isOptimal = true := by
    rw [← hnone, hfirst]
    exact fun h => nomatch h
  exact ⟨ht, by decide +kernel, by decide +kernel, hfirst, hsteepest,
    ((hleast 1 (-1)).1 hfirst).2, ((hcheapest 2 (-2)).1 hsteepest).2.2,
    Bool.eq_false_of_not_eq_true hnot, mt (hstep .first (Trail.start none t) rfl).1 hnot⟩

end LinearProgram

end Simplex
