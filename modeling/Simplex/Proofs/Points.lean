import Mathlib.Algebra.Order.Group.MinMax
import Simplex.Proofs.Construction

/-!
# Points and solutions

A solution of the initial tableau assigns values to all variables, and the decision variables among
them stand for a point. Whether a constraint holds there is decided by its slack and its artificial
variable (`Tableau.holds_decode_iff`), and the artificial cost is the sum of the artificial
variables (`Tableau.artificialCost_eq`). A solution without artificial variables and without a
negative value stands for a feasible point (`LinearProgram.feasible_decode`), and every feasible
point is what such a solution stands for (`LinearProgram.solves_lift`).
-/

namespace Simplex

/-- In a filtered list a member stands at its rank. -/
theorem getElem?_filter_rank {α : Type} {q : α → Bool} {x : α} (hq : q x = true) :
    ∀ {xs : List α} {i : Nat}, xs[i]? = some x → (xs.filter q)[rank q xs i]? = some x
  | [], _, hx => nomatch hx
  | y :: xs, 0, hx => by
    obtain rfl : y = x := Option.some.inj hx
    rw [List.filter_cons_of_pos hq]
    rfl
  | y :: xs, i + 1, hx => by
    have hrest : (xs.filter q)[rank q xs i]? = some x := getElem?_filter_rank hq hx
    rw [rank] at hrest
    rw [rank, List.take_succ_cons, List.countP_cons]
    by_cases hy : q y = true
    · rwa [if_pos hy, List.filter_cons_of_pos hy, List.getElem?_cons_succ]
    · rwa [if_neg hy, List.filter_cons_of_neg hy, Nat.add_zero]

section
variable {K : Type} [Field K] [LinearOrder K]

/-! ## The point of a solution -/

namespace Tableau

variable {p : LinearProgram K} {nonnegative : Bool} {tolerance : K} {i r : Nat} {c : Constraint K}
  {X : Nat → K}

/-- The gap of a constraint at the point of a solution. -/
theorem gap_decode (hp : ∀ c ∈ p.constraints, c.left.arity = p.objective.arity)
    (hX : (initial p nonnegative tolerance).Solves X) (hc : p.normalized[i]? = some c) :
    c.gap ((p.layout nonnegative).decode X) =
      -(c.comparison.slackSign * X (p.slackColumn nonnegative i) +
        if p.needsArtificial i then X (p.artificialColumn nonnegative i) else 0) := by
  have hi := (List.getElem?_eq_some_iff.1 hc).1
  rw [LinearProgram.normalized, List.length_map] at hi
  have hrow := hX _ (mem_constraintRows_initial.2 ⟨i, hi, rfl⟩)
  rw [residual_initial hp hc, add_assoc] at hrow
  rw [needsArtificial_eq hc]
  exact eq_neg_of_add_eq_zero_left hrow

/-- On the solutions the artificial cost is the sum of the artificial variables. -/
theorem artificialCost_eq (hp : ∀ c ∈ p.constraints, c.left.arity = p.objective.arity)
    (hphase : (p.layout nonnegative).inPhaseOne = true)
    (hX : (initial p nonnegative tolerance).Solves X) :
    (initial p nonnegative tolerance).residual 0 X =
      ∑ i ∈ Finset.range p.constraints.length,
        if p.needsArtificial i then X (p.artificialColumn nonnegative i) else 0 := by
  rw [residual_initial_artificialCost hp hphase]
  refine Finset.sum_congr rfl fun i hi => ?_
  rw [hX _ (mem_constraintRows_initial.2 ⟨i, Finset.mem_range.1 hi, rfl⟩), sub_zero]

/-- Where the artificial variables are zero, a constraint has none. -/
theorem artificial_term_eq_zero
    (hzero : ∀ j, (p.layout nonnegative).isArtificial j = true → X j = 0) (i : Nat) :
    (if p.needsArtificial i then X (p.artificialColumn nonnegative i) else 0) = 0 := by
  split
  · next hneeds => exact hzero _ (isArtificial_artificialColumn hneeds)
  · rfl

variable [IsStrictOrderedRing K]

/-- No right-hand side of the initial tableau is negative. -/
theorem right_initial_nonneg (hp : ∀ c ∈ p.constraints, c.left.arity = p.objective.arity)
    (hr : r ∈ (initial p nonnegative tolerance).constraintRows) :
    0 ≤ (initial p nonnegative tolerance).right r := by
  obtain ⟨i, hi, rfl⟩ := mem_constraintRows_initial.1 hr
  obtain ⟨c, hc⟩ := exists_normalized hi
  obtain ⟨d, -, rfl⟩ := List.mem_map.1 (List.mem_of_getElem? hc)
  rw [right_initial hp hc]
  exact d.normalize_right_nonneg

/-- **A constraint at the point of a solution.** Its slack variable and its artificial variable
decide whether it holds there, for every tolerance. -/
theorem holds_decode_iff (hp : ∀ c ∈ p.constraints, c.left.arity = p.objective.arity)
    (hX : (initial p nonnegative tolerance).Solves X) (hc : p.normalized[i]? = some c) (ε : K) :
    c.holds ((p.layout nonnegative).decode X) ε = true ↔ c.comparison.Admits ε
      (-(c.comparison.slackSign * X (p.slackColumn nonnegative i) +
        if p.needsArtificial i then X (p.artificialColumn nonnegative i) else 0)) := by
  rw [Constraint.holds_iff, gap_decode hp hX hc]

/-- A slack variable that is not negative beyond the tolerance keeps its constraint, as long as
there is no artificial variable. -/
theorem admits_slack {comparison : Comparison} {ε s : K} (hε : 0 ≤ ε)
    (hs : comparison.hasSlack = true → -ε ≤ s) :
    comparison.Admits ε (-(comparison.slackSign * s + 0)) := by
  rw [add_zero]
  cases comparison with
  | atMost =>
    rw [Comparison.slackSign, one_mul]
    exact neg_le.1 (hs rfl)
  | equal =>
    rw [Comparison.slackSign, zero_mul, neg_zero]
    exact abs_zero.trans_le hε
  | atLeast =>
    rw [Comparison.slackSign, neg_one_mul, neg_neg]
    exact hs rfl

/-- All constraints hold if their normal forms do. -/
theorem forall_holds_iff {x : List K} {ε : K} : (∀ c ∈ p.constraints, c.holds x ε = true) ↔
    ∀ (i : Nat) (c : Constraint K), p.normalized[i]? = some c → c.holds x ε = true := by
  have hmap : (∀ c ∈ p.constraints, c.holds x ε = true) ↔
      ∀ c ∈ p.normalized, c.holds x ε = true := by
    simp only [LinearProgram.normalized, List.forall_mem_map, Constraint.holds_normalize]
  rw [hmap]
  constructor
  · exact fun h i c hc => h c (List.mem_of_getElem? hc)
  · intro h c hc
    obtain ⟨i, hi⟩ := List.mem_iff_getElem?.1 hc
    exact h i c hi

end Tableau

/-! ## The solution of a point -/

namespace LinearProgram

variable {p : LinearProgram K} {nonnegative : Bool} {tolerance : K} {i : Nat} {c : Constraint K}
  {x : List K}

/-- The parts of the coordinates of a point, in the columns of the decision variables. -/
def parts (nonnegative : Bool) (x : List K) : List K :=
  if nonnegative then x else x.map (max · 0) ++ x.map fun v => max (-v) 0

/-- The value of every variable in the solution that stands for a feasible point: the parts of its
coordinates, then what every inequality leaves between its two sides. The artificial variables are
zero. -/
def lift (p : LinearProgram K) (nonnegative : Bool) (x : List K) (j : Nat) : K :=
  (parts nonnegative x ++ (p.normalized.filter (·.comparison.hasSlack)).map fun c =>
    |c.gap x|).getD j 0

/-- The parts fill the columns before the slack variables. -/
theorem length_parts (hx : x.length = p.objective.arity) :
    (parts nonnegative x).length = (p.layout nonnegative).slackStart := by
  have hdecision : (p.layout nonnegative).decision = x.length := hx.symm
  have hsplit : (p.layout nonnegative).split = !nonnegative := rfl
  rw [Layout.slackStart, hdecision, hsplit]
  cases nonnegative <;> simp [parts]

/-- The parts and the distances fill the columns before the artificial variables. -/
theorem length_parts_append (hx : x.length = p.objective.arity) :
    (parts nonnegative x ++ (p.normalized.filter (·.comparison.hasSlack)).map fun c =>
      |c.gap x|).length = (p.layout nonnegative).artificialStart := by
  have hslack : (p.layout nonnegative).slack =
      (p.normalized.filter (·.comparison.hasSlack)).length := List.countP_eq_length_filter
  rw [List.length_append, List.length_map, length_parts hx, ← hslack]
  rfl

/-- The slack variable of an inequality is the distance of its two sides. -/
theorem lift_slackColumn (hx : x.length = p.objective.arity) (hc : p.normalized[i]? = some c)
    (h : c.comparison.hasSlack = true) :
    p.lift nonnegative x (p.slackColumn nonnegative i) = |c.gap x| := by
  have hrank := getElem?_filter_rank (q := (·.comparison.hasSlack)) h hc
  rw [lift, slackColumn, List.getD_append_right _ _ _ _ (by rw [length_parts hx]; omega),
    length_parts hx, Nat.add_sub_cancel_left, List.getD_eq_getElem?_getD, List.getElem?_map, hrank]
  rfl

/-- The artificial variables are zero. -/
theorem lift_of_le (hx : x.length = p.objective.arity) {j : Nat}
    (hj : (p.layout nonnegative).artificialStart ≤ j) : p.lift nonnegative x j = 0 := by
  rw [lift, List.getD_eq_default]
  rwa [length_parts_append hx]

variable [IsStrictOrderedRing K]

/-- The values stand for the point. -/
theorem decode_lift (hx : x.length = p.objective.arity) :
    (p.layout nonnegative).decode (p.lift nonnegative x) = x := by
  have hparts : ∀ j < (p.layout nonnegative).slackStart,
      p.lift nonnegative x j = (parts nonnegative x).getD j 0 := fun j hj => by
    rw [lift, List.getD_append _ _ _ _ (by rwa [length_parts hx])]
  have hdecision : (p.layout nonnegative).decision = x.length := hx.symm
  have hsplit : (p.layout nonnegative).split = !nonnegative := rfl
  rw [Tableau.decode_congr hparts, Layout.decode, hdecision, hsplit]
  refine List.ext_getElem (by simp) fun j hj hj' => ?_
  rw [List.getElem_map, List.getElem_range]
  cases nonnegative with
  | true => simp [parts, hj']
  | false =>
    rw [if_pos (Bool.not_false), parts, if_neg Bool.false_ne_true,
      List.getD_append _ _ _ _ (by simpa using hj'), List.getD_append_right _ _ _ _ (by simp)]
    simp [hj']

/-- No value is negative. -/
theorem lift_nonneg (hx : nonnegative = true → ∀ v ∈ x, 0 ≤ v) (j : Nat) :
    0 ≤ p.lift nonnegative x j := by
  have hmem : ∀ v ∈ parts nonnegative x ++
      (p.normalized.filter (·.comparison.hasSlack)).map fun c => |c.gap x|, 0 ≤ v := by
    intro v hv
    rcases List.mem_append.1 hv with hv | hv
    · cases nonnegative with
      | true => exact hx rfl v hv
      | false =>
        rcases List.mem_append.1 hv with hv | hv
        · obtain ⟨w, -, rfl⟩ := List.mem_map.1 hv
          exact le_max_right _ _
        · obtain ⟨w, -, rfl⟩ := List.mem_map.1 hv
          exact le_max_right _ _
    · obtain ⟨w, -, rfl⟩ := List.mem_map.1 hv
      exact abs_nonneg _
  rw [lift]
  rcases Nat.lt_or_ge j (parts nonnegative x ++
      (p.normalized.filter (·.comparison.hasSlack)).map fun c => |c.gap x|).length with hj | hj
  · rw [List.getD_eq_getElem _ _ hj]
    exact hmem _ (List.getElem_mem hj)
  · rw [List.getD_eq_default _ _ hj]

omit [IsStrictOrderedRing K] in
/-- The coordinates of a feasible point have the right signs. -/
theorem Feasible.nonneg (hx : p.Feasible nonnegative 0 x) :
    nonnegative = true → ∀ v ∈ x, 0 ≤ v := by
  have hsign := hx.sign
  rwa [neg_zero] at hsign

/-- The solution of a feasible point has no negative value. -/
theorem Feasible.lift_nonneg (hx : p.Feasible nonnegative 0 x) (j : Nat) :
    0 ≤ p.lift nonnegative x j :=
  LinearProgram.lift_nonneg hx.nonneg j

/-- **A feasible point lifts to a solution.** -/
theorem solves_lift (hp : ∀ c ∈ p.constraints, c.left.arity = p.objective.arity)
    (hx : p.Feasible nonnegative 0 x) :
    (Tableau.initial p nonnegative tolerance).Solves (p.lift nonnegative x) := by
  intro r hr
  obtain ⟨i, hi, rfl⟩ := Tableau.mem_constraintRows_initial.1 hr
  obtain ⟨c, hc⟩ := Tableau.exists_normalized hi
  have hgap := (c.holds_iff x 0).1 (Tableau.forall_holds_iff.1 hx.holds i c hc)
  have hartificial : (if c.comparison.hasArtificial then
      p.lift nonnegative x (p.artificialColumn nonnegative i) else 0) = 0 := by
    split
    · next h => exact lift_of_le hx.length (Tableau.artificialColumn_mem _ hc h).1
    · rfl
  rw [Tableau.residual_initial hp hc, decode_lift hx.length, hartificial, add_zero]
  by_cases hs : c.comparison.hasSlack = true
  · rw [lift_slackColumn hx.length hc hs]
    cases hcomp : c.comparison with
    | atMost =>
      rw [hcomp] at hgap
      rw [Comparison.slackSign, abs_of_nonpos hgap]
      ring
    | equal => rw [hcomp] at hs; cases hs
    | atLeast =>
      rw [hcomp, Comparison.Admits, neg_zero] at hgap
      rw [Comparison.slackSign, abs_of_nonneg hgap]
      ring
  · have hcomp : c.comparison = .equal := by
      cases hcomp : c.comparison <;> rw [hcomp] at hs <;> first | rfl | exact absurd rfl hs
    rw [hcomp, Comparison.Admits] at hgap
    rw [Comparison.slackSign_eq_zero hs, zero_mul, add_zero]
    exact abs_nonpos_iff.1 hgap

/-! ## Feasible points -/

omit [IsStrictOrderedRing K] in
/-- The point of a solution has as many coordinates as the program has variables. -/
theorem length_decode (p : LinearProgram K) (nonnegative : Bool) (X : Nat → K) :
    ((p.layout nonnegative).decode X).length = p.objective.arity := by
  rw [Layout.decode, List.length_map, List.length_range]
  rfl

omit [IsStrictOrderedRing K] in
/-- The point of a solution has the right signs if its values have. -/
theorem sign_decode {nonnegative : Bool} {ε : K} {X : Nat → K}
    (hX : ∀ j < (p.layout nonnegative).slackStart, -ε ≤ X j) :
    nonnegative = true → ∀ w ∈ (p.layout nonnegative).decode X, -ε ≤ w := by
  rintro rfl w hw
  obtain ⟨j, hj, rfl⟩ := List.mem_map.1 hw
  rw [if_neg (by exact Bool.false_ne_true)]
  exact hX j (List.mem_range.1 hj)

/-- The point of a solution whose values have the right signs is feasible if the constraints hold
there. -/
theorem feasible_decode_iff {nonnegative : Bool} {ε : K} {X : Nat → K}
    (hX : ∀ j < (p.layout nonnegative).slackStart, -ε ≤ X j) :
    p.Feasible nonnegative ε ((p.layout nonnegative).decode X) ↔
      ∀ (i : Nat) (c : Constraint K), p.normalized[i]? = some c →
        c.holds ((p.layout nonnegative).decode X) ε = true := by
  rw [← Tableau.forall_holds_iff]
  exact ⟨fun h => h.holds, fun h => ⟨length_decode p nonnegative X, h, sign_decode hX⟩⟩

/-- **A solution without artificial variables stands for a feasible point.** -/
theorem feasible_decode (hp : ∀ c ∈ p.constraints, c.left.arity = p.objective.arity) {ε : K}
    (hε : 0 ≤ ε) {X : Nat → K} (hsolves : (Tableau.initial p nonnegative tolerance).Solves X)
    (hX : ∀ j < (p.layout nonnegative).artificialStart, -ε ≤ X j)
    (hzero : ∀ j, (p.layout nonnegative).isArtificial j = true → X j = 0) :
    p.Feasible nonnegative ε ((p.layout nonnegative).decode X) := by
  rw [feasible_decode_iff fun j hj => hX j (hj.trans_le (Nat.le_add_right _ _))]
  intro i c hc
  rw [Tableau.holds_decode_iff hp hsolves hc, Tableau.artificial_term_eq_zero hzero]
  exact Tableau.admits_slack hε fun hslack =>
    hX _ (Tableau.slackColumn_mem nonnegative hc hslack).2

end LinearProgram

end

end Simplex
