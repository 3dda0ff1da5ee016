import Mathlib.LinearAlgebra.Matrix.ToLinearEquiv
import Simplex.Proofs.Exact

/-!
# Which constraints a removed row stands for

The rows of a tableau are combinations of those of the initial one, and the factors stand in the
columns that were basic there (`Tableau.SameProgram.residual_eq_sum`). A removed row in which only
artificial variables are left thus combines the equations of the constraints to zero, and no other
combination does (`Tableau.Redundant.exists_iff`). It follows which constraints can be deleted
because of the removed rows (`LinearProgram.Dispensable`): those whose artificial variables are
still basic, but not always those whose indices are reported, which are the positions of the rows
(`LinearProgram.dispensable_removed_iff`). The two differ if an artificial variable has left the
basis and has come back in another row, as it does in `LinearProgram.misnamed`.
-/

namespace Simplex

namespace Tableau

section
variable {K : Type} [Field K] [LinearOrder K] {t u : Tableau K} {r i : Nat} {X Y : Nat → K}

/-! ## Residuals of two tableaus -/

/-- What the basic variables take in addition, so that the residuals of their rows grow by given
amounts. -/
def raise (t : Tableau K) (d : Nat → K) (j : Nat) : K :=
  ∑ r ∈ t.constraintRows.toFinset with t.basicColumn r = j, d r

omit [LinearOrder K] in
/-- A sum over the columns with what the basic variables take is one over their rows. -/
theorem Consistent.sum_raise (h : t.Consistent) (f d : Nat → K) :
    ∑ j ∈ Finset.range t.layout.variableCount, f j * t.raise d j =
      ∑ r ∈ t.constraintRows.toFinset, f (t.basicColumn r) * d r := by
  have hmaps : ∀ r ∈ t.constraintRows.toFinset,
      t.basicColumn r ∈ Finset.range t.layout.variableCount :=
    fun r hr => Finset.mem_range.2 (h.basicColumn_lt (List.mem_toFinset.1 hr))
  rw [← Finset.sum_fiberwise_of_maps_to hmaps]
  refine Finset.sum_congr rfl fun j _ => ?_
  rw [raise, Finset.mul_sum]
  exact Finset.sum_congr rfl fun r hr => by rw [(Finset.mem_filter.1 hr).2]

/-- The residuals of another tableau grow by the entries in the basic columns. -/
theorem residual_add_raise (h : t.Consistent) (hlayout : u.layout = t.layout) (i : Nat)
    (X d : Nat → K) : u.residual i (fun j => X j + t.raise d j) =
      u.residual i X + ∑ r ∈ t.constraintRows.toFinset, u.entry i (t.basicColumn r) * d r := by
  rw [residual, residual, activity, activity, ← h.sum_raise, hlayout]
  simp only [mul_add, Finset.sum_add_distrib]
  ring

/-- The residuals of the tableau itself grow by the given amounts. -/
theorem Sound.residual_add_raise (h : t.Sound) (hi : i ∈ t.constraintRows) (X d : Nat → K) :
    t.residual i (fun j => X j + t.raise d j) = t.residual i X + d i := by
  rw [Tableau.residual_add_raise h.toConsistent rfl,
    Finset.sum_eq_single_of_mem i (List.mem_toFinset.2 hi), h.unit i hi, if_pos rfl, one_mul]
  intro r hr hne
  rw [h.entry_eq_zero (List.mem_toFinset.1 hr) hne.symm, zero_mul]

/-- **The rows of a tableau as combinations of those of another.** The factors stand in the columns
that are basic there. -/
theorem SameProgram.residual_eq_sum (hsame : SameProgram t u) (h : t.Sound)
    (hi : i ∈ t.constraintRows) (X : Nat → K) : u.residual i X =
      ∑ r ∈ t.constraintRows.toFinset, u.entry i (t.basicColumn r) * t.residual r X := by
  have hsolves : t.Solves fun j => X j + t.raise (fun r => -t.residual r X) j := fun r hr => by
    rw [h.residual_add_raise hr, add_neg_cancel]
  have hzero := (hsame.solves _).2 hsolves i (by rwa [hsame.constraintRows])
  rw [residual_add_raise h.toConsistent hsame.layout] at hzero
  simp only [mul_neg, Finset.sum_neg_distrib] at hzero
  rwa [← sub_eq_add_neg, sub_eq_zero] at hzero

/-- The residuals of a tableau determine those of another. -/
theorem SameProgram.residual_congr (hsame : SameProgram t u) (hu : u.Sound)
    (h : ∀ r ∈ t.constraintRows, u.residual r X = u.residual r Y) (hi : i ∈ t.constraintRows) :
    t.residual i X = t.residual i Y := by
  have hi' : i ∈ u.constraintRows := by rwa [hsame.constraintRows]
  rw [hsame.symm.residual_eq_sum hu hi', hsame.symm.residual_eq_sum hu hi', hsame.constraintRows]
  exact Finset.sum_congr rfl fun r hr => by rw [h r (List.mem_toFinset.1 hr)]

/-- The rows in which an artificial variable is basic are constraint rows of the other tableau. -/
theorem SameProgram.mem_of_mem_artificialRows (hsame : SameProgram t u)
    (hr : r ∈ u.artificialRows) : r ∈ t.constraintRows := by
  rw [← hsame.constraintRows]
  exact (mem_artificialRows.1 hr).1

/-! ## Values without artificial variables -/

/-- The artificial variables are zero. -/
def ArtificialFree (l : Layout) (X : Nat → K) : Prop := ∀ j, l.isArtificial j = true → X j = 0

omit [LinearOrder K] in
/-- Values without artificial variables have none to set to zero. -/
theorem ArtificialFree.withoutArtificials_eq {l : Layout} (h : ArtificialFree l X) :
    withoutArtificials l X = X := by
  funext j
  rw [withoutArtificials]
  split
  · next hj => exact (h j hj).symm
  · rfl

/-- Without artificial variables a removed row that says nothing has no residual. -/
theorem Redundant.residual_eq_zero (h : u.Redundant u.artificialRows)
    (hX : ArtificialFree u.layout X) (hr : r ∈ u.artificialRows) : u.residual r X = 0 := by
  obtain ⟨hrow, hart⟩ := mem_artificialRows.1 hr
  rw [residual, h.right r hrow hart, sub_zero]
  refine Finset.sum_eq_zero fun j hj => ?_
  rcases Nat.lt_or_ge j u.layout.artificialStart with hlt | hge
  · rw [h.entry r hr j hlt, zero_mul]
  · rw [hX j (isArtificial_iff.2 ⟨hge, Finset.mem_range.1 hj⟩), mul_zero]

/-- The residuals of all other rows can be chosen, as no artificial variable is basic there. -/
theorem Redundant.exists_residual_eq (h : u.Redundant u.artificialRows) (hu : u.Sound) {d : Nat → K}
    (hd : ∀ r ∈ u.artificialRows, d r = 0) :
    ∃ X, ArtificialFree u.layout X ∧ ∀ r ∈ u.constraintRows, u.residual r X = d r := by
  refine ⟨fun j => 0 + u.raise (fun r => d r - u.residual r fun _ => 0) j, fun j hj => ?_,
    fun r hr => ?_⟩
  · refine (zero_add _).trans (Finset.sum_eq_zero fun r hr => ?_)
    obtain ⟨hrow, rfl⟩ := Finset.mem_filter.1 hr
    have hart : r ∈ u.artificialRows := mem_artificialRows.2 ⟨List.mem_toFinset.1 hrow, hj⟩
    rw [hd r hart, h.residual_eq_zero (fun _ _ => rfl) hart, sub_zero]
  · rw [hu.residual_add_raise hr]
    ring

/-- **Which residuals are possible without artificial variables**: those that the removed rows do
not combine to anything but zero. -/
theorem Redundant.exists_iff (h : u.Redundant u.artificialRows) (hsame : SameProgram t u)
    (ht : t.Sound) (hu : u.Sound) (e : Nat → K) :
    (∃ X, ArtificialFree t.layout X ∧ ∀ s ∈ t.constraintRows, t.residual s X = e s) ↔
      ∀ r ∈ u.artificialRows,
        ∑ s ∈ t.constraintRows.toFinset, u.entry r (t.basicColumn s) * e s = 0 := by
  have hcombine : ∀ {X}, (∀ s ∈ t.constraintRows, t.residual s X = e s) → ∀ r ∈ t.constraintRows,
      u.residual r X = ∑ s ∈ t.constraintRows.toFinset, u.entry r (t.basicColumn s) * e s := by
    intro X hX r hr
    rw [hsame.residual_eq_sum ht hr]
    exact Finset.sum_congr rfl fun s hs => by rw [hX s (List.mem_toFinset.1 hs)]
  rw [← hsame.layout]
  constructor
  · rintro ⟨X, hX, hresidual⟩ r hr
    rw [← hcombine hresidual r (hsame.mem_of_mem_artificialRows hr), h.residual_eq_zero hX hr]
  · intro hzero
    obtain ⟨X, hX, hresidual⟩ := h.exists_residual_eq hu hzero
    have hreach : ∀ s ∈ t.constraintRows,
        t.residual s (fun j => 0 + t.raise (fun s => e s - t.residual s fun _ => 0) j) = e s :=
      fun s hs => by rw [ht.residual_add_raise hs]; ring
    refine ⟨X, hX, fun s hs => ?_⟩
    rw [← hreach s hs]
    refine hsame.residual_congr hu (fun r hr => ?_) hs
    rw [hcombine hreach r hr, hresidual r (by rwa [hsame.constraintRows])]

/-! ## Rows that follow from the others -/

/-- Without artificial variables the equations of all rows hold as soon as those of the rows outside
of a set hold. -/
def Implies (t : Tableau K) (S : Set Nat) : Prop :=
  ∀ X, ArtificialFree t.layout X → (∀ s ∈ t.constraintRows, s ∉ S → t.residual s X = 0) →
    ∀ s ∈ t.constraintRows, t.residual s X = 0

/-- Fewer rows follow from more others. -/
theorem Implies.anti {S S' : Set Nat} (h : t.Implies S)
    (hsub : ∀ s ∈ t.constraintRows, s ∈ S' → s ∈ S) : t.Implies S' :=
  fun X hX hout => h X hX fun s hs hnot => hout s hs fun hmem => hnot (hsub s hs hmem)

/-- Rows follow from the others exactly if the removed rows combine them independently. -/
theorem Redundant.implies_iff (h : u.Redundant u.artificialRows) (hsame : SameProgram t u)
    (ht : t.Sound) (hu : u.Sound) (S : Set Nat) : t.Implies S ↔
      ∀ e : Nat → K, (∀ s ∈ t.constraintRows, s ∉ S → e s = 0) →
        (∀ r ∈ u.artificialRows,
          ∑ s ∈ t.constraintRows.toFinset, u.entry r (t.basicColumn s) * e s = 0) →
        ∀ s ∈ t.constraintRows, e s = 0 := by
  constructor
  · intro himplies e hout hzero s hs
    obtain ⟨X, hX, hresidual⟩ := (h.exists_iff hsame ht hu e).2 hzero
    rw [← hresidual s hs]
    refine himplies X hX (fun s hs hnot => ?_) s hs
    rw [hresidual s hs, hout s hs hnot]
  · intro hzero X hX hout
    exact hzero (t.residual · X) hout ((h.exists_iff hsame ht hu _).1 ⟨X, hX, fun _ _ => rfl⟩)

/-- The rows whose artificial variable is still basic follow from the others: a removed row has in
the columns of these artificial variables a single entry, that of its own. -/
theorem Redundant.implies_owners (h : u.Redundant u.artificialRows) (hsame : SameProgram t u)
    (ht : t.Sound) (hu : u.Sound) :
    t.Implies {s | t.hasArtificialBasis s = true ∧ u.isBasic (t.basicColumn s) = true} := by
  rw [h.implies_iff hsame ht hu]
  intro e hout hzero s hs
  by_cases howner : t.hasArtificialBasis s = true ∧ u.isBasic (t.basicColumn s) = true
  · obtain ⟨hart, hbasic⟩ := howner
    obtain ⟨r, hr, hcolumn⟩ := (hu.isBasic_iff _).1 hbasic
    have hart' : u.hasArtificialBasis r = true := by
      rwa [hasArtificialBasis, hcolumn, hsame.layout]
    have hsum := hzero r (mem_artificialRows.2 ⟨hr, hart'⟩)
    rw [Finset.sum_eq_single_of_mem s (List.mem_toFinset.2 hs), ← hcolumn, hu.unit r hr,
      if_pos rfl, one_mul] at hsum
    · exact hsum
    · intro s' hs' hne
      have hs' := List.mem_toFinset.1 hs'
      by_cases howner' : t.hasArtificialBasis s' = true ∧ u.isBasic (t.basicColumn s') = true
      · obtain ⟨r', hr', hcolumn'⟩ := (hu.isBasic_iff _).1 howner'.2
        rw [← hcolumn', hu.entry_eq_zero hr', zero_mul]
        rintro rfl
        exact hne (ht.injective s' hs' s hs (hcolumn'.symm.trans hcolumn))
      · rw [hout s' hs' howner', mul_zero]
  · exact hout s hs howner

/-- The entries of the removed rows in the columns that were basic in these rows before. -/
def reportMatrix (t u : Tableau K) :
    Matrix u.artificialRows.toFinset u.artificialRows.toFinset K :=
  .of fun r s => u.entry r (t.basicColumn s)

/-- A combination of rows that leaves out all but the removed ones is a vector over these. -/
theorem SameProgram.reportMatrix_mulVec (hsame : SameProgram t u) {e : Nat → K}
    (he : ∀ s ∈ t.constraintRows, s ∉ u.artificialRows → e s = 0)
    (r : u.artificialRows.toFinset) : (t.reportMatrix u).mulVec (fun s => e s) r =
      ∑ s ∈ t.constraintRows.toFinset, u.entry r (t.basicColumn s) * e s := by
  have hsub : u.artificialRows.toFinset ⊆ t.constraintRows.toFinset := fun r hr =>
    List.mem_toFinset.2 (hsame.mem_of_mem_artificialRows (List.mem_toFinset.1 hr))
  have hattach : (t.reportMatrix u).mulVec (fun s => e s) r =
      ∑ s ∈ u.artificialRows.toFinset.attach, u.entry r (t.basicColumn s) * e s := rfl
  rw [hattach, Finset.sum_attach _ fun s => u.entry r (t.basicColumn s) * e s]
  refine Finset.sum_subset hsub fun s hs hnot => ?_
  rw [he s (List.mem_toFinset.1 hs) fun hmem => hnot (List.mem_toFinset.2 hmem), mul_zero]

/-- The removed rows themselves, as rows of the other tableau, follow from the others exactly if
their entries in the columns that were basic in them before are not singular. -/
theorem Redundant.implies_removed_iff (h : u.Redundant u.artificialRows)
    (hsame : SameProgram t u) (ht : t.Sound) (hu : u.Sound) :
    t.Implies {s | s ∈ u.artificialRows} ↔ (t.reportMatrix u).det ≠ 0 := by
  rw [h.implies_iff hsame ht hu, ne_eq, ← Matrix.exists_mulVec_eq_zero_iff, not_exists]
  constructor
  · rintro hzero v ⟨hv, hmul⟩
    let e : Nat → K := fun s => if hs : s ∈ u.artificialRows.toFinset then v ⟨s, hs⟩ else 0
    have hvec : (fun s : u.artificialRows.toFinset => e s) = v := funext fun s => dif_pos s.2
    have hout : ∀ s ∈ t.constraintRows, s ∉ {s | s ∈ u.artificialRows} → e s = 0 :=
      fun s _ hnot => dif_neg fun hs => hnot (List.mem_toFinset.1 hs)
    refine hv (funext fun s => ?_)
    rw [← hvec]
    refine hzero e hout (fun r hr => ?_) s
      (hsame.mem_of_mem_artificialRows (List.mem_toFinset.1 s.2))
    rw [← hsame.reportMatrix_mulVec hout ⟨r, List.mem_toFinset.2 hr⟩, hvec, hmul]
    rfl
  · intro hsingular e hout hzero s hs
    by_cases hmem : s ∈ u.artificialRows
    · by_contra hne
      refine hsingular (fun s => e s) ⟨fun hf => ?_, funext fun r => ?_⟩
      · exact hne (congrFun hf ⟨s, List.mem_toFinset.2 hmem⟩)
      · rw [hsame.reportMatrix_mulVec hout r]
        exact hzero r (List.mem_toFinset.1 r.2)
    · exact hout s hs hmem

end

end Tableau

namespace LinearProgram

section
variable {K : Type} [Field K] [LinearOrder K] {p : LinearProgram K} {nonnegative : Bool}
  {tolerance : K} {i : Nat} {c : Constraint K} {X : Nat → K}

/-! ## Constraints that can be deleted -/

/-- The values of the decision and slack variables satisfy the normalized equation of a
constraint: the slack variable makes up for the gap between the two sides. -/
def Balances (p : LinearProgram K) (nonnegative : Bool) (X : Nat → K) (i : Nat) : Prop :=
  ∀ c, p.normalized[i]? = some c → c.gap ((p.layout nonnegative).decode X) +
    c.comparison.slackSign * X (p.slackColumn nonnegative i) = 0

instance (p : LinearProgram K) (nonnegative : Bool) (X : Nat → K) (i : Nat) :
    Decidable (p.Balances nonnegative X i) :=
  decidable_of_iff _ (Option.all_eq_true (fun c => decide (c.gap ((p.layout nonnegative).decode X) +
    c.comparison.slackSign * X (p.slackColumn nonnegative i) = 0)) _ |>.trans
      (forall₂_congr fun _ _ => decide_eq_true_iff))

/-- Constraints can be deleted: whatever satisfies the normalized equations of all others also
satisfies theirs. -/
def Dispensable (p : LinearProgram K) (nonnegative : Bool) (S : Set Nat) : Prop :=
  ∀ X : Nat → K, (∀ i ∉ S, p.Balances nonnegative X i) → ∀ i ∈ S, p.Balances nonnegative X i

/-- Fewer constraints can be deleted as well. -/
theorem Dispensable.anti {S S' : Set Nat} (h : p.Dispensable nonnegative S) (hsub : S' ⊆ S) :
    p.Dispensable nonnegative S' :=
  fun X hX i hi => h X (fun k hk => hX k fun hmem => hk (hsub hmem)) i (hsub hi)

/-- The normalized equation of a constraint is that of its row in the initial tableau, without
artificial variables. -/
theorem balances_iff (hp : ∀ c ∈ p.constraints, c.left.arity = p.objective.arity)
    (hi : i < p.constraints.length) (X : Nat → K) : p.Balances nonnegative X i ↔
      (Tableau.initial p nonnegative tolerance).residual ((p.layout nonnegative).costRows + i)
        (Tableau.withoutArtificials (p.layout nonnegative) X) = 0 := by
  obtain ⟨c, hc⟩ := Tableau.exists_normalized hi
  have hdecode : (p.layout nonnegative).decode
      (Tableau.withoutArtificials (p.layout nonnegative) X) = (p.layout nonnegative).decode X :=
    Tableau.decode_congr fun j hj =>
      Tableau.withoutArtificials_of_lt (hj.trans_le (Nat.le_add_right _ _)) X
  have hslack := Tableau.slackSign_mul_congr nonnegative hc fun j _ hj =>
    Tableau.withoutArtificials_of_lt hj X
  have hzero : (if c.comparison.hasArtificial then
      Tableau.withoutArtificials (p.layout nonnegative) X (p.artificialColumn nonnegative i)
        else 0) = 0 := by
    split
    · next h => exact if_pos (Tableau.isArtificial_iff.2 (Tableau.artificialColumn_mem _ hc h))
    · rfl
  rw [Tableau.residual_initial hp hc, hdecode, hslack, hzero, add_zero]
  constructor
  · exact fun h => h c hc
  · intro h d hd
    rw [hc] at hd
    cases hd
    exact h

/-- There are no equations beyond those of the constraints. -/
theorem balances_of_le (hi : p.constraints.length ≤ i) : p.Balances nonnegative X i := by
  intro c hc
  have hlt := (List.getElem?_eq_some_iff.1 hc).1
  rw [normalized, List.length_map] at hlt
  exact absurd hlt (Nat.not_lt.2 hi)

/-- Constraints can be deleted exactly if their rows in the initial tableau follow from the
others. -/
theorem dispensable_iff_implies (hp : ∀ c ∈ p.constraints, c.left.arity = p.objective.arity)
    (tolerance : K) (S : Set Nat) :
    p.Dispensable nonnegative S ↔ (Tableau.initial p nonnegative tolerance).Implies
      {r | r - (p.layout nonnegative).costRows ∈ S} := by
  have hindex : ∀ i, (p.layout nonnegative).costRows + i ∈
      {r | r - (p.layout nonnegative).costRows ∈ S} ↔ i ∈ S := fun i => by
    rw [Set.mem_ofPred_eq, Nat.add_sub_cancel_left]
  have hrow : ∀ {i}, i < p.constraints.length → (p.layout nonnegative).costRows + i ∈
      (Tableau.initial p nonnegative tolerance).constraintRows := fun hi =>
    Tableau.mem_constraintRows_initial.2 ⟨_, hi, rfl⟩
  constructor
  · intro hdispensable X hX hout s hs
    obtain ⟨i, hi, rfl⟩ := Tableau.mem_constraintRows_initial.1 hs
    have hfree : Tableau.withoutArtificials (p.layout nonnegative) X = X :=
      Tableau.ArtificialFree.withoutArtificials_eq hX
    have hothers : ∀ k ∉ S, p.Balances nonnegative X k := fun k hk => by
      rcases Nat.lt_or_ge k p.constraints.length with hlt | hle
      · rw [balances_iff hp hlt, hfree]
        exact hout _ (hrow hlt) fun hmem => hk ((hindex k).1 hmem)
      · exact balances_of_le hle
    rw [← hfree, ← balances_iff hp hi]
    by_cases hmem : i ∈ S
    · exact hdispensable X hothers i hmem
    · exact hothers i hmem
  · intro himplies X hothers i hmem
    rcases Nat.lt_or_ge i p.constraints.length with hlt | hle
    · rw [balances_iff hp hlt]
      refine himplies _ (fun j hj => if_pos hj) (fun s hs hnot => ?_) _ (hrow hlt)
      obtain ⟨k, hk, rfl⟩ := Tableau.mem_constraintRows_initial.1 hs
      exact (balances_iff hp hk X).1 (hothers k fun hk => hnot ((hindex k).2 hk))
    · exact balances_of_le hle

variable {u : Tableau K}

/-- The constraints whose artificial variable is still basic when the rows are removed can be
deleted. -/
theorem dispensable_owners (hp : ∀ c ∈ p.constraints, c.left.arity = p.objective.arity)
    (hu : u.Sound) (hsame : Tableau.SameProgram (.initial p nonnegative tolerance) u)
    (hredundant : u.Redundant u.artificialRows) : p.Dispensable nonnegative
      {i | p.needsArtificial i = true ∧ u.isBasic (p.artificialColumn nonnegative i) = true} := by
  rw [dispensable_iff_implies hp tolerance]
  refine (hredundant.implies_owners hsame (Tableau.sound_initial hp) hu).anti fun s hs hmem => ?_
  obtain ⟨i, hi, rfl⟩ := Tableau.mem_constraintRows_initial.1 hs
  rw [Set.mem_ofPred_eq, Nat.add_sub_cancel_left] at hmem
  obtain ⟨hneeds, hbasic⟩ := hmem
  obtain ⟨c, hc⟩ := Tableau.exists_normalized hi
  have hcolumn : (Tableau.initial p nonnegative tolerance).basicColumn
      ((p.layout nonnegative).costRows + i) = p.artificialColumn nonnegative i := by
    rw [Tableau.basicColumn_initial hc, ← Tableau.needsArtificial_eq hc, if_pos hneeds]
  refine ⟨?_, by rwa [hcolumn]⟩
  rw [Tableau.hasArtificialBasis, hcolumn]
  exact Tableau.isArtificial_artificialColumn hneeds

/-- The constraints with the indices of the removed rows can be deleted exactly if the entries of
these rows in the columns with which these constraints began are not singular. -/
theorem dispensable_reported_iff (hp : ∀ c ∈ p.constraints, c.left.arity = p.objective.arity)
    (hu : u.Sound) (hsame : Tableau.SameProgram (.initial p nonnegative tolerance) u)
    (hredundant : u.Redundant u.artificialRows) :
    p.Dispensable nonnegative {i | i ∈ u.artificialRows.map (· - u.layout.costRows)} ↔
      ((Tableau.initial p nonnegative tolerance).reportMatrix u).det ≠ 0 := by
  have hindex : ∀ s ∈ (Tableau.initial p nonnegative tolerance).constraintRows,
      s - (p.layout nonnegative).costRows ∈
        {i | i ∈ u.artificialRows.map (· - u.layout.costRows)} ↔ s ∈ u.artificialRows := by
    intro s hs
    have hle := (Tableau.mem_constraintRows.1 hs).1
    rw [Set.mem_ofPred_eq, List.mem_map, hsame.layout]
    constructor
    · rintro ⟨r, hr, heq⟩
      have hle' := (Tableau.mem_constraintRows.1 (Tableau.mem_artificialRows.1 hr).1).1
      rw [hsame.layout] at hle'
      have hrs : r = s := by
        rw [Tableau.layout_initial] at *
        omega
      rwa [← hrs]
    · exact fun hs => ⟨s, hs, rfl⟩
  rw [dispensable_iff_implies hp tolerance,
    ← hredundant.implies_removed_iff hsame (Tableau.sound_initial hp) hu]
  exact ⟨fun h => h.anti fun s hs hmem => (hindex s hs).2 hmem,
    fun h => h.anti fun s hs hmem => (hindex s hs).1 hmem⟩

end

/-! ## The report of phase one -/

section
variable {K : Type} [Field K] [LinearOrder K] [IsStrictOrderedRing K] {p : LinearProgram K}
  {settings : Settings K} {rule : PivotRule}

/-- **When the report of phase one is right.** Suppose that phase one removes rows, all with nothing
in them but artificial variables. Then the constraints can be deleted whose artificial variables are
still basic in these rows. The reported constraints are those that the rows belonged to at first,
and they can be deleted exactly if the entries of the removed rows, in the columns with which these
constraints began, are not singular. -/
theorem dispensable_removed_iff (h : p.check settings = .ok ())
    (hphase : (p.layout settings.nonnegative).inPhaseOne = true) {detail : Option Level}
    {t : Trail K} {removed : List Nat}
    (hone : (p.opening settings detail).phaseOne rule settings.pivotLimit =
      (t, .ok (.feasible removed))) :
    ∃ u, p.Handover settings rule u ∧ removed = u.artificialRows.map (· - u.layout.costRows) ∧
      (u.Redundant u.artificialRows →
        p.Dispensable settings.nonnegative {i | p.needsArtificial i = true ∧
          u.isBasic (p.artificialColumn settings.nonnegative i) = true} ∧
        (p.Dispensable settings.nonnegative {i | i ∈ removed} ↔
          ((Tableau.initial p settings.nonnegative settings.tolerance).reportMatrix u).det ≠
            0)) := by
  obtain ⟨htol, hp⟩ := of_check h
  obtain ⟨u, hover, hu, hsame, rfl⟩ := exists_handover_of_phaseOne hp htol.le hphase hone
  exact ⟨u, hover, rfl, fun hredundant => ⟨dispensable_owners hp hu hsame hredundant,
    dispensable_reported_iff hp hu hsame hredundant⟩⟩

end

section
variable {F : Type} [Scalar F] {p : LinearProgram F} {settings : Settings F} {rule : PivotRule}

/-- Whether after so many transitions phase one is left from a tableau with a property, once the
artificial variables are replaced there. -/
def handsOver (p : LinearProgram F) (settings : Settings F) (rule : PivotRule) (n : Nat)
    (P : Tableau F → Bool) : Bool :=
  match (p.start settings).after rule p.objective n with
  | none => false
  | some s =>
    match s.advance rule p.objective, s.tableau.replaceArtificials with
    | .go v, .ok (u, _) => s.phase = .one && v.phase = .two && P u
    | _, _ => false

/-- The tableau that was found is the one of the run. -/
theorem exists_of_handsOver {n : Nat} {P : Tableau F → Bool}
    (h : p.handsOver settings rule n P = true) : ∃ u, p.Handover settings rule u ∧ P u = true := by
  unfold handsOver at h
  split at h
  · cases h
  · next s hs =>
    split at h
    · next v u removed hgo hreplace =>
      simp only [Bool.and_eq_true, decide_eq_true_eq] at h
      obtain ⟨⟨hone, htwo⟩, hP⟩ := h
      refine ⟨u, ⟨n, s, removed, v.tableau, hs, hone, ?_, hreplace⟩, hP⟩
      obtain ⟨-, ⟨_, _, _, _, -, -, -, rfl⟩ | ⟨_, _, -, -, -, rfl⟩⟩ := Stage.advance_eq_go hgo
      · rw [hone] at htwo
        cases htwo
      · exact hgo
    · cases h

end

/-- In `doubled` the first equation is reported. Its artificial variable is still basic in the
removed row, and it can be deleted. -/
theorem doubled_dispensable : doubled.check .standard = .ok () ∧
    ((doubled.opening .standard none).phaseOne .steepest 10000).2 = .ok (.feasible [0]) ∧
    doubled.Dispensable true {i | i ∈ [0]} := by
  have hcheck : doubled.check .standard = .ok () := by decide +kernel
  have hreport : ((doubled.opening .standard none).phaseOne .steepest 10000).2 =
      .ok (.feasible [0]) := by decide +kernel
  have hone : (doubled.opening .standard none).phaseOne .steepest 10000 =
      (((doubled.opening .standard none).phaseOne .steepest 10000).1, .ok (.feasible [0])) :=
    Prod.ext rfl hreport
  obtain ⟨u, hover, -, hspec⟩ := dispensable_removed_iff hcheck (by decide +kernel) hone
  have hmatrix : doubled.handsOver .standard .steepest 1 (fun u =>
      decide (u.Redundant u.artificialRows ∧
        ((Tableau.initial doubled true (1 / 1000000)).reportMatrix u).det ≠ 0)) = true := by
    decide +kernel
  obtain ⟨u', hover', hu'⟩ := exists_of_handsOver hmatrix
  obtain rfl := hover.unique hover'
  obtain ⟨hredundant, hdet⟩ := of_decide_eq_true hu'
  exact ⟨hcheck, hreport, (hspec hredundant).2.2 hdet⟩

/-- Minimize `x + y + z` subject to `y = z`, `x + 2 y = 3 z`, `x = z` and `-3 x + y + 3 z = 1`. The
second constraint is the third one and twice the first, and the last one is independent of the
others. -/
def misnamed : LinearProgram ℚ :=
  ⟨.minimize, ⟨[1, 1, 1], 0⟩,
    [.linear [0, 1, -1] .equal 0, .linear [1, 2, -3] .equal 0, .linear [1, 0, -1] .equal 0,
      .linear [-3, 1, 3] .equal 1]⟩

/-- **The report of phase one can be wrong.** In `misnamed` phase one ends after four pivots with an
artificial cost of zero and removes a row with nothing in it but artificial variables. It reports
the last constraint, which cannot be deleted: the origin satisfies the others. The artificial
variable in the row is that of the second constraint, which came back into the basis in another row
than its own, and this constraint can be deleted. -/
theorem misnamed_not_dispensable : misnamed.check .standard = .ok () ∧
    ((misnamed.opening .standard none).phaseOne .steepest 10000).2 = .ok (.feasible [3]) ∧
    (((misnamed.start .standard).after .steepest misnamed.objective 4).map fun s =>
      (s.phase, s.tableau.value)) = some (.one, 0) ∧
    (∃ u, misnamed.Handover .standard .steepest u ∧ u.Redundant u.artificialRows) ∧
    ¬ misnamed.Dispensable true {i | i ∈ [3]} ∧ misnamed.Dispensable true {i | i = 1} := by
  have hcheck : misnamed.check .standard = .ok () := by decide +kernel
  have hp : ∀ c ∈ misnamed.constraints, c.left.arity = misnamed.objective.arity := by
    decide +kernel
  have hreport : ((misnamed.opening .standard none).phaseOne .steepest 10000).2 =
      .ok (.feasible [3]) := by decide +kernel
  have hone : (misnamed.opening .standard none).phaseOne .steepest 10000 =
      (((misnamed.opening .standard none).phaseOne .steepest 10000).1, .ok (.feasible [3])) :=
    Prod.ext rfl hreport
  obtain ⟨u, hover, hu, hsame, -⟩ := exists_handover_of_phaseOne hp
    (by decide +kernel : (0 : ℚ) ≤ (Settings.standard : Settings ℚ).tolerance) (by decide +kernel)
    hone
  have howner : misnamed.handsOver .standard .steepest 4 (fun u =>
      decide (u.Redundant u.artificialRows ∧ misnamed.needsArtificial 1 = true ∧
        u.isBasic (misnamed.artificialColumn true 1) = true)) = true := by decide +kernel
  obtain ⟨u', hover', hu'⟩ := exists_of_handsOver howner
  obtain rfl := hover.unique hover'
  obtain ⟨hredundant, hneeds, hbasic⟩ := of_decide_eq_true hu'
  have hother : ¬ misnamed.Dispensable true {i | i ∈ [3]} := fun hdispensable => by
    have horigin : ∀ i < 4, i ∉ [3] → misnamed.Balances true (fun _ => 0) i := by decide +kernel
    have hlast : ¬ misnamed.Balances true (fun _ => 0) 3 := by decide +kernel
    refine hlast (hdispensable _ (fun i hi => ?_) 3 (List.mem_singleton_self 3))
    rcases Nat.lt_or_ge i 4 with hlt | hle
    · exact horigin i hlt hi
    · exact balances_of_le hle
  refine ⟨hcheck, hreport, by decide +kernel, ⟨u, hover, hredundant⟩, hother, ?_⟩
  refine (dispensable_owners hp hu hsame hredundant).anti ?_
  rintro i rfl
  exact ⟨hneeds, hbasic⟩

end LinearProgram

end Simplex
