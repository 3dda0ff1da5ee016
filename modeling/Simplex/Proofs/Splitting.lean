import Simplex.Proofs.Encoding
import Simplex.Proofs.Simulation

/-!
# Free variables as differences

A free variable can be written out as the difference of two nonnegative ones
(`LinearProgram.split`). The initial tableau of the program with free variables is that of the one
with the differences, but for the layout, which still says which columns belong together
(`LinearProgram.initial_split`). The method only asks the layout where the groups of columns end, so
it cannot tell the two apart (`Tableau.departure_mergesTo`), and one of the two answers is the other
with the differences taken (`LinearProgram.mirrors_split`).
-/

namespace Simplex

/-! ## Writing out the differences -/

section
variable {F : Type} [Scalar F]

/-- The function with every variable written as the difference of two, the second parts after the
first ones. -/
def Affine.split (f : Affine F) : Affine F :=
  ⟨f.coefficients ++ f.coefficients.map (- ·), f.constant⟩

/-- The constraint with every variable written as a difference. -/
def Constraint.split (c : Constraint F) : Constraint F := { c with left := c.left.split }

/-- The program with every variable written as a difference. -/
def LinearProgram.split (p : LinearProgram F) : LinearProgram F :=
  ⟨p.goal, p.objective.split, p.constraints.map Constraint.split⟩

/-- The differences of the first coordinates and those after them. -/
def rejoin (n : Nat) (q : List F) : List F := List.zipWith (· - ·) (q.take n) (q.drop n)

/-- There are twice as many variables. -/
theorem Affine.arity_split (f : Affine F) : f.split.arity = f.arity + f.arity := by
  simp [arity, Affine.split]

end

/-- The layout in which the positive and the negative parts are decision variables of their own. -/
def Layout.merge (l : Layout) : Layout := { l with decision := l.slackStart, split := false }

namespace Tableau

section
variable {F : Type}

/-- The same matrix with the same basis, in the layout that does not know of positive and negative
parts. -/
def merge (t : Tableau F) : Tableau F := { t with layout := t.layout.merge }

/-- A tableau of the program with the differences written out is one of the program with `n` free
variables, but for the layout. -/
structure MergesTo (n : Nat) (t u : Tableau F) : Prop where
  eq_merge : t = u.merge
  split : u.layout.split = true
  decision : u.layout.decision = n

variable [Scalar F] {n : Nat} {t u : Tableau F}

/-! ## The method does not see the difference -/

/-- A pivot does not need to know which columns belong together. -/
theorem MergesTo.pivot (h : MergesTo n t u) (r c : Nat) :
    Alike (MergesTo n) (t.pivot r c) (u.pivot r c) := by
  obtain ⟨rfl, hsplit, hdecision⟩ := h
  refine .ite (fun _ => .error _) fun _ => .ite (fun _ => .error _) fun _ => ?_
  refine .ite (fun _ => .error _) fun _ => .ite (fun _ => .error _) fun _ => ?_
  exact .ite (fun _ => .error _) fun _ => .ok ⟨rfl, hsplit, hdecision⟩

/-- **The method cannot tell the two tableaus apart.** -/
theorem simulation_mergesTo (n : Nat) : Simulation (MergesTo (F := F) n) where
  check h := by
    rw [h.eq_merge]
    rfl
  move h rule := by
    rw [h.eq_merge]
    rfl
  pivot h r c := h.pivot r c

/-- Dropping the artificial variables leaves tableaus that are the same again. -/
theorem MergesTo.dropArtificials (h : MergesTo n t u) :
    Alike (fun x y => MergesTo n x.1 y.1 ∧ y.2 = x.2) t.dropArtificials u.dropArtificials := by
  have hreplace := (simulation_mergesTo n).replaceArtificials
    (fun h => by rw [h.eq_merge]; rfl) (fun h _ _ => by rw [h.eq_merge]; rfl)
    (fun h _ _ => by rw [h.eq_merge]; rfl) h
  obtain ⟨rfl, -, -⟩ := id h
  refine .ite (fun _ => ?_) fun _ => .ok ⟨h, rfl⟩
  generalize u.merge.replaceArtificials = x at hreplace ⊢
  generalize u.replaceArtificials = y at hreplace ⊢
  cases hreplace with
  | error b => exact .error b
  | @ok a b hboth =>
    obtain ⟨v, removed⟩ := a
    obtain ⟨w, removed'⟩ := b
    obtain ⟨⟨hmerge, hsplit, hdecision⟩, hremoved⟩ := hboth
    obtain rfl : removed' = removed := hremoved
    obtain rfl : v = w.merge := hmerge
    exact .ite (fun _ => .ok ⟨⟨rfl, hsplit, hdecision⟩, rfl⟩) fun _ => .error _

/-- Phase one is left in the same way. -/
theorem departure_mergesTo (n : Nat) : Departure (MergesTo (F := F) n) (MergesTo n) where
  toSimulation := simulation_mergesTo n
  value h := by
    rw [h.eq_merge]
    rfl
  tolerance h := by
    rw [h.eq_merge]
    rfl
  weaken h := h
  drop h := h.dropArtificials

end

section
variable {K : Type} [Field K] [LinearOrder K] {n : Nat} {t u : Tableau K}

/-- The values that a point stands for are its differences. -/
theorem decode_eq_rejoin {l : Layout} (h : l.split = true) (X : Nat → K) :
    l.decode X = rejoin l.decision (l.merge.decode X) := by
  have hmerge : l.merge.decode X = (List.range (l.decision + l.decision)).map X := by
    simp [Layout.decode, Layout.merge, Layout.slackStart, h]
  rw [hmerge, Layout.decode, rejoin]
  refine List.ext_getElem (by simp) fun j hj hj' => ?_
  simp [h]

end

end Tableau

/-! ## The initial tableau -/

section
variable {K : Type} [Field K] [LinearOrder K]

/-- The columns of free variables are those of their two parts. -/
theorem Tableau.decisionGroup_split (factor : K) (coefficients : List K) :
    decisionGroup false factor (coefficients ++ coefficients.map (- ·)) =
      decisionGroup true factor coefficients := by
  simp [decisionGroup, Function.comp_def]

/-- The columns of the decision variables of a function are the same. -/
theorem Tableau.decisionGroup_merge {l : Layout} (h : l.split = true) (factor : K) (f : Affine K) :
    decisionGroup l.merge.split factor f.split.coefficients =
      decisionGroup l.split factor f.coefficients := by
  rw [h]
  exact decisionGroup_split factor f.coefficients

/-- Writing out the differences goes with the normal form. -/
theorem Constraint.normalize_split (c : Constraint K) : c.split.normalize = c.normalize.split := by
  have hright : c.split.constantFreeRight = c.constantFreeRight := rfl
  by_cases h : c.constantFreeRight < 0
  · rw [normalize_of_neg h, normalize_of_neg (hright ▸ h), hright]
    simp [linear, Constraint.split, Affine.split]
  · rw [normalize_of_nonneg h, normalize_of_nonneg (hright ▸ h)]
    rfl

/-- A difference has the value of the variable that it stands for. -/
theorem Affine.eval_split {l : Layout} (h : l.split = true) {f : Affine K}
    (hf : f.arity = l.decision) (X : Nat → K) :
    f.split.eval (l.merge.decode X) = f.eval (l.decode X) := by
  have hlength : f.split.coefficients.length = l.merge.decision := by
    show f.split.arity = l.slackStart
    rw [arity_split, Layout.slackStart, if_pos h, hf]
  have hsum := Tableau.combine_decisionGroup l.merge 1 hlength X
  rw [Tableau.decisionGroup_merge h, Tableau.combine_decisionGroup l 1 hf X, one_mul,
    one_mul] at hsum
  rw [Affine.eval_eq, Affine.eval_eq, ← hsum]
  rfl

namespace Tableau

/-- The row of a constraint is the same. -/
theorem constraintRow_split {l : Layout} (h : l.split = true) (slack artificial : Nat)
    (c : Constraint K) :
    constraintRow l.merge slack artificial c.split = constraintRow l slack artificial c := by
  have hgroup := decisionGroup_merge h 1 c.left
  simp only [constraintRow, Constraint.split, hgroup]
  rfl

/-- The rows of the constraints are the same. -/
theorem constraintBlock_split {l : Layout} (h : l.split = true) (slack artificial : Nat)
    (cs : List (Constraint K)) :
    constraintBlock l.merge slack artificial (cs.map Constraint.split) =
      constraintBlock l slack artificial cs := by
  induction cs generalizing slack artificial with
  | nil => rfl
  | cons c cs ih =>
    rw [List.map_cons, constraintBlock, constraintBlock, constraintRow_split h]
    congr 1
    exact ih _ _

/-- The row of the objective is the same. -/
theorem costRow_split {l : Layout} (h : l.split = true) (goal : Goal) (f : Affine K) :
    costRow l.merge goal f.split = costRow l goal f := by
  simp only [costRow, decisionGroup_merge h]
  rfl

end Tableau

namespace LinearProgram

variable {p : LinearProgram K} {settings : Settings K}

/-- The constraints in normal form, with the differences written out. -/
theorem normalized_split (p : LinearProgram K) :
    p.split.normalized = p.normalized.map Constraint.split := by
  simp [normalized, LinearProgram.split, Constraint.normalize_split]

/-- The groups of columns end at the same places. -/
theorem layout_split (p : LinearProgram K) : p.split.layout true = (p.layout false).merge := by
  have hcount : ∀ q : Comparison → Bool, p.split.normalized.countP (q ·.comparison) =
      p.normalized.countP (q ·.comparison) := fun q => by
    rw [normalized_split, List.countP_map]
    rfl
  have harity : p.split.objective.arity = p.objective.arity + p.objective.arity :=
    p.objective.arity_split
  simp only [layout, Layout.ofConstraints, Layout.merge, Layout.slackStart, hcount, harity]
  rfl

/-- The rows of the constraints with their basic columns are the same. -/
theorem block_split (p : LinearProgram K) : p.split.block true = p.block false := by
  rw [block, block, layout_split, normalized_split]
  exact Tableau.constraintBlock_split rfl 0 0 _

/-- **The initial tableau is the same**, but for the layout. -/
theorem initial_split (p : LinearProgram K) (tolerance : K) :
    Tableau.initial p.split true tolerance = (Tableau.initial p false tolerance).merge := by
  have hcost : Tableau.costRow (p.split.layout true) p.split.goal p.split.objective =
      Tableau.costRow (p.layout false) p.goal p.objective := by
    rw [layout_split]
    exact Tableau.costRow_split rfl _ _
  have hinitial : ∀ (q : LinearProgram K) (nonnegative : Bool),
      Tableau.initial q nonnegative tolerance =
        { layout := q.layout nonnegative
          tolerance := tolerance
          rows := (Tableau.initial q nonnegative tolerance).rows
          basis := ((q.block nonnegative).map (·.2)).toArray
          basicColumns := ((q.block nonnegative).map (·.2)).foldl (·.setIfInBounds · true)
            (Array.replicate (q.layout nonnegative).variableCount false) } := fun _ _ => rfl
  rw [hinitial p.split, hinitial p, Tableau.rows_initial, Tableau.rows_initial, hcost, block_split,
    layout_split]
  rfl

/-- Writing out the differences makes no defect. -/
theorem check_split (h : p.validate = .ok ()) (settings : Settings K) :
    p.split.check { settings with nonnegative := true } =
      p.check { settings with nonnegative := false } := by
  have hsplit : p.split.validate = .ok () := by
    obtain ⟨harity, hnil, hrows⟩ := validate_eq_ok_iff.1 h
    refine validate_eq_ok_iff.2 ⟨?_, by simpa [LinearProgram.split] using hnil, ?_⟩
    · show p.objective.split.arity ≠ 0
      rw [Affine.arity_split]
      omega
    · intro c hc
      obtain ⟨d, hd, rfl⟩ := List.mem_map.1 hc
      show d.left.split.arity = p.objective.split.arity
      rw [Affine.arity_split, Affine.arity_split, hrows d hd]
  simp only [check, hsplit, h]
  rfl

/-- **Free variables are differences of nonnegative ones.** A program with free variables and the
one with the differences written out are solved by the same pivots. Both fail in the same way or
have the same kind of outcome, and at an optimum the free variables are the differences, with the
same value. -/
theorem mirrors_split (h : p.validate = .ok ()) (settings : Settings K) (rule : PivotRule)
    (detail : Option Level) :
    (p.split.run { settings with nonnegative := true } rule detail).Mirrors
      (rejoin p.objective.arity) id (p.run { settings with nonnegative := false } rule detail) := by
  have hanswer : ∀ {t u : Tableau K}, t.MergesTo p.objective.arity u →
      Outcome.optimal u.solution (p.objective.eval u.solution) =
        (Outcome.optimal t.solution (p.split.objective.eval t.solution)).map
          (rejoin p.objective.arity) id := by
    rintro t u ⟨rfl, hsplit, hdecision⟩
    have hvalue : p.split.objective.eval u.merge.solution = p.objective.eval u.solution :=
      Affine.eval_split hsplit hdecision.symm u.basicPoint
    have hpoint : u.solution = rejoin p.objective.arity u.merge.solution := by
      rw [← hdecision]
      exact Tableau.decode_eq_rejoin hsplit u.basicPoint
    rw [Outcome.map, hvalue, ← hpoint]
    rfl
  have hcheck := check_split h settings
  rcases hp : p.check { settings with nonnegative := false } with e | _
  · rw [hp] at hcheck
    rw [run, run, hp, hcheck]
    exact ⟨rfl, rfl, rfl⟩
  · have hmerges : (Tableau.initial p.split true settings.tolerance).MergesTo p.objective.arity
        (Tableau.initial p false settings.tolerance) :=
      ⟨initial_split p settings.tolerance, rfl, rfl⟩
    rw [run_eq hp, run_eq (hcheck.trans hp)]
    refine (Tableau.departure_mergesTo _).twoPhases (Tableau.simulation_mergesTo _) hanswer ?_ ?_
      fun _ => hmerges
    · exact congrArg (·.layout.inPhaseOne) (initial_split p settings.tolerance).symm
    · exact .opening detail hmerges

end LinearProgram

end

/-- The program `flipped` with free variables takes three pivots, as does the one with their
differences written out. -/
theorem LinearProgram.flipped_mirrors_split : flipped.validate = .ok () ∧
    ∃ r r', r = flipped.split.run .standard .first (some .trace) ∧
      r' = flipped.run { Settings.standard with nonnegative := false } .first (some .trace) ∧
      r'.journal.pivots = [(3, 1, -1), (2, 2, -1), (3, 3, -1)] ∧
      r'.result = .ok (.optimal [-3, -1] 2) ∧ r.result = .ok (.optimal [0, 0, 3, 1] 2) ∧
      r.Mirrors (rejoin 2) id r' := by
  have hvalid : flipped.validate = .ok () := by decide +kernel
  exact ⟨hvalid, _, _, rfl, rfl, by decide +kernel, by decide +kernel, by decide +kernel,
    mirrors_split hvalid .standard .first (some .trace)⟩

end Simplex
