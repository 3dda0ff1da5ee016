import Mathlib.Data.List.Lex
import Simplex.Scalar.Binary
import Simplex.Proofs.PivotLimit

/-!
# The first defect of an input

`LinearProgram.Defect` lists what can be wrong with a program and its settings, each defect as the
error that names it, and `SolveError.place` says where in the input an error points to. A check
`Reports` the defects it is about if it accepts what has none of them, and otherwise names the one
with the first place. Checks that are made one after the other report all their defects together,
as long as those of the first come before those of the second (`Reports.followed`); from this the
check of a whole input is put together in the way the input is.

A run returns such an error exactly if the input has a defect, and then the first one
(`LinearProgram.run_reports_first_defect`). No law of arithmetic is used.
-/

namespace Simplex

/-! ## The order of the defects -/

/-- Where a location stands among all places of an input. -/
def Location.place : Location → List Nat
  | .objectiveCoefficient j => [3, j]
  | .objectiveConstant => [4]
  | .coefficient i j => [5, i, 1, j]
  | .constant i => [5, i, 2]
  | .value i => [5, i, 3]

namespace SolveError

/-- Where an error points to: the settings, the shape of the program, the values of the objective,
and then the constraints in their order, of each its number of coefficients before its values. The
errors that are not about the input come after all others. -/
def place : SolveError → List Nat
  | badTolerance => [0]
  | noVariables => [1]
  | noConstraints => [2]
  | notFinite location => location.place
  | coefficientCount i _ _ => [5, i, 0]
  | lengthMismatch _ _ | pivotLimit _ | artificialUnbounded => [6]

/-- One error points to an earlier place than another. -/
def Before (e e' : SolveError) : Prop := List.Lex (· < ·) e.place e'.place

/-- Of two errors at most one points to the earlier place. -/
theorem Before.asymm {e e' : SolveError} (h : e.Before e') : ¬ e'.Before e :=
  Std.Asymm.asymm e.place e'.place h

/-- Whether an error says that the input of a run is malformed. -/
def isAboutInput : SolveError → Bool
  | badTolerance | noVariables | noConstraints | notFinite _ | coefficientCount _ _ _ => true
  | lengthMismatch _ _ | pivotLimit _ | artificialUnbounded => false

end SolveError

/-! ## Checks one after the other -/

/-- A check accepts what has none of the defects, and otherwise reports the first of them. -/
def Reports (D : SolveError → Prop) : Except SolveError Unit → Prop
  | .ok () => ∀ e, ¬ D e
  | .error e => D e ∧ ∀ e', D e' → e' = e ∨ e.Before e'

namespace Reports

variable {D D₁ D₂ : SolveError → Prop} {c c' : Except SolveError Unit}

/-- The same defects in other words. -/
theorem congr (h : Reports D c) (hD : ∀ e, D₁ e ↔ D e) : Reports D₁ c := by
  obtain rfl : D₁ = D := funext fun e => propext (hD e)
  exact h

/-- A check that is made only if another one accepts. The two report all their defects if those of
the first come before those of the second. -/
theorem followed (h₁ : Reports D₁ c) (herror : ∀ e, c = .error e → c' = .error e)
    (hok : c = .ok () → Reports D₂ c') (hD : ∀ e, D e ↔ D₁ e ∨ D₂ e)
    (hbefore : ∀ e e' : SolveError, D₁ e → D₂ e' → e.Before e') : Reports D c' := by
  cases c with
  | error e =>
    rw [herror e rfl]
    refine ⟨(hD e).2 (.inl h₁.1), fun e' he' => ?_⟩
    rcases (hD e').1 he' with h | h
    · exact h₁.2 e' h
    · exact .inr (hbefore e e' h₁.1 h)
  | ok u => exact (hok rfl).congr fun e => (hD e).trans (or_iff_right (h₁ e))

/-- A check that is made only under a condition, and otherwise reports a defect that comes before
all of its own. -/
theorem guarded {b : Prop} [Decidable b] {e : SolveError} (hok : b → Reports D₁ c)
    (hD : ∀ e', D e' ↔ (¬ b ∧ e' = e) ∨ D₁ e') (hbefore : ∀ e', D₁ e' → e.Before e') :
    Reports D (if b then c else .error e) := by
  split
  · next h => exact (hok h).congr fun e' => (hD e').trans (or_iff_right fun hf => hf.1 h)
  · next h =>
    refine ⟨(hD e).2 (.inl ⟨h, rfl⟩), fun e' he' => ?_⟩
    rcases (hD e').1 he' with ⟨-, rfl⟩ | he'
    · exact .inl rfl
    · exact .inr (hbefore e' he')

/-- A check that accepts everything. -/
theorem accept : Reports (fun _ => False) (.ok ()) := fun _ h => h

/-- A check that reports its defects fails with the first of them. -/
theorem eq_error_iff (h : Reports D c) {e : SolveError} :
    c = .error e ↔ D e ∧ ∀ e', D e' → e' = e ∨ e.Before e' := by
  constructor
  · rintro rfl
    exact h
  · rintro ⟨he, hfirst⟩
    cases c with
    | ok u => exact absurd he (h e)
    | error e' =>
      rcases hfirst e' h.1 with rfl | hbefore
      · rfl
      · rcases h.2 e he with rfl | hbefore'
        · rfl
        · exact absurd hbefore' hbefore.asymm

/-- A check that reports its defects accepts exactly what has none. -/
theorem eq_ok_iff (h : Reports D c) : c = .ok () ↔ ∀ e, ¬ D e := by
  cases c with
  | ok u => exact iff_of_true rfl h
  | error e => exact iff_of_false (by simp) fun hf => hf e h.1

end Reports

section
variable {F : Type} [Scalar F]

/-! ## The defects of the parts of an input -/

/-- A value of an affine function that is not finite. -/
inductive Affine.Defect (f : Affine F) (coefficient : Nat → Location) (constant : Location) :
    SolveError → Prop
  | coefficient {j : Nat} {x : F} (hx : f.coefficients[j]? = some x)
    (h : Scalar.isFinite x = false) : Defect f coefficient constant (.notFinite (coefficient j))
  | constant (h : Scalar.isFinite f.constant = false) :
    Defect f coefficient constant (.notFinite constant)

/-- What can be wrong with the constraint of the given index of a program whose objective has
`arity` variables. -/
inductive Constraint.Defect (arity index : Nat) (c : Constraint F) : SolveError → Prop
  | count (h : c.left.arity ≠ arity) :
    Defect arity index c (.coefficientCount index arity c.left.arity)
  | left {e : SolveError} (h : c.left.Defect (.coefficient index) (.constant index) e) :
    Defect arity index c e
  | right (h : Scalar.isFinite c.right = false) :
    Defect arity index c (.notFinite (.value index))

/-- What can be wrong with a program and its settings. -/
inductive LinearProgram.Defect (p : LinearProgram F) (settings : Settings F) : SolveError → Prop
  | tolerance (h : ¬ (0 < settings.tolerance ∧ Scalar.isFinite settings.tolerance = true)) :
    Defect p settings .badTolerance
  | noVariables (h : p.objective.arity = 0) : Defect p settings .noVariables
  | noConstraints (h : p.constraints = []) : Defect p settings .noConstraints
  | objective {e : SolveError}
    (h : p.objective.Defect .objectiveCoefficient .objectiveConstant e) : Defect p settings e
  | constraint {i : Nat} {c : Constraint F} {e : SolveError} (hc : p.constraints[i]? = some c)
    (h : c.Defect p.objective.arity i e) : Defect p settings e

/-! ## The parts of an input are checked in their order -/

/-- The values of an affine function are checked in their order, provided that the locations they
are reported at are in this order. -/
theorem Affine.reports_checkFinite (f : Affine F) {coefficient : Nat → Location}
    {constant : Location}
    (hcoefficient : ∀ j k, j < k → (SolveError.notFinite (coefficient j)).Before
      (.notFinite (coefficient k)))
    (hconstant : ∀ j, (SolveError.notFinite (coefficient j)).Before (.notFinite constant)) :
    Reports (f.Defect coefficient constant) (f.checkFinite coefficient constant) := by
  unfold checkFinite
  cases hfind : f.coefficients.findIdx? (fun x => !Scalar.isFinite x) with
  | some j =>
    obtain ⟨hlt, hj, hbefore⟩ := List.findIdx?_eq_some_iff_getElem.1 hfind
    refine ⟨.coefficient (List.getElem?_eq_getElem hlt) (by simpa using hj), fun e he => ?_⟩
    cases he with
    | @coefficient k x hx h =>
      obtain ⟨hk, rfl⟩ := List.getElem?_eq_some_iff.1 hx
      rcases Nat.lt_trichotomy j k with hjk | rfl | hkj
      · exact .inr (hcoefficient j k hjk)
      · exact .inl rfl
      · exact absurd (by simpa using h) (hbefore k hkj)
    | constant h => exact .inr (hconstant j)
  | none =>
    have hfinite : ∀ {j : Nat} {x : F}, f.coefficients[j]? = some x →
        Scalar.isFinite x ≠ false := by
      intro j x hx h
      have := List.findIdx?_eq_none_iff.1 hfind x (List.mem_of_getElem? hx)
      simp [h] at this
    refine Reports.guarded (fun _ => .accept) (fun e => ?_) fun e he => he.elim
    constructor
    · rintro (⟨hx, h⟩ | h)
      · exact absurd h (hfinite hx)
      · exact .inl ⟨by simp [h], rfl⟩
    · rintro (⟨h, rfl⟩ | h)
      · exact .constant (by simpa using h)
      · exact h.elim

/-- The values of the left-hand side of a constraint come after its number of coefficients and
before its right-hand side. -/
theorem Affine.Defect.before_right {f : Affine F} {index : Nat} {e : SolveError}
    (h : f.Defect (.coefficient index) (.constant index) e) :
    (∀ arity found, (SolveError.coefficientCount index arity found).Before e) ∧
      e.Before (.notFinite (.value index)) := by
  cases h with
  | coefficient =>
    exact ⟨fun _ _ => .cons (.cons (.rel (by decide))), .cons (.cons (.rel (by decide)))⟩
  | constant =>
    exact ⟨fun _ _ => .cons (.cons (.rel (by decide))), .cons (.cons (.rel (by decide)))⟩

/-- The values of a constraint are checked from left to right. -/
theorem Constraint.reports_checkFinite (c : Constraint F) (index : Nat) :
    Reports (fun e => c.left.Defect (.coefficient index) (.constant index) e ∨
      (¬ Scalar.isFinite c.right = true ∧ e = .notFinite (.value index)) ∨ False)
      (c.checkFinite index) := by
  have hleft : Reports (c.left.Defect (.coefficient index) (.constant index))
      (c.left.checkFinite (.coefficient index) (.constant index)) :=
    c.left.reports_checkFinite (fun j k hjk => .cons (.cons (.cons (.rel hjk))))
      fun j => .cons (.cons (.rel (by decide)))
  refine hleft.followed (fun e he => ?_) (fun hok => ?_) (fun e => Iff.rfl) ?_
  · rw [checkFinite, he]
  · rw [checkFinite, hok]
    exact Reports.guarded (fun _ => .accept) (fun e => Iff.rfl) fun e he => he.elim
  · rintro e e' he (⟨-, rfl⟩ | hf)
    · exact he.before_right.2
    · exact hf.elim

/-- The check of a constraint looks at its number of coefficients before its values. -/
theorem Constraint.reports_validate (arity index : Nat) (c : Constraint F) :
    Reports (c.Defect arity index) (LinearProgram.validateConstraint arity index c) := by
  refine Reports.guarded (fun _ => c.reports_checkFinite index) (fun e => ?_) fun e he => ?_
  · constructor
    · rintro (h | h | h)
      · exact .inl ⟨h, rfl⟩
      · exact .inr (.inl h)
      · exact .inr (.inr (.inl ⟨by simp [h], rfl⟩))
    · rintro (⟨h, rfl⟩ | h | ⟨h, rfl⟩ | hf)
      · exact .count h
      · exact .left h
      · exact .right (by simpa using h)
      · exact hf.elim
  · rcases he with he | ⟨-, rfl⟩ | hf
    · exact he.before_right.1 _ _
    · exact .cons (.cons (.rel (by decide)))
    · exact hf.elim

/-- A defect of a constraint is found at a place of that constraint. -/
theorem Constraint.Defect.exists_place {arity index : Nat} {c : Constraint F} {e : SolveError}
    (h : c.Defect arity index e) : ∃ places, e.place = 5 :: index :: places := by
  cases h with
  | count | right => exact ⟨_, rfl⟩
  | left h => cases h <;> exact ⟨_, rfl⟩

namespace LinearProgram

/-- Constraints are checked in their order. -/
theorem reports_validateConstraints (arity : Nat) (cs : List (Constraint F)) (index : Nat) :
    Reports (fun e => ∃ k, ∃ c : Constraint F, cs[k]? = some c ∧ c.Defect arity (index + k) e)
      (validateConstraints arity index cs) := by
  induction cs generalizing index with
  | nil =>
    rintro e ⟨k, c, hc, -⟩
    simp at hc
  | cons c cs ih =>
    have hrest : validateConstraint arity index c = .ok () →
        Reports (fun e => ∃ k, ∃ d : Constraint F, cs[k]? = some d ∧
            d.Defect arity (index + 1 + k) e)
          (validateConstraints arity index (c :: cs)) := by
      intro hok
      rw [validateConstraints, hok]
      exact ih (index + 1)
    refine (c.reports_validate arity index).followed (fun e he => ?_) hrest (fun e => ?_)
      fun e e' he he' => ?_
    · rw [validateConstraints, he]
    · constructor
      · rintro ⟨_ | k, d, hd, h⟩
        · cases hd
          exact .inl h
        · exact .inr ⟨k, d, hd, by rwa [Nat.add_assoc, Nat.add_comm 1]⟩
      · rintro (h | ⟨k, d, hd, h⟩)
        · exact ⟨0, c, rfl, h⟩
        · exact ⟨k + 1, d, hd, by rwa [Nat.add_assoc, Nat.add_comm 1] at h⟩
    · obtain ⟨k, d, -, h⟩ := he'
      obtain ⟨_, hplace⟩ := he.exists_place
      obtain ⟨_, hplace'⟩ := h.exists_place
      rw [SolveError.Before, hplace, hplace']
      exact .cons (.rel (by omega))

/-- What can be wrong with the values of a program. -/
def ValueDefect (p : LinearProgram F) (e : SolveError) : Prop :=
  p.objective.Defect .objectiveCoefficient .objectiveConstant e ∨
    ∃ i, ∃ c : Constraint F, p.constraints[i]? = some c ∧ c.Defect p.objective.arity i e

/-- The values of a program come after its shape and the settings. -/
theorem ValueDefect.before {p : LinearProgram F} {e e' : SolveError} {n : Nat}
    (h : p.ValueDefect e) (hplace : e'.place = [n]) (hn : n < 3) : e'.Before e := by
  rw [SolveError.Before, hplace]
  rcases h with h | ⟨i, c, -, h⟩
  · cases h with
    | coefficient => exact .rel hn
    | constant => exact .rel (by omega)
  · obtain ⟨_, hplace'⟩ := h.exists_place
    rw [hplace']
    exact .rel (by omega)

/-- The check of a program looks at its shape, at its objective, and at its constraints. -/
theorem reports_validate (p : LinearProgram F) :
    Reports (fun e => (p.objective.arity = 0 ∧ e = .noVariables) ∨
      (p.constraints = [] ∧ e = .noConstraints) ∨ p.ValueDefect e) p.validate := by
  have hobjective : Reports (p.objective.Defect .objectiveCoefficient .objectiveConstant)
      (p.objective.checkFinite .objectiveCoefficient .objectiveConstant) :=
    p.objective.reports_checkFinite (fun j k hjk => .cons (.rel hjk)) fun j => .rel (by decide)
  have hconstraints := reports_validateConstraints p.objective.arity p.constraints 0
  simp only [Nat.zero_add] at hconstraints
  unfold validate
  rw [← ite_not, ← ite_not (p.constraints.isEmpty = true)]
  refine Reports.guarded (fun _ => Reports.guarded (fun _ => (?_ : Reports p.ValueDefect _))
    (fun e => Iff.rfl) fun e he => he.before rfl (by decide)) (fun e => ?_) fun e he => ?_
  · refine hobjective.followed (fun e he => by rw [he]) (fun hok => by rwa [hok])
      (fun e => Iff.rfl) ?_
    rintro e e' he ⟨i, c, hc, h⟩
    obtain ⟨_, hplace⟩ := h.exists_place
    rw [SolveError.Before, hplace]
    cases he with
    | coefficient => exact .rel (by decide)
    | constant => exact .rel (by decide)
  · rw [not_not, not_not, List.isEmpty_iff]
  · rcases he with ⟨-, rfl⟩ | he
    · exact .rel (by decide)
    · exact he.before rfl (by decide)

/-- The check of an input looks at the tolerance before the program. -/
theorem reports_check (p : LinearProgram F) (settings : Settings F) :
    Reports (p.Defect settings) (p.check settings) := by
  have hsettings : Reports (fun e => ¬ (0 < settings.tolerance ∧
      Scalar.isFinite settings.tolerance = true) ∧ e = .badTolerance) settings.validate :=
    Reports.guarded (fun _ => .accept) (fun e => (iff_of_eq (or_false _)).symm) fun e he => he.elim
  refine hsettings.followed (fun e he => by rw [check, he])
    (fun hok => by rw [check, hok]; exact p.reports_validate) (fun e => ?_) ?_
  · constructor
    · rintro (h | h | h | h | ⟨hc, h⟩)
      · exact .inl ⟨h, rfl⟩
      · exact .inr (.inl ⟨h, rfl⟩)
      · exact .inr (.inr (.inl ⟨h, rfl⟩))
      · exact .inr (.inr (.inr (.inl h)))
      · exact .inr (.inr (.inr (.inr ⟨_, _, hc, h⟩)))
    · rintro (⟨h, rfl⟩ | ⟨h, rfl⟩ | ⟨h, rfl⟩ | h | ⟨i, c, hc, h⟩)
      · exact .tolerance h
      · exact .noVariables h
      · exact .noConstraints h
      · exact .objective h
      · exact .constraint hc h
  · rintro e e' ⟨-, rfl⟩ (⟨-, rfl⟩ | ⟨-, rfl⟩ | h)
    · exact .rel (by decide)
    · exact .rel (by decide)
    · exact h.before rfl (by decide)

/-! ## What a run returns -/

/-- A defect is about the input. -/
theorem Defect.isAboutInput {p : LinearProgram F} {settings : Settings F} {e : SolveError}
    (h : p.Defect settings e) : e.isAboutInput = true := by
  cases h with
  | tolerance | noVariables | noConstraints => rfl
  | objective h => cases h <;> rfl
  | constraint hc h =>
    cases h with
    | count | right => rfl
    | left h => cases h <;> rfl

/-- Only the check of the input returns an error about it. -/
theorem run_eq_error_iff {p : LinearProgram F} {settings : Settings F} {e : SolveError}
    (he : e.isAboutInput = true) (rule : PivotRule) (detail : Option Level) :
    (p.run settings rule detail).result = .error (.error e) ↔ p.check settings = .error e := by
  cases hcheck : p.check settings with
  | error e' =>
    rw [run, hcheck]
    simp
  | ok u =>
    refine iff_of_false (fun hresult => ?_) (by simp)
    obtain ⟨n, s, -, -, ⟨-, hlimit⟩ | ⟨-, hstop⟩⟩ := run_spec hcheck rule detail
    · rw [hresult] at hlimit
      cases hlimit
      cases he
    · rw [hresult] at hstop
      cases conclusive_of_stop hstop
      cases he

/-- All numbers of a program: those of the objective, and those of the constraints. -/
def numbers (p : LinearProgram F) : List F :=
  p.objective.coefficients ++ [p.objective.constant] ++
    p.constraints.flatMap fun c => c.left.coefficients ++ [c.left.constant, c.right]

/-- All numbers of a program without a defect are finite. -/
theorem isFinite_of_mem_numbers {p : LinearProgram F} {settings : Settings F}
    (h : ∀ e, ¬ p.Defect settings e) {x : F} (hx : x ∈ p.numbers) : Scalar.isFinite x = true := by
  by_contra hinfinite
  rw [Bool.not_eq_true] at hinfinite
  simp only [numbers, List.mem_append, List.mem_flatMap, List.mem_cons,
    List.not_mem_nil, or_false] at hx
  rcases hx with (hx | rfl) | ⟨c, hc, hx⟩
  · obtain ⟨j, hj⟩ := List.mem_iff_getElem?.1 hx
    exact h _ (.objective (.coefficient hj hinfinite))
  · exact h _ (.objective (.constant hinfinite))
  · obtain ⟨i, hi⟩ := List.mem_iff_getElem?.1 hc
    rcases hx with hx | rfl | rfl
    · obtain ⟨j, hj⟩ := List.mem_iff_getElem?.1 hx
      exact h _ (.constraint hi (.left (.coefficient hj hinfinite)))
    · exact h _ (.constraint hi (.left (.constant hinfinite)))
    · exact h _ (.constraint hi (.right hinfinite))

/-- **A run reports the first defect of its input.** It returns an error about the input exactly if
there is a defect, and then that of the first one, whatever the defects behind it are. If it returns
none, a tableau can be built from the program, and all its numbers are finite. -/
theorem run_reports_first_defect (p : LinearProgram F) (settings : Settings F) (rule : PivotRule)
    (detail : Option Level) :
    (∀ e, e.isAboutInput = true →
      ((p.run settings rule detail).result = .error (.error e) ↔
        p.Defect settings e ∧ ∀ e', p.Defect settings e' → e' = e ∨ e.Before e')) ∧
    ((∃ e, e.isAboutInput = true ∧ (p.run settings rule detail).result = .error (.error e)) ↔
      ∃ e, p.Defect settings e) ∧
    ((∀ e, e.isAboutInput = true → (p.run settings rule detail).result ≠ .error (.error e)) →
      (p.isRectangular = true ∧ 0 < settings.tolerance ∧
        ∃ t, Tableau.ofProgram p settings.nonnegative settings.tolerance = .ok t) ∧
      Scalar.isFinite settings.tolerance = true ∧ ∀ x ∈ p.numbers, Scalar.isFinite x = true) := by
  have hcheck := p.reports_check settings
  have hfirst : ∀ e, e.isAboutInput = true →
      ((p.run settings rule detail).result = .error (.error e) ↔
        p.Defect settings e ∧ ∀ e', p.Defect settings e' → e' = e ∨ e.Before e') :=
    fun e he => (run_eq_error_iff he rule detail).trans hcheck.eq_error_iff
  have hnone : (∀ e, e.isAboutInput = true →
      (p.run settings rule detail).result ≠ .error (.error e)) → p.check settings = .ok () := by
    intro h
    cases hresult : p.check settings with
    | ok u => rfl
    | error e =>
      have he : e.isAboutInput = true := (hcheck.eq_error_iff.1 hresult).1.isAboutInput
      exact absurd ((run_eq_error_iff he rule detail).2 hresult) (h e he)
  refine ⟨hfirst, ⟨?_, ?_⟩, fun h => ?_⟩
  · rintro ⟨e, he, hresult⟩
    exact ⟨e, ((hfirst e he).1 hresult).1⟩
  · rintro ⟨e, he⟩
    by_contra hf
    exact hcheck.eq_ok_iff.1 (hnone fun e' he' hresult => hf ⟨e', he', hresult⟩) e he
  · have hok := hnone h
    have hdefect := hcheck.eq_ok_iff.1 hok
    obtain ⟨htolerance, harity⟩ := of_check hok
    refine ⟨⟨isRectangular_iff.2 harity, htolerance, _,
      ofProgram_eq_ok_iff.2 ⟨harity, htolerance, rfl⟩⟩, ?_,
      fun x => isFinite_of_mem_numbers hdefect⟩
    by_contra hinfinite
    exact hdefect _ (.tolerance fun hf => hinfinite hf.2)

/-- A coefficient that is no number is not seen in a constraint with too many of them, and neither
is a right-hand side of a later constraint. -/
example : (⟨.minimize, ⟨[1], 0⟩, [.linear [1] .atMost 1, .linear [0 / 0, 1] .equal 0,
      .linear [1] .atLeast (1 / 0)]⟩ : LinearProgram Float).check .standard =
    .error (.coefficientCount 1 1 2) := by
  decide +kernel

end LinearProgram

end

end Simplex
