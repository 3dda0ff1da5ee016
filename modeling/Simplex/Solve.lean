import Simplex.Program
import Simplex.Settings
import Simplex.Tableau.Artificial
import Simplex.Tableau.Initial
import Simplex.Trail

/-!
# The two phase method

Phase one minimizes the sum of the artificial variables. If it stays above the tolerance, the
program counts as infeasible; otherwise the artificial variables are dropped, and phase two
minimizes the cost of the program from the basis that was found. The pivots of both phases share one
limit; the replacement of artificial variables between the phases does not count.

`LinearProgram.run` is the whole method with its journal, and `LinearProgram.solve` is its result.
-/

namespace Simplex

/-- What phase one found. -/
inductive Feasibility where
  | infeasible
  /-- There is a feasible basis, without the given constraints, whose rows were removed. -/
  | feasible (removed : List Nat)
deriving DecidableEq, Repr

/-- A run of the method: how many pivots it made, what it reported, and how it ended. -/
structure Run (F : Type) where
  pivots : Nat
  journal : Journal F
  result : Except Failure (Outcome F)

namespace Trail

variable {F : Type} [Scalar F]

/-- The end of phase one for a trail on which no pivot lowers the artificial cost any further, or
none has to. -/
def leavePhaseOne (s : Trail F) : Trail F × Except Failure Feasibility :=
  if s.tableau.tolerance < s.tableau.value then
    (s.record (.artificialCostRemains s.tableau.value), .ok .infeasible)
  else
    match s.tableau.dropArtificials with
    | .error b => (s, .error (.breach b))
    | .ok (t, removed) => ({ s with tableau := t }, .ok (.feasible removed))

/-- Phase one: bring the artificial cost down to the tolerance, and leave the artificial variables
behind. -/
def phaseOne (rule : PivotRule) (limit : Nat) (s : Trail F) :
    Trail F × Except Failure Feasibility :=
  match s.descend rule (fun t => t.value ≤ t.tolerance) (limit - s.pivots) with
  | (s, .error b) => (s, .error (.breach b))
  | (s, .ok .limit) => (s, .error (.error (.pivotLimit limit)))
  | (s, .ok .unbounded) => (s, .error (.error .artificialUnbounded))
  | (s, .ok .settled) => s.leavePhaseOne
  | (s, .ok .optimal) => s.leavePhaseOne

/-- Phase two: bring the cost down to its minimum, if it has one. -/
def phaseTwo (rule : PivotRule) (limit : Nat) (objective : Affine F) (s : Trail F) :
    Trail F × Except Failure (Outcome F) :=
  match s.descend rule (fun _ => false) (limit - s.pivots) with
  | (s, .error b) => (s, .error (.breach b))
  | (s, .ok .limit) => (s, .error (.error (.pivotLimit limit)))
  | (s, .ok .unbounded) => (s, .ok .unbounded)
  | (s, .ok .settled) | (s, .ok .optimal) =>
    let point := s.tableau.solution
    (s, .ok (.optimal point (objective.eval point)))

/-- The start of a run on a tableau. -/
def start (detail : Option Level) (t : Tableau F) : Trail F :=
  { tableau := t, pivots := 0, journal := .empty detail }

/-- Report the tableau that a run starts with. -/
def recordCreation (s : Trail F) : Trail F :=
  let t := s.tableau
  (s.record (.created t.rowCount t.layout.columns t.layout.artificial)).record (.snapshot t)

/-- Report how phase one ended with a feasible basis. -/
def recordFeasible (removed : List Nat) (s : Trail F) : Trail F :=
  (if removed.isEmpty then s else s.record (.removedRedundant removed)).record
    (.foundFeasible s.pivots)

/-- Phase two as the last part of a run. -/
def finish (rule : PivotRule) (limit : Nat) (objective : Affine F) (s : Trail F) : Run F :=
  match s.phaseTwo rule limit objective with
  | (s, .error e) => ⟨s.pivots, s.journal, .error e⟩
  | (s, .ok outcome) =>
    ⟨s.pivots, s.journal.record (.finished s.pivots outcome), .ok outcome⟩

/-- Both phases. Phase one is skipped if there are no artificial variables. -/
def twoPhases (rule : PivotRule) (limit : Nat) (objective : Affine F) (s : Trail F) : Run F :=
  if s.tableau.layout.inPhaseOne then
    match s.phaseOne rule limit with
    | (s, .error e) => ⟨s.pivots, s.journal, .error e⟩
    | (s, .ok .infeasible) => ⟨s.pivots, s.journal, .ok .infeasible⟩
    | (s, .ok (.feasible removed)) => (s.recordFeasible removed).finish rule limit objective
  else (s.record .slackBasis).finish rule limit objective

end Trail

namespace LinearProgram

variable {F : Type} [Scalar F]

/-- Check the settings, then the program. -/
def check (p : LinearProgram F) (settings : Settings F) : Except SolveError Unit :=
  match settings.validate with
  | .error e => .error e
  | .ok () => p.validate

/-- Solve a program and keep a journal. -/
def run (p : LinearProgram F) (settings : Settings F) (rule : PivotRule) (detail : Option Level) :
    Run F :=
  match p.check settings with
  | .error e => ⟨0, .empty detail, .error (.error e)⟩
  | .ok () =>
    match Tableau.ofProgram p settings.nonnegative settings.tolerance with
    | .error b => ⟨0, .empty detail, .error (.breach b)⟩
    | .ok t =>
      (Trail.start detail t).recordCreation.twoPhases rule settings.pivotLimit p.objective

/-- Solve a program. -/
def solve (p : LinearProgram F) (settings : Settings F) (rule : PivotRule) :
    Except Failure (Outcome F) :=
  (p.run settings rule none).result

end LinearProgram

end Simplex
