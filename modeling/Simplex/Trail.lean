import Simplex.Journal
import Simplex.Tableau.Entering
import Simplex.Tableau.Feasible
import Simplex.Tableau.Pivot
import Simplex.Tableau.Ratio

/-!
# Walking from basis to basis

A `Trail` is a tableau on its way to an optimum, with the pivots made so far and the journal. Its
single move is `step`; `descend` repeats the move, and is the loop of both phases. The number of
pivots is limited, and the loop recurses on how many are left.
-/

namespace Simplex

/-- What a single iteration decides to do. -/
inductive Move (F : Type) where
  /-- Let a column of the given relative cost into the basis. -/
  | pivot (row column : Nat) (cost : F)
  /-- No column is profitable. -/
  | optimal
  /-- No entry of a profitable column is above the tolerance. -/
  | unbounded (column : Nat)

/-- What a single iteration did. -/
inductive Step where
  | pivoted (row column : Nat)
  | optimal
  | unbounded (column : Nat)
deriving DecidableEq, Repr

/-- The move that a pivot rule and the ratio test decide on. -/
def Tableau.move {F : Type} [Scalar F] (t : Tableau F) (rule : PivotRule) : Move F :=
  match t.select rule with
  | none => .optimal
  | some (column, cost) =>
    match t.leavingRow column with
    | none => .unbounded column
    | some row => .pivot row column cost

/-- A tableau on its way, the number of pivots that brought it there, and the journal. -/
structure Trail (F : Type) where
  tableau : Tableau F
  pivots : Nat
  journal : Journal F

/-- Where the loop of a phase comes to rest. -/
inductive Halt where
  /-- The phase has what it wants. -/
  | settled
  /-- No column is profitable. -/
  | optimal
  /-- No entry of a profitable column is above the tolerance. -/
  | unbounded
  /-- The pivot just made was one too many. -/
  | limit
deriving DecidableEq, Repr

namespace Trail

variable {F : Type} [Scalar F]

/-- Write an event into the journal. -/
def record (s : Trail F) (e : Event F) : Trail F := { s with journal := s.journal.record e }

/-- Go on to the tableau that a pivot led to. -/
def advance (s : Trail F) (t : Tableau F) : Trail F :=
  { s with tableau := t, pivots := s.pivots + 1 }.record (.snapshot t)

/-- One iteration of the simplex method. The pivot is announced before it is made, and the trail
as it is at a breach is part of the result. -/
def step (rule : PivotRule) (s : Trail F) : Trail F × Except Breach Step :=
  match s.tableau.move rule with
  | .optimal => (s, .ok .optimal)
  | .unbounded column => (s, .ok (.unbounded column))
  | .pivot row column cost =>
    let s := s.record (.pivoting row column cost)
    match s.tableau.pivot row column with
    | .error b => (s, .error b)
    | .ok t => (s.advance t, .ok (.pivoted row column))

/-- At most so many iterations, ending after the first that makes no pivot. -/
def steps (rule : PivotRule) : Nat → Trail F → Trail F × Except Breach (List Step)
  | 0, s => (s, .ok [])
  | n + 1, s =>
    match s.step rule with
    | (s, .error b) => (s, .error b)
    | (s, .ok (.pivoted row column)) =>
      match steps rule n s with
      | (s, .error b) => (s, .error b)
      | (s, .ok rest) => (s, .ok (.pivoted row column :: rest))
    | (s, .ok last) => (s, .ok [last])

/-- The loop of a phase: make pivots until the phase is settled, no pivot is possible, or more than
`budget` pivots were made. The state of the tableau is checked before each decision. -/
def descend (rule : PivotRule) (settled : Tableau F → Bool) (budget : Nat) (s : Trail F) :
    Trail F × Except Breach Halt :=
  match s.tableau.checkFeasible with
  | .error b => (s, .error b)
  | .ok () =>
    if settled s.tableau then (s, .ok .settled)
    else
      match s.step rule with
      | (s, .error b) => (s, .error b)
      | (s, .ok .optimal) => (s, .ok .optimal)
      | (s, .ok (.unbounded _)) => (s, .ok .unbounded)
      | (s, .ok (.pivoted _ _)) =>
        match budget with
        | 0 => (s, .ok .limit)
        | budget + 1 => descend rule settled budget s

end Trail

end Simplex
