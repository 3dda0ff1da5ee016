import Simplex.Outcome
import Simplex.Tableau.Rendering

/-!
# Journals

A run reports what it does as events, in order. An event holds the values it is about; its text is
made only when somebody reads the journal. A journal has a level of detail and ignores the events
beyond it, so that a run nobody follows keeps none of the tableaus that it went through.
-/

namespace Simplex

/-- How detailed an event is. -/
inductive Level where
  | debug
  | trace
deriving DecidableEq, Repr

/-- One thing that a run reports. -/
inductive Event (F : Type) where
  /-- The initial tableau was built: its rows, its columns, its artificial variables. -/
  | created (rows columns artificial : Nat)
  /-- The tableau as it is now. -/
  | snapshot (tableau : Tableau F)
  /-- No artificial variable is needed, so there is no phase one. -/
  | slackBasis
  /-- A pivot is about to be made. -/
  | pivoting (row column : Nat) (cost : F)
  /-- Phase one ended above zero. -/
  | artificialCostRemains (cost : F)
  /-- Constraints were removed as redundant when phase one ended. -/
  | removedRedundant (constraints : List Nat)
  /-- Phase one is over after so many pivots. -/
  | foundFeasible (pivots : Nat)
  /-- The run is over after so many pivots. -/
  | finished (pivots : Nat) (outcome : Outcome F)

namespace Event

variable {F : Type}

/-- The events of every single pivot are the detailed ones. -/
def level : Event F → Level
  | snapshot _ => .trace
  | pivoting _ _ _ => .trace
  | _ => .debug

/-- An event in words. -/
def text [Scalar F] [ScalarText F] : Event F → String
  | created rows columns artificial =>
    s!"Created tableau with {rows} rows and {columns} columns, of which {artificial} artificial"
  | snapshot tableau => tableau.render
  | slackBasis => "Slack variables form a feasible basis, skipping phase one"
  | pivoting row column cost =>
    s!"Pivoting on row {row} and column {column}, relative cost " ++ ScalarText.plain cost
  | artificialCostRemains cost =>
    "Artificial cost " ++ ScalarText.plain cost ++ " remains, the problem is infeasible"
  | removedRedundant constraints =>
    "Removed redundant constraints " ++ bracketed toString constraints
  | foundFeasible pivots => s!"Found a basic feasible solution after {pivots} pivots"
  | finished pivots outcome => s!"Finished after {pivots} pivots: " ++ outcome.text

end Event

/-- The events of a run so far, as far as its level of detail admits them. -/
structure Journal (F : Type) where
  /-- The most detailed level that is kept. Nothing is kept if it is absent. -/
  detail : Option Level
  events : Array (Event F)

namespace Journal

variable {F : Type}

/-- A journal without events. -/
def empty (detail : Option Level) : Journal F := ⟨detail, #[]⟩

/-- Whether events of a level are kept. -/
def admits (j : Journal F) : Level → Bool
  | .debug => j.detail.isSome
  | .trace => j.detail == some .trace

/-- Write an event at the end of the journal. -/
def record (j : Journal F) (e : Event F) : Journal F :=
  if j.admits e.level then { j with events := j.events.push e } else j

/-- The events in words, each with its level. -/
def texts [Scalar F] [ScalarText F] (j : Journal F) : List (Level × String) :=
  j.events.toList.map fun e => (e.level, e.text)

end Journal

end Simplex
