/-!
# Layout of a tableau

The columns of a tableau come in groups, in this order: the decision variables (or their positive
parts), their negative parts if they may be negative, the slack variables, the artificial
variables, and one last column for the right-hand sides. The rows start with the cost rows: the
artificial cost as long as there are artificial variables, then the cost of the program itself.
-/

namespace Simplex

/-- How many columns each group has. -/
structure Layout where
  /-- The number of decision variables. -/
  decision : Nat
  /-- Whether each decision variable is written as a positive part minus a negative part. -/
  split : Bool
  /-- The number of slack and surplus variables, one for every inequality. -/
  slack : Nat
  /-- The number of artificial variables. None are left after phase one. -/
  artificial : Nat
deriving DecidableEq, Repr

namespace Layout

/-- The first slack column. -/
def slackStart (l : Layout) : Nat := l.decision + if l.split then l.decision else 0

/-- The first artificial column. -/
def artificialStart (l : Layout) : Nat := l.slackStart + l.slack

/-- The number of columns that belong to a variable. -/
def variableCount (l : Layout) : Nat := l.artificialStart + l.artificial

/-- The column of the right-hand sides. -/
def rightColumn (l : Layout) : Nat := l.variableCount

/-- The number of columns, the right-hand sides included. -/
def columns (l : Layout) : Nat := l.variableCount + 1

/-- Whether there is an artificial cost to be brought to zero first. -/
def inPhaseOne (l : Layout) : Bool := 0 < l.artificial

/-- The number of cost rows. -/
def costRows (l : Layout) : Nat := if l.inPhaseOne then 2 else 1

/-- Whether a column belongs to an artificial variable. -/
def isArtificial (l : Layout) (column : Nat) : Bool :=
  l.artificialStart ≤ column && column < l.variableCount

/-- The artificial columns, in increasing order. -/
def artificialColumns (l : Layout) : List Nat := List.range' l.artificialStart l.artificial

/-- The layout without its artificial variables. -/
def withoutArtificial (l : Layout) : Layout := { l with artificial := 0 }

end Layout

end Simplex
