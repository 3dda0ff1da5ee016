import Simplex.Program
import Simplex.Tableau.Basic

/-!
# The initial tableau

Every constraint enters in normal form, so that its right-hand side is not negative. Its basic
column is its slack variable if that has coefficient one, and an artificial variable otherwise;
together they are a basis whose basic solution is feasible.

The artificial cost is the sum of the artificial variables, written in the columns outside of the
basis: minus the sum of the rows in which an artificial variable is basic.
-/

namespace Simplex

namespace Layout

/-- The layout for constraints in normal form over `decision` variables. -/
def ofConstraints {F : Type} (decision : Nat) (split : Bool) (cs : List (Constraint F)) :
    Layout where
  decision := decision
  split := split
  slack := cs.countP (·.comparison.hasSlack)
  artificial := cs.countP (·.comparison.hasArtificial)

end Layout

namespace Tableau

variable {F : Type} [Scalar F]

/-- A group of columns that is zero but for one position, if any. -/
def unitGroup (size : Nat) (position : Option (Nat × F)) : List F :=
  (List.range size).map fun j =>
    match position with
    | some (k, x) => if j = k then x else 0
    | none => 0

/-- The columns of the decision variables, with the coefficients multiplied by a factor. The
negative parts have the negated products. -/
def decisionGroup (split : Bool) (factor : F) (coefficients : List F) : List F :=
  let products := coefficients.map (factor * ·)
  products ++ if split then products.map (- ·) else []

/-- The row of a constraint in normal form, and its basic column. `slack` and `artificial` count
the variables of these groups that earlier constraints use. -/
def constraintRow (l : Layout) (slack artificial : Nat) (c : Constraint F) : Array F × Nat :=
  let slackColumn : Option (Nat × F) :=
    match c.comparison with
    | .atMost => some (slack, 1)
    | .equal => none
    | .atLeast => some (slack, -1)
  let artificialColumn : Option (Nat × F) :=
    if c.comparison.hasArtificial then some (artificial, 1) else none
  let entries := decisionGroup l.split 1 c.left.coefficients ++ unitGroup l.slack slackColumn
    ++ unitGroup l.artificial artificialColumn ++ [c.right]
  (entries.toArray,
    if c.comparison.hasArtificial then l.artificialStart + artificial else l.slackStart + slack)

/-- The rows of constraints in normal form with their basic columns, each constraint taking the
next free slack and artificial variable that it needs. -/
def constraintBlock (l : Layout) : Nat → Nat → List (Constraint F) → List (Array F × Nat)
  | _, _, [] => []
  | slack, artificial, c :: cs =>
    constraintRow l slack artificial c ::
      constraintBlock l (slack + if c.comparison.hasSlack then 1 else 0)
        (artificial + if c.comparison.hasArtificial then 1 else 0) cs

/-- The row of an objective: its coefficients in the direction of a minimization, and minus its
value at the origin in the last column. -/
def costRow (l : Layout) (goal : Goal) (objective : Affine F) : Array F :=
  let sign : F := goal.sign
  (decisionGroup l.split sign objective.coefficients
    ++ unitGroup (l.slack + l.artificial) none
    ++ [-(sign * objective.constant)]).toArray

/-- Take a row off a cost row, except in the artificial columns. -/
def subtractOutside (l : Layout) (total row : Array F) : Array F :=
  total.mapIdx fun j x => if l.isArtificial j then x else x - row.getD j 0

/-- The row of the artificial cost. The rows are subtracted in their order, from a row of zeros. -/
def artificialCostRow (l : Layout) (block : List (Array F × Nat)) : Array F :=
  block.foldl (fun total r => if l.isArtificial r.2 then subtractOutside l total r.1 else total)
    (Array.replicate l.columns 0)

/-- The tableau of a program whose constraints all have as many coefficients as its objective. -/
def initial (p : LinearProgram F) (nonnegative : Bool) (tolerance : F) : Tableau F :=
  let normalized := p.constraints.map Constraint.normalize
  let l := Layout.ofConstraints p.objective.arity (!nonnegative) normalized
  let block := constraintBlock l 0 0 normalized
  let costs := (if l.inPhaseOne then [artificialCostRow l block] else [])
    ++ [costRow l p.goal p.objective]
  let basis := block.map (·.2)
  { layout := l
    tolerance := tolerance
    rows := (costs ++ block.map (·.1)).toArray
    basis := basis.toArray
    basicColumns := basis.foldl (fun s j => s.setIfInBounds j true)
      (Array.replicate l.variableCount false) }

/-- The tableau of a program, with the conditions under which it makes sense: every constraint has
as many coefficients as the objective, and the tolerance is positive. -/
def ofProgram (p : LinearProgram F) (nonnegative : Bool) (tolerance : F) :
    Except Breach (Tableau F) :=
  if !p.isRectangular then .error .ragged
  else if 0 < tolerance then .ok (initial p nonnegative tolerance)
  else .error .tolerance

end Tableau

end Simplex
