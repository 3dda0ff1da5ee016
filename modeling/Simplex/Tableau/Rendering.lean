import Simplex.Scalar.Text
import Simplex.Tableau.Basic
import Simplex.Text

/-!
# Tableaus as text

A tableau is written as a table with aligned columns, followed by the basic column of each
constraint row. Every column is as wide as its longest text; cells are set to the right and the
column numbers in the middle. Lines separate the column numbers, the cost rows and the
constraint rows. Widths are measured in bytes, and a text is set into its field by characters: with
texts outside of ASCII a column is wider than needed, and still aligned.
-/

namespace Simplex.Tableau

variable {F : Type} [Scalar F]

/-! ## Texts of the parts -/

/-- The label of a row: the name of its cost, or the number of its constraint. -/
def rowLabel (t : Tableau F) (row : Nat) : String :=
  if t.layout.costRows ≤ row then toString (row - t.layout.costRows)
  else if row = 0 ∧ t.layout.inPhaseOne = true then "artificial"
  else "cost"

/-- The heading of a column: its number, or `b` for the right-hand sides. -/
def columnHeading (t : Tableau F) (column : Nat) : String :=
  if column = t.layout.rightColumn then "b" else toString column

/-- The headings of all columns. -/
def headings (t : Tableau F) : List String := (List.range t.layout.columns).map t.columnHeading

/-- The labels of all rows. -/
def labels (t : Tableau F) : List String := (List.range t.rowCount).map t.rowLabel

/-- The texts of all entries. -/
def cells [ScalarText F] (t : Tableau F) : List (List String) :=
  t.rows.toList.map fun row => row.toList.map ScalarText.plain

/-! ## Widths -/

/-- Widen the columns to the texts of one more row. -/
def widen (widths : List Nat) (texts : List String) : List Nat :=
  List.zipWith (fun n s => max n s.utf8ByteSize) widths texts

/-- The width of every column: the longest of its heading and its cells. -/
def columnWidths [ScalarText F] (t : Tableau F) : List Nat :=
  t.cells.foldl widen (t.headings.map String.utf8ByteSize)

/-- The width of the labels: the longest of them. -/
def labelWidth (t : Tableau F) : Nat := t.labels.foldl (fun n s => max n s.utf8ByteSize) 0

/-! ## Lines -/

/-- A line of the table: a label, a bar, and the cells, each after a blank. -/
def tableLine (align : Nat → String → String) (labelWidth : Nat) (widths : List Nat)
    (label : String) (texts : List String) : String :=
  alignRight labelWidth label ++ " |"
    ++ concat (List.zipWith (fun n s => " " ++ align n s) widths texts)

/-- The lines of the table from top to bottom. There is no line below the cost rows if no
constraint follows them. -/
def tableLines [ScalarText F] (t : Tableau F) : List String :=
  let widths := t.columnWidths
  let rows := List.zipWith (tableLine alignRight t.labelWidth widths) t.labels t.cells
  let dashes := fill '-' (widths.foldl (fun n width => n + 1 + width) (t.labelWidth + 2))
  let costs := rows.take t.layout.costRows
  let constraints := rows.drop t.layout.costRows
  [tableLine alignCenter t.labelWidth widths "" t.headings, dashes] ++ costs
    ++ (if constraints.isEmpty then [] else [dashes]) ++ constraints

/-- A constraint row with its basic column, as a pair in parentheses. -/
def basisText (t : Tableau F) (row : Nat) : String := s!"({row}, {t.basicColumn row})"

/-- All lines of a tableau. -/
def lines [ScalarText F] (t : Tableau F) : List String :=
  ["=== Tableau ==="] ++ t.tableLines
    ++ ["", "=== Basis Columns ===", bracketed t.basisText t.constraintRows]

/-- The text of a tableau. Every line ends in a line feed. -/
def render [ScalarText F] (t : Tableau F) : String := concat (t.lines.map (· ++ "\n"))

end Simplex.Tableau
