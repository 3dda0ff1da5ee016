/-!
# Fields and lists of text

The small vocabulary in which tables and lists are written: runs of one character, texts set into
a field of a given width, and lists in brackets. A text that is longer than its field is written
in full.
-/

namespace Simplex

/-- A run of one character. -/
def fill (c : Char) (n : Nat) : String := String.ofList (List.replicate n c)

@[simp]
theorem length_fill (c : Char) (n : Nat) : (fill c n).length = n := by
  simp [fill]

/-- A text at the right end of a field. -/
def alignRight (width : Nat) (s : String) : String := fill ' ' (width - s.length) ++ s

/-- A text that fits its field fills it. -/
theorem length_alignRight {width : Nat} {s : String} (h : s.length ≤ width) :
    (alignRight width s).length = width := by
  simp only [alignRight, String.length_append, length_fill]
  omega

/-- A text in the middle of a field. Of an odd number of blanks the greater part follows it. -/
def alignCenter (width : Nat) (s : String) : String :=
  let blanks := width - s.length
  fill ' ' (blanks / 2) ++ s ++ fill ' ' (blanks - blanks / 2)

/-- A text that fits its field fills it. -/
theorem length_alignCenter {width : Nat} {s : String} (h : s.length ≤ width) :
    (alignCenter width s).length = width := by
  simp only [alignCenter, String.length_append, length_fill]
  omega

/-- Texts one after the other. -/
def concat : List String → String
  | [] => ""
  | s :: rest => s ++ concat rest

/-- Texts one after the other, with a comma and a blank between them. -/
def separated : List String → String
  | [] => ""
  | [s] => s
  | s :: rest => s ++ ", " ++ separated rest

/-- The texts of the members of a list, in square brackets. -/
def bracketed {α : Type} (text : α → String) (xs : List α) : String :=
  "[" ++ separated (xs.map text) ++ "]"

end Simplex
