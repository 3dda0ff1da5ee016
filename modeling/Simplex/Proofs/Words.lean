import Mathlib.Data.List.Forall2
import Simplex.Text

/-!
# Reading texts back

A text falls into lines, a line into words and a list of numbers into its numerals, each time by
cutting at some characters. One equation carries all of it: a cut divides the pieces of a text
(`pieces_append_cons`). From it the vocabulary of the tables is read back: a text set into a field
is the only word of the field (`words_blanks`), texts with a line feed after each are the lines
(`textLines_concat`), and numbers in brackets are found again as numerals (`numerals_bracketed`).

Everything is said of lists of characters.
-/

namespace Simplex

section
variable {cut : Char → Bool} {c : Char} {s t : List Char}

/-! ## Pieces -/

/-- The pieces of a text between the characters at which it is cut. Cuts next to each other leave
no empty piece. -/
def pieces (cut : Char → Bool) (s : List Char) : List (List Char) :=
  (s.splitOnP cut).filter (!·.isEmpty)

@[simp]
theorem pieces_nil : pieces cut [] = [] := by
  simp [pieces, List.splitOnP_nil]

/-- **A cut divides the pieces.** -/
theorem pieces_append_cons (hc : cut c = true) (s t : List Char) :
    pieces cut (s ++ c :: t) = pieces cut s ++ pieces cut t := by
  rw [pieces, List.splitOnP_append_cons s t hc, List.filter_append, pieces, pieces]

/-- Nothing is lost at a cut in front. -/
theorem pieces_cons (hc : cut c = true) (s : List Char) : pieces cut (c :: s) = pieces cut s := by
  simpa using pieces_append_cons hc [] s

/-- Nothing is lost at cuts in front. -/
theorem pieces_append_left (hs : ∀ c ∈ s, cut c = true) (t : List Char) :
    pieces cut (s ++ t) = pieces cut t := by
  induction s with
  | nil => rfl
  | cons c s ih =>
    rw [List.cons_append, pieces_cons (hs c List.mem_cons_self)]
    exact ih fun a ha => hs a (List.mem_cons_of_mem _ ha)

/-- Nothing is lost at cuts behind. -/
theorem pieces_append_right (s : List Char) (ht : ∀ c ∈ t, cut c = true) :
    pieces cut (s ++ t) = pieces cut s := by
  cases t with
  | nil => rw [List.append_nil]
  | cons c t =>
    have hrest : pieces cut t = [] := by
      simpa using pieces_append_left (fun a ha => ht a (List.mem_cons_of_mem _ ha)) []
    rw [pieces_append_cons (ht c List.mem_cons_self), hrest, List.append_nil]

/-- A text that is not cut anywhere is one piece. -/
theorem pieces_of_forall (hne : s ≠ []) (hs : ∀ c ∈ s, cut c = false) : pieces cut s = [s] := by
  rw [pieces, List.splitOnP_eq_singleton hs]
  simp [hne]

end

/-! ## Lines -/

/-- Texts with equal characters are equal. -/
theorem toList_injective : Function.Injective String.toList := fun _ _ => String.toList_inj.1

/-- The lines of a text. If the text ends in a line feed, the last of them is empty. -/
def textLines (text : String) : List (List Char) := text.toList.splitOn '\n'

/-- Texts one after the other, as characters. -/
theorem toList_concat (texts : List String) :
    (concat texts).toList = (texts.map String.toList).flatten := by
  induction texts with
  | nil => rfl
  | cons s texts ih =>
    rw [concat, String.toList_append, ih, List.map_cons, List.flatten_cons]

/-- **Texts with a line feed after each are the lines.** -/
theorem textLines_concat {texts : List String} (h : ∀ s ∈ texts, '\n' ∉ s.toList) :
    textLines (concat (texts.map (· ++ "\n"))) = texts.map String.toList ++ [[]] := by
  rw [textLines, toList_concat]
  induction texts with
  | nil => simp [List.splitOn, List.splitOnP_nil]
  | cons s texts ih =>
    have hs := h s List.mem_cons_self
    have htexts := ih fun a ha => h a (List.mem_cons_of_mem _ ha)
    simp only [List.map_cons, List.flatten_cons, String.toList_append, List.append_assoc,
      List.cons_append]
    have hfeed : "\n".toList = ['\n'] := rfl
    rw [hfeed, List.cons_append, List.nil_append,
      List.splitOn_append_cons_self_of_not_mem hs, htexts]

/-- There is no line feed in a list whose members have none. -/
theorem feed_bracketed {α : Type} {text : α → String} {xs : List α}
    (h : ∀ x ∈ xs, '\n' ∉ (text x).toList) : '\n' ∉ (bracketed text xs).toList := by
  have hseparated : ∀ texts : List String, (∀ s ∈ texts, '\n' ∉ s.toList) →
      '\n' ∉ (separated texts).toList := by
    intro texts htexts
    induction texts with
    | nil => exact List.not_mem_nil
    | cons s texts ih =>
      have hs := htexts s List.mem_cons_self
      have hrest := ih fun a ha => htexts a (List.mem_cons_of_mem _ ha)
      cases texts with
      | nil => exact hs
      | cons t texts => simp [separated, hs, hrest]
  simpa [bracketed] using hseparated (xs.map text) (by simpa using h)

/-! ## Words -/

/-- The words of a line. -/
def words (line : List Char) : List (List Char) := pieces (· == ' ') line

/-- The characters form one word of one line. -/
structure IsWord (s : List Char) : Prop where
  ne_nil : s ≠ []
  blank : ' ' ∉ s
  feed : '\n' ∉ s

/-- A word is its own only word. -/
theorem words_of_isWord {s : List Char} (hs : IsWord s) : words s = [s] :=
  pieces_of_forall hs.ne_nil fun _ hc => beq_false_of_ne fun h => hs.blank (h ▸ hc)

/-- **A text that is set into a field is the only word of the field.** -/
theorem words_blanks {s : List Char} (hs : IsWord s) (m n : Nat) :
    words (List.replicate m ' ' ++ s ++ List.replicate n ' ') = [s] := by
  have hblank : ∀ k, ∀ c ∈ List.replicate k ' ', (c == ' ') = true := by
    intro k c hc
    rw [List.eq_of_mem_replicate hc]
    rfl
  rw [words, pieces_append_right _ (hblank n), pieces_append_left (hblank m)]
  exact words_of_isWord hs

/-- In a line, the word number `k`, counted from zero, ends at a position. There is a blank in front
of it, and a blank or nothing follows. -/
def WordEndsAt (line : List Char) (k : Nat) (word : List Char) (position : Nat) : Prop :=
  ∃ before after, line = before ++ ' ' :: word ++ after ∧ (words before).length = k ∧
    (before ++ ' ' :: word).length = position ∧ ∀ c ∈ after.head?, c = ' '

/-! ## Numerals -/

/-- The numerals of a text. -/
def numerals (text : List Char) : List (List Char) := pieces (!·.isDigit) text

/-- A number is one numeral. -/
theorem numerals_toString (n : Nat) : numerals (toString n).toList = [(toString n).toList] := by
  have hdigits : (toString n).toList = Nat.toDigits 10 n := Nat.toList_repr
  rw [hdigits, numerals, pieces_of_forall Nat.toDigits_ne_nil]
  intro c hc
  rw [Nat.isDigit_of_mem_toDigits (by decide) (by decide) hc]
  rfl

/-- Different numbers have different numerals. -/
theorem toString_injective {m n : Nat} (h : (toString m).toList = (toString n).toList) : m = n := by
  have hdigits : Nat.toDigits 10 m = Nat.toDigits 10 n := by
    rw [← Nat.toList_repr, ← Nat.toList_repr]
    exact h
  rw [← Nat.ofDigitChars_ten_toDigits (n := m), hdigits, Nat.ofDigitChars_ten_toDigits]

/-- A number is a word. -/
theorem isWord_toString (n : Nat) : IsWord (toString n).toList := by
  have hdigits : (toString n).toList = Nat.toDigits 10 n := Nat.toList_repr
  have hdigit : ∀ c ∈ (toString n).toList, c.isDigit = true := by
    rw [hdigits]
    exact fun c hc => Nat.isDigit_of_mem_toDigits (by decide) (by decide) hc
  refine ⟨?_, fun h => ?_, fun h => ?_⟩
  · rw [hdigits]
    exact Nat.toDigits_ne_nil
  · cases hdigit _ h
  · cases hdigit _ h

/-- The numerals of texts with commas between them. -/
theorem numerals_separated (texts : List String) :
    numerals (separated texts).toList = texts.flatMap fun s => numerals s.toList := by
  induction texts with
  | nil => rfl
  | cons s texts ih =>
    cases texts with
    | nil => simp [separated]
    | cons t texts =>
      have hcomma : ", ".toList = [',', ' '] := rfl
      rw [separated, String.toList_append, String.toList_append, hcomma, List.append_assoc,
        List.cons_append, List.cons_append, List.nil_append, List.flatMap_cons, ← ih]
      · rw [numerals, pieces_append_cons rfl, pieces_cons rfl]
        rfl
      · simp

/-- **The numerals of a list in brackets** are those of its members. -/
theorem numerals_bracketed {α : Type} (text : α → String) (xs : List α) :
    numerals (bracketed text xs).toList = xs.flatMap fun x => numerals (text x).toList := by
  have hopen : "[".toList = ['['] := rfl
  have hclose : "]".toList = [']'] := rfl
  rw [bracketed, String.toList_append, String.toList_append, hopen, hclose, numerals,
    pieces_append_right _ (by simp), List.cons_append, List.nil_append, pieces_cons rfl]
  exact (numerals_separated _).trans (by rw [List.flatMap_map])

end Simplex
