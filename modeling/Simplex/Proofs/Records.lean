import Simplex.Proofs.Simulation
import Simplex.Proofs.Words

/-!
# Reading the records of a journal

Whoever follows a run has the texts of its journal and not its events. The texts are read here
without the events: a text announces a pivot, reports the end of phase one or of the run, or shows a
tableau, and the numbers are those that stand in it. Each reader finds something exactly in the
texts of one form (`announcedPivot_eq_some_iff`, `numberBetween_eq_some_iff`).

The texts of events of different kinds begin with different words (`Event.begins_opening`), so in
the text of an event the readers find what the event is about, and nothing else
(`Event.announcedPivot_text`, `Event.foundAfter_text`, `Event.finishedAfter_text`,
`Event.showsTableau_text`). Nothing is assumed of the texts of scalars.
-/

namespace Simplex

/-! ## Beginnings and numbers of texts -/

/-- Whether a text begins with some words. -/
def begins (words text : String) : Bool := words.toList.isPrefixOf text.toList

/-- The numbers in a text. -/
def numbers (text : String) : List Nat :=
  (numerals text.toList).map fun digits => Nat.ofDigitChars 10 digits 0

section
variable {words words' text rest : String}

theorem begins_iff : begins words text = true ↔ ∃ rest, text = words ++ rest := by
  rw [begins, List.isPrefixOf_iff_prefix]
  constructor
  · rintro ⟨rest, hrest⟩
    exact ⟨String.ofList rest, toList_injective (by simp [hrest])⟩
  · rintro ⟨rest, rfl⟩
    exact ⟨rest.toList, String.toList_append.symm⟩

theorem begins_append (words rest : String) : begins words (words ++ rest) = true :=
  begins_iff.2 ⟨rest, rfl⟩

/-- What begins with a text begins with all that this text begins with. -/
theorem begins_of_append (h : begins (words ++ rest) text = true) : begins words text = true := by
  obtain ⟨rest', rfl⟩ := begins_iff.1 h
  rw [String.append_assoc]
  exact begins_append words _

/-- Of two beginnings of a text one begins with the other. -/
theorem begins_or_begins (h : begins words text = true) (h' : begins words' text = true) :
    begins words words' = true ∨ begins words' words = true := by
  rw [begins, List.isPrefixOf_iff_prefix] at h h'
  rw [begins, begins, List.isPrefixOf_iff_prefix, List.isPrefixOf_iff_prefix]
  exact List.prefix_or_prefix_of_prefix h h'

/-- The words before a number, and what follows it, are not part of it. -/
theorem numbers_append (hwords : words.toList.all (!·.isDigit) = true)
    (hrest : rest.toList.head?.all (!·.isDigit) = true) (n : Nat) :
    numbers (words ++ toString n ++ rest) = n :: numbers rest := by
  have hnumeral : numerals (words ++ toString n ++ rest).toList =
      (toString n).toList :: numerals rest.toList := by
    rw [String.toList_append, String.toList_append, List.append_assoc, numerals,
      pieces_append_left (List.all_eq_true.1 hwords)]
    cases htext : rest.toList with
    | nil =>
      rw [List.append_nil, numerals, pieces_nil]
      exact numerals_toString n
    | cons c tail =>
      have hc : (!c.isDigit) = true := by rwa [htext] at hrest
      rw [pieces_append_cons hc, numerals, pieces_cons hc, ← numerals, numerals_toString]
      rfl
  have hdigits : (toString n).toList = Nat.toDigits 10 n := Nat.toList_repr
  rw [numbers, hnumeral, List.map_cons, hdigits, Nat.ofDigitChars_ten_toDigits]
  rfl

end

/-! ## What a record says -/

/-- The row and the column of the pivot that a text announces. -/
def announcedPivot (text : String) : Option (Nat × Nat) :=
  match numbers text with
  | row :: column :: _ =>
    if begins s!"Pivoting on row {row} and column {column}, relative cost " text then
      some (row, column)
    else none
  | _ => none

/-- The number that stands in a text after the words with which it begins and before others. -/
def numberBetween (words words' text : String) : Option Nat :=
  (numbers text).head?.filter fun n => begins (words ++ toString n ++ words') text

/-- The number of pivots after which phase one is over, if that is what a text reports. -/
def foundAfter : String → Option Nat :=
  numberBetween "Found a basic feasible solution after " " pivots"

/-- The number of pivots after which the run is over, if that is what a text reports. -/
def finishedAfter : String → Option Nat := numberBetween "Finished after " " pivots: "

/-- Whether a text shows a tableau. -/
def showsTableau (text : String) : Bool := begins "=== Tableau ===\n" text

section
variable {words words' text : String} {row column n : Nat}

/-- **A text announces a pivot if it says so.** -/
theorem announcedPivot_eq_some_iff : announcedPivot text = some (row, column) ↔
    begins s!"Pivoting on row {row} and column {column}, relative cost " text = true := by
  constructor
  · intro h
    unfold announcedPivot at h
    split at h
    · split at h
      · next hbegins =>
        cases h
        exact hbegins
      · cases h
    · cases h
  · intro h
    obtain ⟨rest, rfl⟩ := begins_iff.1 h
    have hparts : s!"Pivoting on row {row} and column {column}, relative cost " ++ rest =
        "Pivoting on row " ++ toString row ++
          (" and column " ++ toString column ++ (", relative cost " ++ rest)) := by
      simp only [String.append_assoc]
      rfl
    rw [hparts] at h ⊢
    rw [announcedPivot, numbers_append rfl (by simp), numbers_append rfl (by simp)]
    exact if_pos h

/-- A text without the first words of an announcement announces no pivot. -/
theorem announcedPivot_eq_none (h : begins "Pivoting on row " text = false) :
    announcedPivot text = none := by
  refine Option.eq_none_iff_forall_ne_some.2 fun p hp => ?_
  have hbegins := announcedPivot_eq_some_iff.1 hp
  have hparts : s!"Pivoting on row {p.1} and column {p.2}, relative cost " =
      "Pivoting on row " ++
        (toString p.1 ++ " and column " ++ toString p.2 ++ ", relative cost ") := by
    simp only [← String.append_assoc]
    rfl
  rw [hparts] at hbegins
  rw [begins_of_append hbegins] at h
  cases h

/-- **A text has a number between some words if it says so**, provided that these words end the
number: there is no digit before it, and something else than a digit behind it. -/
theorem numberBetween_eq_some_iff (hwords : words.toList.all (!·.isDigit) = true)
    (hwords' : words'.toList.head?.any (!·.isDigit) = true) :
    numberBetween words words' text = some n ↔
      begins (words ++ toString n ++ words') text = true := by
  rw [numberBetween, Option.filter_eq_some_iff, and_iff_right_iff_imp]
  intro h
  obtain ⟨rest, rfl⟩ := begins_iff.1 h
  have hrest : (words' ++ rest).toList.head?.all (!·.isDigit) = true := by
    cases htext : words'.toList with
    | nil =>
      rw [htext] at hwords'
      cases hwords'
    | cons c tail =>
      rw [htext] at hwords'
      rw [String.toList_append, htext]
      exact hwords'
  rw [String.append_assoc, numbers_append hwords hrest]
  rfl

/-- A text that begins otherwise has no number there. -/
theorem numberBetween_eq_none (h : begins words text = false) :
    numberBetween words words' text = none := by
  refine Option.eq_none_iff_forall_ne_some.2 fun n hn => ?_
  have hbegins := (Option.filter_eq_some_iff.1 hn).2
  rw [String.append_assoc] at hbegins
  rw [begins_of_append hbegins] at h
  cases h

end

/-! ## The texts of events -/

namespace Event

section
variable {F : Type}

/-- The tableau that an event shows. -/
def tableau? : Event F → Option (Tableau F)
  | snapshot t => some t
  | _ => none

/-- The number of pivots after which phase one is over, if that is what an event reports. -/
def found? : Event F → Option Nat
  | foundFeasible n => some n
  | _ => none

/-- The number of pivots after which the run is over, if that is what an event reports. -/
def finished? : Event F → Option Nat
  | finished n _ => some n
  | _ => none

/-- The words with which the text of an event begins. -/
def opening : Event F → String
  | created _ _ _ => "Created tableau with "
  | snapshot _ => "=== Tableau ===\n"
  | slackBasis => "Slack variables form a feasible basis, skipping phase one"
  | pivoting _ _ _ => "Pivoting on row "
  | artificialCostRemains _ => "Artificial cost "
  | removedRedundant _ => "Removed redundant constraints "
  | foundFeasible _ => "Found a basic feasible solution after "
  | finished _ _ => "Finished after "

/-- The words with which the texts of events begin. -/
def openings : List String :=
  ["Created tableau with ", "=== Tableau ===\n",
    "Slack variables form a feasible basis, skipping phase one", "Pivoting on row ",
    "Artificial cost ", "Removed redundant constraints ",
    "Found a basic feasible solution after ", "Finished after "]

theorem opening_mem_openings (e : Event F) : e.opening ∈ openings := by
  cases e <;> simp [opening, openings]

/-- No opening is the beginning of another one. -/
theorem eq_of_begins_opening : ∀ words ∈ openings, ∀ words' ∈ openings,
    begins words words' = true → words = words' := by
  decide +kernel

variable [Scalar F] [ScalarText F]

/-- The text of an event begins with the words of its kind. -/
theorem begins_opening (e : Event F) : begins e.opening e.text = true := by
  rw [begins_iff]
  cases e with
  | created rows columns artificial =>
    refine ⟨toString rows ++ " rows and " ++ toString columns ++ " columns, of which " ++
      toString artificial ++ " artificial", ?_⟩
    simp only [← String.append_assoc]
    rfl
  | snapshot t => exact ⟨_, rfl⟩
  | slackBasis => exact ⟨"", String.append_empty.symm⟩
  | pivoting row column cost =>
    refine ⟨toString row ++ " and column " ++ toString column ++ ", relative cost " ++
      ScalarText.plain cost, ?_⟩
    simp only [← String.append_assoc]
    rfl
  | artificialCostRemains cost => exact ⟨_, String.append_assoc⟩
  | removedRedundant constraints => exact ⟨_, rfl⟩
  | foundFeasible n => exact ⟨_, String.append_assoc⟩
  | finished n outcome =>
    refine ⟨toString n ++ " pivots: " ++ outcome.text, ?_⟩
    simp only [← String.append_assoc]
    rfl

/-- **The text of an event begins with the words of no other kind.** -/
theorem begins_text_eq_false {words : String} (e : Event F) (hwords : words ∈ openings)
    (hne : words ≠ e.opening) : begins words e.text = false := by
  refine Bool.eq_false_iff.2 fun hbegins => hne ?_
  rcases begins_or_begins hbegins e.begins_opening with hle | hle
  · exact eq_of_begins_opening _ hwords _ e.opening_mem_openings hle
  · exact (eq_of_begins_opening _ e.opening_mem_openings _ hwords hle).symm

/-- **The text of an event announces the pivot that the event is about**, if there is one. -/
theorem announcedPivot_text (e : Event F) :
    announcedPivot e.text = e.pivot?.map fun x => (x.1, x.2.1) := by
  cases e with
  | pivoting row column cost => exact announcedPivot_eq_some_iff.2 (begins_append _ _)
  | _ =>
    exact announcedPivot_eq_none
      (begins_text_eq_false _ (by simp [openings]) (by simp [opening]))

/-- **The text of an event reports the end of phase one if the event does.** -/
theorem foundAfter_text (e : Event F) : foundAfter e.text = e.found? := by
  cases e with
  | foundFeasible n =>
    exact (numberBetween_eq_some_iff rfl rfl).2 (begins_iff.2 ⟨"", String.append_empty.symm⟩)
  | _ =>
    exact numberBetween_eq_none
      (begins_text_eq_false _ (by simp [openings]) (by simp [opening]))

/-- **The text of an event reports the end of the run if the event does.** -/
theorem finishedAfter_text (e : Event F) : finishedAfter e.text = e.finished? := by
  cases e with
  | finished n outcome => exact (numberBetween_eq_some_iff rfl rfl).2 (begins_append _ _)
  | _ =>
    exact numberBetween_eq_none
      (begins_text_eq_false _ (by simp [openings]) (by simp [opening]))

/-- **The text of an event shows a tableau if the event does.** -/
theorem showsTableau_text (e : Event F) : showsTableau e.text = e.tableau?.isSome := by
  cases e with
  | snapshot t => exact begins_opening (snapshot t)
  | _ => exact begins_text_eq_false _ (by simp [openings]) (by simp [opening])

end

end Event

/-! ## What a record tells to do -/

/-- What a record tells its reader to do with the tableau at hand. -/
inductive Instruction where
  /-- Make the pivot that is announced. -/
  | pivot (row column : Nat)
  /-- Drop the artificial variables, since phase one is over. -/
  | drop

/-- What a text tells to do. -/
def instructionOf (text : String) : Option Instruction :=
  match announcedPivot text with
  | some (row, column) => some (.pivot row column)
  | none => (foundAfter text).map fun _ => .drop

section
variable {F : Type}

/-- What an event tells to do. -/
def Event.instruction? : Event F → Option Instruction
  | pivoting row column _ => some (.pivot row column)
  | foundFeasible _ => some .drop
  | _ => none

variable [Scalar F] [ScalarText F]

/-- An event and its text tell the same. -/
theorem Event.instructionOf_text (e : Event F) : instructionOf e.text = e.instruction? := by
  rw [instructionOf, announcedPivot_text, foundAfter_text]
  cases e <;> rfl

/-! ## The texts of many events -/

variable (es : List (Event F))

/-- A member of a list of texts is the text of the event at its place. -/
theorem exists_of_texts_eq_append {es : List (Event F)} {before after : List String}
    {text : String} (h : es.map Event.text = before ++ text :: after) :
    ∃ ds e fs, es = ds ++ e :: fs ∧ before = ds.map Event.text ∧ text = e.text ∧
      after = fs.map Event.text := by
  obtain ⟨ds, rest, rfl, rfl, hrest⟩ := List.map_eq_append_iff.1 h
  obtain ⟨e, fs, rfl, rfl, rfl⟩ := List.map_eq_cons_iff.1 hrest
  exact ⟨ds, e, fs, rfl, rfl, rfl, rfl⟩

theorem filterMap_announcedPivot_texts : (es.map Event.text).filterMap announcedPivot =
    (es.filterMap Event.pivot?).map fun x => (x.1, x.2.1) := by
  rw [List.filterMap_map, List.map_filterMap]
  exact List.filterMap_congr fun e _ => e.announcedPivot_text

theorem filterMap_instructionOf_texts :
    (es.map Event.text).filterMap instructionOf = es.filterMap Event.instruction? := by
  rw [List.filterMap_map]
  exact List.filterMap_congr fun e _ => e.instructionOf_text

/-- The texts that show tableaus are the renderings of the tableaus that are shown. -/
theorem filter_showsTableau_texts : (es.map Event.text).filter showsTableau =
    (es.filterMap Event.tableau?).map Tableau.render := by
  induction es with
  | nil => rfl
  | cons e es ih =>
    rw [List.map_cons, List.filter_cons, e.showsTableau_text, List.filterMap_cons, ih]
    cases e <;> rfl

end

end Simplex
