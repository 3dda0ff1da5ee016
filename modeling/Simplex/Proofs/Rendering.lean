import Simplex.Proofs.BasisInvariant
import Simplex.Proofs.Fields
import Simplex.Proofs.NumberTexts

/-!
# Reading a printed tableau back

The text of a tableau is read without knowing the tableau: `tableOf` takes the lines of the table
out of it, `matrixLines` and `dashLines` tell them apart, `words` finds the label and the cells of a
row, and `numerals` the basic columns. If the texts of the scalars are words, all of it is found
where it was put, for a tableau whose basis fits its matrix.

Two things follow. The table is aligned (`Tableau.ShownAligned`): only the widths of the columns
decide the lengths of its lines and where its cells end. And the text loses nothing of what is
printed (`Tableau.LooksLike`): the label of the first row tells how many cost rows there are, the
lines below the head are the rows, and the words after the bar are the cells. What the text never
had is how the columns are divided among the kinds of variables.
-/

namespace Simplex

/-! ## The lines of a table in a text -/

/-- The lines of the table in a text: those between the first line and the first empty one. -/
def tableOf (text : String) : List (List Char) :=
  ((textLines text).drop 1).takeWhile (!·.isEmpty)

/-- Whether a line is drawn and not written. -/
def isDashes (line : List Char) : Bool := line.all (· == '-')

/-- The lines that are drawn in the table of a text. -/
def dashLines (text : String) : List (List Char) := (tableOf text).filter isDashes

/-- The lines of the table of a text that stand for rows: what is written below its head. -/
def matrixLines (text : String) : List (List Char) :=
  ((tableOf text).drop 1).filter (!isDashes ·)

namespace Tableau

section
variable {F : Type} [Scalar F] [ScalarText F]

/-- **A text shows a tableau in an aligned table.** -/
structure ShownAligned (t : Tableau F) (text : String) : Prop where
  /-- The head, the lines of dashes and the lines of the rows all have the same length. -/
  length_eq : ∃ width, ∀ line ∈ tableOf text, line.length = width
  length_matrixLines : (matrixLines text).length = t.rowCount
  /-- There is a second line of dashes if and only if there is a constraint row. -/
  length_dashLines : (dashLines text).length = if t.constraintRows = [] then 1 else 2
  /-- One line of dashes is below the head, and the other one above the constraint rows. -/
  order : ∃ head dashes, isDashes head = false ∧ isDashes dashes = true ∧
    tableOf text = [head, dashes] ++ (matrixLines text).take t.layout.costRows ++
      (if t.constraintRows = [] then [] else [dashes]) ++
      (matrixLines text).drop t.layout.costRows
  /-- The cell of a column is the word in the same place of every row, counted after the label and
  the bar, and it ends at the same position. -/
  cells : ∃ ends : Nat → Nat, ∀ i line, (matrixLines text)[i]? = some line →
    ∀ j < t.layout.columns,
      WordEndsAt line (j + 2) (ScalarText.plain (t.entry i j)).toList (ends j)

/-- Two tableaus have as many cost rows, constraint rows and columns, the same texts of all entries,
and the same basic column in every constraint row. -/
structure LooksLike (t u : Tableau F) : Prop where
  costRows : t.layout.costRows = u.layout.costRows
  constraintCount : t.constraintCount = u.constraintCount
  columns : t.layout.columns = u.layout.columns
  plain_entry : ∀ i < t.rowCount, ∀ j < t.layout.columns,
    ScalarText.plain (t.entry i j) = ScalarText.plain (u.entry i j)
  basicColumn : ∀ r ∈ t.constraintRows, t.basicColumn r = u.basicColumn r

end

/-! ## Labels, headings and basic columns -/

section
variable {F : Type} {t u : Tableau F}

/-- Labels are words. -/
theorem isWord_rowLabel (t : Tableau F) (i : Nat) : IsWord (t.rowLabel i).toList := by
  rw [rowLabel]
  split
  · exact isWord_toString _
  · split <;> exact ⟨by decide, by decide, by decide⟩

/-- Headings are words. -/
theorem isWord_columnHeading (t : Tableau F) (j : Nat) : IsWord (t.columnHeading j).toList := by
  rw [columnHeading]
  split
  · exact ⟨by decide, by decide, by decide⟩
  · exact isWord_toString _

theorem length_labels (t : Tableau F) : t.labels.length = t.rowCount := by
  rw [labels, List.length_map, List.length_range]

theorem length_headings (t : Tableau F) : t.headings.length = t.layout.columns := by
  rw [headings, List.length_map, List.length_range]

/-- The labels are no longer than their field. -/
theorem length_rowLabel_le {i : Nat} (hi : i < t.rowCount) :
    (t.rowLabel i).length ≤ t.labelWidth :=
  le_foldl_max.2 _ (List.mem_map_of_mem (List.mem_range.2 hi))

/-- The label of the first row tells how many cost rows there are. -/
theorem costRows_eq_of_rowLabel (h : t.rowLabel 0 = u.rowLabel 0) :
    t.layout.costRows = u.layout.costRows := by
  have hlabel : ∀ v : Tableau F,
      v.rowLabel 0 = if v.layout.inPhaseOne then "artificial" else "cost" := by
    intro v
    rw [rowLabel, if_neg (Nat.not_le_of_lt (costRows_pos v.layout))]
    simp
  rw [hlabel, hlabel] at h
  rw [Layout.costRows, Layout.costRows]
  split at h <;> split at h <;> simp_all

/-- The number of cost rows tells whether there is an artificial one. -/
theorem inPhaseOne_eq_of_costRows (h : t.layout.costRows = u.layout.costRows) :
    t.layout.inPhaseOne = u.layout.inPhaseOne := by
  rw [Layout.costRows, Layout.costRows] at h
  split at h <;> split at h <;> simp_all

/-- There is a constraint row unless the cost rows are all. -/
theorem constraintRows_eq_nil_iff : t.constraintRows = [] ↔ t.rowCount ≤ t.layout.costRows := by
  rw [constraintRows, List.range'_eq_nil_iff, constraintCount, Nat.sub_eq_zero_iff_le, rowCount]

/-- The text of a basic column as characters. -/
theorem toList_basisText (t : Tableau F) (r : Nat) : (t.basisText r).toList =
    '(' :: ((toString r).toList ++ ',' :: ' ' ::
      ((toString (t.basicColumn r)).toList ++ [')'])) := by
  have hparts : t.basisText r =
    "(" ++ toString r ++ ", " ++ toString (t.basicColumn r) ++ ")" := rfl
  simp only [hparts, String.toList_append, List.append_assoc]
  rfl

/-- The text of a basic column has no line feed in it. -/
theorem feed_basisText (t : Tableau F) (r : Nat) : '\n' ∉ (t.basisText r).toList := by
  have hrow := (isWord_toString r).feed
  have hcolumn := (isWord_toString (t.basicColumn r)).feed
  rw [toList_basisText]
  simp only [List.mem_cons, List.mem_append, hrow, hcolumn, false_or]
  decide

/-- The numerals in the text of a basic column are its row and the column. -/
theorem numerals_basisText (t : Tableau F) (r : Nat) : numerals (t.basisText r).toList =
    [(toString r).toList, (toString (t.basicColumn r)).toList] := by
  have hrow := numerals_toString r
  have hcolumn := numerals_toString (t.basicColumn r)
  rw [numerals] at hrow hcolumn ⊢
  rw [toList_basisText, pieces_cons rfl, pieces_append_cons rfl, pieces_cons rfl,
    pieces_append_right _ (by simp), hrow, hcolumn]
  rfl

/-- **The basic columns are found again in their text.** -/
theorem basicColumn_eq_of_bracketed {rows : List Nat}
    (h : bracketed t.basisText rows = bracketed u.basisText rows) :
    ∀ r ∈ rows, t.basicColumn r = u.basicColumn r := by
  have hnumerals := congrArg (fun s => numerals s.toList) h
  simp only [numerals_bracketed, numerals_basisText] at hnumerals
  clear h
  induction rows with
  | nil => exact fun r hr => absurd hr List.not_mem_nil
  | cons first rows ih =>
    rw [List.flatMap_cons, List.flatMap_cons] at hnumerals
    simp only [List.cons_append, List.nil_append, List.cons.injEq, true_and] at hnumerals
    obtain ⟨hfirst, hrest⟩ := hnumerals
    intro r hr
    rcases List.mem_cons.1 hr with rfl | hr
    · exact toString_injective hfirst
    · exact ih hrest r hr

end

/-! ## The lines of the table -/

section
variable {F : Type} [ScalarText F] {t u : Tableau F}

theorem length_cells (t : Tableau F) : t.cells.length = t.rowCount := by
  rw [cells, List.length_map, Array.length_toList, rowCount]

/-- Cells are texts of entries. -/
theorem isWord_cells (hF : ScalarText.PlainWords F) {texts : List String} (h : texts ∈ t.cells) :
    ∀ s ∈ texts, IsWord s.toList := by
  obtain ⟨row, -, rfl⟩ := List.mem_map.1 h
  intro s hs
  obtain ⟨x, -, rfl⟩ := List.mem_map.1 hs
  exact hF x

/-- The width of all lines of the table. -/
def tableWidth (t : Tableau F) : Nat := columnsEnd (t.labelWidth + 2) t.columnWidths

/-- The line with the numbers of the columns. -/
def headLine (t : Tableau F) : String :=
  tableLine alignCenter t.labelWidth t.columnWidths "" t.headings

/-- The lines of the rows. -/
def rowLines (t : Tableau F) : List String :=
  List.zipWith (tableLine alignRight t.labelWidth t.columnWidths) t.labels t.cells

theorem tableLines_eq (t : Tableau F) : t.tableLines =
    [t.headLine, fill '-' t.tableWidth] ++ t.rowLines.take t.layout.costRows ++
      (if (t.rowLines.drop t.layout.costRows).isEmpty then [] else [fill '-' t.tableWidth]) ++
      t.rowLines.drop t.layout.costRows := rfl

theorem length_rowLines (t : Tableau F) : t.rowLines.length = t.rowCount := by
  rw [rowLines, List.length_zipWith, length_labels, length_cells, Nat.min_self]

/-- The line of a row is made of its label and its cells. -/
theorem getElem?_rowLines {i : Nat} {line : String} (h : t.rowLines[i]? = some line) :
    ∃ texts, t.cells[i]? = some texts ∧
      line = tableLine alignRight t.labelWidth t.columnWidths (t.rowLabel i) texts := by
  obtain ⟨label, texts, hlabel, htexts, rfl⟩ := List.getElem?_zipWith_eq_some.1 h
  rw [labels, List.getElem?_map] at hlabel
  obtain ⟨k, hk, rfl⟩ := Option.map_eq_some_iff.1 hlabel
  obtain ⟨-, rfl⟩ := List.getElem?_eq_some_iff.1 hk
  exact ⟨texts, htexts, by rw [List.getElem_range]⟩

/-- There are no more lines than rows. -/
theorem lt_of_getElem?_rowLines {i : Nat} {line : String} (h : t.rowLines[i]? = some line) :
    i < t.rowCount := by
  rw [← length_rowLines]
  exact (List.getElem?_eq_some_iff.1 h).1

/-- The lines of the table are its head, lines of dashes and the lines of the rows. -/
theorem mem_tableLines {line : String} (h : line ∈ t.tableLines) :
    line = t.headLine ∨ line = fill '-' t.tableWidth ∨ line ∈ t.rowLines := by
  rw [tableLines_eq] at h
  simp only [List.mem_append, List.mem_cons, List.not_mem_nil, or_false] at h
  rcases h with (((h | h) | h) | h) | h
  · exact .inl h
  · exact .inr (.inl h)
  · exact .inr (.inr (List.mem_of_mem_take h))
  · split at h
    · cases h
    · exact .inr (.inl (List.mem_singleton.1 h))
  · exact .inr (.inr (List.mem_of_mem_drop h))

/-- No line of the table has a line feed in it. -/
theorem feed_of_mem_tableLines (hF : ScalarText.PlainWords F) {line : String}
    (h : line ∈ t.tableLines) : '\n' ∉ line.toList := by
  rcases mem_tableLines h with rfl | rfl | h
  · refine feed_tableLine pads_alignCenter List.not_mem_nil fun s hs => ?_
    obtain ⟨j, -, rfl⟩ := List.mem_map.1 hs
    exact (t.isWord_columnHeading j).feed
  · rw [toList_fill]
    exact fun hfeed => absurd (List.eq_of_mem_replicate hfeed) (by decide)
  · obtain ⟨i, hi⟩ := List.mem_iff_getElem?.1 h
    obtain ⟨texts, htexts, rfl⟩ := getElem?_rowLines hi
    exact feed_tableLine pads_alignRight (t.isWord_rowLabel i).feed fun s hs =>
      (isWord_cells hF (List.mem_of_getElem? htexts) s hs).feed

/-- **The lines of the text of a tableau are found again in it.** -/
theorem textLines_render (hF : ScalarText.PlainWords F) (t : Tableau F) :
    textLines t.render = t.lines.map String.toList ++ [[]] := by
  refine textLines_concat fun line hline => ?_
  simp only [lines, List.mem_append, List.mem_cons, List.not_mem_nil, or_false] at hline
  rcases hline with (rfl | hline) | rfl | rfl | rfl
  · decide
  · exact feed_of_mem_tableLines hF hline
  · decide
  · decide
  · exact feed_bracketed fun r _ => t.feed_basisText r

/-- Equal texts have equal texts of the basic columns. -/
theorem basisTexts_of_render_eq (hF : ScalarText.PlainWords F) (h : t.render = u.render) :
    bracketed t.basisText t.constraintRows = bracketed u.basisText u.constraintRows := by
  have hlines : t.lines.map String.toList ++ [[]] = u.lines.map String.toList ++ [[]] := by
    rw [← textLines_render hF, h, textLines_render hF]
  have hlines := toList_injective.list_map (List.append_cancel_right hlines)
  rw [lines, lines] at hlines
  obtain ⟨-, hrest⟩ := List.append_inj' hlines (by simp only [List.length_cons, List.length_nil])
  simpa using hrest

/-- The lines that are written have a bar in them. -/
theorem isDashes_tableLine (align : Nat → String → String) (labelWidth : Nat) (widths : List Nat)
    (label : String) (texts : List String) :
    isDashes (tableLine align labelWidth widths label texts).toList = false := by
  have hbar : '|' ∈ (tableLine align labelWidth widths label texts).toList := by
    rw [toList_tableLine]
    simp
  exact List.all_eq_false.2 ⟨_, hbar, by decide⟩

theorem isDashes_fill (n : Nat) : isDashes (fill '-' n).toList = true := by
  rw [isDashes, toList_fill, List.all_replicate]
  simp

/-- The line of a row is not drawn. -/
theorem isDashes_rowLine {line : String} (h : line ∈ t.rowLines) :
    isDashes line.toList = false := by
  obtain ⟨i, hi⟩ := List.mem_iff_getElem?.1 h
  obtain ⟨texts, -, rfl⟩ := getElem?_rowLines hi
  exact isDashes_tableLine _ _ _ _ _

/-- Looking for dashes leaves nothing of the lines of rows, and looking for the others all. -/
theorem filter_rowLines {lines : List String} (h : ∀ line ∈ lines, line ∈ t.rowLines) :
    (lines.map String.toList).filter isDashes = [] ∧
      (lines.map String.toList).filter (!isDashes ·) = lines.map String.toList := by
  have hnot : ∀ line ∈ lines.map String.toList, isDashes line = false := by
    intro line hline
    obtain ⟨s, hs, rfl⟩ := List.mem_map.1 hline
    exact isDashes_rowLine (h s hs)
  refine ⟨List.filter_eq_nil_iff.2 fun line hline => ?_,
    List.filter_eq_self.2 fun line hline => ?_⟩
  · rw [hnot line hline]
    exact Bool.false_ne_true
  · rw [hnot line hline]
    rfl

/-- There is a line below the cost rows if there is a constraint row. -/
theorem isEmpty_drop_rowLines (t : Tableau F) :
    (t.rowLines.drop t.layout.costRows).isEmpty = decide (t.constraintRows = []) := by
  rw [Bool.eq_iff_iff, List.isEmpty_iff, decide_eq_true_eq, List.drop_eq_nil_iff, length_rowLines,
    constraintRows_eq_nil_iff]

end

/-! ## What is found in the text of a tableau -/

section
variable {F : Type} [Scalar F] {t : Tableau F}

/-- Only the columns of variables need to be looked at to see that a tableau is well based. -/
theorem wellBased_of_lt (h : t.layout.costRows ≤ t.rowCount ∧
      (∀ i < t.rowCount, (t.rows.getD i #[]).size = t.layout.columns) ∧
      t.basis.size = t.constraintCount ∧ t.basicColumns.size = t.layout.variableCount ∧
      (∀ r ∈ t.constraintRows, t.basicColumn r < t.layout.variableCount) ∧
      (∀ c < t.layout.variableCount,
        t.isBasic c = true ↔ ∃ r ∈ t.constraintRows, t.basicColumn r = c) ∧
      (∀ r ∈ t.constraintRows, ∀ s ∈ t.constraintRows,
        t.basicColumn r = t.basicColumn s → r = s) ∧
      t.basisIsUnit = true) : t.WellBased := by
  obtain ⟨hcosts, hsizes, hbasis, hmask, hlt, hiff, hinjective, hunit⟩ := h
  have hconsistent : t.Consistent := by
    refine ⟨hcosts, hsizes, hbasis, hmask, fun c => ?_, hinjective⟩
    rcases Nat.lt_or_ge c t.layout.variableCount with hc | hc
    · exact hiff c hc
    · have hunmarked : t.isBasic c = false := by
        rw [isBasic, Array.getD_eq_getD_getElem?, Array.getElem?_eq_none (hmask ▸ hc),
          Option.getD_none]
      refine ⟨fun h => absurd (hunmarked.symm.trans h) Bool.false_ne_true, ?_⟩
      rintro ⟨r, hr, rfl⟩
      exact absurd (hlt r hr) (Nat.not_lt.2 hc)
  exact hconsistent.wellBased hunit

/-- The cost rows are among the rows. -/
theorem WellBased.costRows_le (ht : t.WellBased) : t.layout.costRows ≤ t.rowCount := by
  rw [ht.rowCount, costRows_eq]
  exact Nat.le_add_right _ _

variable [ScalarText F] {u : Tableau F}

namespace WellBased

/-- Every row of a well based tableau has one cell for each column. -/
theorem length_of_mem_cells (ht : t.WellBased) {texts : List String}
    (h : texts ∈ t.cells) : texts.length = t.layout.columns := by
  obtain ⟨row, hrow, rfl⟩ := List.mem_map.1 h
  rw [List.length_map, Array.length_toList]
  exact ht.rowSize row (Array.mem_toList_iff.1 hrow)

/-- The cells of a row are the texts of its entries. -/
theorem getElem?_cells (ht : t.WellBased) {i j : Nat} {texts : List String}
    (h : t.cells[i]? = some texts) (hj : j < t.layout.columns) :
    texts[j]? = some (ScalarText.plain (t.entry i j)) := by
  rw [cells, List.getElem?_map] at h
  obtain ⟨row, hrow, rfl⟩ := Option.map_eq_some_iff.1 h
  have hsize := ht.rowSize row (Array.mem_toList_iff.1 (List.mem_of_getElem? hrow))
  rw [Array.getElem?_toList] at hrow
  have hentry : t.entry i j = row.getD j 0 := by
    simp only [entry, Array.getD_eq_getD_getElem?, hrow, Option.getD_some]
  rw [List.getElem?_map, Array.getElem?_toList, hentry, Array.getD_eq_getD_getElem?,
    Array.getElem?_eq_getElem (hsize ▸ hj)]
  rfl

/-- **The columns are wide enough** for their headings and for all of their cells. -/
theorem fits (ht : t.WellBased) :
    Fits t.columnWidths t.headings ∧ ∀ texts ∈ t.cells, Fits t.columnWidths texts := by
  have hlength : ∀ texts ∈ t.cells,
      texts.length = (t.headings.map String.utf8ByteSize).length := by
    intro texts htexts
    rw [ht.length_of_mem_cells htexts, List.length_map, length_headings]
  obtain ⟨hkeep, hfit⟩ := foldl_widen_spec hlength
  refine ⟨hkeep _ ?_, hfit⟩
  rw [Fits, List.forall₂_map_left_iff]
  exact List.forall₂_same.2 fun s _ => length_le_utf8ByteSize s

/-- The words of the line of a row are its label, a bar and its cells. -/
theorem words_rowLine (ht : t.WellBased) (hF : ScalarText.PlainWords F) {i : Nat}
    {texts : List String} (h : t.cells[i]? = some texts) :
    words (tableLine alignRight t.labelWidth t.columnWidths (t.rowLabel i) texts).toList =
      (t.rowLabel i).toList :: ['|'] :: texts.map String.toList := by
  have hmem := List.mem_of_getElem? h
  rw [words_tableLine pads_alignRight (ht.fits.2 _ hmem) (isWord_cells hF hmem),
    words_of_isWord (t.isWord_rowLabel i)]
  rfl

/-- Every line of the table has its width. -/
theorem length_of_mem_tableLines (ht : t.WellBased) {line : String}
    (h : line ∈ t.tableLines) : line.length = t.tableWidth := by
  rcases mem_tableLines h with rfl | rfl | h
  · exact length_tableLine pads_alignCenter ht.fits.1 (Nat.zero_le _)
  · exact length_fill _ _
  · obtain ⟨i, hi⟩ := List.mem_iff_getElem?.1 h
    obtain ⟨texts, htexts, rfl⟩ := getElem?_rowLines hi
    exact length_tableLine pads_alignRight (ht.fits.2 _ (List.mem_of_getElem? htexts))
      (length_rowLabel_le (lt_of_getElem?_rowLines hi))

/-- The table is found again in the text of a tableau. -/
theorem tableOf_render (ht : t.WellBased) (hF : ScalarText.PlainWords F) :
    tableOf t.render = t.tableLines.map String.toList := by
  have hne : ∀ line ∈ t.tableLines.map String.toList, (!line.isEmpty) = true := by
    intro line hline
    obtain ⟨s, hs, rfl⟩ := List.mem_map.1 hline
    have hlength := ht.length_of_mem_tableLines hs
    have hle : t.labelWidth + 2 ≤ t.tableWidth := le_columnsEnd _ _
    rw [← hlength, ← String.length_toList] at hle
    cases hempty : s.toList with
    | nil =>
      rw [hempty, List.length_nil] at hle
      omega
    | cons c l => rfl
  rw [tableOf, textLines_render hF, lines, List.map_append, List.map_append, List.append_assoc,
    List.append_assoc, List.map_singleton, List.singleton_append, List.drop_succ_cons,
    List.drop_zero, List.takeWhile_append_of_pos hne]
  simp

/-- **The lines of the rows are found again in the text of a tableau.** -/
theorem matrixLines_render (ht : t.WellBased) (hF : ScalarText.PlainWords F) :
    matrixLines t.render = t.rowLines.map String.toList := by
  have hdashes := isDashes_fill t.tableWidth
  have hsecond : ((if t.constraintRows = [] then [] else [fill '-' t.tableWidth]).map
      String.toList).filter (!isDashes ·) = [] := by
    split <;> simp [hdashes]
  rw [matrixLines, ht.tableOf_render hF, tableLines_eq, isEmpty_drop_rowLines]
  simp only [List.map_append, List.map_cons, List.cons_append, List.nil_append,
    List.drop_succ_cons, List.drop_zero, decide_eq_true_eq]
  rw [List.filter_cons_of_neg (by simp [hdashes])]
  simp only [List.filter_append, hsecond, List.append_nil,
    (filter_rowLines fun _ => List.mem_of_mem_take).2,
    (filter_rowLines fun _ => List.mem_of_mem_drop).2]
  rw [← List.map_append, List.take_append_drop]

/-- **The lines of dashes are found again in the text of a tableau.** -/
theorem dashLines_render (ht : t.WellBased) (hF : ScalarText.PlainWords F) :
    dashLines t.render = List.replicate (if t.constraintRows = [] then 1 else 2)
      (fill '-' t.tableWidth).toList := by
  have hhead : isDashes t.headLine.toList = false := isDashes_tableLine _ _ _ _ _
  have hdashes := isDashes_fill t.tableWidth
  rw [dashLines, ht.tableOf_render hF, tableLines_eq, isEmpty_drop_rowLines]
  simp only [List.map_append, List.filter_append,
    (filter_rowLines fun _ => List.mem_of_mem_take).1,
    (filter_rowLines fun _ => List.mem_of_mem_drop).1, List.append_nil, List.map_cons,
    List.map_nil, decide_eq_true_eq]
  split <;> simp [hhead, hdashes]

/-- **The text of a well based tableau shows it in an aligned table.** -/
theorem shownAligned_render (ht : t.WellBased) (hF : ScalarText.PlainWords F) :
    t.ShownAligned t.render where
  length_eq := by
    refine ⟨t.tableWidth, fun line hline => ?_⟩
    rw [ht.tableOf_render hF] at hline
    obtain ⟨s, hs, rfl⟩ := List.mem_map.1 hline
    rw [String.length_toList]
    exact ht.length_of_mem_tableLines hs
  length_matrixLines := by
    rw [ht.matrixLines_render hF, List.length_map, length_rowLines]
  length_dashLines := by
    rw [ht.dashLines_render hF, List.length_replicate]
  order := by
    refine ⟨t.headLine.toList, (fill '-' t.tableWidth).toList, isDashes_tableLine _ _ _ _ _,
      isDashes_fill _, ?_⟩
    rw [ht.tableOf_render hF, ht.matrixLines_render hF, tableLines_eq, isEmpty_drop_rowLines]
    simp only [List.map_append, List.map_cons, List.map_nil, List.map_take, List.map_drop,
      decide_eq_true_eq]
    split <;> rfl
  cells := by
    refine ⟨fun j => columnsEnd (t.labelWidth + 2) (t.columnWidths.take (j + 1)),
      fun i line hline j hj => ?_⟩
    rw [ht.matrixLines_render hF, List.getElem?_map] at hline
    obtain ⟨s, hs, rfl⟩ := Option.map_eq_some_iff.1 hline
    obtain ⟨texts, htexts, rfl⟩ := getElem?_rowLines hs
    have hmem := List.mem_of_getElem? htexts
    have hends := wordEndsAt_fields (ht.fits.2 _ hmem) (isWord_cells hF hmem)
      ((alignRight t.labelWidth (t.rowLabel i)).toList ++ ' ' :: ['|'])
      (ht.getElem?_cells htexts hj)
    rw [words_margin, words_of_isWord (t.isWord_rowLabel i),
      length_margin (length_rowLabel_le (lt_of_getElem?_rowLines hs))] at hends
    rw [toList_tableLine, Nat.add_comm]
    exact hends

/-- One constraint, in phase one. -/
example : (initial ⟨.minimize, ⟨[1], 0⟩, [.linear [1] .atLeast 2]⟩ true 1e-6 :
      Tableau Float).render =
    "=== Tableau ===\n" ++
    "           | 0  1  2 b \n" ++
    "-----------------------\n" ++
    "artificial | -1  1 0 -2\n" ++
    "      cost |  1  0 0 -0\n" ++
    "-----------------------\n" ++
    "         0 |  1 -1 1  2\n" ++
    "\n" ++
    "=== Basis Columns ===\n" ++
    "[(2, 2)]\n" := by
  decide +kernel

/-! ## What a text determines -/

/-- Rows with equal lines have equal labels and equal cells. -/
theorem row_eq_of_rowLines_eq (ht : t.WellBased) (hu : u.WellBased)
    (hF : ScalarText.PlainWords F) (h : t.rowLines = u.rowLines) {i : Nat} (hi : i < t.rowCount) :
    t.rowLabel i = u.rowLabel i ∧ t.cells[i]? = u.cells[i]? := by
  obtain ⟨line, hline⟩ : ∃ line, t.rowLines[i]? = some line :=
    ⟨_, List.getElem?_eq_getElem (by rwa [length_rowLines])⟩
  obtain ⟨texts, htexts, htline⟩ := getElem?_rowLines hline
  rw [h] at hline
  obtain ⟨others, hothers, huline⟩ := getElem?_rowLines hline
  have hwords := ht.words_rowLine hF htexts
  rw [← htline, huline, hu.words_rowLine hF hothers] at hwords
  simp only [List.cons.injEq, true_and] at hwords
  rw [htexts, hothers, toList_injective hwords.1, toList_injective.list_map hwords.2]
  exact ⟨rfl, rfl⟩

/-- **Tableaus with equal texts look alike.** -/
theorem looksLike_of_render_eq (ht : t.WellBased) (hu : u.WellBased)
    (hF : ScalarText.PlainWords F) (h : t.render = u.render) : t.LooksLike u := by
  have hbasis := basisTexts_of_render_eq hF h
  have hlines : t.rowLines = u.rowLines := by
    have hmatrix := ht.matrixLines_render hF
    rw [h, hu.matrixLines_render hF] at hmatrix
    exact (toList_injective.list_map hmatrix).symm
  have hrowCount : t.rowCount = u.rowCount := by
    rw [← length_rowLines, hlines, length_rowLines]
  -- The label of the first row decides the number of cost rows, and with it everything else about
  -- the shape but the number of columns, which is the number of cells of any row.
  have hrow := fun i (hi : i < t.rowCount) => ht.row_eq_of_rowLines_eq hu hF hlines hi
  have hpos : 0 < t.rowCount := by
    rw [ht.rowCount]
    split <;> omega
  have hcost : t.layout.costRows = u.layout.costRows := costRows_eq_of_rowLabel (hrow 0 hpos).1
  have hcount : t.constraintCount = u.constraintCount := by
    rw [Tableau.constraintCount, Tableau.constraintCount, hcost]
    exact congrArg (· - u.layout.costRows) hrowCount
  have hrows : t.constraintRows = u.constraintRows := by
    rw [Tableau.constraintRows, Tableau.constraintRows, hcost, hcount]
  have htexts : ∀ i < t.rowCount, ∃ texts, t.cells[i]? = some texts ∧ u.cells[i]? = some texts := by
    intro i hi
    have hget := List.getElem?_eq_getElem (show i < t.cells.length by rwa [length_cells])
    exact ⟨_, hget, by rw [← (hrow i hi).2, hget]⟩
  have hcolumns : t.layout.columns = u.layout.columns := by
    obtain ⟨texts, ht₀, hu₀⟩ := htexts 0 hpos
    rw [← ht.length_of_mem_cells (List.mem_of_getElem? ht₀),
      hu.length_of_mem_cells (List.mem_of_getElem? hu₀)]
  refine ⟨hcost, hcount, hcolumns, fun i hi j hj => ?_, ?_⟩
  · obtain ⟨texts, hti, hui⟩ := htexts i hi
    have htj := ht.getElem?_cells hti hj
    rw [hu.getElem?_cells hui (hcolumns ▸ hj)] at htj
    exact (Option.some.inj htj).symm
  · rw [← hrows] at hbasis
    exact basicColumn_eq_of_bracketed hbasis

end WellBased

/-- **Tableaus that look alike have equal texts.** -/
theorem LooksLike.render_eq (h : t.LooksLike u) (ht : t.WellBased) (hu : u.WellBased) :
    t.render = u.render := by
  have hrowCount : t.rowCount = u.rowCount := by
    have hcount := h.constraintCount
    have hcosts := h.costRows
    have htle := ht.costRows_le
    have hule := hu.costRows_le
    rw [Tableau.constraintCount, Tableau.constraintCount] at hcount
    simp only [rowCount] at htle hule ⊢
    omega
  have hphase : t.layout.inPhaseOne = u.layout.inPhaseOne := inPhaseOne_eq_of_costRows h.costRows
  have hlabels : t.labels = u.labels := by
    rw [labels, labels, hrowCount]
    refine List.map_congr_left fun i _ => ?_
    rw [rowLabel, rowLabel, h.costRows, hphase]
  have hheadings : t.headings = u.headings := by
    rw [headings, headings, h.columns]
    refine List.map_congr_left fun j _ => ?_
    rw [columnHeading, columnHeading, show t.layout.rightColumn = u.layout.rightColumn from
      Nat.succ.inj h.columns]
  have hcells : t.cells = u.cells := by
    refine List.ext_getElem (by rw [length_cells, length_cells, hrowCount]) fun i hi hi' => ?_
    have htexts := List.getElem?_eq_getElem hi
    have hothers := List.getElem?_eq_getElem hi'
    have htlength := ht.length_of_mem_cells (List.getElem_mem hi)
    have hulength := hu.length_of_mem_cells (List.getElem_mem hi')
    refine List.ext_getElem (by rw [htlength, hulength, h.columns]) fun j hj hj' => ?_
    have hcolumn : j < t.layout.columns := htlength ▸ hj
    have htj := ht.getElem?_cells htexts hcolumn
    rw [h.plain_entry i (length_cells t ▸ hi) j hcolumn,
      ← hu.getElem?_cells hothers (h.columns ▸ hcolumn), List.getElem?_eq_getElem hj,
      List.getElem?_eq_getElem hj'] at htj
    exact Option.some.inj htj
  have hwidths : t.columnWidths = u.columnWidths := by
    rw [columnWidths, columnWidths, hheadings, hcells]
  have hlabelWidth : t.labelWidth = u.labelWidth := by rw [labelWidth, labelWidth, hlabels]
  have htable : t.tableLines = u.tableLines := by
    rw [tableLines_eq, tableLines_eq, headLine, headLine, rowLines, rowLines, tableWidth,
      tableWidth, hlabels, hheadings, hcells, hwidths, hlabelWidth, h.costRows]
  have hbasis : t.constraintRows.map t.basisText = u.constraintRows.map u.basisText := by
    rw [constraintRows, constraintRows, ← h.costRows, ← h.constraintCount]
    exact List.map_congr_left fun r hr => by rw [basisText, basisText, h.basicColumn r hr]
  rw [render, render, lines, lines, htable, bracketed, bracketed, hbasis]

/-- **The text of a tableau is aligned and loses nothing.** If the texts of the scalars are words,
the text of a well based tableau shows it in an aligned table, and two of them have equal texts
exactly if they look alike. -/
theorem render_aligned_faithful (hF : ScalarText.PlainWords F) (ht : t.WellBased)
    (hu : u.WellBased) :
    t.ShownAligned t.render ∧ (t.render = u.render ↔ t.LooksLike u) :=
  ⟨ht.shownAligned_render hF,
    fun h => ht.looksLike_of_render_eq hu hF h, fun h => h.render_eq ht hu⟩

end

/-- The least number that is at least two. -/
def atLeastTwo : LinearProgram Float where
  goal := .minimize
  objective := ⟨[1], 0⟩
  constraints := [⟨⟨[1], 0⟩, .atLeast, 2⟩]

/-- The least number that is two more than another one. -/
def twoApart : LinearProgram Float where
  goal := .minimize
  objective := ⟨[1, 0], 0⟩
  constraints := [⟨⟨[1, -1], 0⟩, .equal, 2⟩]

/-- The least number whose negative is at most one, beside another one that is at most five. -/
def freePair : LinearProgram Float where
  goal := .minimize
  objective := ⟨[1, 0], 0⟩
  constraints := [⟨⟨[-1, 0], 0⟩, .atMost, 1⟩, ⟨⟨[0, 1], 0⟩, .atMost, 5⟩]

/-- A surplus variable is written like a decision variable: the texts of the first two tableaus are
equal though their layouts are not. The third one, after the only pivot that is made on it, has a
minus zero in a basic column. -/
theorem surplus_looksLike_decision : let t := initial atLeastTwo true 1e-6
    let u := initial twoApart true 1e-6
    let v := (initial freePair false 1e-6).exchange 1 2
    t.layout ≠ u.layout ∧ t.render = u.render ∧ t.ShownAligned t.render ∧ t.LooksLike u ∧
      v.basicColumn 1 = 2 ∧ (v.entry 2 2).toBits = (-0.0 : Float).toBits ∧
      v.ShownAligned v.render := by
  intro t u v
  have ht : t.WellBased := wellBased_of_lt (by decide +kernel)
  have hu : u.WellBased := wellBased_of_lt (by decide +kernel)
  have hv : v.WellBased := wellBased_of_lt (by decide +kernel)
  have hrender : t.render = u.render := by decide +kernel
  have hshown := render_aligned_faithful plainWords_float ht hu
  have hminus := render_aligned_faithful plainWords_float hv hv
  exact ⟨by decide +kernel, hrender, hshown.1, hshown.2.1 hrender, by decide +kernel,
    by decide +kernel, hminus.1⟩

end Tableau

end Simplex
