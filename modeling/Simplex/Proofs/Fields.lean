import Simplex.Tableau.Rendering
import Simplex.Proofs.Words

/-!
# Lines of a table

A line of a table is a label, a bar, and one field for each column. `Fits` relates the widths of the
columns to the texts of a line; as long as the texts fit, the line has a length that only the widths
decide (`length_tableLine`), its words are its label, the bar and its texts (`words_tableLine`), and
the texts that are set to the right end where their columns end (`wordEndsAt_fields`). The widths of
a table are made by widening, after which everything fits (`foldl_widen_spec`).

How texts are set into fields enters only through `Pads`, which both ways of doing it satisfy.
-/

namespace Simplex

/-! ## Fields -/

/-- A text has at least as many bytes as characters. -/
theorem length_le_utf8ByteSize (s : String) : s.length ≤ s.utf8ByteSize := by
  obtain ⟨l, rfl⟩ : ∃ l, s = String.ofList l := ⟨s.toList, String.ofList_toList.symm⟩
  induction l with
  | nil => exact Nat.zero_le _
  | cons c l ih =>
    rw [show c :: l = [c] ++ l from rfl, String.ofList_append, String.length_append,
      String.utf8ByteSize_append]
    refine Nat.add_le_add ?_ ih
    rw [← String.singleton_eq_ofList, String.utf8ByteSize_singleton, String.length_singleton]
    exact Char.utf8Size_pos c

/-- A way to set texts into fields: there are blanks on both sides of the text, and a text that
fits its field fills it. -/
structure Pads (align : Nat → String → String) : Prop where
  blanks : ∀ n s, ∃ a b, (align n s).toList =
    List.replicate a ' ' ++ s.toList ++ List.replicate b ' '
  length_eq : ∀ {n s}, s.length ≤ n → (align n s).length = n

theorem toList_fill (c : Char) (n : Nat) : (fill c n).toList = List.replicate n c :=
  String.toList_ofList

/-- Texts are set to the right. -/
theorem toList_alignRight (n : Nat) (s : String) :
    (alignRight n s).toList = List.replicate (n - s.length) ' ' ++ s.toList := by
  rw [alignRight, String.toList_append, toList_fill]

theorem pads_alignRight : Pads alignRight where
  blanks n s := ⟨n - s.length, 0, by rw [toList_alignRight, List.replicate_zero, List.append_nil]⟩
  length_eq := length_alignRight

theorem pads_alignCenter : Pads alignCenter where
  blanks n s := ⟨_, _, by
    rw [alignCenter, String.toList_append, String.toList_append, toList_fill, toList_fill]⟩
  length_eq := length_alignCenter

/-- Every text fits the field of its column. -/
def Fits (widths : List Nat) (texts : List String) : Prop :=
  List.Forall₂ (fun n s => s.length ≤ n) widths texts

/-- The fields of a line, a blank in front of each. -/
def fields (align : Nat → String → String) (widths : List Nat) (texts : List String) : List Char :=
  (concat (List.zipWith (fun n s => " " ++ align n s) widths texts)).toList

section
variable {align : Nat → String → String} {widths : List Nat} {texts : List String}

theorem fields_nil : fields align [] texts = [] := by
  simp [fields, concat]

theorem fields_cons (n : Nat) (s : String) :
    fields align (n :: widths) (s :: texts) =
      ' ' :: (align n s).toList ++ fields align widths texts := by
  rw [fields, List.zipWith_cons_cons, concat, String.toList_append, String.toList_append]
  rfl

/-- Fields begin with a blank, if there is one. -/
theorem head_fields : ∀ c ∈ (fields align widths texts).head?, c = ' ' := by
  intro c hc
  cases widths with
  | nil => cases hc
  | cons n widths =>
    cases texts with
    | nil => cases hc
    | cons s texts =>
      rw [fields_cons] at hc
      exact (Option.some.inj hc).symm

/-- Where the last of some columns ends that begin at a position. -/
def columnsEnd (start : Nat) (widths : List Nat) : Nat :=
  widths.foldl (fun n width => n + 1 + width) start

/-- Columns do not end before they begin. -/
theorem le_columnsEnd (start : Nat) (widths : List Nat) : start ≤ columnsEnd start widths := by
  induction widths generalizing start with
  | nil => exact Nat.le_refl _
  | cons n widths ih =>
    exact Nat.le_trans (Nat.le_add_right _ _) (Nat.le_trans (Nat.le_add_right _ _) (ih _))

/-- A field has the width of its column, and a blank more. -/
theorem length_append_field (ha : Pads align) {n : Nat} {s : String} (hfit : s.length ≤ n)
    (line : List Char) :
    (line ++ ' ' :: (align n s).toList).length = line.length + 1 + n := by
  rw [List.length_append, List.length_cons, String.length_toList, ha.length_eq hfit]
  omega

/-- **Fields of texts that fit end with their columns.** -/
theorem length_append_fields (ha : Pads align) (h : Fits widths texts) (line : List Char) :
    (line ++ fields align widths texts).length = columnsEnd line.length widths := by
  induction h generalizing line with
  | nil =>
    rw [fields_nil, List.append_nil]
    rfl
  | cons hfit _ ih =>
    rw [fields_cons, ← List.append_assoc, ih, length_append_field ha hfit]
    rfl

/-- The only word of a field is the text in it. -/
theorem words_append_field (ha : Pads align) {s : String} (hs : IsWord s.toList) (n : Nat)
    (line : List Char) :
    words (line ++ ' ' :: (align n s).toList) = words line ++ [s.toList] := by
  obtain ⟨a, b, hblanks⟩ := ha.blanks n s
  rw [hblanks, words, pieces_append_cons rfl, ← words, ← words, words_blanks hs]

/-- **The words of the fields** are the texts in them. -/
theorem words_append_fields (ha : Pads align) (h : Fits widths texts)
    (hwords : ∀ s ∈ texts, IsWord s.toList) (line : List Char) :
    words (line ++ fields align widths texts) = words line ++ texts.map String.toList := by
  -- Field by field, what has been read moves over to the text in front.
  induction h generalizing line with
  | nil => rw [fields_nil, List.append_nil, List.map_nil, List.append_nil]
  | cons _ _ ih =>
    rw [fields_cons, ← List.append_assoc,
      ih (fun s hs => hwords s (List.mem_cons_of_mem _ hs)),
      words_append_field ha (hwords _ List.mem_cons_self), List.append_assoc,
      List.singleton_append, List.map_cons]

/-- **The texts that are set to the right end where their columns end.** -/
theorem wordEndsAt_fields (h : Fits widths texts) (hwords : ∀ s ∈ texts, IsWord s.toList)
    (line : List Char) {j : Nat} {s : String} (hs : texts[j]? = some s) :
    WordEndsAt (line ++ fields alignRight widths texts) ((words line).length + j) s.toList
      (columnsEnd line.length (widths.take (j + 1))) := by
  induction h generalizing line j with
  | nil => cases hs
  | @cons n first widths texts hfit hrest ih =>
    have hwords' : ∀ s ∈ texts, IsWord s.toList :=
      fun s hs => hwords s (List.mem_cons_of_mem _ hs)
    rw [fields_cons]
    cases j with
    | zero =>
      obtain rfl : first = s := Option.some.inj hs
      -- The blanks that fill the field come before the one in front of the text.
      have hshift : ' ' :: (alignRight n first).toList =
          List.replicate (n - first.length) ' ' ++ ' ' :: first.toList := by
        rw [toList_alignRight, ← List.cons_append, ← List.replicate_succ, List.replicate_succ',
          List.append_assoc]
        rfl
      refine ⟨line ++ List.replicate (n - first.length) ' ', fields alignRight widths texts,
        ?_, ?_, ?_, head_fields⟩
      · rw [hshift, List.append_assoc, List.append_assoc, List.append_assoc]
      · rw [words, pieces_append_right, words, Nat.add_zero]
        intro c hc
        rw [List.eq_of_mem_replicate hc]
        rfl
      · rw [List.append_assoc, ← hshift]
        exact length_append_field pads_alignRight hfit line
    | succ j =>
      have hends := ih hwords' (line ++ ' ' :: (alignRight n first).toList) hs
      rw [words_append_field pads_alignRight (hwords first List.mem_cons_self), List.length_append,
        List.length_singleton, length_append_field pads_alignRight hfit, List.append_assoc,
        Nat.add_assoc, Nat.add_comm 1 j] at hends
      exact hends

/-- No line feed comes in with the fields. -/
theorem feed_fields (ha : Pads align) (h : ∀ s ∈ texts, '\n' ∉ s.toList) :
    '\n' ∉ fields align widths texts := by
  induction widths generalizing texts with
  | nil => exact List.not_mem_nil
  | cons n widths ih =>
    cases texts with
    | nil => exact List.not_mem_nil
    | cons s texts =>
      obtain ⟨a, b, hblanks⟩ := ha.blanks n s
      rw [fields_cons, hblanks]
      simp [h s List.mem_cons_self, ih fun s hs => h s (List.mem_cons_of_mem _ hs)]

end

/-! ## Widths -/

/-- What fits columns fits them when they are widened, and the texts that they are widened to fit
as well. -/
theorem widen_spec {ws : List Nat} {texts : List String} (h : texts.length = ws.length) :
    (∀ others, Fits ws others → Fits (Tableau.widen ws texts) others) ∧
      Fits (Tableau.widen ws texts) texts := by
  induction ws generalizing texts with
  | nil =>
    obtain rfl := List.length_eq_zero_iff.1 h
    exact ⟨fun _ h => h, .nil⟩
  | cons n ws ih =>
    cases texts with
    | nil => cases h
    | cons s texts =>
      obtain ⟨hkeep, hfit⟩ := ih (Nat.succ.inj h)
      refine ⟨fun others hothers => ?_,
        .cons (Nat.le_trans (length_le_utf8ByteSize s) (Nat.le_max_right _ _)) hfit⟩
      cases hothers with
      | cons hn hrest => exact .cons (Nat.le_trans hn (Nat.le_max_left _ _)) (hkeep _ hrest)

/-- What fits columns fits them when they are widened to rows, and all of the rows fit as well. -/
theorem foldl_widen_spec {rows : List (List String)} {ws : List Nat}
    (h : ∀ texts ∈ rows, texts.length = ws.length) :
    (∀ others, Fits ws others → Fits (rows.foldl Tableau.widen ws) others) ∧
      ∀ texts ∈ rows, Fits (rows.foldl Tableau.widen ws) texts := by
  induction rows generalizing ws with
  | nil => exact ⟨fun _ h => h, fun _ h => absurd h List.not_mem_nil⟩
  | cons first rows ih =>
    have hfirst := h first List.mem_cons_self
    obtain ⟨hkeep, hfit⟩ := widen_spec hfirst
    have hlength : (Tableau.widen ws first).length = ws.length := by
      rw [Tableau.widen, List.length_zipWith, hfirst, Nat.min_self]
    have hrest : ∀ texts ∈ rows, texts.length = (Tableau.widen ws first).length :=
      fun texts htexts => (h texts (List.mem_cons_of_mem _ htexts)).trans hlength.symm
    obtain ⟨hkeep', hfit'⟩ := ih hrest
    refine ⟨fun others hothers => hkeep' _ (hkeep _ hothers), fun texts htexts => ?_⟩
    rcases List.mem_cons.1 htexts with rfl | htexts
    · exact hkeep' _ hfit
    · exact hfit' texts htexts

/-- The longest of some labels is as long as each of them. -/
theorem le_foldl_max {labels : List String} {n : Nat} :
    n ≤ labels.foldl (fun n s => max n s.utf8ByteSize) n ∧
      ∀ s ∈ labels, s.length ≤ labels.foldl (fun n s => max n s.utf8ByteSize) n := by
  induction labels generalizing n with
  | nil => exact ⟨Nat.le_refl _, fun _ h => absurd h List.not_mem_nil⟩
  | cons first labels ih =>
    obtain ⟨hle, hfit⟩ := ih (n := max n first.utf8ByteSize)
    refine ⟨Nat.le_trans (Nat.le_max_left _ _) hle, fun s hs => ?_⟩
    rcases List.mem_cons.1 hs with rfl | hs
    · exact Nat.le_trans (length_le_utf8ByteSize s) (Nat.le_trans (Nat.le_max_right _ _) hle)
    · exact hfit s hs

/-! ## Lines -/

section
variable {align : Nat → String → String} {labelWidth : Nat} {widths : List Nat} {label : String}
  {texts : List String}

/-- A line is its label, a bar and its fields. -/
theorem toList_tableLine : (Tableau.tableLine align labelWidth widths label texts).toList =
    (alignRight labelWidth label).toList ++ ' ' :: ['|'] ++ fields align widths texts := by
  rw [Tableau.tableLine, String.toList_append, String.toList_append]
  rfl

/-- The words of what stands in front of the fields. -/
theorem words_margin (labelWidth : Nat) (label : String) :
    words ((alignRight labelWidth label).toList ++ ' ' :: ['|']) =
      words label.toList ++ [['|']] := by
  have hbar : pieces (· == ' ') ['|'] = [['|']] := by decide
  rw [words, pieces_append_cons rfl, toList_alignRight, pieces_append_left, hbar, words]
  intro c hc
  rw [List.eq_of_mem_replicate hc]
  rfl

/-- The length of what stands in front of the fields. -/
theorem length_margin (hlabel : label.length ≤ labelWidth) :
    ((alignRight labelWidth label).toList ++ ' ' :: ['|']).length = labelWidth + 2 := by
  rw [List.length_append, String.length_toList, length_alignRight hlabel]
  rfl

/-- **The words of a line** are its label, the bar and its texts. -/
theorem words_tableLine (ha : Pads align) (h : Fits widths texts)
    (hwords : ∀ s ∈ texts, IsWord s.toList) :
    words (Tableau.tableLine align labelWidth widths label texts).toList =
      words label.toList ++ ['|'] :: texts.map String.toList := by
  rw [toList_tableLine, words_append_fields ha h hwords, words_margin, List.append_assoc]
  rfl

/-- **A line has the width of the table.** -/
theorem length_tableLine (ha : Pads align) (h : Fits widths texts)
    (hlabel : label.length ≤ labelWidth) :
    (Tableau.tableLine align labelWidth widths label texts).length =
      columnsEnd (labelWidth + 2) widths := by
  rw [← String.length_toList, toList_tableLine, length_append_fields ha h, length_margin hlabel]

/-- A line has no line feed in it. -/
theorem feed_tableLine (ha : Pads align) (hlabel : '\n' ∉ label.toList)
    (h : ∀ s ∈ texts, '\n' ∉ s.toList) :
    '\n' ∉ (Tableau.tableLine align labelWidth widths label texts).toList := by
  rw [toList_tableLine, toList_alignRight]
  simp [hlabel, feed_fields ha h]

end

end Simplex
