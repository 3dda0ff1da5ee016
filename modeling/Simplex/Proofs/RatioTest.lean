import Simplex.Proofs.SameBasis

/-!
# What the ratio test finds

The ratio test passes once through the rows that bound the entering column. It keeps a row and the
least ratio so far, and the next row takes the place of the kept one if it has a larger basic column
and a ratio within the tolerance of the least one *so far*. So a row stays in the race
(`Tableau.Contends`) as long as the least ratio goes down in steps that are not above the tolerance,
however far it goes down in all. The row that is found is the last one, by its basic column, of
those that are in the race in the end (`Tableau.leavingRow_spec`).

What is meant is the last one of those near the least ratio of all (`Tableau.NearLeast`). That is
the same if near ties form no chains (`Tableau.TiesClear`), and then the order of the rows does not
matter either. `LinearProgram.chained` is a program with a chain: the row that is found is not near
the least ratio, and another order of the same rows leads to another one.
-/

namespace Simplex

section
variable {K : Type} [Field K] [LinearOrder K]

/-! ## Rows in the race -/

/-- A row of a list is in the race after all of them: its ratio was within the tolerance of all
ratios before, and no later ratio was below all ratios before by more than the tolerance. -/
structure InRace (tolerance : K) (ratio : Nat → K) (rows : List Nat) (r : Nat) : Prop where
  mem : r ∈ rows
  near : ∀ s ∈ rows, s < r → ratio r ≤ ratio s + tolerance
  kept : ∀ s ∈ rows, r < s → ∃ q ∈ rows, q < s ∧ ratio q ≤ ratio s + tolerance

variable {tolerance : K} {ratio : Nat → K} {column : Nat → Nat} {rows : List Nat} {r s : Nat}

/-- One more row: it is in the race if it is near all ratios before, and the others stay in the
race if one of these is near it. -/
theorem inRace_concat (hr : ∀ s ∈ rows, s < r) :
    InRace tolerance ratio (rows ++ [r]) s ↔
      (InRace tolerance ratio rows s ∧ ∃ q ∈ rows, ratio q ≤ ratio r + tolerance) ∨
        (s = r ∧ ∀ q ∈ rows, ratio r ≤ ratio q + tolerance) := by
  constructor
  · rintro ⟨hmem, hnear, hkept⟩
    rcases List.mem_append.1 hmem with hs | hs
    · refine .inl ⟨⟨hs, fun q hq => hnear q (List.mem_append_left _ hq), fun q hq hlt => ?_⟩, ?_⟩
      · obtain ⟨p, hp, hpq, hle⟩ := hkept q (List.mem_append_left _ hq) hlt
        refine ⟨p, (List.mem_append.1 hp).resolve_right fun hp => ?_, hpq, hle⟩
        exact absurd (List.mem_singleton.1 hp ▸ hpq) (Nat.not_lt_of_gt (hr q hq))
      · obtain ⟨p, hp, hpr, hle⟩ := hkept r List.mem_concat_self (hr s hs)
        refine ⟨p, (List.mem_append.1 hp).resolve_right fun hp => ?_, hle⟩
        exact Nat.lt_irrefl r (List.mem_singleton.1 hp ▸ hpr)
    · obtain rfl := List.mem_singleton.1 hs
      exact .inr ⟨rfl, fun q hq => hnear q (List.mem_append_left _ hq) (hr q hq)⟩
  · rintro (⟨⟨hmem, hnear, hkept⟩, p, hp, hle⟩ | ⟨rfl, hnear⟩)
    · refine ⟨List.mem_append_left _ hmem, fun q hq hlt => ?_, fun q hq hlt => ?_⟩
      · refine hnear q ((List.mem_append.1 hq).resolve_right fun hq => ?_) hlt
        exact absurd (List.mem_singleton.1 hq ▸ hlt) (Nat.not_lt_of_gt (hr s hmem))
      · rcases List.mem_append.1 hq with hq | hq
        · obtain ⟨p', hp', hrest⟩ := hkept q hq hlt
          exact ⟨p', List.mem_append_left _ hp', hrest⟩
        · obtain rfl := List.mem_singleton.1 hq
          exact ⟨p, List.mem_append_left _ hp, hr p hp, hle⟩
    · refine ⟨List.mem_concat_self, fun q hq hlt => ?_, fun q hq hlt => ?_⟩
      · refine hnear q ((List.mem_append.1 hq).resolve_right fun hq => ?_)
        exact Nat.lt_irrefl s (List.mem_singleton.1 hq ▸ hlt)
      · rcases List.mem_append.1 hq with hq | hq
        · exact absurd hlt (Nat.not_lt_of_gt (hr q hq))
        · exact absurd (List.mem_singleton.1 hq ▸ hlt) (Nat.lt_irrefl s)

/-- What the ratio test knows after some rows: the least of their ratios, and the row with the
largest basic column of those in the race. -/
structure Leads (tolerance : K) (ratio : Nat → K) (column : Nat → Nat) (rows : List Nat)
    (best : Tableau.Candidate K) : Prop where
  inRace : InRace tolerance ratio rows best.row
  last : ∀ s, InRace tolerance ratio rows s → column s ≤ column best.row
  leaving : best.leaving = column best.row
  attained : ∃ s ∈ rows, ratio s = best.ratio
  least : ∀ s ∈ rows, best.ratio ≤ ratio s

/-- The first row leads. -/
theorem Leads.single (tolerance : K) (ratio : Nat → K) (column : Nat → Nat) (r : Nat) :
    Leads tolerance ratio column [r] ⟨r, ratio r, column r⟩ where
  inRace := by
    refine ⟨List.mem_singleton_self r, fun s hs hlt => ?_, fun s hs hlt => ?_⟩ <;>
      exact absurd (List.mem_singleton.1 hs ▸ hlt) (Nat.lt_irrefl r)
  last s hs := by rw [List.mem_singleton.1 hs.mem]
  leaving := rfl
  attained := ⟨r, List.mem_singleton_self r, rfl⟩
  least s hs := by rw [List.mem_singleton.1 hs]

variable [IsStrictOrderedRing K] {best : Tableau.Candidate K}

/-- Among the rows in the race only the ratio of the leader matters for the next row. -/
theorem Leads.inRace_concat_iff (h : Leads tolerance ratio column rows best)
    (hr : ∀ s ∈ rows, s < r) : InRace tolerance ratio (rows ++ [r]) s ↔
      (InRace tolerance ratio rows s ∧ best.ratio ≤ ratio r + tolerance) ∨
        (s = r ∧ ratio r ≤ best.ratio + tolerance) := by
  obtain ⟨p, hp, hattained⟩ := h.attained
  have hnear : (∃ q ∈ rows, ratio q ≤ ratio r + tolerance) ↔ best.ratio ≤ ratio r + tolerance :=
    ⟨fun ⟨q, hq, hle⟩ => (h.least q hq).trans hle, fun hle => ⟨p, hp, hattained.le.trans hle⟩⟩
  have hall : (∀ q ∈ rows, ratio r ≤ ratio q + tolerance) ↔ ratio r ≤ best.ratio + tolerance :=
    ⟨fun hle => hattained ▸ hle p hp,
      fun hle q hq => hle.trans (add_le_add_left (h.least q hq) tolerance)⟩
  rw [inRace_concat hr, hnear, hall]

omit [IsStrictOrderedRing K] in
/-- The least ratio after one more row. -/
theorem Leads.least_concat (h : Leads tolerance ratio column rows best) :
    (∃ s ∈ rows ++ [r], ratio s = min best.ratio (ratio r)) ∧
      ∀ s ∈ rows ++ [r], min best.ratio (ratio r) ≤ ratio s := by
  obtain ⟨p, hp, hattained⟩ := h.attained
  constructor
  · rcases min_choice best.ratio (ratio r) with hmin | hmin <;> rw [hmin]
    · exact ⟨p, List.mem_append_left _ hp, hattained⟩
    · exact ⟨r, List.mem_concat_self, rfl⟩
  · intro s hs
    rcases List.mem_append.1 hs with hs | hs
    · exact (min_le_left _ _).trans (h.least s hs)
    · rw [List.mem_singleton.1 hs]
      exact min_le_right _ _

/-- **One comparison of the ratio test.** -/
theorem Leads.challenge (h : Leads tolerance ratio column rows best) (htol : 0 ≤ tolerance)
    (hr : ∀ s ∈ rows, s < r) : Leads tolerance ratio column (rows ++ [r])
      (best.challenge tolerance ⟨r, ratio r, column r⟩) := by
  have hrace : ∀ {s}, InRace tolerance ratio (rows ++ [r]) s ↔
      (InRace tolerance ratio rows s ∧ best.ratio ≤ ratio r + tolerance) ∨
        (s = r ∧ ratio r ≤ best.ratio + tolerance) := h.inRace_concat_iff hr
  obtain ⟨hattained, hleast⟩ := h.least_concat (r := r)
  unfold Tableau.Candidate.challenge
  rw [Scalar.abs_eq_abs, Scalar.least_eq_min]
  dsimp only
  split
  · next hnear =>
    -- A near tie: nobody leaves the race, the new row enters it.
    obtain ⟨hbelow, habove⟩ := abs_le.1 hnear
    have hbelow : best.ratio ≤ ratio r + tolerance := by linarith
    have habove : ratio r ≤ best.ratio + tolerance := by linarith
    split
    · next hlt =>
      rw [h.leaving] at hlt
      refine ⟨hrace.2 (.inr ⟨rfl, habove⟩), fun s hs => ?_, rfl, hattained, hleast⟩
      rcases hrace.1 hs with ⟨hs, -⟩ | ⟨rfl, -⟩
      · exact (h.last s hs).trans hlt.le
      · exact Nat.le_refl _
    · next hle =>
      rw [h.leaving] at hle
      refine ⟨hrace.2 (.inl ⟨h.inRace, hbelow⟩), fun s hs => ?_, h.leaving, hattained, hleast⟩
      rcases hrace.1 hs with ⟨hs, -⟩ | ⟨rfl, -⟩
      · exact h.last s hs
      · exact Nat.le_of_not_lt hle
  · next hfar =>
    split
    · next hlt =>
      -- The new row is far below: it is alone in the race.
      have hout : ¬ best.ratio ≤ ratio r + tolerance := fun hle =>
        hfar (abs_le.2 ⟨by linarith, by linarith⟩)
      rw [min_eq_right hlt.le] at hattained hleast
      refine ⟨hrace.2 (.inr ⟨rfl, by linarith⟩), fun s hs => ?_, rfl, hattained, hleast⟩
      rcases hrace.1 hs with ⟨-, hle⟩ | ⟨rfl, -⟩
      · exact absurd hle hout
      · exact Nat.le_refl _
    · next hge =>
      -- The new row is far above: it does not enter the race.
      rw [not_lt] at hge
      have hout : ¬ ratio r ≤ best.ratio + tolerance := fun hle =>
        hfar (abs_le.2 ⟨by linarith, by linarith⟩)
      rw [min_eq_left hge] at hattained hleast
      refine ⟨hrace.2 (.inl ⟨h.inRace, by linarith⟩), fun s hs => ?_, h.leaving, hattained,
        hleast⟩
      rcases hrace.1 hs with ⟨hs, -⟩ | ⟨-, hle⟩
      · exact h.last s hs
      · exact absurd hle hout

/-- **All comparisons of the ratio test**, by induction on the rows from the last one on. -/
theorem leads_foldl (htol : 0 ≤ tolerance) (ratio : Nat → K) (column : Nat → Nat) (first : Nat)
    (others : List Nat) (hrows : (first :: others).Pairwise (· < ·)) :
    Leads tolerance ratio column (first :: others)
      ((others.map fun r => (⟨r, ratio r, column r⟩ : Tableau.Candidate K)).foldl
        (Tableau.Candidate.challenge tolerance) ⟨first, ratio first, column first⟩) := by
  induction others using List.reverseRecOn with
  | nil => exact .single tolerance ratio column first
  | append_singleton others next ih =>
    rw [← List.cons_append] at hrows ⊢
    obtain ⟨hbefore, -, hlt⟩ := List.pairwise_append.1 hrows
    rw [List.map_append, List.map_singleton, List.foldl_concat]
    exact (ih hbefore).challenge htol fun s hs => hlt s hs next (List.mem_singleton_self next)

end

namespace Tableau

/-! ## The rows that bound a column -/

section
variable {F : Type} [Scalar F]

/-- The ratio of a row for a column. -/
def ratio (t : Tableau F) (c r : Nat) : F := t.right r / t.entry r c

/-- The rows that bound the growth of a column. -/
def boundingRows (t : Tableau F) (c : Nat) : List Nat :=
  t.constraintRows.filter fun r => t.tolerance < t.entry r c

variable {t : Tableau F} {c r : Nat}

/-- A row bounds a column if its entry is above the tolerance. -/
theorem mem_boundingRows :
    r ∈ t.boundingRows c ↔ r ∈ t.constraintRows ∧ t.tolerance < t.entry r c := by
  simp [boundingRows]

/-- The candidates are the rows that bound the column. -/
theorem candidates_eq (t : Tableau F) (c : Nat) :
    t.candidates c = (t.boundingRows c).map fun r => ⟨r, t.ratio c r, t.basicColumn r⟩ := rfl

/-- The rows that bound a column are increasing. -/
theorem pairwise_boundingRows (t : Tableau F) (c : Nat) :
    (t.boundingRows c).Pairwise (· < ·) :=
  List.Pairwise.filter _ List.pairwise_lt_range'

end

/-! ## What is found and what is meant -/

section
variable {F : Type} {t : Tableau F} {r s : Nat}

/-- Of the rows with a property the one whose basic column has the largest index. -/
structure IsLast (t : Tableau F) (P : Nat → Prop) (r : Nat) : Prop where
  holds : P r
  last : ∀ s, P s → t.basicColumn s ≤ t.basicColumn r

/-- Among constraint rows the last one is unique. -/
theorem IsLast.unique {P : Nat → Prop} (h : t.Consistent) (hP : ∀ r, P r → r ∈ t.constraintRows)
    (hr : t.IsLast P r) (hs : t.IsLast P s) : r = s :=
  h.injective r (hP r hr.holds) s (hP s hs.holds)
    (Nat.le_antisymm (hs.last r hr.holds) (hr.last s hs.holds))

end

section
variable {K : Type} [Field K] [LinearOrder K] {t u : Tableau K} {c r s : Nat}

/-- A row that bounds the column and is in the race after all of them. -/
def Contends (t : Tableau K) (c r : Nat) : Prop :=
  InRace t.tolerance (t.ratio c) (t.boundingRows c) r

/-- A row that bounds the column, with a ratio within the tolerance of the least one. -/
structure NearLeast (t : Tableau K) (c r : Nat) : Prop where
  mem : r ∈ t.boundingRows c
  near : ∀ s ∈ t.boundingRows c, t.ratio c r ≤ t.ratio c s + t.tolerance

instance (t : Tableau K) (c r : Nat) : Decidable (t.NearLeast c r) :=
  decidable_of_iff (r ∈ t.boundingRows c ∧
    ∀ s ∈ t.boundingRows c, t.ratio c r ≤ t.ratio c s + t.tolerance)
    ⟨fun ⟨hmem, hnear⟩ => ⟨hmem, hnear⟩, fun ⟨hmem, hnear⟩ => ⟨hmem, hnear⟩⟩

/-- Near ties form no chains: a row within the tolerance of a row near the least ratio is near the
least ratio itself. -/
def TiesClear (t : Tableau K) (c : Nat) : Prop :=
  ∀ r ∈ t.boundingRows c, ∀ s ∈ t.boundingRows c, t.NearLeast c s →
    t.ratio c r ≤ t.ratio c s + t.tolerance → t.NearLeast c r

instance (t : Tableau K) (c : Nat) : Decidable (t.TiesClear c) :=
  inferInstanceAs (Decidable (∀ r ∈ t.boundingRows c, ∀ s ∈ t.boundingRows c, t.NearLeast c s →
    t.ratio c r ≤ t.ratio c s + t.tolerance → t.NearLeast c r))

/-- A row in the race is a constraint row. -/
theorem Contends.mem_constraintRows (h : t.Contends c r) : r ∈ t.constraintRows :=
  (mem_boundingRows.1 h.mem).1

/-- A row near the least ratio stays in the race. -/
theorem NearLeast.contends (h : t.NearLeast c r) : t.Contends c r where
  mem := h.mem
  near s hs _ := h.near s hs
  kept s hs hlt := ⟨r, h.mem, hlt, h.near s hs⟩

variable [IsStrictOrderedRing K]

/-- If some row bounds the column, some row is near the least ratio. -/
theorem exists_nearLeast (htol : 0 ≤ t.tolerance) (hr : r ∈ t.boundingRows c) :
    ∃ s, t.NearLeast c s := by
  have hne : (t.boundingRows c).toFinset.Nonempty := ⟨r, List.mem_toFinset.2 hr⟩
  obtain ⟨s, hs, hle⟩ := Finset.exists_min_image _ (t.ratio c) hne
  exact ⟨s, List.mem_toFinset.1 hs, fun q hq =>
    (hle q (List.mem_toFinset.2 hq)).trans (le_add_of_nonneg_right htol)⟩

/-- If there are no chains of near ties, all rows in the race are near the least ratio: the first
row that is near the least ratio sends all rows before it out of the race, and no row that is not
near the least ratio can enter it from there on. -/
theorem Contends.nearLeast (htol : 0 ≤ t.tolerance) (hclear : t.TiesClear c)
    (h : t.Contends c r) : t.NearLeast c r := by
  have hnear := exists_nearLeast htol h.mem
  obtain ⟨hs, hfirst⟩ := And.intro (Nat.find_spec hnear) fun q => Nat.find_min (m := q) hnear
  generalize Nat.find hnear = s at hs hfirst
  rcases Nat.lt_trichotomy r s with hlt | rfl | hlt
  · obtain ⟨q, hq, hqs, hle⟩ := h.kept s hs.mem hlt
    exact absurd (hclear q hq s hs.mem hs hle) (hfirst q hqs)
  · exact hs
  · exact hclear r h.mem s hs.mem hs (h.near s hs.mem hlt)

/-- **The ratio test finds the last row of those in the race.** -/
theorem leavingRow_eq_some_iff (h : t.Consistent) (htol : 0 ≤ t.tolerance) :
    t.leavingRow c = some r ↔ t.IsLast (t.Contends c) r := by
  unfold leavingRow
  rw [candidates_eq]
  rcases hrows : t.boundingRows c with _ | ⟨first, others⟩
  · refine iff_of_false (fun hf => nomatch hf) fun hf => ?_
    have hmem := hf.holds.mem
    rw [hrows] at hmem
    cases hmem
  · have hpairwise := t.pairwise_boundingRows c
    rw [hrows] at hpairwise
    obtain ⟨hrace, hlast, -, -, -⟩ :=
      leads_foldl htol (t.ratio c) t.basicColumn first others hpairwise
    rw [← hrows] at hrace hlast
    have hleads : t.IsLast (t.Contends c) _ := ⟨hrace, hlast⟩
    rw [List.map_cons]
    dsimp only
    rw [Option.some_inj]
    exact ⟨fun heq => heq ▸ hleads, hleads.unique h fun _ => Contends.mem_constraintRows⟩

/-- If there are no chains of near ties, the last row near the least ratio is found. -/
theorem leavingRow_eq_some_iff_nearLeast (h : t.Consistent) (htol : 0 ≤ t.tolerance)
    (hclear : t.TiesClear c) : t.leavingRow c = some r ↔ t.IsLast (t.NearLeast c) r := by
  have hrace : t.Contends c = t.NearLeast c :=
    funext fun s => propext ⟨Contends.nearLeast htol hclear, NearLeast.contends⟩
  rw [leavingRow_eq_some_iff h htol, hrace]

/-! ## Other orders of the rows -/

omit [IsStrictOrderedRing K] in
/-- A row that bounds the column does so in another place as well. -/
theorem Rearranged.mem_boundingRows (h : t.Rearranged u) (hr : r ∈ t.boundingRows c)
    (hs : s ∈ u.constraintRows) (hcolumn : u.basicColumn s = t.basicColumn r) :
    s ∈ u.boundingRows c ∧ u.ratio c s = t.ratio c r := by
  obtain ⟨hmem, hentry⟩ := Tableau.mem_boundingRows.1 hr
  refine ⟨Tableau.mem_boundingRows.2 ⟨hs, ?_⟩, ?_⟩
  · rwa [h.tolerance, h.entry_eq hmem hs hcolumn]
  · rw [ratio, ratio, h.right_eq hmem hs hcolumn, h.entry_eq hmem hs hcolumn]

omit [IsStrictOrderedRing K] in
/-- Every row that bounds the column has its place in the other tableau. -/
theorem Rearranged.exists_boundingRow (h : t.Rearranged u) (hr : r ∈ t.boundingRows c) :
    ∃ s ∈ u.boundingRows c, u.basicColumn s = t.basicColumn r ∧ u.ratio c s = t.ratio c r := by
  obtain ⟨s, hs, hcolumn⟩ := h.exists_row (Tableau.mem_boundingRows.1 hr).1
  obtain ⟨hmem, hratio⟩ := h.mem_boundingRows hr hs hcolumn
  exact ⟨s, hmem, hcolumn, hratio⟩

omit [IsStrictOrderedRing K] in
/-- A row near the least ratio is near it in another place as well. -/
theorem Rearranged.nearLeast (h : t.Rearranged u) (hr : t.NearLeast c r)
    (hs : s ∈ u.boundingRows c) (hratio : u.ratio c s = t.ratio c r) : u.NearLeast c s := by
  refine ⟨hs, fun q hq => ?_⟩
  obtain ⟨q', hq', -, hratio'⟩ := h.symm.exists_boundingRow hq
  rw [hratio, h.tolerance, ← hratio']
  exact hr.near q' hq'

omit [IsStrictOrderedRing K] in
/-- The absence of chains does not depend on the order of the rows. -/
theorem Rearranged.tiesClear (h : t.Rearranged u) (hclear : t.TiesClear c) : u.TiesClear c := by
  intro r hr s hs hnear hle
  obtain ⟨r', hr', -, hratio⟩ := h.symm.exists_boundingRow hr
  obtain ⟨s', hs', -, hratio'⟩ := h.symm.exists_boundingRow hs
  refine h.nearLeast (hclear r' hr' s' hs' (h.symm.nearLeast hnear hs' hratio') ?_) hr hratio.symm
  rwa [hratio, hratio', ← h.tolerance]

omit [IsStrictOrderedRing K] in
/-- Neither does the basic column of the last row near the least ratio. -/
theorem Rearranged.exists_isLast (h : t.Rearranged u) (hr : t.IsLast (t.NearLeast c) r) :
    ∃ s, u.IsLast (u.NearLeast c) s ∧ u.basicColumn s = t.basicColumn r := by
  obtain ⟨s, hs, hcolumn, hratio⟩ := h.exists_boundingRow hr.holds.mem
  refine ⟨s, ⟨h.nearLeast hr.holds hs hratio, fun q hq => ?_⟩, hcolumn⟩
  obtain ⟨q', hq', hcolumn', hratio'⟩ := h.symm.exists_boundingRow hq.mem
  rw [hcolumn, ← hcolumn']
  exact hr.last q' (h.symm.nearLeast hq hq' hratio')

/-- If there are no chains of near ties, the same column leaves for every order of the rows. -/
theorem Rearranged.leaving_eq (h : t.Rearranged u) (ht : t.Consistent) (hu : u.Consistent)
    (htol : 0 ≤ t.tolerance) (hclear : t.TiesClear c) :
    (u.leavingRow c).map u.basicColumn = (t.leavingRow c).map t.basicColumn := by
  have htol' : 0 ≤ u.tolerance := by rwa [h.tolerance]
  cases hrow : t.leavingRow c with
  | none =>
    have hnone : u.leavingRow c = none := by
      rw [leavingRow_eq_none_iff] at hrow ⊢
      intro s hs
      obtain ⟨r, hr, hcolumn⟩ := h.symm.exists_row hs
      rw [h.tolerance, h.entry_eq hr hs hcolumn.symm]
      exact hrow r hr
    rw [hnone, Option.map_none, Option.map_none]
  | some r =>
    obtain ⟨s, hs, hcolumn⟩ :=
      h.exists_isLast ((leavingRow_eq_some_iff_nearLeast ht htol hclear).1 hrow)
    rw [(leavingRow_eq_some_iff_nearLeast hu htol' (h.tiesClear hclear)).2 hs, Option.map_some,
      Option.map_some, hcolumn]

/-- **What the ratio test finds.** No row, exactly if no entry of the column is above the tolerance.
Otherwise it finds the last row of those in the race, which is the last of those near the least
ratio exactly if it is near the least ratio itself. Without chains of near ties it always is, and
then the same column leaves for every order of the rows. -/
theorem leavingRow_spec (h : t.Consistent) (htol : 0 ≤ t.tolerance) (c : Nat) :
    (t.leavingRow c = none ↔ ∀ r ∈ t.constraintRows, t.entry r c ≤ t.tolerance) ∧
      (∀ r, t.leavingRow c = some r ↔ t.IsLast (t.Contends c) r) ∧
      (∀ r, t.leavingRow c = some r → (t.IsLast (t.NearLeast c) r ↔ t.NearLeast c r)) ∧
      (t.TiesClear c → (∀ r, t.leavingRow c = some r ↔ t.IsLast (t.NearLeast c) r) ∧
        ∀ u : Tableau K, u.Consistent → t.Rearranged u →
          (u.leavingRow c).map u.basicColumn = (t.leavingRow c).map t.basicColumn) := by
  refine ⟨?_, fun r => leavingRow_eq_some_iff h htol, fun r hrow => ?_, fun hclear => ?_⟩
  · rw [leavingRow_eq_none_iff]
    exact forall₂_congr fun r _ => not_lt
  · obtain ⟨-, hlast⟩ := (leavingRow_eq_some_iff h htol).1 hrow
    exact ⟨fun hlast => hlast.holds, fun hnear => ⟨hnear, fun s hs => hlast s hs.contends⟩⟩
  · exact ⟨fun r => leavingRow_eq_some_iff_nearLeast h htol hclear,
      fun u hu hsame => hsame.leaving_eq h hu htol hclear⟩

end

end Tableau

namespace LinearProgram

/-- Minimize `-x` subject to `x ≤ 1`, `1000000 x ≤ 1000001` and `x ≤ 2`. The ratios of the first two
rows for the column of `x` are within the tolerance of each other. -/
def tied : LinearProgram ℚ :=
  ⟨.minimize, ⟨[-1], 0⟩,
    [.linear [1] .atMost 1, .linear [1000000] .atMost 1000001, .linear [1] .atMost 2]⟩

/-- In `tied` the second row is found, whose slack variable comes later. If pivots have brought the
first two rows into the other order, the first row is found, and the same slack variable leaves. -/
theorem tied_leavingRow : ∃ t u, Tableau.ofProgram tied true (1 / 1000000) = .ok t ∧
    t.Reaches u ∧ t.Rearranged u ∧ t.TiesClear 0 ∧ t.leavingRow 0 = some 2 ∧
    t.IsLast (t.NearLeast 0) 2 ∧ u.leavingRow 0 = some 1 ∧
    (u.leavingRow 0).map u.basicColumn = (t.leavingRow 0).map t.basicColumn := by
  let t := Tableau.initial tied true (1 / 1000000)
  have ht : Tableau.ofProgram tied true (1 / 1000000) = .ok t :=
    ofProgram_eq_ok_iff.2 ⟨by decide +kernel, by norm_num, rfl⟩
  have hsound : t.Sound := Tableau.sound_initial (by decide +kernel)
  let u := ((t.exchange 1 0).exchange 2 1).exchange 1 2
  have hu : t.Reaches u := (((Tableau.Reaches.refl.exchange hsound (by decide +kernel)).exchange
    hsound (by decide +kernel)).exchange hsound (by decide +kernel))
  have hrearranged : t.Rearranged u := hu.rearranged hsound (by decide +kernel)
  have hclear : t.TiesClear 0 := by decide +kernel
  have hrow : t.leavingRow 0 = some 2 := by decide +kernel
  obtain ⟨-, -, -, hspec⟩ :=
    Tableau.leavingRow_spec hsound.toConsistent (by decide +kernel : 0 ≤ t.tolerance) 0
  obtain ⟨hlast, horder⟩ := hspec hclear
  exact ⟨t, u, ht, hu, hrearranged, hclear, hrow, (hlast 2).1 hrow, by decide +kernel,
    horder u (hu.sameProgram hsound).1.toConsistent hrearranged⟩

/-- Minimize `-x` subject to `x = 1.0000015`, `x ≤ 1.0000008` and `x ≤ 1`. The ratios of the first
two rows are within the tolerance of each other, and so are those of the last two. -/
def chained : LinearProgram ℚ :=
  ⟨.minimize, ⟨[-1], 0⟩,
    [.linear [1] .equal (10000015 / 10000000), .linear [1] .atMost (10000008 / 10000000),
      .linear [1] .atMost 1]⟩

/-- **The row that is found need not be near the least ratio, and the order of the rows matters.**
In `chained` the first row is found, which the chain of near ties leaves in the race, although its
ratio is above the least one by more than the tolerance. With the first and the last row in the
other order it is not found. -/
theorem chained_leavingRow : ∃ t u, Tableau.ofProgram chained true (1 / 1000000) = .ok t ∧
    t.Reaches u ∧ t.Rearranged u ∧ t.leavingRow 0 = some 2 ∧ ¬ t.NearLeast 0 2 ∧
    t.IsLast (t.NearLeast 0) 4 ∧ u.leavingRow 0 = some 2 ∧
    u.basicColumn 2 = t.basicColumn 4 ∧ u.basicColumn 2 ≠ t.basicColumn 2 := by
  let t := Tableau.initial chained true (1 / 1000000)
  have ht : Tableau.ofProgram chained true (1 / 1000000) = .ok t :=
    ofProgram_eq_ok_iff.2 ⟨by decide +kernel, by norm_num, rfl⟩
  have hsound : t.Sound := Tableau.sound_initial (by decide +kernel)
  let u := ((t.exchange 2 0).exchange 4 3).exchange 2 2
  have hu : t.Reaches u := (((Tableau.Reaches.refl.exchange hsound (by decide +kernel)).exchange
    hsound (by decide +kernel)).exchange hsound (by decide +kernel))
  have hlast : t.IsLast (t.NearLeast 0) 4 := by
    refine ⟨by decide +kernel, fun s hs => ?_⟩
    have hall : ∀ s ∈ t.boundingRows 0, t.NearLeast 0 s → t.basicColumn s ≤ t.basicColumn 4 := by
      decide +kernel
    exact hall s hs.mem hs
  exact ⟨t, u, ht, hu, hu.rearranged hsound (by decide +kernel), by decide +kernel,
    by decide +kernel, hlast, by decide +kernel, by decide +kernel, by decide +kernel⟩

end LinearProgram

end Simplex
