import Simplex.Scalar.Binary
import Simplex.Proofs.Replay

/-!
# The log of a run

The log of a run is a list of texts. What can be read in them tells the run faithfully
(`Tableau.Logged`): the reported numbers of pivots are those of the announced pivots, and the
announced pivots, made from the initial tableau on, lead through exactly the tableaus that are
shown. This holds for every run that ends with an outcome, whatever the scalars and their texts
(`LinearProgram.replays_log`).
-/

namespace Simplex

section
variable {F : Type} [Scalar F] [ScalarText F]

/-- As many pivots are announced in texts as by their events. -/
theorem length_announcedPivot_texts (es : List (Event F)) :
    ((es.map Event.text).filterMap announcedPivot).length = pivotCount es := by
  rw [filterMap_announcedPivot_texts, List.length_map, pivotCount]

namespace Tableau

variable {t : Tableau F} {es : List (Event F)} {rule : PivotRule} {objective : Affine F}
  {outcome : Outcome F}

/-- **A log is a faithful record of a run** from a tableau to an outcome. The log is a list of
texts, of which nothing is known but what can be read in them. -/
structure Logged (t : Tableau F) (rule : PivotRule) (objective : Affine F) (outcome : Outcome F)
    (texts : List String) : Prop where
  /-- The end of the run is reported after as many pivots as are announced, with the outcome. -/
  finished : ∀ text ∈ texts, ∀ n, finishedAfter text = some n →
    n = (texts.filterMap announcedPivot).length ∧
      text = s!"Finished after {n} pivots: " ++ outcome.text
  /-- That is the last record, unless phase one ends above zero. -/
  last : outcome = .infeasible ∨
    ∃ before text, texts = before ++ [text] ∧ (finishedAfter text).isSome = true
  /-- The end of phase one is reported at most once, after as many pivots as are announced before. -/
  found : ∀ before text after n, texts = before ++ text :: after → foundAfter text = some n →
    n = (before.filterMap announcedPivot).length ∧
      text = s!"Found a basic feasible solution after {n} pivots" ∧
      ∀ other ∈ before ++ after, foundAfter other = none
  /-- Making the pivots that are announced, and dropping the artificial variables where the end of
  phase one is reported, goes through. The tableaus that are shown are the first one and those that
  the pivots lead to, and the outcome can be read off the last. -/
  replay : ∃ u ts, t.replay (texts.filterMap instructionOf) = .ok (u, ts) ∧
    texts.filter showsTableau = (t :: ts).map render ∧ outcome.ReadOff rule objective u
  /-- Where a tableau is shown, it is the one that the replay has come to. -/
  shows : ∀ before text after, texts = before ++ text :: after → showsTableau text = true →
    ∃ s ts, t.replay (before.filterMap instructionOf) = .ok (s, ts) ∧ text = s.render

/-- **The texts of a chronicle are a faithful record.** -/
theorem Chronicle.logged (h : t.Chronicle rule objective es outcome) :
    t.Logged rule objective outcome (es.map Event.text) := by
  obtain ⟨u, ts, hreplays, hshown, hread⟩ := h.replays
  obtain ⟨hfinished, hfound⟩ := h.counts
  refine ⟨fun text htext n hn => ?_, ?_, fun before text after n hsplit hn => ?_,
    ⟨u, ts, ?_, ?_, hread⟩, fun before text after hsplit hshows => ?_⟩
  · obtain ⟨e, he, rfl⟩ := List.mem_map.1 htext
    rw [e.finishedAfter_text] at hn
    cases e with
    | finished m o =>
      cases hn
      obtain ⟨hcounted, rfl⟩ := hfinished n o he
      exact ⟨hcounted.trans (length_announcedPivot_texts es).symm, rfl⟩
    | _ => cases hn
  · refine h.last.imp_right ?_
    rintro ⟨before, n, rfl⟩
    refine ⟨before.map Event.text, _, List.map_append, ?_⟩
    rw [Event.finishedAfter_text]
    rfl
  · obtain ⟨ds, e, fs, rfl, rfl, rfl, rfl⟩ := exists_of_texts_eq_append hsplit
    rw [e.foundAfter_text] at hn
    cases e with
    | foundFeasible m =>
      cases hn
      obtain ⟨hcounted, hothers⟩ := hfound ds n fs rfl
      refine ⟨hcounted.trans (length_announcedPivot_texts ds).symm, rfl, ?_⟩
      rw [← List.map_append]
      refine List.forall_mem_map.2 fun e he => ?_
      rw [e.foundAfter_text, hothers e he]
    | _ => cases hn
  · rw [filterMap_instructionOf_texts]
    exact hreplays.replay
  · rw [filter_showsTableau_texts]
    exact congrArg (List.map render) hshown
  · obtain ⟨ds, e, fs, rfl, rfl, rfl, rfl⟩ := exists_of_texts_eq_append hsplit
    rw [e.showsTableau_text] at hshows
    cases e with
    | snapshot s =>
      obtain ⟨ts, hts⟩ := hreplays.shows ds s fs rfl
      rw [filterMap_instructionOf_texts]
      exact ⟨s, ts, hts, rfl⟩
    | _ => cases hshows

end Tableau

namespace LinearProgram

variable {p : LinearProgram F} {settings : Settings F} {rule : PivotRule} {outcome : Outcome F}

/-- The log of a run as texts, with all details. -/
def logTexts (p : LinearProgram F) (settings : Settings F) (rule : PivotRule) : List String :=
  (p.run settings rule (some .trace)).journal.texts.map Prod.snd

/-- The texts of a log are those of its events. -/
theorem logTexts_eq (p : LinearProgram F) (settings : Settings F) (rule : PivotRule) :
    p.logTexts settings rule = (p.log settings rule).map Event.text := by
  rw [logTexts, log, Journal.texts, List.map_map]
  rfl

/-- **The log of a run that ends with an outcome is a faithful record of it.** The run counts as
many pivots as the log announces. The number that is reported at the end is that of all announced
pivots, and the one reported at the end of phase one that of the pivots announced before. Making
these pivots from the initial tableau on, and dropping the artificial variables once, at the end of
phase one, never breaks off and leads to the tableaus that the log shows, each at its place, and to
the one at which the outcome can be read off. -/
theorem replays_log (h : (p.run settings rule (some .trace)).result = .ok outcome) :
    ∃ t, Tableau.ofProgram p settings.nonnegative settings.tolerance = .ok t ∧
      t.Logged rule p.objective outcome (p.logTexts settings rule) ∧
      (p.run settings rule (some .trace)).pivots =
        ((p.logTexts settings rule).filterMap announcedPivot).length := by
  obtain ⟨t, hprogram, hchronicle, hpivots⟩ := chronicle_of_result h
  refine ⟨t, hprogram, ?_, ?_⟩
  · rw [logTexts_eq]
    exact hchronicle.logged
  · rw [logTexts_eq, length_announcedPivot_texts]
    exact hpivots

end LinearProgram

end

namespace LinearProgram

/-- Maximize `0.1 x + 0.7 y + 1` subject to `0.3 x + 0.3 y = 0.1`, twice that, and `0.01 z = 0`, in
double precision. -/
def rounded : LinearProgram Float :=
  ⟨.maximize, ⟨[0.1, 0.7, 0], 1⟩,
    [.linear [0.3, 0.3, 0] .equal 0.1, .linear [0.6, 0.6, 0] .equal 0.2,
      .linear [0, 0, 0.01] .equal 0]⟩

/-- The run on `rounded` makes a pivot in each phase. Between them the first constraint is removed,
and `z` replaces the artificial variable of the last one by a pivot that the log does not announce,
and that the replay makes all the same. -/
theorem rounded_replays_log : ∃ outcome, ∃ t u : Tableau Float, ∃ ts,
    (rounded.run .standard .steepest (some .trace)).result = .ok outcome ∧
    t.Logged .steepest rounded.objective outcome (rounded.logTexts .standard .steepest) ∧
    (rounded.logTexts .standard .steepest).filterMap announcedPivot = [(3, 0), (1, 1)] ∧
    (rounded.logTexts .standard .steepest).getLast? = some ("Finished after 2 pivots: " ++
      "Optimal \x7b point: [0.0, 0.33333333333333337, 0.0], value: 1.2333333333333334 \x7d") ∧
    (rounded.run .standard .steepest (some .trace)).pivots = 2 ∧ t.layout.artificial = 3 ∧
    t.replay ((rounded.logTexts .standard .steepest).filterMap instructionOf) = .ok (u, ts) ∧
    ts.length = 2 ∧ u.basis = #[1, 2] := by
  have hannounced : (rounded.logTexts .standard .steepest).filterMap announcedPivot =
      [(3, 0), (1, 1)] := by
    rw [logTexts_eq, filterMap_announcedPivot_texts]
    decide +kernel
  have hlast : (rounded.logTexts .standard .steepest).getLast? =
      some ("Finished after 2 pivots: " ++
        "Optimal \x7b point: [0.0, 0.33333333333333337, 0.0], value: 1.2333333333333334 \x7d") := by
    rw [logTexts_eq, List.getLast?_map]
    decide +kernel
  cases hresult : (rounded.run .standard .steepest (some .trace)).result with
  | error f =>
    have hok : (rounded.run .standard .steepest (some .trace)).result.toBool = true := by
      decide +kernel
    rw [hresult] at hok
    cases hok
  | ok outcome =>
    obtain ⟨t, hprogram, hlogged, hpivots⟩ := replays_log hresult
    obtain ⟨u, ts, hreplay, -, -⟩ := hlogged.replay
    rw [hannounced] at hpivots
    obtain ⟨-, -, rfl⟩ := ofProgram_eq_ok_iff.1 hprogram
    have hend : ((Tableau.initial rounded (Settings.standard : Settings Float).nonnegative
        (Settings.standard : Settings Float).tolerance).replay
          ((rounded.logTexts .standard .steepest).filterMap instructionOf)).toOption.map
            (fun x => (x.2.length, x.1.basis)) = some (2, #[1, 2]) := by
      rw [logTexts_eq, filterMap_instructionOf_texts]
      decide +kernel
    rw [hreplay] at hend
    obtain ⟨hlength, hbasis⟩ := Prod.mk.inj (Option.some.inj hend)
    exact ⟨outcome, _, u, ts, rfl, hlogged, hannounced, hlast, hpivots, by decide +kernel, hreplay,
      hlength, hbasis⟩

end LinearProgram

end Simplex
