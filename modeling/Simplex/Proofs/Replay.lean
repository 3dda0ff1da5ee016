import Simplex.Proofs.Choice
import Simplex.Proofs.Program
import Simplex.Proofs.Records

/-!
# Replaying a run from its journal

With all details kept, the journal of a run is enough to do the run again: `Tableau.replay` makes
the pivots that it announces, and drops the artificial variables where it reports the end of phase
one. A loop of the method announces a `Tableau.Walk`, pivots that are each followed by the tableau
they led to (`Trail.descend_tells`), and the journal of a run that ends with an outcome consists of
one or two walks, with what is reported between and around them
(`LinearProgram.chronicle_of_result`).

So the replay goes through, passes exactly the tableaus that the journal shows, and ends where the
outcome can be read off (`Tableau.Chronicle.replays`); and the numbers of pivots that the journal
reports are those of the pivots that it announces (`Tableau.Chronicle.counts`). No law of arithmetic
is used.
-/

namespace Simplex

/-! ## Reading events -/

/-- A list with something to read at one member only can be split there in one way. -/
theorem append_cons_unique {α β : Type} {f : α → Option β} {xs ys us vs : List α} {a b : α} {z : β}
    (hxs : ∀ x ∈ xs, f x = none) (hys : ∀ y ∈ ys, f y = none) (hb : f b = some z)
    (h : xs ++ a :: ys = us ++ b :: vs) : us = xs ∧ b = a ∧ vs = ys := by
  induction xs generalizing us with
  | nil =>
    cases us with
    | nil =>
      cases h
      exact ⟨rfl, rfl, rfl⟩
    | cons c us =>
      obtain ⟨-, rfl⟩ := List.cons.inj h
      have hnot := hys b (by simp)
      rw [hb] at hnot
      cases hnot
  | cons x xs ih =>
    cases us with
    | nil =>
      obtain ⟨rfl, -⟩ := List.cons.inj h
      have hnot := hxs x List.mem_cons_self
      rw [hb] at hnot
      cases hnot
    | cons c us =>
      obtain ⟨rfl, htail⟩ := List.cons.inj h
      obtain ⟨rfl, hrest⟩ := ih (fun y hy => hxs y (List.mem_cons_of_mem _ hy)) htail
      exact ⟨rfl, hrest⟩

section
variable {F : Type}

/-- No event reports the end of phase one or of the run. -/
def Open (es : List (Event F)) : Prop := ∀ e ∈ es, e.found? = none ∧ e.finished? = none

namespace Open

variable {es fs : List (Event F)}

theorem single {e : Event F} (hfound : e.found? = none) (hfinished : e.finished? = none) :
    Open [e] :=
  List.forall_mem_singleton.2 ⟨hfound, hfinished⟩

theorem append (h : Open es) (h' : Open fs) : Open (es ++ fs) :=
  List.forall_mem_append.2 ⟨h, h'⟩

theorem not_foundFeasible (h : Open es) {n : Nat} : .foundFeasible n ∉ es :=
  fun hmem => nomatch (h _ hmem).1

theorem not_finished (h : Open es) {n : Nat} {o : Outcome F} : .finished n o ∉ es :=
  fun hmem => nomatch (h _ hmem).2

end Open

/-- How many pivots are announced. -/
def pivotCount (es : List (Event F)) : Nat := (es.filterMap Event.pivot?).length

/-- The tableaus that are shown. -/
def shown (es : List (Event F)) : List (Tableau F) := es.filterMap Event.tableau?

@[simp] theorem pivotCount_nil : pivotCount ([] : List (Event F)) = 0 := rfl

@[simp] theorem pivotCount_cons (e : Event F) (es : List (Event F)) :
    pivotCount (e :: es) = e.pivot?.toList.length + pivotCount es := by
  unfold pivotCount
  rw [List.filterMap_cons]
  cases e.pivot? with
  | none => exact (Nat.zero_add _).symm
  | some x => exact Nat.add_comm _ 1

@[simp] theorem pivotCount_append (es fs : List (Event F)) :
    pivotCount (es ++ fs) = pivotCount es + pivotCount fs := by
  unfold pivotCount
  rw [List.filterMap_append, List.length_append]

@[simp] theorem shown_nil : shown ([] : List (Event F)) = [] := rfl

@[simp] theorem shown_cons (e : Event F) (es : List (Event F)) :
    shown (e :: es) = e.tableau?.toList ++ shown es := by
  unfold shown
  rw [List.filterMap_cons]
  cases e.tableau? <;> rfl

@[simp] theorem shown_append (es fs : List (Event F)) : shown (es ++ fs) = shown es ++ shown fs :=
  List.filterMap_append

end

section
variable {F : Type} [Scalar F]

/-! ## Replaying events -/

namespace Tableau

/-- Do with a tableau what a record tells. The tableau that a pivot leads to is listed. -/
def follow (t : Tableau F) : Instruction → Except Breach (Tableau F × List (Tableau F))
  | .pivot row column =>
    match t.pivot row column with
    | .error b => .error b
    | .ok u => .ok (u, [u])
  | .drop =>
    match t.dropArtificials with
    | .error b => .error b
    | .ok (u, _) => .ok (u, [])

/-- Follow one instruction after the other. The result holds the last tableau, and those that the
pivots led to. -/
def replay : Tableau F → List Instruction → Except Breach (Tableau F × List (Tableau F))
  | t, [] => .ok (t, [])
  | t, i :: is =>
    match t.follow i with
    | .error b => .error b
    | .ok (u, us) =>
      match u.replay is with
      | .error b => .error b
      | .ok (v, vs) => .ok (v, us ++ vs)

variable {t u v : Tableau F} {i : Instruction} {is js : List Instruction} {e : Event F}
  {es fs : List (Event F)} {us vs : List (Tableau F)}

/-- A replay goes through if all its instructions can be followed. -/
theorem replay_cons_eq_ok_iff : t.replay (i :: is) = .ok (v, vs) ↔
    ∃ u us ws, t.follow i = .ok (u, us) ∧ u.replay is = .ok (v, ws) ∧ vs = us ++ ws := by
  rw [replay]
  constructor
  · intro h
    split at h
    · cases h
    · next u us hfollow =>
      split at h
      · cases h
      · next w ws hreplay =>
        cases h
        exact ⟨u, us, ws, hfollow, hreplay, rfl⟩
  · rintro ⟨u, us, ws, hfollow, hreplay, rfl⟩
    rw [hfollow]
    dsimp only
    rw [hreplay]

/-- A replay in two parts. -/
theorem replay_append (his : t.replay is = .ok (u, us)) (hjs : u.replay js = .ok (v, vs)) :
    t.replay (is ++ js) = .ok (v, us ++ vs) := by
  induction is generalizing t us with
  | nil =>
    cases his
    exact hjs
  | cons i is ih =>
    obtain ⟨w, ws, us', hfollow, hreplay, rfl⟩ := replay_cons_eq_ok_iff.1 his
    rw [List.append_assoc]
    exact replay_cons_eq_ok_iff.2 ⟨w, ws, us' ++ vs, hfollow, ih hreplay, rfl⟩

/-- A replay of what events tell to do goes through, and wherever they show a tableau, it is the one
that the replay has come to at this place. -/
structure Replays (t : Tableau F) (es : List (Event F)) (u : Tableau F) (us : List (Tableau F)) :
    Prop where
  replay : t.replay (es.filterMap Event.instruction?) = .ok (u, us)
  shows : ∀ before s after, es = before ++ .snapshot s :: after →
    ∃ ts, t.replay (before.filterMap Event.instruction?) = .ok (s, ts)

namespace Replays

theorem nil (t : Tableau F) : t.Replays [] t [] :=
  ⟨rfl, fun _ _ _ hsplit => absurd hsplit.symm (by simp)⟩

/-- The tableau at hand may be shown. -/
theorem snapshot (t : Tableau F) : t.Replays [.snapshot t] t [] := by
  refine ⟨rfl, fun before s after hsplit => ?_⟩
  rcases List.cons_eq_append_iff.1 hsplit with ⟨rfl, hcons⟩ | ⟨_, -, hnil⟩
  · cases hcons
    exact ⟨[], rfl⟩
  · simp at hnil

/-- An event that shows no tableau. -/
theorem single (hreplay : t.replay e.instruction?.toList = .ok (u, us)) (he : e.tableau? = none) :
    t.Replays [e] u us := by
  have hinstructions : [e].filterMap Event.instruction? = e.instruction?.toList := by
    rw [List.filterMap_cons]
    cases e.instruction? <;> rfl
  refine ⟨by rwa [hinstructions], fun before s after hsplit => ?_⟩
  rcases List.cons_eq_append_iff.1 hsplit with ⟨rfl, hcons⟩ | ⟨_, -, hnil⟩
  · cases hcons
    cases he
  · simp at hnil

/-- A replay in two parts. -/
theorem append (h : t.Replays es u us) (h' : u.Replays fs v vs) :
    t.Replays (es ++ fs) v (us ++ vs) := by
  have hjoin : ∀ {gs w ws}, u.replay (gs.filterMap Event.instruction?) = .ok (w, ws) →
      t.replay ((es ++ gs).filterMap Event.instruction?) = .ok (w, us ++ ws) := by
    intro gs w ws hgs
    rw [List.filterMap_append]
    exact replay_append h.replay hgs
  refine ⟨hjoin h'.replay, fun before s after hsplit => ?_⟩
  rcases List.append_eq_append_iff.1 hsplit with ⟨before', rfl, hfs⟩ | ⟨rest, hes, hrest⟩
  · obtain ⟨ts, hts⟩ := h'.shows before' s after hfs
    exact ⟨us ++ ts, hjoin hts⟩
  · rcases List.cons_eq_append_iff.1 hrest with ⟨rfl, hfs⟩ | ⟨rest', rfl, -⟩
    · -- The tableau is the first thing that the second part shows.
      obtain ⟨ts, hts⟩ := h'.shows [] s after hfs
      have hts := hjoin hts
      rw [hes, List.append_nil, List.append_nil] at hts
      exact ⟨us ++ ts, hts⟩
    · exact h.shows before s rest' hes

end Replays

/-- The way from one tableau to another, as a journal tells it: every pivot is announced with its
relative cost, and the tableau that it led to is shown. -/
inductive Walk : Tableau F → List (Event F) → Tableau F → Prop
  | nil (t : Tableau F) : Walk t [] t
  | cons {t u v : Tableau F} {row column : Nat} {es : List (Event F)}
    (hpivot : t.pivot row column = .ok u) (hwalk : Walk u es v) :
    Walk t (.pivoting row column (t.cost column) :: .snapshot u :: es) v

namespace Walk

/-- A walk can be replayed, and shows the tableaus that its pivots lead to. -/
theorem replays (h : Walk t es u) : t.Replays es u (shown es) := by
  induction h with
  | nil t => exact .nil t
  | @cons t u v row column es hpivot hwalk ih =>
    have hreplay : t.replay [.pivot row column] = .ok (u, [u]) := by
      rw [replay, follow, hpivot]
      rfl
    have hannounced : t.Replays [.pivoting row column (t.cost column)] u [u] := .single hreplay rfl
    exact hannounced.append ((Replays.snapshot u).append ih)

/-- A walk reports no end. -/
theorem isOpen (h : Walk t es u) : Open es := by
  induction h with
  | nil t => exact fun _ he => nomatch he
  | cons hpivot hwalk ih =>
    exact List.forall_mem_cons.2 ⟨⟨rfl, rfl⟩, List.forall_mem_cons.2 ⟨⟨rfl, rfl⟩, ih⟩⟩

end Walk

end Tableau

end

/-! ## What the loop of a phase tells -/

section
variable {F : Type}

/-- A journal of all details records every event. -/
theorem Journal.record_of_trace {j : Journal F} (h : j.detail = some .trace) (e : Event F) :
    (j.record e).events.toList = j.events.toList ++ [e] := by
  have hadmits : j.admits e.level = true := by
    cases e.level <;> simp [admits, h]
  rw [record, if_pos hadmits, Array.toList_push]

namespace Trail

/-- A trail went on to another one, with all details in its journal: the events were recorded, and
as many more pivots are behind as they announce. -/
structure Tells (s : Trail F) (es : List (Event F)) (s' : Trail F) : Prop where
  detail : s'.journal.detail = some .trace
  events : s'.journal.events.toList = s.journal.events.toList ++ es
  pivots : s'.pivots = s.pivots + pivotCount es

namespace Tells

variable {s s' s'' : Trail F} {es fs : List (Event F)}

/-- A trail that rests tells nothing. -/
theorem refl (h : s.journal.detail = some .trace) : s.Tells [] s :=
  ⟨h, (List.append_nil _).symm, rfl⟩

/-- One part of a trail after another. -/
theorem trans (h : s.Tells es s') (h' : s'.Tells fs s'') : s.Tells (es ++ fs) s'' where
  detail := h'.detail
  events := by rw [h'.events, h.events, List.append_assoc]
  pivots := by rw [h'.pivots, h.pivots, pivotCount_append, Nat.add_assoc]

/-- An event that announces no pivot is recorded. -/
theorem record (h : s.Tells es s') {e : Event F} (he : e.pivot? = none) :
    s.Tells (es ++ [e]) (s'.record e) where
  detail := (Journal.detail_record _ _).trans h.detail
  events := by
    show (s'.journal.record e).events.toList = _
    rw [Journal.record_of_trace h.detail, h.events, List.append_assoc]
  pivots := by
    have hzero : pivotCount [e] = 0 := by rw [pivotCount, List.filterMap_cons_none he]; rfl
    show s'.pivots = _
    rw [h.pivots, pivotCount_append, hzero, Nat.add_zero]

end Tells

/-- A pivot is told by its announcement and by the tableau that it leads to. -/
theorem tells_pivot {s : Trail F} (h : s.journal.detail = some .trace) (row column : Nat) (cost : F)
    (t : Tableau F) : s.Tells [.pivoting row column cost, .snapshot t]
      ((s.record (.pivoting row column cost)).advance t) := by
  have hdetail : (s.journal.record (.pivoting row column cost)).detail = some .trace :=
    (Journal.detail_record _ _).trans h
  refine ⟨(Journal.detail_record _ _).trans hdetail, ?_, rfl⟩
  show ((s.journal.record (.pivoting row column cost)).record (.snapshot t)).events.toList = _
  rw [Journal.record_of_trace hdetail, Journal.record_of_trace h, List.append_assoc]
  rfl

end Trail

/-- The events with which a run on a tableau begins. -/
def Tableau.openingEvents (t : Tableau F) : List (Event F) :=
  [.created t.rowCount t.layout.columns t.layout.artificial, .snapshot t]

/-- What is reported of the constraints that are removed when phase one ends. -/
def removalEvents (removed : List Nat) : List (Event F) :=
  if removed.isEmpty then [] else [.removedRedundant removed]

/-- The opening events announce no pivot. -/
@[simp] theorem pivotCount_openingEvents (t : Tableau F) : pivotCount t.openingEvents = 0 := rfl

/-- The opening events report no end. -/
theorem open_openingEvents (t : Tableau F) : Open t.openingEvents :=
  Open.append (.single rfl rfl) (.single rfl rfl)

/-- A removal reports no end by itself. -/
theorem open_removalEvents (removed : List Nat) :
    Open (removalEvents removed : List (Event F)) := by
  unfold removalEvents
  split
  · exact fun _ he => nomatch he
  · exact .single rfl rfl

/-- A removal shows no tableau. -/
@[simp] theorem shown_removalEvents (removed : List Nat) :
    shown (removalEvents removed : List (Event F)) = [] := by
  unfold removalEvents
  split <;> rfl

/-- A removal announces no pivot. -/
@[simp] theorem pivotCount_removalEvents (removed : List Nat) :
    pivotCount (removalEvents removed : List (Event F)) = 0 := by
  unfold removalEvents
  split <;> rfl

namespace Trail

/-- The first trail of a run tells the opening events. -/
theorem tells_opening (t : Tableau F) :
    (start (some .trace) t).Tells t.openingEvents (start (some .trace) t).recordCreation :=
  ((Tells.refl rfl).record rfl).record rfl

/-- All that a run tells is in its journal. -/
theorem Tells.of_start {t : Tableau F} {s : Trail F} {es : List (Event F)}
    (h : (start (some .trace) t).Tells es s) :
    s.journal.events.toList = es ∧ s.pivots = pivotCount es :=
  ⟨h.events.trans (List.nil_append es), h.pivots.trans (Nat.zero_add _)⟩

/-- The end of phase one is told after what was removed. -/
theorem Tells.recordFeasible {s s' : Trail F} {es : List (Event F)} (h : s.Tells es s')
    (removed : List Nat) :
    s.Tells (es ++ removalEvents removed ++ [.foundFeasible s'.pivots])
      (s'.recordFeasible removed) := by
  unfold Trail.recordFeasible removalEvents
  split
  · rw [List.append_nil]
    exact h.record rfl
  · exact (h.record rfl).record rfl

end Trail

end

section
variable {F : Type} [Scalar F]

/-- What is known of the tableau at which the loop of a phase comes to rest. -/
def Halt.Justified (rule : PivotRule) (settled : Tableau F → Bool) (t : Tableau F) : Halt → Prop
  | .settled => settled t = true
  | .optimal => t.move rule = .optimal
  | .unbounded => ∃ column, t.move rule = .unbounded column
  | .limit => True

namespace Trail

variable {s s' : Trail F} {rule : PivotRule} {settled : Tableau F → Bool}

/-- What a step that does not break off does: it makes a pivot, or leaves the trail as it is. -/
theorem step_eq_ok {a : Step} (h : s.step rule = (s', .ok a)) :
    match a with
    | .pivoted row column => ∃ t, s.tableau.pivot row column = .ok t ∧
      s' = (s.record (.pivoting row column (s.tableau.cost column))).advance t
    | .optimal => s' = s ∧ s.tableau.move rule = .optimal
    | .unbounded column => s' = s ∧ s.tableau.move rule = .unbounded column := by
  unfold step at h
  split at h
  · next hmove =>
    cases h
    exact ⟨rfl, hmove⟩
  · next column hmove =>
    cases h
    exact ⟨rfl, hmove⟩
  · next row column cost hmove =>
    obtain ⟨-, -, rfl⟩ := Tableau.move_eq_pivot hmove
    dsimp only at h
    split at h
    · cases h
    · next t hpivot =>
      cases h
      exact ⟨t, hpivot, rfl⟩

/-- **The loop of a phase tells a walk**, and rests with a reason. -/
theorem descend_tells (budget : Nat) {s s' : Trail F} (hdetail : s.journal.detail = some .trace)
    {halt : Halt} (h : s.descend rule settled budget = (s', .ok halt)) :
    ∃ es, s.tableau.Walk es s'.tableau ∧ s.Tells es s' ∧
      halt.Justified rule settled s'.tableau := by
  unfold descend at h
  split at h
  · cases h
  · split at h
    · next hsettled =>
      cases h
      exact ⟨[], .nil _, .refl hdetail, hsettled⟩
    · split at h
      · cases h
      · next u hstep =>
        cases h
        obtain ⟨rfl, hmove⟩ := step_eq_ok hstep
        exact ⟨[], .nil _, .refl hdetail, hmove⟩
      · next u column hstep =>
        cases h
        obtain ⟨rfl, hmove⟩ := step_eq_ok hstep
        exact ⟨[], .nil _, .refl hdetail, column, hmove⟩
      · next u row column hstep =>
        obtain ⟨t, hpivot, rfl⟩ := step_eq_ok hstep
        have htells := tells_pivot hdetail row column (s.tableau.cost column) t
        cases budget with
        | zero =>
          cases h
          exact ⟨_, .cons hpivot (.nil _), htells, trivial⟩
        | succ budget =>
          obtain ⟨es, hwalk, htells', hhalt⟩ := descend_tells budget htells.detail h
          exact ⟨_, .cons hpivot hwalk, htells.trans htells', hhalt⟩

end Trail

/-! ## What a run tells -/

/-- The outcome that can be read off the last tableau of a run. -/
def Outcome.ReadOff (rule : PivotRule) (objective : Affine F) (t : Tableau F) : Outcome F → Prop
  | infeasible => t.tolerance < t.value
  | optimal point value =>
    t.move rule = .optimal ∧ point = t.solution ∧ value = objective.eval point
  | unbounded => ∃ column, t.move rule = .unbounded column

/-- What the journal of a run on a tableau tells if it ends with an outcome: the walk of phase one
with its end, or that there is none, and the walk of phase two. -/
inductive Tableau.Chronicle (rule : PivotRule) (objective : Affine F) (t : Tableau F) :
    List (Event F) → Outcome F → Prop
  | infeasible {es : List (Event F)} {u : Tableau F} (hwalk : t.Walk es u)
    (hend : Outcome.infeasible.ReadOff rule objective u) :
    Chronicle rule objective t (t.openingEvents ++ es ++ [.artificialCostRemains u.value])
      .infeasible
  | direct {es : List (Event F)} {u : Tableau F} {o : Outcome F} (hwalk : t.Walk es u)
    (hend : o.ReadOff rule objective u) :
    Chronicle rule objective t
      (t.openingEvents ++ [.slackBasis] ++ es ++ [.finished (pivotCount es) o]) o
  | phases {es fs : List (Event F)} {u v w : Tableau F} {removed : List Nat} {o : Outcome F}
    (hwalk : t.Walk es u) (hdrop : u.dropArtificials = .ok (v, removed)) (hwalk' : v.Walk fs w)
    (hend : o.ReadOff rule objective w) :
    Chronicle rule objective t
      (t.openingEvents ++ es ++ removalEvents removed ++ [.foundFeasible (pivotCount es)] ++ fs ++
        [.finished (pivotCount es + pivotCount fs) o]) o

namespace Trail

variable {s s' : Trail F} {rule : PivotRule} {limit : Nat} {objective : Affine F}
  {outcome : Outcome F}

/-- Phase two tells a walk, and its outcome can be read off the last tableau. -/
theorem phaseTwo_tells (hdetail : s.journal.detail = some .trace)
    (h : s.phaseTwo rule limit objective = (s', .ok outcome)) :
    ∃ es, s.tableau.Walk es s'.tableau ∧ s.Tells es s' ∧
      outcome.ReadOff rule objective s'.tableau := by
  unfold phaseTwo at h
  split at h
  · cases h
  · cases h
  · next u hloop =>
    cases h
    exact descend_tells _ hdetail hloop
  · next u hloop =>
    obtain ⟨-, -, -, hsettled⟩ := descend_tells _ hdetail hloop
    cases hsettled
  · next u hloop =>
    cases h
    obtain ⟨es, hwalk, htells, hmove⟩ := descend_tells _ hdetail hloop
    exact ⟨es, hwalk, htells, hmove, rfl, rfl⟩

/-- The last part of a run tells a walk, and then the outcome that can be read off its last
tableau. -/
theorem finish_tells (hdetail : s.journal.detail = some .trace)
    (h : (s.finish rule limit objective).result = .ok outcome) :
    ∃ es u, s.tableau.Walk es u ∧ outcome.ReadOff rule objective u ∧
      (s.finish rule limit objective).pivots = s.pivots + pivotCount es ∧
      (s.finish rule limit objective).journal.events.toList =
        s.journal.events.toList ++ es ++ [.finished (s.pivots + pivotCount es) outcome] := by
  rw [finish] at h ⊢
  rcases htwo : s.phaseTwo rule limit objective with ⟨u, e | o⟩ <;> rw [htwo] at h
  · cases h
  · cases h
    obtain ⟨es, hwalk, htells, hread⟩ := phaseTwo_tells hdetail htwo
    refine ⟨es, u.tableau, hwalk, hread, htells.pivots, ?_⟩
    rw [← htells.pivots, ← htells.events]
    exact Journal.record_of_trace htells.detail _

/-- A phase one that finds a feasible basis tells a walk, after which the artificial variables are
dropped. -/
theorem phaseOne_tells (hdetail : s.journal.detail = some .trace) {found : Feasibility}
    (h : s.phaseOne rule limit = (s', .ok found)) :
    ∃ es u, s.tableau.Walk es u ∧
      match found with
      | .infeasible => u.tolerance < u.value ∧ s.Tells (es ++ [.artificialCostRemains u.value]) s'
      | .feasible removed => u.dropArtificials = .ok (s'.tableau, removed) ∧ s.Tells es s' := by
  have hleave : ∀ {u es}, s.tableau.Walk es u.tableau → s.Tells es u →
      u.leavePhaseOne = (s', .ok found) → ∃ es u, s.tableau.Walk es u ∧
      match found with
      | .infeasible => u.tolerance < u.value ∧ s.Tells (es ++ [.artificialCostRemains u.value]) s'
      | .feasible removed => u.dropArtificials = .ok (s'.tableau, removed) ∧ s.Tells es s' := by
    intro u es hwalk htells hleave
    unfold leavePhaseOne at hleave
    split at hleave
    · next hcost =>
      cases hleave
      exact ⟨es, u.tableau, hwalk, hcost, htells.record rfl⟩
    · split at hleave
      · cases hleave
      · next t removed hdrop =>
        cases hleave
        exact ⟨es, u.tableau, hwalk, hdrop, htells.detail, htells.events, htells.pivots⟩
  unfold phaseOne at h
  split at h
  · cases h
  · cases h
  · cases h
  · next u hloop =>
    obtain ⟨es, hwalk, htells, -⟩ := descend_tells _ hdetail hloop
    exact hleave hwalk htells h
  · next u hloop =>
    obtain ⟨es, hwalk, htells, -⟩ := descend_tells _ hdetail hloop
    exact hleave hwalk htells h

/-- A run from its first trail on tells a chronicle, and counts the pivots that are announced. -/
theorem twoPhases_tells {t : Tableau F} {r : Run F}
    (hr : r = (start (some .trace) t).recordCreation.twoPhases rule limit objective)
    (h : r.result = .ok outcome) :
    t.Chronicle rule objective r.journal.events.toList outcome ∧
      r.pivots = pivotCount r.journal.events.toList := by
  have hopening := tells_opening t
  unfold twoPhases at hr
  split at hr
  · split at hr
    · next u e hone =>
      rw [hr] at h
      cases h
    · next u hone =>
      obtain ⟨es, v, hwalk, hcost, htells⟩ := phaseOne_tells hopening.detail hone
      obtain ⟨hevents, hpivots⟩ := (hopening.trans htells).of_start
      rw [hr] at h ⊢
      cases h
      dsimp only
      rw [hpivots, hevents, ← List.append_assoc]
      exact ⟨.infeasible hwalk hcost, rfl⟩
    · next u removed hone =>
      obtain ⟨es, v, hwalk, hdrop, htells⟩ := phaseOne_tells hopening.detail hone
      have hleft := hopening.trans htells
      have hcount : u.pivots = pivotCount es := by
        rw [hleft.of_start.2, pivotCount_append, pivotCount_openingEvents, Nat.zero_add]
      obtain ⟨hevents, hpivots⟩ := (hleft.recordFeasible removed).of_start
      rw [hr] at h ⊢
      obtain ⟨fs, w, hwalk', hread, hpivots', hevents'⟩ :=
        finish_tells (hleft.recordFeasible removed).detail h
      have htotal : (u.recordFeasible removed).pivots = pivotCount es := by
        rw [hpivots]
        simp [Event.pivot?]
      rw [hevents', hpivots', htotal, hevents, hcount]
      have htableau : (u.recordFeasible removed).tableau = u.tableau := by
        unfold recordFeasible
        split <;> rfl
      rw [htableau] at hwalk'
      exact ⟨.phases hwalk hdrop hwalk' hread, by simp [Event.pivot?]⟩
  · have hdirect := hopening.record (e := .slackBasis) rfl
    obtain ⟨hevents, hpivots⟩ := hdirect.of_start
    rw [hr] at h ⊢
    obtain ⟨es, u, hwalk, hread, hpivots', hevents'⟩ := finish_tells hdirect.detail h
    have hzero : pivotCount (t.openingEvents ++ [.slackBasis]) = 0 := rfl
    rw [hevents', hpivots', hpivots, hevents, hzero, Nat.zero_add]
    exact ⟨.direct hwalk hread, by simp [Event.pivot?]⟩

end Trail

/-! ## What a chronicle is good for -/

namespace Tableau

variable {t u v : Tableau F} {es : List (Event F)} {removed : List Nat} {rule : PivotRule}
  {objective : Affine F} {outcome : Outcome F}

/-- The opening events show the first tableau. -/
theorem replays_openingEvents (t : Tableau F) : t.Replays t.openingEvents t [] := by
  have hcreated : t.Replays [.created t.rowCount t.layout.columns t.layout.artificial] t [] :=
    .single rfl rfl
  exact hcreated.append (.snapshot t)

/-- What is reported at the end of phase one drops the artificial variables. -/
theorem replays_removalEvents (hdrop : u.dropArtificials = .ok (v, removed)) (n : Nat) :
    u.Replays (removalEvents removed ++ [.foundFeasible n]) v [] := by
  have hremoval : u.Replays (removalEvents removed) u [] := by
    unfold removalEvents
    split
    · exact .nil u
    · exact .single rfl rfl
  have hreplay : u.replay [.drop] = .ok (v, []) := by
    rw [replay, follow, hdrop]
    rfl
  exact hremoval.append (.single hreplay rfl)

/-- **A chronicle can be replayed**: the pivots lead to the tableaus that are shown after the first
one, and the outcome can be read off the last. -/
theorem Chronicle.replays (h : t.Chronicle rule objective es outcome) :
    ∃ u ts, t.Replays es u ts ∧ shown es = t :: ts ∧ outcome.ReadOff rule objective u := by
  have hopening := t.replays_openingEvents
  cases h with
  | @infeasible es u hwalk hend =>
    refine ⟨u, _, (hopening.append hwalk.replays).append (.single rfl rfl), ?_, hend⟩
    simp [openingEvents, Event.tableau?]
  | @direct es u _ hwalk hend =>
    have hslack : t.Replays [.slackBasis] t [] := .single rfl rfl
    refine ⟨u, _, ((hopening.append hslack).append hwalk.replays).append (.single rfl rfl),
      ?_, hend⟩
    simp [openingEvents, Event.tableau?]
  | @phases es fs u v w removed _ hwalk hdrop hwalk' hend =>
    have hone := (hopening.append hwalk.replays).append
      (replays_removalEvents hdrop (pivotCount es))
    rw [← List.append_assoc] at hone
    refine ⟨w, _, (hone.append hwalk'.replays).append (.single rfl rfl), ?_, hend⟩
    simp [openingEvents, Event.tableau?]

/-- **A chronicle counts its pivots.** The end of phase one, which is reported at most once, comes
after as many pivots as were announced before it, and the last event reports how many there are and
the outcome. -/
theorem Chronicle.counts (h : t.Chronicle rule objective es outcome) :
    (∀ n o, .finished n o ∈ es → n = pivotCount es ∧ o = outcome) ∧
      ∀ before n after, es = before ++ .foundFeasible n :: after →
        n = pivotCount before ∧ ∀ e ∈ before ++ after, e.found? = none := by
  have hfound : ∀ {before : List (Event F)} {n after}, es = before ++ .foundFeasible n :: after →
      .foundFeasible n ∈ es := by
    intro before n after hsplit
    rw [hsplit]
    exact List.mem_append_right _ List.mem_cons_self
  cases h with
  | @infeasible es u hwalk hend =>
    have hopen : Open (t.openingEvents ++ es ++ [.artificialCostRemains u.value]) :=
      ((open_openingEvents t).append hwalk.isOpen).append (.single rfl rfl)
    exact ⟨fun n o hmem => absurd hmem hopen.not_finished,
      fun before n after hsplit => absurd (hfound hsplit) hopen.not_foundFeasible⟩
  | @direct es u _ hwalk hend =>
    have hopen : Open (t.openingEvents ++ [.slackBasis] ++ es) :=
      ((open_openingEvents t).append (.single rfl rfl)).append hwalk.isOpen
    refine ⟨fun n o hmem => ?_, fun before n after hsplit => ?_⟩
    · rcases List.mem_append.1 hmem with hmem | hmem
      · exact absurd hmem hopen.not_finished
      · cases List.mem_singleton.1 hmem
        exact ⟨by simp [Event.pivot?], rfl⟩
    · rcases List.mem_append.1 (hfound hsplit) with hmem | hmem
      · exact absurd hmem hopen.not_foundFeasible
      · cases List.mem_singleton.1 hmem
  | @phases es fs u v w removed _ hwalk hdrop hwalk' hend =>
    have hbefore : Open (t.openingEvents ++ es ++ removalEvents removed) :=
      ((open_openingEvents t).append hwalk.isOpen).append (open_removalEvents removed)
    refine ⟨fun n o hmem => ?_, fun before n after hsplit => ?_⟩
    · rcases List.mem_append.1 hmem with hmem | hmem
      · rcases List.mem_append.1 hmem with hmem | hmem
        · rcases List.mem_append.1 hmem with hmem | hmem
          · exact absurd hmem hbefore.not_finished
          · cases List.mem_singleton.1 hmem
        · exact absurd hmem hwalk'.isOpen.not_finished
      · cases List.mem_singleton.1 hmem
        exact ⟨by simp [Event.pivot?], rfl⟩
    · have hafter : ∀ e ∈ fs ++ [.finished (pivotCount es + pivotCount fs) outcome],
          e.found? = none :=
        List.forall_mem_append.2
          ⟨fun e he => (hwalk'.isOpen e he).1, List.forall_mem_singleton.2 rfl⟩
      rw [List.append_assoc _ fs, List.append_assoc _ [_]] at hsplit
      obtain ⟨rfl, hn, rfl⟩ :=
        append_cons_unique (fun e he => (hbefore e he).1) hafter rfl hsplit
      cases hn
      exact ⟨by simp, List.forall_mem_append.2 ⟨fun e he => (hbefore e he).1, hafter⟩⟩

/-- Unless phase one ends above zero, the last event reports the outcome. -/
theorem Chronicle.last (h : t.Chronicle rule objective es outcome) :
    outcome = .infeasible ∨ ∃ before n, es = before ++ [.finished n outcome] := by
  cases h with
  | infeasible _ _ => exact .inl rfl
  | direct _ _ => exact .inr ⟨_, _, rfl⟩
  | phases _ _ _ _ => exact .inr ⟨_, _, rfl⟩

end Tableau

namespace LinearProgram

variable {p : LinearProgram F} {settings : Settings F} {rule : PivotRule} {outcome : Outcome F}

/-- The events of a run, with all details. -/
def log (p : LinearProgram F) (settings : Settings F) (rule : PivotRule) : List (Event F) :=
  (p.run settings rule (some .trace)).journal.events.toList

/-- **The journal of a run that ends with an outcome is a chronicle**, and the run counts the pivots
that it announces. -/
theorem chronicle_of_result (h : (p.run settings rule (some .trace)).result = .ok outcome) :
    ∃ t, Tableau.ofProgram p settings.nonnegative settings.tolerance = .ok t ∧
      t.Chronicle rule p.objective (p.log settings rule) outcome ∧
      (p.run settings rule (some .trace)).pivots = pivotCount (p.log settings rule) := by
  cases hcheck : p.check settings with
  | error e =>
    rw [run, hcheck] at h
    cases h
  | ok =>
    obtain ⟨htolerance, harity⟩ := of_check hcheck
    exact ⟨_, ofProgram_eq_ok_iff.2 ⟨harity, htolerance, rfl⟩,
      Trail.twoPhases_tells (run_eq hcheck rule _) h⟩

end LinearProgram

end

end Simplex
