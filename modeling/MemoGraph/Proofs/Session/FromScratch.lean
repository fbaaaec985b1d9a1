import MemoGraph.Proofs.Round.Replay
import MemoGraph.Proofs.Session.Founded

/-!
# Incremental evaluation equals evaluation from scratch

A round of a session that met no cycle leaves a graph whose outcomes have their causes in it.  A new
session with the same functions and the last injected values can therefore replay it: the round over
the same roots ends, and reports outcomes that are alike.
-/

set_option autoImplicit false

namespace MemoGraph

variable {D : Domain}

namespace Session

/-- A new session that was given some values. -/
def given (registry : Registry D) (values : Table D.Key D.Value) : Session D :=
  ((Session.new registry).inject values.entries).1

section Given

variable {registry : Registry D} {values : Table D.Key D.Value}

theorem history_given (registry : Registry D) (values : Table D.Key D.Value) :
    ∃ ledger, History (fun _ _ => True) (Session.new registry) (given registry values) ledger := by
  have hop : (Session.new registry).perform (.inject values.entries) =
      some (given registry values, []) := rfl
  exact ⟨_, .step .start trivial hop⟩

/-- No key was completed yet. -/
theorem status_given (x : D.Key) : ((given registry values).graph.node x).status = .new := by
  have hempty : ((∅ : Graph D).node x).status = .new := rfl
  show (((∅ : Graph D).invalidate _).1.node x).status = .new
  rcases Graph.status_invalidate (∅ : Graph D) _ x with h | ⟨h, -⟩ | ⟨h, -⟩
  · rw [h, hempty]
  · rw [hempty] at h
    cases h
  · exact absurd hempty h

/-- The values are to be injected. -/
theorem injections_given {x : D.Key} {v : D.Value}
    (h : (given registry values).injections.get? x = some v) : values.get? x = some v := by
  rcases Table.get?_foldl_insert (t := (∅ : Table D.Key D.Value)) h with hmem | ⟨-, hnone⟩
  · exact Table.get?_eq_some_iff.mpr hmem
  · cases hnone

theorem mem_keys_foldl_insert {K V : Type} [DecidableEq K] {rows : List (K × V)}
    {t : Table K V} {x : K} (h : x ∈ rows.map Prod.fst ∨ x ∈ t.keys) :
    x ∈ (rows.foldl (fun t e => t.insert e.1 e.2) t).keys := by
  induction rows generalizing t with
  | nil => exact h.resolve_left List.not_mem_nil
  | cons e rest ih =>
      apply ih
      rw [Table.mem_keys_insert]
      rcases h with h | h
      · rcases List.mem_cons.mp h with rfl | h
        · exact .inr (.inr rfl)
        · exact .inl h
      · exact .inr (.inl h)

/-- When the first round starts, exactly the values can be read. -/
theorem replays_opening {goal : Graph D} {roots : List D.Key} {keepGoing : Bool}
    {observer : List (Event D) → Bool} (hquiet : ∀ log, observer log = false)
    (hD : D.Exact) (hgoal : goal.Certified registry values)
    (hfree : ∀ x ∈ values.keys, registry.find? x = none)
    (hroots : ∀ root ∈ roots, goal.isComplete root = true) :
    Round.Replays goal values ((given registry values).opening
      ((given registry values).setting roots keepGoing observer)) := by
  let s := (given registry values).setting roots keepGoing observer
  have hquiet : Round.Quiet s := hquiet
  refine Round.replays_start (s := s) hgoal hfree hquiet (fun x o hshows => ?_) (fun x => ?_)
    (fun x hx => ?_) (fun root hroot => hroots root (OrderedSet.mem_ofList.mp hroot)) _
  · cases hx : (given registry values).injections.get? x with
    | some v =>
        refine ⟨v, injections_given hx, ?_⟩
        rcases outcome_injectedGraph hx hshows.2 with rfl | hsame
        · rfl
        · exact Outcome.eq_of_same_value hD hsame
    | none =>
        have hkept := memo_injectedGraph_of_none hx s.version
        have hcurrent := Node.isComplete_iff.mp hshows.1
        rw [(Node.memo_eq_iff.mp hkept).1, status_given] at hcurrent
        cases hcurrent
  · cases hx : (given registry values).injections.get? x with
    | some v =>
        rw [Node.isComplete_iff.mp (injected_of_some hx _).1]
        simp
    | none =>
        rw [(Node.memo_eq_iff.mp (memo_injectedGraph_of_none hx _)).1, status_given]
        simp
  · obtain ⟨v, hv⟩ := Table.mem_keys_iff.mp
      (mem_keys_foldl_insert (t := (∅ : Table D.Key D.Value)) (.inl hx))
    have hget : (given registry values).injections.get? x = some v := hv
    exact (injected_of_some hget _).1

end Given

/-- Incremental evaluation equals evaluation from scratch.  Take any history of a session with batch
strict functions in which changes of functions are reported and no cycle is met, and a round that
keeps going and ends with a report.  If keys that were given values have no function, a new session
that is given the last of these values ends the round over the same roots with a report as well, if
it may take steps enough, and both list all roots with outcomes that are alike. -/
theorem incremental_alike_from_scratch (hD : D.Exact) {registry : Registry D}
    (hstrict : registry.BatchStrict) {session : Session D} {ledger : Ledger D}
    (h : History Orderly (Session.new registry) session ledger)
    (hfree : ∀ k ∈ ledger.latest.keys, session.registry.find? k = none)
    {budget : Nat} {roots : List D.Key} {observer : List (Event D) → Bool}
    (hcycles : ¬ session.MeetsCycles (.evaluate budget roots true observer))
    {session' : Session D} {e : Evaluation D} {report : Report D}
    (heval : session.evaluate budget roots true observer = some (session', e))
    (hok : e.verdict = .ok report) :
    ∃ enough fresh e' report',
      (∀ budget', enough ≤ budget' → (given session.registry ledger.latest).evaluate budget' roots
        true (fun _ => false) = some (fresh, e')) ∧
      e'.verdict = .ok report' ∧
        ∀ root ∈ roots, ∃ o o', report.Lists root o ∧ report'.Lists root o' ∧ o.Alike o' := by
  have hperform : session.perform (.evaluate budget roots true observer) =
      some (session', e.events) := by
    rw [perform, heval, Option.map_some]
  have horderly : session.Orderly (.evaluate budget roots true observer) := ⟨trivial, hcycles⟩
  have hcertified := certified_of_history hD hstrict (h.step horderly hperform)
  obtain ⟨r, hr, hend, rfl, rfl⟩ := evaluate_eq_some heval
  obtain ⟨hh, rfl⟩ := Round.verdict_eq_ok hok
  have hground := grounded_of_passes (grounded_of_history h) hr
  have hroots : ∀ root ∈ roots, r.graph.isComplete root = true := fun root hroot =>
    Round.isComplete_root_of_end hr rfl hend hh (OrderedSet.mem_ofList.mpr hroot)
  have hgoal : r.graph.Certified session.registry ledger.latest := hcertified
  let start := given session.registry ledger.latest
  let s := start.setting roots true fun _ => false
  obtain ⟨_, hgiven⟩ := history_given session.registry ledger.latest
  obtain ⟨hg, hb⟩ := grounded_opening (grounded_of_history hgiven)
  have hquiet : Round.Quiet s := fun _ => rfl
  have hreplay : Round.Replays r.graph ledger.latest (start.opening s) :=
    replays_opening hquiet hD hgoal hfree hroots
  have hall {r' : Round D} (hr' : Round.Reaches s (start.opening s) r') :
      Round.Replays r.graph ledger.latest r' ∧
        ∀ r'', r'.step s = some r'' → Round.Onward s r.graph r' r'' :=
    Round.onward_of_reaches hD hgoal hground.graph hquiet hg hb hreplay hr'
  obtain ⟨enough, r', hrun⟩ := Round.runs_of_onward fun r' hr' => (hall hr').2
  obtain ⟨hr', hend'⟩ := Round.reaches_of_run (hrun enough (Nat.le_refl enough))
  have hgoing := (hall hr').1.going
  refine ⟨enough, start.closing s r', { verdict := r'.verdict s, events := r'.log.reverse },
    r'.report s, fun budget' hbudget => ?_, Round.verdict_of_going hgoing, fun root hroot => ?_⟩
  · show (Round.run s budget' (start.opening s)).map _ = _
    rw [hrun budget' hbudget]
    rfl
  · have hmem : root ∈ (session.setting roots true observer).roots :=
      OrderedSet.mem_ofList.mpr hroot
    have hmem' : root ∈ s.roots := OrderedSet.mem_ofList.mpr hroot
    have hground' : Round.Grounded s r' := .of_reaches hg hb hr'
    have hcomplete' := Round.isComplete_root_of_end hr' rfl hend' hgoing hmem'
    obtain ⟨o, hsettled, ho⟩ := hground.graph.settled (hroots root hroot)
    obtain ⟨o', hsettled', ho'⟩ := hground'.graph.settled hcomplete'
    refine ⟨o, o', Round.lists_of_isComplete hground hmem (hroots root hroot) ho,
      Round.lists_of_isComplete hground' hmem' hcomplete' ho', ?_⟩
    exact ((hall hr').1.agrees root o' o hsettled' hsettled).symm

/-- The input of a tower changes between two rounds over its top. -/
theorem tower_alike_from_scratch : ∃ session ledger,
    History Orderly (Session.new Sample.tower) session ledger ∧
      (∀ k ∈ ledger.latest.keys, session.registry.find? k = none) ∧
      ¬ session.MeetsCycles (.evaluate 40 [(2 : Nat)] true fun _ => false) ∧
      ∃ session' e report,
        session.evaluate 40 [(2 : Nat)] true (fun _ => false) = some (session', e) ∧
        e.verdict = .ok report ∧ report.values.get? (2 : Nat) = some (10 : Nat) ∧
        ∃ enough fresh e' report',
          (∀ budget', enough ≤ budget' → (given session.registry ledger.latest).evaluate budget'
            [(2 : Nat)] true (fun _ => false) = some (fresh, e')) ∧
          e'.verdict = .ok report' ∧
            ∀ root ∈ [(2 : Nat)], ∃ o o', report.Lists root o ∧ report'.Lists root o' ∧
              o.Alike o' := by
  let first : Session Sample.domain :=
    ((Session.new Sample.tower).inject [((0 : Nat), (3 : Nat))]).1
  have hfirst : (first.evaluate 40 [(2 : Nat)] true fun _ => false).map
      (fun x => x.2.verdict.toOption.map Report.cycles) = some (some []) := by decide +kernel
  have hsecond : (first.evaluate 40 [(2 : Nat)] true fun _ => false).bind (fun x =>
      ((x.1.inject [((0 : Nat), (4 : Nat))]).1.evaluate 40 [(2 : Nat)] true fun _ => false).bind
        fun y => y.2.verdict.toOption.map fun report =>
          (report.cycles, report.values.get? (2 : Nat))) = some ([], some (10 : Nat)) := by
    decide +kernel
  have hinject (session : Session Sample.domain) (v : Nat) :
      session.Orderly (.inject [((0 : Nat), v)]) ∧ session.perform (.inject [((0 : Nat), v)]) =
        some ((session.inject [((0 : Nat), v)]).1, []) := ⟨⟨trivial, id⟩, rfl⟩
  have hgiven : History Orderly (Session.new Sample.tower) first _ :=
    .step .start (hinject _ 3).1 (hinject _ 3).2
  obtain ⟨⟨next, e₁⟩, heval₁, hreport⟩ := Option.bind_eq_some_iff.mp hsecond
  obtain ⟨⟨session', e⟩, heval, hreport⟩ := Option.bind_eq_some_iff.mp hreport
  obtain ⟨report, hverdict, hpair⟩ := Option.map_eq_some_iff.mp hreport
  obtain ⟨hcycles, hvalue⟩ := Prod.mk.inj hpair
  have hperform : first.perform (.evaluate 40 [(2 : Nat)] true fun _ => false) =
      some (next, e₁.events) := by
    rw [perform, heval₁, Option.map_some]
  have horderly : first.Orderly (.evaluate 40 [(2 : Nat)] true fun _ => false) :=
    ⟨trivial, not_meetsCycles_of_report hfirst⟩
  have hround := hgiven.step horderly hperform
  have hchanged := hround.step (hinject next 4).1 (hinject next 4).2
  have hcalm : ¬ (next.inject [((0 : Nat), (4 : Nat))]).1.MeetsCycles
      (.evaluate 40 [(2 : Nat)] true fun _ => false) := by
    apply not_meetsCycles_of_report
    rw [heval, Option.map_some, hverdict, Option.map_some, hcycles]
  have hregistry : next.registry = Sample.tower := by
    obtain ⟨r, -, -, rfl, -⟩ := evaluate_eq_some heval₁
    rfl
  have hfree (k : Nat) (hk : k ∈ [(0 : Nat)]) :
      (next.inject [((0 : Nat), (4 : Nat))]).1.registry.find? k = none := by
    show next.registry.find? k = none
    rw [hregistry, List.mem_singleton.mp hk]
    rfl
  have hok := Round.eq_ok_of_toOption hverdict
  exact ⟨_, _, hchanged, hfree, hcalm, session', e, report, heval, hok, hvalue,
    incremental_alike_from_scratch Sample.exact_domain Sample.batchStrict_tower hchanged hfree hcalm
      heval hok⟩

end Session

end MemoGraph
