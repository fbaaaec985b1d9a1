import MemoGraph.Proofs.Crew.Acting
import MemoGraph.Proofs.Crew.Endings
import MemoGraph.Proofs.Cycle.Search
import MemoGraph.Proofs.Round.Report

/-!
# Crews of one worker

A round of one worker is a round of a crew of one: each step of it is a run of the crew, in which
the worker takes one key from the queue and lets it act, or the lead breaks the cycles that hold up
the roots.  So a `Round` that ends tells how a crew can end, with the same verdict, the same graph
and the same events.
-/

set_option autoImplicit false

namespace MemoGraph

variable {D : Domain} {s : Setting D}

/-- Rounds with the same tasks, in whatever order, and the same complete keys are held up by the
same cycles. -/
theorem Round.heldUpBy_congr {r r' : Round D} (htask : ∀ x, r'.tasks.get? x = r.tasks.get? x)
    (hcomplete : ∀ x, r'.graph.isComplete x = r.graph.isComplete x) :
    r'.heldUpBy s = r.heldUpBy s := by
  have hblockers : r'.blockers = r.blockers := by
    funext x
    simp only [blockers, htask, hcomplete]
  have hstuck : r'.stuck s = r.stuck s := by simp only [stuck, hcomplete]
  rw [heldUpBy, heldUpBy, hblockers, hstuck]
  refine Cycle.find_congr _ _ fun x => ?_
  rw [Table.mem_keys_iff, Table.mem_keys_iff]
  simp only [htask]

/-! ## A worker with a key -/

section Taken

variable {l : Live D} {r : Round D}

/-- A worker that takes a key while the round is to stop skips it. -/
theorem works_skipped {view : D.Key → Task D → Task D} (h : Reflects view l r)
    (hh : r.halted = true) (k : D.Key) : Works s (l, .fetched k) (l, .idle) := by
  cases hfailed : l.failed with
  | true =>
      have hstep : (Stage.fetched k).step s l = (l, .idle) := by simp [Stage.step, hfailed]
      exact .step rfl hstep .refl
  | false =>
      have hinterrupted : l.interrupted = true := by
        rw [Round.halted, ← h.failed, hfailed, Bool.false_or] at hh
        exact h.interrupted.trans hh
      have hadmit : (Stage.fetched k).step s l = (l, .admitted k) := by simp [Stage.step, hfailed]
      have hskip : (Stage.admitted k).step s l = (l, .idle) := by simp [Stage.step, hinterrupted]
      exact .step rfl hadmit (.step rfl hskip .refl)

/-- A worker that takes a key in a round that goes on lets the key act. -/
theorem Reflects.from_fetched (h : Reflects asKept l r) (hgo : r.halted = false) {k : D.Key}
    (hzero : ∀ t, r.tasks.get? k = some t → t.expected = 0) :
    Achieves s (l, .fetched k) (r.process s k) := by
  have hadmit : (Stage.fetched k).step s l = (l, .admitted k) := by
    simp [Stage.step, h.failed, Round.aborted_of_going hgo]
  have hprocess : (Stage.admitted k).step s l = (l, .processing k) := by
    simp [Stage.step, h.interrupted, Round.not_interrupted_of_going hgo]
  refine .step rfl hadmit (.step rfl hprocess ?_)
  cases ht : r.tasks.get? k with
  | none =>
      have hsame : r.process s k = r := by simp only [Round.process, ht]
      rw [hsame]
      refine .step rfl ?_ (.here (.rests h))
      simp only [Stage.step, (h.task_eq k).trans ht]
  | some t =>
      rw [← inHand_id k] at h
      exact h.from_continuing hgo ht (hzero t ht) .processing

end Taken

/-! ## The worker and the lead take turns -/

namespace Crew

variable {c : Crew D} {r r' : Round D}

/-- The lead works. -/
theorem reaches_of_lead {st st' : Stage D} (hlead : c.lead = .acting st) {l' : Live D}
    (h : Works s (c.live, st) (l', st')) :
    Reaches s c { c with live := l', lead := .acting st' } := by
  let place (x : Live D × Stage D) : Crew D := { c with live := x.1, lead := .acting x.2 }
  have hstep (x y : Live D × Stage D) (hxy : x.2.isIdle = false ∧ x.2.step s x.1 = y) :
      Step s (place x) (place y) := by
    obtain ⟨hbusy, rfl⟩ := hxy
    obtain ⟨l, st⟩ := x
    refine .turn 0 ?_
    cases st with
    | idle => cases hbusy
    | _ => rfl
  have hplace : place (c.live, st) = c := by
    simp only [place, ← hlead]
  have hreaches : Reaches s (place (c.live, st)) (place (l', st')) :=
    Relation.ReflTransGen.lift place hstep _ _ h
  rwa [hplace] at hreaches

/-- A step of a single worker. -/
theorem turn_of_worker (hlead : c.lead = .acting .idle) {st : Stage D} (hworkers : c.workers = [st])
    (hbusy : st.isIdle = false ∨ c.live.queue ≠ []) :
    c.turn s 0 = some { c with
      live := (st.step s c.live).1
      workers := [(st.step s c.live).2] } := by
  have hquiet : c.isQuiet = false := by
    rw [isQuiet, hworkers]
    rcases hbusy with hst | hq
    · simp [hst]
    · simp [hq]
  simp [turn, hlead, hquiet, hworkers]

/-- The worker works while the lead waits. -/
theorem reaches_of_worker (hlead : c.lead = .acting .idle) {st st' : Stage D}
    (hworkers : c.workers = [st]) {l' : Live D} (h : Works s (c.live, st) (l', st')) :
    Reaches s c { c with live := l', workers := [st'] } := by
  let place (x : Live D × Stage D) : Crew D := { c with live := x.1, workers := [x.2] }
  have hstep (x y : Live D × Stage D) (hxy : x.2.isIdle = false ∧ x.2.step s x.1 = y) :
      Step s (place x) (place y) := by
    obtain ⟨hbusy, rfl⟩ := hxy
    exact .turn 0 (turn_of_worker (c := place x) hlead rfl (.inl hbusy))
  have hplace : place (c.live, st) = c := by
    simp only [place, ← hworkers]
  have hreaches : Reaches s (place (c.live, st)) (place (l', st')) :=
    Relation.ReflTransGen.lift place hstep _ _ h
  rwa [hplace] at hreaches

/-- An idle worker takes a key from the queue, and works. -/
theorem reaches_of_fetch (hlead : c.lead = .acting .idle) (hworkers : c.workers = [.idle])
    {k : D.Key} {rest : List D.Key} (hq : c.live.queue = k :: rest) {l' : Live D} {st' : Stage D}
    (h : Works s ({ c.live with queue := rest }, .fetched k) (l', st')) :
    Reaches s c { c with live := l', workers := [st'] } := by
  have hturn := turn_of_worker (s := s) hlead hworkers (.inr (by simp [hq]))
  simp only [Stage.step, hq] at hturn
  have hrest := reaches_of_worker
    (c := { c with live := { c.live with queue := rest }, workers := [.fetched k] }) hlead rfl h
  exact .head (.turn 0 hturn) hrest

/-- When the worker is idle and the queue is empty, the lead looks. -/
theorem turn_of_quiet (hlead : c.lead = .acting .idle) (hworkers : c.workers = [.idle])
    (hq : c.live.queue = []) : c.turn s 0 = some c.check := by
  have hquiet : c.isQuiet = true := by simp [isQuiet, hworkers, hq, Stage.isIdle]
  simp [turn, hlead, hquiet]

/-- If the round goes on then, the lead looks for roots that are held up. -/
theorem turn_of_going (hlead : c.lead = .acting .idle) (hworkers : c.workers = [.idle])
    {view : D.Key → Task D → Task D} (h : Reflects view c.live r) (hq : r.queue = [])
    (hgo : r.halted = false) : c.turn s 0 = some { c with lead := .surveying } := by
  have hcheck : c.check = { c with lead := .surveying } := by
    simp [check, h.fatal, Round.aborted_of_going hgo, h.interrupted,
      Round.not_interrupted_of_going hgo]
  rw [turn_of_quiet hlead hworkers (h.queue.trans hq), hcheck]

/-- The cycles that hold up the round are those that the lead sees. -/
theorem heldUpBy_round (h : Reflects asKept c.live r) : c.round.heldUpBy s = r.heldUpBy s := by
  refine Round.heldUpBy_congr (fun x => ?_) fun x => ?_
  · exact (Store.get?_tasks _ _).trans (h.task_eq x)
  · rw [← h.isComplete]
    exact congrArg Node.isComplete (Store.node_graph _ _)

/-- The report is the one that the lead makes. -/
theorem report_round (h : Reflects asKept c.live r) (hcycles : c.cycles = r.cycles) :
    c.round.report s = r.report s := by
  refine Round.report_congr (fun x => ?_) (fun x => ?_) hcycles
  · exact (Store.get?_tasks _ _).trans (h.task_eq x)
  · rw [← h.settled]
    exact congrArg Node.settled? (Store.node_graph _ _)

/-! ## The crew keeps up with the round -/

/-- The crew has come to where the round is. -/
structure Tracks (c : Crew D) (r : Round D) : Prop where
  /-- The lead waits. -/
  lead : c.lead = .acting .idle
  /-- There is one worker. -/
  worker : ∃ st, c.workers = [st] ∧ Stands c.live st r
  /-- The same cycles were broken. -/
  cycles : c.cycles = r.cycles

/-- The worker skips a queued key. -/
theorem Tracks.skip (h : c.Tracks r) (hh : r.halted = true) {k : D.Key} {rest : List D.Key}
    (hq : r.queue = k :: rest) : ∃ c', Reaches s c c' ∧ c'.Tracks { r with queue := rest } := by
  obtain ⟨hlead, ⟨st, hworkers, hstands⟩, hcycles⟩ := h
  have hskip {view : D.Key → Task D → Task D} (h : Reflects view c.live r)
      (hworkers : c.workers = [.idle])
      (hstands : Stands { c.live with queue := rest } .idle { r with queue := rest }) :
      ∃ c', Reaches s c c' ∧ c'.Tracks { r with queue := rest } := by
    have hrest : Reflects view { c.live with queue := rest } { r with queue := rest } :=
      { h with queue := rfl }
    have hworks := works_skipped (s := s) hrest hh k
    exact ⟨_, reaches_of_fetch hlead hworkers (h.queue.trans hq) hworks, hlead,
      ⟨_, rfl, hstands⟩, hcycles⟩
  cases hstands with
  | rests h => exact hskip h hworkers (.rests { h with queue := rfl })
  | skips _ h => exact hskip h hworkers (.skips hh { h with queue := rfl })
  | continues hgo =>
      cases hgo.symm.trans hh

/-- The worker lets a queued key act. -/
theorem Tracks.act (h : c.Tracks r) (hgo : r.halted = false) (htally : r.Tally none 0 [])
    {k : D.Key} {rest : List D.Key} (hq : r.queue = k :: rest) :
    ∃ c', Reaches s c c' ∧ c'.Tracks (({ r with queue := rest } : Round D).process s k) := by
  obtain ⟨hlead, ⟨st, hworkers, hstands⟩, hcycles⟩ := h
  have hcycles' : c.cycles = (({ r with queue := rest } : Round D).process s k).cycles :=
    hcycles.trans (Round.cycles_of_move (Round.move_process s { r with queue := rest } k)).symm
  have hzero (t : Task D) (ht : r.tasks.get? k = some t) : t.expected = 0 :=
    (htally.pop hq ht).expected_eq_zero ht
  cases hstands with
  | rests h =>
      have hrest : Reflects asKept { c.live with queue := rest } { r with queue := rest } :=
        { h with queue := rfl }
      obtain ⟨l', st', hworks, h'⟩ := hrest.from_fetched (s := s) hgo (k := k) hzero
      exact ⟨_, reaches_of_fetch hlead hworkers (h.queue.trans hq) hworks, hlead, ⟨_, rfl, h'⟩,
        hcycles'⟩
  | skips hh =>
      cases hgo.symm.trans hh
  | continues hgo ht h hst =>
      obtain ⟨rfl, rfl⟩ := List.cons.inj hq
      obtain ⟨l', st', hworks, h'⟩ := h.from_continuing hgo ht (hzero _ ht) hst
      exact ⟨_, reaches_of_worker hlead hworkers hworks, hlead, ⟨_, rfl, h'⟩, hcycles'⟩

/-- The lead breaks the cycles that hold up the roots. -/
theorem Tracks.break (h : c.Tracks r) (hq : r.queue = []) (hgo : r.halted = false)
    (hstop : r.stopping = false) (hheld : r.heldUpBy s ≠ []) :
    ∃ c', Reaches s c c' ∧ c'.Tracks (r.failMembers s (r.heldUpBy s)) := by
  obtain ⟨hlead, ⟨st, hworkers, hstands⟩, hcycles⟩ := h
  cases hstands with
  | skips hh =>
      cases hgo.symm.trans hh
  | continues => cases hq
  | rests h =>
      let surveying : Crew D := { c with lead := .surveying }
      let members := (OrderedSet.ofList ((r.heldUpBy s).flatMap Cycle.members)).toList
      have hturn : c.turn s 0 = some surveying := turn_of_going hlead hworkers h hq hgo
      have hsurvey : surveying.survey s = { c with
          cycles := c.cycles ++ r.heldUpBy s
          lead := .acting (.breaking (r.heldUpBy s) members) } := by
        have hfound : surveying.round.heldUpBy s = r.heldUpBy s := heldUpBy_round h
        have hsome : (r.heldUpBy s).isEmpty = false := List.isEmpty_eq_false_iff.mpr hheld
        simp only [survey, hfound, hsome, surveying, h.stopping, hstop]
        rfl
      have hlisted : Reflects asKept c.live { r with cycles := r.cycles ++ r.heldUpBy s } :=
        { h with }
      obtain ⟨l', hworks, h'⟩ := hlisted.from_breaking (s := s) (r.heldUpBy s) members
      have hbreak : Reaches s (surveying.survey s)
          { c with live := l', cycles := c.cycles ++ r.heldUpBy s, lead := .acting .idle } := by
        rw [hsurvey]
        exact reaches_of_lead rfl hworks
      refine ⟨_, .head (.turn 0 hturn) (.head (.turn 0 rfl) hbreak), rfl,
        ⟨_, hworkers, .rests h'⟩, ?_⟩
      rw [Round.cycles_failMembers]
      exact congrArg (· ++ r.heldUpBy s) hcycles

/-- A step of the round is a run of the crew. -/
theorem Tracks.step (h : c.Tracks r) (htally : r.halted = true ∨ r.Tally none 0 [])
    (hstep : r.step s = some r') : ∃ c', Reaches s c c' ∧ c'.Tracks r' := by
  cases hh : r.halted with
  | true =>
      obtain ⟨k, rest, hq, rfl⟩ := Round.step_of_halted hh hstep
      exact h.skip hh hq
  | false =>
      have htally := htally.resolve_left (by simp [hh])
      cases Round.advance_of_step hstep with
      | skipped hq hskip => cases hh.symm.trans hskip
      | @acted k rest _ hq _ _ =>
          have hhalted : ({ r with queue := rest } : Round D).halted = false := hh
          simp only [Round.step, hq, hhalted] at hstep
          exact Option.some.inj hstep ▸ h.act hh htally hq
      | broken hq _ hstop hheld => exact h.break hq hh hstop hheld

/-- A run of the round is one of the crew. -/
theorem Tracks.run {graph : Graph D} {calls : Table D.Key Nat} (h : c.Tracks r)
    (hr : Round.Reaches s (Round.start s graph calls) r) (hrun : Round.Reaches s r r') :
    ∃ c', Reaches s c c' ∧ c'.Tracks r' := by
  induction hrun with
  | refl => exact ⟨c, .refl, h⟩
  | tail hrun hstep ih =>
      obtain ⟨c₁, hreaches₁, h₁⟩ := ih
      obtain ⟨c₂, hreaches₂, h₂⟩ := h₁.step (Round.tally_of_reaches (hr.trans hrun)) hstep
      exact ⟨c₂, hreaches₁.trans hreaches₂, h₂⟩

/-- The lead brings the roots under evaluation. -/
theorem tracks_start (s : Setting D) (graph : Graph D) (calls : Table D.Key Nat) :
    ∃ c, Reaches s (start s graph calls 1) c ∧ c.Tracks (Round.start s graph calls) := by
  have hblank : Reflects asKept (start s graph calls 1).live (Round.blank graph calls) := {
    keys := Store.keys_ofGraph graph
    entry := fun x => Store.entry_ofGraph graph x
    unfinished := fun x => .inl rfl
    queue := rfl
    stopping := rfl
    failed := rfl
    fatal := rfl
    interrupted := rfl
    calls := rfl
    log := rfl }
  obtain ⟨l', hworks, h'⟩ := hblank.from_opening (s := s) s.roots.toList
  have hcycles : (Round.start s graph calls).cycles = [] :=
    Round.start_induction (P := fun r => r.cycles = []) rfl fun k _ r h =>
      (Round.reads_demand s r k).cycles.trans h
  exact ⟨_, reaches_of_lead rfl hworks, rfl, ⟨_, rfl, .rests h'⟩, hcycles.symm⟩

/-! ## The end -/

/-- When the round has no step left, the worker is idle. -/
theorem Tracks.idle (h : c.Tracks r) (hend : r.step s = none) :
    c.workers = [.idle] ∧ r.queue = [] ∧
      (Reflects asKept c.live r ∨ r.halted = true ∧ ∃ view, Reflects view c.live r) := by
  obtain ⟨hlead, ⟨st, hworkers, hstands⟩, hcycles⟩ := h
  have hq : r.queue = [] := by
    cases hq : r.queue with
    | nil => rfl
    | cons k rest =>
        simp only [Round.step, hq] at hend
        cases hend
  cases hstands with
  | rests h => exact ⟨hworkers, hq, .inl h⟩
  | skips hh h => exact ⟨hworkers, hq, .inr ⟨hh, _, h⟩⟩
  | continues => cases hq

/-- A round without a step left is not held up, unless it is stopping. -/
theorem stopping_or_not_held (hh : r.halted = false) (hq : r.queue = [])
    (hend : r.step s = none) : (r.stopping || (r.heldUpBy s).isEmpty) = true := by
  cases hs : r.stopping with
  | true => rfl
  | false =>
      refine Bool.eq_true_of_not_eq_false fun hheld => ?_
      rw [Round.step_eq_failMembers hh hs hq (List.isEmpty_eq_false_iff.mp hheld)] at hend
      cases hend

/-- A round that went on to its end is ended with its report. -/
theorem Tracks.report (h : c.Tracks r) (hend : r.step s = none) (hh : r.halted = false) :
    Reaches s c (c.finish (.ok (r.report s))) := by
  obtain ⟨hworkers, hq, hreflects⟩ := h.idle hend
  have hkept : Reflects asKept c.live r := hreflects.resolve_right (by simp [hh])
  let surveying : Crew D := { c with lead := .surveying }
  have hturn : c.turn s 0 = some surveying := turn_of_going h.lead hworkers hkept hq hh
  have hsurvey : surveying.survey s = c.finish (.ok (r.report s)) := by
    have hfound : surveying.round.heldUpBy s = r.heldUpBy s := heldUpBy_round hkept
    have hreport : surveying.round.report s = r.report s := report_round hkept h.cycles
    have hdone := stopping_or_not_held hh hq hend
    rw [← hkept.stopping] at hdone
    simp only [survey, hfound, hreport]
    exact if_pos hdone
  have hlast : surveying.turn s 0 = some (c.finish (.ok (r.report s))) := congrArg some hsurvey
  exact .head (.turn 0 hturn) (.single (.turn 0 hlast))

/-- The lead ends the round with its verdict, and a wish to stop is obeyed unless the round was
given up. -/
theorem Tracks.over (h : c.Tracks r) (hend : r.step s = none) :
    Reaches s c (({ c with live := { c.live with
      interrupted := r.aborted.isSome && r.interrupted } } : Crew D).finish (r.verdict s)) := by
  obtain ⟨hworkers, hq, hreflects⟩ := h.idle hend
  obtain ⟨view, hview⟩ : ∃ view, Reflects view c.live r :=
    hreflects.elim (fun h => ⟨_, h⟩) fun h => h.2
  have hturn := turn_of_quiet (s := s) h.lead hworkers (hview.queue.trans hq)
  have hsame (verdict : Except (Abort D.Key) (Report D)) :
      ({ c with live := { c.live with interrupted := r.interrupted } } : Crew D).finish verdict =
        c.finish verdict := by
    rw [← hview.interrupted]
  cases ha : r.aborted with
  | some a =>
      have hcheck : c.check = c.finish (.error a) := by simp only [check, hview.fatal, ha]
      have hverdict : r.verdict s = .error a := by simp only [Round.verdict, ha]
      rw [hcheck, ← hsame] at hturn
      rw [hverdict]
      exact .single (.turn 0 hturn)
  | none =>
      cases hi : r.interrupted with
      | true =>
          have hcheck : c.check = ({ c with live := { c.live with interrupted := false } } :
              Crew D).finish (.error .interrupted) := by
            simp only [check, hview.fatal, ha, hview.interrupted, hi]
            rfl
          have hverdict : r.verdict s = .error .interrupted := by
            simp only [Round.verdict, ha, hi]
            rfl
          rw [hcheck] at hturn
          rw [hverdict]
          exact .single (.turn 0 hturn)
      | false =>
          have hverdict : r.verdict s = .ok (r.report s) := by
            simp only [Round.verdict, ha, hi]
            rfl
          have hh : r.halted = false := by
            rw [Round.halted, ha, hi]
            rfl
          have hfinish := hsame (.ok (r.report s))
          rw [hi] at hfinish
          rw [hverdict, Bool.and_false, hfinish]
          exact h.report hend hh

/-- What others see after the crew has ended is the graph of the round. -/
theorem graph_of_leaves {graph : Graph D} {calls : Table D.Key Nat} {workers : Nat}
    {last c : Crew D} (hleaves : Leaves s graph calls workers last c)
    {view : D.Key → Task D → Task D} (h : Reflects view last.live r) :
    c.live.store.graph = r.graph := by
  have hkeys : c.live.store.graph.keys = r.graph.keys := by
    rw [← h.keys, Store.keys_graph, hleaves.ends.store, Store.keys_abandonAll]
  refine Graph.ext_node hkeys fun k => ?_
  rw [hleaves.node, Live.node_graph, h.entry, Entry.base_join]

/-- A round of one worker that ends is a round of a crew of one. -/
theorem exists_of_end {graph : Graph D} {calls : Table D.Key Nat}
    (hrun : Round.Reaches s (Round.start s graph calls) r) (hend : r.step s = none) :
    ∃ c, Reaches s (start s graph calls 1) c ∧ c.lead = .over (r.verdict s) ∧
      c.live.store.graph = r.graph ∧ c.live.interrupted = (r.aborted.isSome && r.interrupted) ∧
      c.live.calls = r.calls ∧ c.live.log = r.log := by
  obtain ⟨c₀, hstart, htracks₀⟩ := tracks_start s graph calls
  obtain ⟨c, hreaches, htracks⟩ := htracks₀.run .refl hrun
  obtain ⟨hworkers, -, hreflects⟩ := htracks.idle hend
  obtain ⟨view, hview⟩ : ∃ view, Reflects view c.live r :=
    hreflects.elim (fun h => ⟨_, h⟩) fun h => h.2
  let final : Crew D := ({ c with live := { c.live with
    interrupted := r.aborted.isSome && r.interrupted } } : Crew D).finish (r.verdict s)
  have hleaves : Leaves s graph calls 1 c final := {
    reached := hstart.trans hreaches
    going := by
      rintro ⟨verdict, hlead⟩
      rw [htracks.lead] at hlead
      cases hlead
    ends := {
      idle := fun st hst => by
        rw [stages, htracks.lead, hworkers] at hst
        rcases Multiset.mem_cons.mp hst with rfl | hst
        · rfl
        · exact List.mem_singleton.mp hst
      store := rfl
      log := rfl } }
  exact ⟨final, (hstart.trans hreaches).trans (htracks.over hend), rfl,
    graph_of_leaves hleaves hview, rfl, hview.calls, hview.log⟩

end Crew

end MemoGraph
