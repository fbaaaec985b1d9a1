import MemoGraph.Proofs.Cycle.Search
import MemoGraph.Proofs.Round.FailFast
import MemoGraph.Proofs.Round.Report
import MemoGraph.Proofs.Sample
import MemoGraph.Proofs.Session.History

/-!
# Rounds that keep going decide every root

A round that keeps going never loses a key: what has no outcome waits for something that has none
either, so once nothing is queued a walk from an incomplete root runs into a cycle, and the cycle is
broken.  The round can therefore only end with every root complete, unless it was given up or asked
to stop.
-/

set_option autoImplicit false

namespace MemoGraph

variable {D : Domain}

namespace Session

/-! ## The ground of a session -/

/-- What holds between operations holds while a round runs as well. -/
theorem grounded_opening {session : Session D} (h : session.graph.Grounded session.version) :
    (session.injectedGraph (session.version + 1)).Grounded (session.version + 1) ∧
      (session.injectedGraph (session.version + 1)).Before (session.version + 1) := by
  refine injectedGraph_induction
    (P := fun g => g.Grounded (session.version + 1) ∧ g.Before (session.version + 1)) ?_ ?_
  · refine ⟨⟨h.mirrored, h.filled, fun k => ?_⟩, fun k _ => ?_⟩
    · exact Nat.le_succ_of_le (h.dated k)
    · exact Nat.lt_succ_of_le (h.dated k)
  · intro k v g _ _ hg
    refine ⟨hg.1.inject (Nat.le_refl _) k v, fun x hx => ?_⟩
    by_cases hxk : x = k
    · rw [hxk, Graph.isComplete, Graph.inject, Graph.node_publish, if_pos rfl] at hx
      simp [Node.publish, Node.isComplete] at hx
    · have hmemo := Graph.memo_setDeps_publish_of_ne (g := g) (session.version + 1)
        ∅ (.value v) hxk
      rw [Graph.inject, Graph.clearDeps] at hx ⊢
      rw [(Node.memo_eq_iff.mp hmemo).2.2.2.2]
      refine hg.2 x ?_
      rwa [Graph.isComplete, Node.isComplete_of_memo_eq hmemo] at hx

theorem grounded_of_passes {session : Session D} (h : session.graph.Grounded session.version)
    {roots : List D.Key} {keepGoing : Bool} {observer : List (Event D) → Bool} {r : Round D}
    (hr : session.Passes (session.setting roots keepGoing observer) r) :
    Round.Grounded (session.setting roots keepGoing observer) r := by
  obtain ⟨hg, hb⟩ := grounded_opening h
  exact .of_reaches hg hb hr

/-- Every operation leaves a grounded graph. -/
theorem Performs.grounded {session session' : Session D} {op : Operation D}
    {events : List (Event D)} (h : session.Performs op session' events)
    (hg : session.graph.Grounded session.version) :
    session'.graph.Grounded session'.version := by
  cases h with
  | evaluate hr _ => exact (grounded_of_passes hg hr).graph
  | invalidate keys => exact hg.invalidate keys
  | inject values => exact hg.invalidate _
  | delete p => exact hg.delete p
  | change registry keys => exact hg.invalidate keys
  | interrupt => exact hg

/-- Every state of every session is grounded. -/
theorem grounded_of_history {permitted : Session D → Operation D → Prop} {registry : Registry D}
    {session : Session D} {ledger : Ledger D}
    (h : History permitted (Session.new registry) session ledger) :
    session.graph.Grounded session.version := by
  induction h with
  | start => exact Graph.grounded_empty _
  | step _ _ hop ih => exact (performs_of_perform hop).grounded ih

end Session

namespace Round

variable {s : Setting D} {graph : Graph D} {calls : Table D.Key Nat} {r : Round D}

/-- A round that keeps going never stops queueing. -/
theorem stopping_of_reaches (h : Reaches s (Round.start s graph calls) r)
    (hs : s.keepGoing = true) : r.stopping = false := by
  cases hstop : r.stopping with
  | false => rfl
  | true =>
      obtain ⟨hnot, -⟩ := (stopping_iff_of_reaches h).mp hstop
      exact absurd (hnot.symm.trans hs) Bool.false_ne_true

/-- When nothing is queued any more and a root is incomplete, a cycle holds it up. -/
theorem Tally.heldUpBy_ne_nil (h : Tally r none 0 []) (hknown : ∀ root ∈ s.roots, r.Known root)
    (hstop : r.stopping = false) (hq : r.queue = []) (hstuck : r.stuck s ≠ []) :
    r.heldUpBy s ≠ [] := by
  refine Cycle.find_ne_nil (fun k hk => ?_) ?_
  · obtain ⟨d, hd, hdt⟩ := h.drained hq hstop (Table.contains_iff_mem_keys.mpr hk)
    exact ⟨d, hd, Table.contains_iff_mem_keys.mp hdt⟩
  · obtain ⟨root, hroot⟩ := List.exists_mem_of_ne_nil _ hstuck
    obtain ⟨hmem, hinc⟩ := List.mem_filter.mp hroot
    rw [Bool.not_eq_true'] at hinc
    rcases hknown root (OrderedSet.mem_def.mpr hmem) with hk | hk
    · rw [hinc] at hk
      exact Bool.noConfusion hk
    · exact ⟨root, hroot, Table.contains_iff_mem_keys.mp hk⟩

/-- When a round is over without having been halted, and has not stopped queueing, all its roots are
complete. -/
theorem Tally.isComplete_root (h : Tally r none 0 []) (hknown : ∀ root ∈ s.roots, r.Known root)
    (hstop : r.stopping = false) (hend : r.step s = none) (hh : r.halted = false) {root : D.Key}
    (hroot : root ∈ s.roots) : r.graph.isComplete root = true := by
  have hq : r.queue = [] := by
    cases hq : r.queue with
    | nil => rfl
    | cons k rest => simp [Round.step, hq] at hend
  have hnone : r.heldUpBy s = [] := by
    simpa [Round.step, hq, hh, hstop] using hend
  cases hc : r.graph.isComplete root with
  | true => rfl
  | false =>
      refine absurd hnone (h.heldUpBy_ne_nil hknown hstop hq ?_)
      have hmem : root ∈ r.stuck s :=
        List.mem_filter.mpr ⟨OrderedSet.mem_def.mp hroot, by simp [hc]⟩
      exact List.ne_nil_of_mem hmem

theorem heldUpBy_ne_nil (h : Reaches s (Round.start s graph calls) r) (hh : r.halted = false)
    (hstop : r.stopping = false) (hq : r.queue = []) (hstuck : r.stuck s ≠ []) :
    r.heldUpBy s ≠ [] :=
  (tally_of_going h hh).heldUpBy_ne_nil
    (fun _ => known_root_of_reaches h) hstop hq hstuck

theorem isComplete_root_of_going (h : Reaches s (Round.start s graph calls) r)
    (hstop : r.stopping = false) (hend : r.step s = none) (hh : r.halted = false) {root : D.Key}
    (hroot : root ∈ s.roots) : r.graph.isComplete root = true :=
  (tally_of_going h hh).isComplete_root
    (fun _ => known_root_of_reaches h) hstop hend hh hroot

/-- A round that keeps going does not stop queueing. -/
theorem isComplete_root_of_end (h : Reaches s (Round.start s graph calls) r)
    (hs : s.keepGoing = true) (hend : r.step s = none) (hh : r.halted = false) {root : D.Key}
    (hroot : root ∈ s.roots) : r.graph.isComplete root = true :=
  isComplete_root_of_going h (stopping_of_reaches h hs) hend hh hroot

theorem eq_ok_of_toOption {ε α : Type} {v : Except ε α} {a : α} (h : v.toOption = some a) :
    v = .ok a := by
  cases v with
  | error e => cases h
  | ok b => exact congrArg Except.ok (Option.some.inj h)

/-- Only a round that was not halted has a report. -/
theorem verdict_eq_ok {report : Report D} (h : r.verdict s = .ok report) :
    r.halted = false ∧ report = r.report s := by
  unfold verdict at h
  cases ha : r.aborted with
  | some a => simp [ha] at h
  | none =>
      cases hi : r.interrupted with
      | true => simp [ha, hi] at h
      | false =>
          simp only [ha, hi, Bool.false_eq_true, if_false, Except.ok.injEq] at h
          exact ⟨by simp [halted, ha, hi], h.symm⟩

/-- A round that was not halted has a report. -/
theorem verdict_of_going (h : r.halted = false) : r.verdict s = .ok (r.report s) := by
  rw [halted, Bool.or_eq_false_iff, Option.isSome_eq_false_iff, Option.isNone_iff_eq_none] at h
  rw [verdict, h.1, h.2]
  rfl

end Round

namespace Session

/-- A round that keeps going never gets stuck.  Whenever it has drained its queue with some root
incomplete, it finds a cycle to break; and if it ends with a report, every root is complete and
listed either among the values or among the failures. -/
theorem keepGoing_decides_roots {session : Session D} (h : session.Reachable)
    (roots : List D.Key) (observer : List (Event D) → Bool) :
    (∀ r, session.Passes (session.setting roots true observer) r → r.halted = false →
      r.queue = [] → r.stuck (session.setting roots true observer) ≠ [] →
        r.heldUpBy (session.setting roots true observer) ≠ []) ∧
      ∀ budget session' e report,
        session.evaluate budget roots true observer = some (session', e) →
        e.verdict = .ok report → ∀ root ∈ roots, session'.graph.isComplete root = true ∧
          ((root ∈ report.values.keys ∧ root ∉ report.failures.keys) ∨
            (root ∉ report.values.keys ∧ root ∈ report.failures.keys)) := by
  obtain ⟨registry, ledger, hhistory⟩ := h
  have hground := grounded_of_history hhistory
  refine ⟨fun r hr hh hq hstuck => ?_, fun budget session' e report heval hok root hroot => ?_⟩
  · exact Round.heldUpBy_ne_nil hr hh (Round.stopping_of_reaches hr rfl) hq hstuck
  · obtain ⟨r, hr, hend, rfl, rfl⟩ := evaluate_eq_some heval
    obtain ⟨hh, rfl⟩ := Round.verdict_eq_ok hok
    have hmem : root ∈ (session.setting roots true observer).roots :=
      OrderedSet.mem_ofList.mpr hroot
    have hcomplete := Round.isComplete_root_of_end hr rfl hend hh hmem
    exact ⟨hcomplete, Round.listed_of_isComplete (grounded_of_passes hground hr) hmem hcomplete⟩

/-- The round over one root of a new session. -/
theorem chain_decides_root : ∃ session' e report,
    (Session.new Sample.chain).evaluate 20 [2] true (fun _ => false) = some (session', e) ∧
      e.verdict = .ok report ∧ session'.graph.isComplete 2 = true ∧
        ((2 ∈ report.values.keys ∧ 2 ∉ report.failures.keys) ∨
          (2 ∉ report.values.keys ∧ 2 ∈ report.failures.keys)) := by
  have hsome : (((Session.new Sample.chain).evaluate 20 [2] true fun _ => false).bind
      fun x => x.2.verdict.toOption).isSome = true := by decide +kernel
  obtain ⟨report, hreport⟩ := Option.isSome_iff_exists.mp hsome
  obtain ⟨⟨session', e⟩, heval, hverdict⟩ := Option.bind_eq_some_iff.mp hreport
  have hok := Round.eq_ok_of_toOption hverdict
  exact ⟨session', e, report, heval, hok, (keepGoing_decides_roots (reachable_new Sample.chain)
    [2] fun _ => false).2 20 session' e report heval hok 2 (by simp)⟩

end Session

end MemoGraph
