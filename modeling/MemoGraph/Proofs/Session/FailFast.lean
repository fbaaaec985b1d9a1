import MemoGraph.Proofs.Round.Commits
import MemoGraph.Proofs.Round.Descent
import MemoGraph.Proofs.Round.FirstFailure
import MemoGraph.Proofs.Session.KeepGoing

/-!
# Stopping at the first failure hides none

A round that stops at the first failure leaves roots without an outcome.  If a key failed in it, the
search below these roots comes to a failure, and the report shows it; if none did, the round is the
one that would have kept going.
-/

set_option autoImplicit false

namespace MemoGraph

variable {D : Domain}

namespace Round

variable {s : Setting D} {r : Round D}

/-- A root that shows a failure is listed with it. -/
theorem failures_of_outcome? {root : D.Key} (hroot : root ∈ s.roots)
    {e : Failure D.Key D.Fault} (h : r.outcome? root = some (.failure e)) :
    (r.report s).failures.get? root = some e ∧ (r.report s).hasFailure = true := by
  have hlisted : (r.report s).failures.get? root = some e := by
    refine (get?_collect s r Outcome.failure? root).trans ?_
    rw [if_pos hroot, h]
    rfl
  refine ⟨hlisted, ?_⟩
  cases hempty : (r.report s).failures.isEmpty with
  | false =>
      rw [Report.hasFailure, hempty]
      rfl
  | true =>
      have hnil : (r.report s).failures.entries = [] := List.isEmpty_iff.mp hempty
      have hmem := Table.get?_eq_some_iff.mp hlisted
      rw [hnil] at hmem
      exact absurd hmem List.not_mem_nil

end Round

namespace Session

/-- Evaluating without going on after failures never hides one.  If some key failed in the round, by
itself, through a dependency or on a cycle, the report has a failure for some root.  If none did,
the evaluation is that of a round that keeps going, with every root listed once. -/
theorem failFast_hides_no_failure {session session' : Session D} (h : session.Reachable)
    {budget : Nat} {roots : List D.Key} {observer : List (Event D) → Bool} {e : Evaluation D}
    {report : Report D}
    (heval : session.evaluate budget roots false observer = some (session', e))
    (hok : e.verdict = .ok report) :
    ((∃ k, .completed k .failed ∈ e.events) →
      report.hasFailure = true ∧ ∃ root ∈ roots, root ∈ report.failures.keys) ∧
    ((∀ k, .completed k .failed ∉ e.events) →
      session.evaluate budget roots true observer = some (session', e) ∧
        ∀ root ∈ roots, (root ∈ report.values.keys ∧ root ∉ report.failures.keys) ∨
          (root ∉ report.values.keys ∧ root ∈ report.failures.keys)) := by
  obtain ⟨registry, ledger, hhistory⟩ := h
  have hground := grounded_of_history hhistory
  obtain ⟨r, hrun, hclosing⟩ := Option.map_eq_some_iff.mp heval
  obtain ⟨rfl, rfl⟩ := Prod.mk.inj hclosing
  obtain ⟨hpass, hend⟩ := Round.reaches_of_run hrun
  obtain ⟨hh, rfl⟩ := Round.verdict_eq_ok hok
  have hfailed : (∃ k, .completed k .failed ∈ r.log.reverse) ↔ r.stopping = true := by
    simp only [List.mem_reverse, Round.stopping_iff_of_reaches hpass]
    exact (and_iff_right rfl).symm
  obtain ⟨hg, hb⟩ := grounded_opening hground
  have htally := (Round.tally_of_reaches hpass).resolve_left (by simp [hh])
  have hstops := (Round.Stops.of_reaches rfl hg hb hpass).resolve_left (by simp [hh])
  refine ⟨fun hany => ?_, fun hnone => ?_⟩
  · cases hstops with
    | not_yet hgo _ => exact absurd (hgo.symm.trans (hfailed.mp hany)) Bool.false_ne_true
    | doomed _ hdoomed =>
        obtain ⟨root, hroot, e, he⟩ := hdoomed.shown htally
        obtain ⟨hlisted, hhas⟩ := Round.failures_of_outcome? hroot he
        exact ⟨hhas, root, OrderedSet.mem_ofList.mp hroot, Table.mem_keys_iff.mpr ⟨e, hlisted⟩⟩
  · have hgo : r.stopping = false := by
      cases hstop : r.stopping with
      | false => rfl
      | true =>
          obtain ⟨k, hk⟩ := hfailed.mpr hstop
          exact absurd hk (hnone k)
    refine ⟨?_, fun root hroot => ?_⟩
    · have hpatient := Round.run_patient_of_end rfl hrun hgo
      exact Option.map_eq_some_iff.mpr ⟨r, hpatient, rfl⟩
    · have hmem : root ∈ (session.setting roots false observer).roots :=
        OrderedSet.mem_ofList.mpr hroot
      exact Round.listed_of_isComplete (grounded_of_passes hground hpass) hmem
        (Round.isComplete_root_of_going hpass hgo hend hh hmem)

/-- Key 1 fails at once, and key 3 shows its failure although it was never completed. -/
theorem fragile_shows_failure : ∃ session' e report,
    (Session.new Sample.fragile).evaluate 20 [3] false (fun _ => false) = some (session', e) ∧
      e.verdict = .ok report ∧ session'.graph.isComplete 3 = false ∧ report.hasFailure = true ∧
        ∃ root ∈ [3], root ∈ report.failures.keys := by
  have hsome : (((Session.new Sample.fragile).evaluate 20 [3] false fun _ => false).bind
      fun x => if x.1.graph.isComplete 3 = false ∧ .completed (1 : Nat) .failed ∈ x.2.events
        then x.2.verdict.toOption else none).isSome = true := by decide +kernel
  obtain ⟨report, hreport⟩ := Option.isSome_iff_exists.mp hsome
  obtain ⟨⟨session', e⟩, heval, hreport⟩ := Option.bind_eq_some_iff.mp hreport
  obtain ⟨⟨hopen, htold⟩, hverdict⟩ := Option.ite_none_right_eq_some.mp hreport
  have hok := Round.eq_ok_of_toOption hverdict
  have hfailed : ∃ k, .completed k .failed ∈ e.events := ⟨1, htold⟩
  obtain ⟨hhas, hlisted⟩ :=
    (failFast_hides_no_failure (reachable_new Sample.fragile) heval hok).1 hfailed
  exact ⟨session', e, report, heval, hok, hopen, hhas, hlisted⟩

end Session

end MemoGraph
