import MemoGraph.Proofs.Round.Foresight
import MemoGraph.Proofs.Sample
import MemoGraph.Proofs.Session.FailFast
import MemoGraph.Proofs.Session.Founded
import MemoGraph.Proofs.Session.Orders

/-!
# Stopping at the first failure tells nothing wrong

From one state of a session, a round that stops at the first failure and a round that keeps going
agree on the roots: values are the same, and the root causes of a failure in the first round are
root causes in the second one.
-/

set_option autoImplicit false

namespace MemoGraph

variable {D : Domain}

namespace Session

/-- A round that meets no cycle is a sequence of turns. -/
theorem unfolds_of_passes {session : Session D} {budget : Nat} {roots : List D.Key}
    {keepGoing : Bool} {observer : List (Event D) → Bool}
    (hcycles : ¬ session.MeetsCycles (.evaluate budget roots keepGoing observer)) {r : Round D}
    (hr : session.Passes (session.setting roots keepGoing observer) r) (hh : r.halted = false) :
    Round.Unfolds (session.setting roots keepGoing observer)
      (session.opening (session.setting roots keepGoing observer)) r := by
  refine Round.unfolds_of_reaches hr hh ?_
  clear hh
  induction hr with
  | refl =>
      refine Round.start_induction (P := fun r => r.cycles = []) rfl fun k _ r h => ?_
      exact (Round.reads_demand _ r k).cycles.trans h
  | @tail r r' hr hstep ih =>
      cases Round.advance_of_step hstep with
      | skipped _ _ => exact ih
      | acted _ _ hm => exact (Round.cycles_of_move hm).trans ih
      | broken hq hh hstop hheld => exact absurd ⟨r, hr, hh, hstop, hq, hheld⟩ hcycles

/-- Stopping at the first failure and keeping going agree, if no function accepts failures and no
cycle is met.  A root with a value in the first round has the same value in the second one, and a
root with a failure in the first round fails in the second one, with the same root causes and
perhaps more. -/
theorem failFast_agrees (hD : D.Exact) {registry : Registry D} (hstrict : registry.BatchStrict)
    {session : Session D} {ledger : Ledger D}
    (h : History Orderly (Session.new registry) session ledger)
    (hnone : session.registry.AcceptsNone) {budget budget' : Nat} {roots : List D.Key}
    {observer observer' : List (Event D) → Bool}
    (hcycles : ¬ session.MeetsCycles (.evaluate budget roots false observer))
    (hcycles' : ¬ session.MeetsCycles (.evaluate budget' roots true observer'))
    {first second : Session D} {e e' : Evaluation D} {report report' : Report D}
    (heval : session.evaluate budget roots false observer = some (first, e))
    (heval' : session.evaluate budget' roots true observer' = some (second, e'))
    (hok : e.verdict = .ok report) (hok' : e'.verdict = .ok report') :
    (∀ root v, report.values.get? root = some v → report'.values.get? root = some v) ∧
      ∀ root f, report.failures.get? root = some f → ∃ f',
        report'.failures.get? root = some f' ∧ ∀ c ∈ f.rootCauses, c ∈ f'.rootCauses := by
  have hop : session.perform (.evaluate budget' roots true observer') =
      some (second, e'.events) := Option.map_eq_some_iff.mpr ⟨_, heval', rfl⟩
  have horderly : session.Orderly (.evaluate budget' roots true observer') := ⟨trivial, hcycles'⟩
  have hcertified := certified_of_history hD hstrict (.step h horderly hop)
  obtain ⟨r, hr, -, rfl, rfl⟩ := evaluate_eq_some heval
  obtain ⟨r', hr', hend', rfl, rfl⟩ := evaluate_eq_some heval'
  obtain ⟨hh, rfl⟩ := Round.verdict_eq_ok hok
  obtain ⟨hh', rfl⟩ := Round.verdict_eq_ok hok'
  have hground := grounded_of_history h
  obtain ⟨hg, hb⟩ := grounded_opening hground
  obtain ⟨hnow, hall⟩ := justified_of_history hD False
    (fun _ _ hop => ⟨hop.1, .inr hop.2⟩) hstrict h
  have hunfolds := unfolds_of_passes hcycles hr hh
  have hunfolds' := unfolds_of_passes hcycles' hr' hh'
  have hfaithful := Round.faithful_of_unfolds hD hnow hg hb hunfolds' hh'
  have hroots (root : D.Key) (hroot : root ∈ (session.setting roots false observer).roots) :
      r'.graph.isComplete root = true := Round.isComplete_root_of_end hr' rfl hend' hh' hroot
  have hmatch : Round.Matches r'.graph r :=
    Round.matches_of_unfolds (s := session.setting roots false observer) hD hnow hg hb
      hfaithful.keeps hfaithful.resolved hroots hunfolds hh
  have hground' := grounded_of_passes hground hr'
  -- What the second round lists for a root that is shown at its end.
  have hlists {root : D.Key} {o : Outcome D}
      (hroot : root ∈ (session.setting roots false observer).roots)
      (hshows : r'.graph.Shows root o) :
      (r'.report (session.setting roots true observer')).Lists root o :=
    Round.lists_of_isComplete hground' hroot hshows.1 hshows.2
  refine ⟨fun root v hv => ?_, fun root f hf => ?_⟩
  · obtain ⟨hroot, hshows⟩ := Round.shows_of_value hv
    obtain ⟨o, ho, halike⟩ := hmatch.shows hshows
    cases halike with
    | value v =>
        cases hlists hroot ho with
        | value hvalue _ => exact hvalue
  · obtain ⟨hroot, hshows⟩ := Round.shows_of_failure hf
    have hfailed : ∃ f', r'.graph.Shows root (.failure f') ∧
        ∀ c ∈ f.rootCauses, c ∈ f'.rootCauses := by
      rcases hshows with hshows | hbelow
      · obtain ⟨o, ho, halike⟩ := hmatch.shows hshows
        cases halike with
        | failure halike => exact ⟨_, ho, fun c => (halike.rootCauses c).mp⟩
      · have hopening := excused_of_passes hD hground (pending_of_history h)
          (noted_of_history h) hnow hall (.inr hcycles) .refl
        have hforeseen := Round.foreseen_of_unfolds (s := session.setting roots false observer) hD
          hnow hg hb (fun x => (hopening x).of_node fun y => (Round.node_start y).symm)
          deps_of_excuses hfaithful.keeps hfaithful.resolved hroots hunfolds
        exact hmatch.inherits hD hcertified hnone hground'.graph hforeseen hbelow
    obtain ⟨f', hshows', hcauses⟩ := hfailed
    cases hlists hroot hshows' with
    | failure _ hfailure => exact ⟨f', hfailure, hcauses⟩

/-- Key 3 shows the failure of key 1 although the round stopped before it came up to key 3. -/
theorem fragile_agrees : ∃ first second e e' report report',
    (Session.new Sample.fragile).evaluate 20 [(3 : Nat)] false (fun _ => false) = some (first, e) ∧
    (Session.new Sample.fragile).evaluate 20 [(3 : Nat)] true (fun _ => false) = some (second, e') ∧
    e.verdict = .ok report ∧ e'.verdict = .ok report' ∧
    first.graph.isComplete (3 : Nat) = false ∧ (∃ f, report.failures.get? (3 : Nat) = some f) ∧
      (∀ root v, report.values.get? root = some v → report'.values.get? root = some v) ∧
      ∀ root f, report.failures.get? root = some f → ∃ f',
        report'.failures.get? root = some f' ∧ ∀ c ∈ f.rootCauses, c ∈ f'.rootCauses := by
  have hsome : ((Round.run
      ((Session.new Sample.fragile).setting [(3 : Nat)] false fun _ => false) 20
      ((Session.new Sample.fragile).opening
        ((Session.new Sample.fragile).setting [(3 : Nat)] false fun _ => false))).bind fun r =>
      (Round.run ((Session.new Sample.fragile).setting [(3 : Nat)] true fun _ => false) 20
        ((Session.new Sample.fragile).opening
          ((Session.new Sample.fragile).setting [(3 : Nat)] true fun _ => false))).bind fun r' =>
        if r.halted = false ∧ r'.halted = false ∧ r.cycles = [] ∧ r'.cycles = [] ∧
          r.graph.isComplete (3 : Nat) = false ∧ (3 : Nat) ∈ r.tasks.keys ∧
          (2 : Nat) ∈ r.demanded (3 : Nat) ∧ (2 : Nat) ∈ r.tasks.keys ∧
          (1 : Nat) ∈ r.demanded (2 : Nat) ∧ ((r.graph.node (1 : Nat)).failure?).isSome = true
        then some () else none).isSome = true := by decide +kernel
  -- From here on nothing is computed.
  obtain ⟨session, hsession⟩ : ∃ session, session = Session.new Sample.fragile := ⟨_, rfl⟩
  rw [← hsession] at hsome ⊢
  have hhistory : History Orderly (Session.new Sample.fragile) session .blank := by
    rw [hsession]
    exact .start
  have hnone : session.registry.AcceptsNone := by
    rw [hsession]
    exact Sample.acceptsNone_fragile
  obtain ⟨_, hfound⟩ := Option.isSome_iff_exists.mp hsome
  obtain ⟨r, hrun, hfound⟩ := Option.bind_eq_some_iff.mp hfound
  obtain ⟨r', hrun', hfound⟩ := Option.bind_eq_some_iff.mp hfound
  obtain ⟨⟨hh, hh', hcycles, hcycles', hopen, hthree, hdown, htwo, hlow, hone⟩, -⟩ :=
    Option.ite_none_right_eq_some.mp hfound
  obtain ⟨hpass, hend⟩ := Round.reaches_of_run hrun
  obtain ⟨hpass', hend'⟩ := Round.reaches_of_run hrun'
  have heval := evaluate_of_run hrun
  have heval' := evaluate_of_run hrun'
  obtain ⟨f, hf⟩ := Round.outcome?_of_way hopen (.single ⟨hthree, hdown⟩) htwo hlow hone
  have hroot : (3 : Nat) ∈ (session.setting [(3 : Nat)] false fun _ => false).roots :=
    OrderedSet.mem_ofList.mpr List.mem_cons_self
  refine ⟨_, _, _, _, _, _, heval, heval', Round.verdict_of_going hh, Round.verdict_of_going hh',
    hopen, ⟨f, (Round.failures_of_outcome? hroot hf).1⟩, ?_⟩
  exact failFast_agrees Sample.exact_domain Sample.batchStrict_fragile hhistory hnone
    (not_meetsCycles_of_end hpass hend hcycles) (not_meetsCycles_of_end hpass' hend' hcycles')
    heval heval' (Round.verdict_of_going hh) (Round.verdict_of_going hh')

end Session

end MemoGraph
