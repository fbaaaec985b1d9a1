import MemoGraph.Proofs.Round.Founded
import MemoGraph.Proofs.Session.Justified

/-!
# Sessions that meet no cycles

If no round of a session has a cycle to break, dependencies of complete keys are well-founded in all
its states, and every outcome that can be read is the last value injected under its key or justified
by outcomes that can be read.
-/

set_option autoImplicit false

namespace MemoGraph

variable {D : Domain}

namespace Session

/-- Changes of functions are reported and no cycle is met. -/
def Orderly (session : Session D) (op : Operation D) : Prop :=
  session.ReportsChanges op ∧ ¬ session.MeetsCycles op

/-- A round that broke no cycle met none. -/
theorem not_meetsCycles_of_end {session : Session D} {budget : Nat} {roots : List D.Key}
    {keepGoing : Bool} {observer : List (Event D) → Bool} {r : Round D}
    (hr : session.Passes (session.setting roots keepGoing observer) r)
    (hend : r.step (session.setting roots keepGoing observer) = none) (hcycles : r.cycles = []) :
    ¬ session.MeetsCycles (.evaluate budget roots keepGoing observer) := by
  rintro ⟨r₀, hr₀, hh, hstop, hq, hheld⟩
  -- The cycles would have been broken.
  have hbroken := Relation.ReflTransGen.tail hr₀ (Round.step_eq_failMembers hh hstop hq hheld)
  have hkept := (Round.cycles_of_reaches (Round.reaches_end hbroken hr hend)).subset
  rw [Round.cycles_failMembers, hcycles] at hkept
  obtain ⟨c, hc⟩ := List.exists_mem_of_ne_nil _ hheld
  exact List.not_mem_nil (hkept (List.mem_append_right _ hc))

/-- A round whose report lists no cycle met none. -/
theorem not_meetsCycles_of_report {session : Session D} {budget : Nat} {roots : List D.Key}
    {keepGoing : Bool} {observer : List (Event D) → Bool}
    (h : (session.evaluate budget roots keepGoing observer).map
      (fun x => x.2.verdict.toOption.map Report.cycles) = some (some [])) :
    ¬ session.MeetsCycles (.evaluate budget roots keepGoing observer) := by
  obtain ⟨⟨session', e⟩, heval, hreport⟩ := Option.map_eq_some_iff.mp h
  obtain ⟨report, hok, hcycles⟩ := Option.map_eq_some_iff.mp hreport
  obtain ⟨r, hr, hend, -, rfl⟩ := evaluate_eq_some heval
  obtain ⟨-, rfl⟩ := Round.verdict_eq_ok (Round.eq_ok_of_toOption hok)
  refine not_meetsCycles_of_end hr hend (List.eq_nil_iff_forall_not_mem.mpr fun c hc => ?_)
  have hmem : c ∈ (r.report (session.setting roots keepGoing observer)).cycles := by
    rw [Round.report, ← OrderedSet.mem_def, OrderedSet.mem_ofList]
    exact List.mem_append_left _ hc
  rw [hcycles] at hmem
  exact List.not_mem_nil hmem

/-- What needs no justification depends on nothing. -/
theorem deps_of_excuses {hD : D.Exact} {session : Session D} {ledger : Ledger D}
    {log : List (Event D)} {k : D.Key} {deps : DepGroups D.Key} {o : Outcome D}
    (h : (excuses hD False session ledger).holds log k deps o) : deps = ∅ := by
  rcases h with ⟨-, hdeps, -⟩ | ⟨hfalse, -⟩
  · exact hdeps
  · exact hfalse.elim

/-- Injected keys depend on nothing. -/
theorem founded_injectedGraph {session : Session D} (h : session.graph.Founded)
    (version : Version) : (session.injectedGraph version).Founded := by
  apply h.of_subset
  intro d k ⟨hk, hd⟩
  cases hv : session.injections.get? k with
  | some v =>
      rw [(injected_of_some hv _).2] at hd
      exact absurd hd List.not_mem_nil
  | none =>
      have hmemo := memo_injectedGraph_of_none hv version
      rw [Graph.isComplete, Node.isComplete_of_memo_eq hmemo] at hk
      rw [(Node.memo_eq_iff.mp hmemo).2.2.1] at hd
      exact ⟨hk, hd⟩

/-- Dependencies stay well-founded throughout a round that meets no cycle. -/
theorem founded_of_passes (hD : D.Exact) {permitted : Session D → Operation D → Prop}
    {registry : Registry D} {session : Session D} {ledger : Ledger D}
    (h : History permitted (Session.new registry) session ledger)
    (hstrict : session.registry.BatchStrict)
    (hall : ∀ x, session.graph.Accounted
      (justification session.registry (Excused False ledger.latest ledger.supplied)) x)
    (hfounded : session.graph.Founded) {budget : Nat} {roots : List D.Key} {keepGoing : Bool}
    {observer : List (Event D) → Bool}
    (hcycles : ¬ session.MeetsCycles (.evaluate budget roots keepGoing observer)) {r : Round D}
    (hr : session.Passes (session.setting roots keepGoing observer) r) : r.graph.Founded := by
  have hground₀ := grounded_of_history h
  obtain ⟨hg, hb⟩ := grounded_opening hground₀
  induction hr with
  | refl =>
      exact (founded_injectedGraph hfounded _).of_memo fun x => congrArg Node.memo
        (Round.node_start x)
  | @tail r r' hr hstep ih =>
      have hground : Round.Grounded (session.setting roots keepGoing observer) r :=
        .of_reaches hg hb hr
      have hclosed := Graph.closed_of_accounted
        (excused_of_passes hD hground₀ (pending_of_history h) (noted_of_history h) hstrict hall
          (.inr hcycles) hr) deps_of_excuses hground.graph
      refine Round.founded_step hD hstrict hground (.of_reaches hr) (Round.asked_of_reaches hr)
        (Round.tally_of_reaches hr) (fun hh hstop hq => ?_) hclosed ih hstep
      cases hheld : r.heldUpBy (session.setting roots keepGoing observer) with
      | nil => rfl
      | cons c rest => exact absurd ⟨r, hr, hh, hstop, hq, by rw [hheld]; simp⟩ hcycles

/-- Dependencies are well-founded in every state of an orderly session. -/
theorem founded_of_history (hD : D.Exact) {registry : Registry D} (hstrict : registry.BatchStrict)
    {session : Session D} {ledger : Ledger D}
    (h : History Orderly (Session.new registry) session ledger) : session.graph.Founded := by
  refine graph_of_history (P := Graph.Founded) Graph.founded_empty ?_ ?_ ?_ h
  · exact fun keys _ hfounded => hfounded.invalidate keys
  · exact fun p _ hfounded => hfounded.delete p
  · intro session ledger hprev budget roots keepGoing observer horderly hfounded r hr
    obtain ⟨hstrict, hall⟩ := justified_of_history hD False
      (fun _ _ hop => ⟨hop.1, .inr hop.2⟩) hstrict hprev
    exact founded_of_passes hD hprev hstrict hall hfounded horderly.2 hr

/-- Everything that can be read in an orderly session has its causes there. -/
theorem certified_of_history (hD : D.Exact) {registry : Registry D}
    (hstrict : registry.BatchStrict) {session : Session D} {ledger : Ledger D}
    (h : History Orderly (Session.new registry) session ledger) :
    session.graph.Certified session.registry ledger.latest := by
  refine ⟨fun k o hshows => ?_, founded_of_history hD hstrict h⟩
  have hall := (justified_of_history hD False (fun _ _ hop => ⟨hop.1, .inr hop.2⟩) hstrict h).2 k
  rcases hall.of_complete hshows.1 hshows.2 with (⟨-, hdeps, v, hv, hout⟩ | ⟨hfalse, -⟩) | hjust
  · exact .inl ⟨v, hv, hout, hdeps⟩
  · exact hfalse.elim
  · exact .inr hjust

end Session

end MemoGraph
