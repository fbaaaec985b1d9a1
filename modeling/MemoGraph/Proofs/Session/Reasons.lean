import MemoGraph.Proofs.Round.Reasons
import MemoGraph.Proofs.Sample
import MemoGraph.Proofs.Session.Accounts

/-!
# When failures say why

Every failure that a session stores or reports carries a declared fault or a cycle, as long as no
operation leaves a failure whose cycle has a member that is not complete.  Rounds never do that.
Between rounds only a failure without dependencies can be passed over when the members of its cycle
lose their trust, and such a failure is what a member has that forgot its edges.
-/

set_option autoImplicit false

namespace MemoGraph

variable {D : Domain}

namespace Session

/-- The operation leaves the graph intact. -/
def KeepsIntact (session : Session D) (op : Operation D) : Prop :=
  ∀ session' events, session.perform op = some (session', events) → session'.graph.Intact

variable {permitted : Session D → Operation D → Prop} {registry : Registry D}
  {session : Session D} {ledger : Ledger D} {roots : List D.Key} {keepGoing : Bool}
  {observer : List (Event D) → Bool} {r : Round D}

/-- Injections keep the graph intact: they make no failure, and no key loses its trust. -/
theorem intact_begin (hp : session.Pending) (h : session.graph.Intact) (s : Setting D) :
    (session.opening s).graph.Intact := by
  intro k e hshows c hc m hm
  rw [opening, Graph.shows_congr Round.node_start] at hshows
  have hmemo := memo_injectedGraph_of_failure hp (.inr hshows)
  rw [opening, Graph.isComplete, Round.node_start]
  exact isComplete_injectedGraph (h k e ((Graph.shows_of_memo_eq hmemo).mp hshows) c hc m hm)

/-- Failures answer for their cycles throughout a round, unless they have no dependencies. -/
theorem frailAccount_of_passes (hg : session.graph.Grounded session.version) (hp : session.Pending)
    (h : ∀ x, session.graph.Accounted frailAccount x)
    (hr : session.Passes (session.setting roots keepGoing observer) r) :
    ∀ x, r.graph.Accounted frailAccount x := by
  refine passes_induction hg (P := fun r => ∀ x, r.graph.Accounted frailAccount x)
    (accounted_begin stable_frailAccount exemptsValues_frailAccount hg hp h) ?_ hr
  intro r r' hr hground hc ht ih hstep
  obtain ⟨hgo, hbo⟩ := grounded_opening hg
  exact Round.frailAccount_step ih hground hc (.of_reaches hgo hbo hr) ht hstep

/-- Keys to be checked have dependencies throughout a round. -/
theorem checkable_of_passes (h : session.graph.Checkable)
    (hr : session.Passes (session.setting roots keepGoing observer) r) : r.graph.Checkable := by
  refine (Round.Atomic.of_reaches hr).checkable fun k hk => ?_
  obtain ⟨hs, -, hdeps, -⟩ := Node.memo_eq_iff.mp (memo_of_dirty_injectedGraph hk)
  rw [hdeps]
  exact h k (hs.symm.trans hk)

theorem frailAccount_of_history
    (h : History permitted (Session.new registry) session ledger) :
    ∀ x, session.graph.Accounted frailAccount x :=
  accounted_of_history (fun hprev _ _ _ _ _ ih _ hr =>
    frailAccount_of_passes (grounded_of_history hprev) (pending_of_history hprev) ih hr) h

theorem checkable_of_history
    (h : History permitted (Session.new registry) session ledger) : session.graph.Checkable := by
  refine graph_of_history (fun k hk => ?_) (fun keys hm ih => ih.invalidate hm keys)
    (fun p _ ih => ih.delete p) (fun _ _ _ _ _ _ ih _ hr => checkable_of_passes ih hr) h
  cases hk

/-- A round keeps the graph intact. -/
theorem intact_of_passes (h : History permitted (Session.new registry) session ledger)
    (hintact : session.graph.Intact)
    (hr : session.Passes (session.setting roots keepGoing observer) r) : r.graph.Intact := by
  have hg := grounded_of_history h
  refine passes_induction hg (P := fun r => r.graph.Intact)
    (intact_begin (pending_of_history h) hintact _) ?_ hr
  intro r r' hr hground hc ht ih hstep
  exact Round.intact_step ih
    (frailAccount_of_passes hg (pending_of_history h) (frailAccount_of_history h) hr)
    (checkable_of_passes (checkable_of_history h) hr) hground hc ht hstep

/-- The graph is intact after operations that keep it so. -/
theorem intact_of_history (h : History KeepsIntact (Session.new registry) session ledger) :
    session.graph.Intact := by
  cases h with
  | start =>
      intro k e hk
      cases hk.2
  | step _ hkeeps hop => exact hkeeps _ _ hop

/-- Every failure has a reason throughout a round. -/
theorem reasonAccount_of_passes (h : History permitted (Session.new registry) session ledger)
    (hintact : session.graph.Intact) (hreason : ∀ x, session.graph.Accounted reasonAccount x)
    (hr : session.Passes (session.setting roots keepGoing observer) r) :
    ∀ x, r.graph.Accounted reasonAccount x := by
  have hg := grounded_of_history h
  refine passes_induction hg (P := fun r => ∀ x, r.graph.Accounted reasonAccount x)
    (accounted_begin stable_reasonAccount exemptsValues_reasonAccount hg (pending_of_history h)
      hreason) ?_ hr
  intro r r' hr hground hc ht ih hstep
  exact Round.reasonAccount_step ih (intact_of_passes h hintact hr) hground hc ht hstep

theorem reasonAccount_of_history
    (h : History KeepsIntact (Session.new registry) session ledger) :
    ∀ x, session.graph.Accounted reasonAccount x :=
  accounted_of_history (fun hprev _ _ _ _ _ ih _ hr =>
    reasonAccount_of_passes hprev (intact_of_history hprev) ih hr) h

/-- Rounds keep the graph intact. -/
theorem keepsIntact_evaluate (h : History permitted (Session.new registry) session ledger)
    (hintact : session.graph.Intact) (budget : Nat) (roots : List D.Key) (keepGoing : Bool)
    (observer : List (Event D) → Bool) :
    session.KeepsIntact (.evaluate budget roots keepGoing observer) := by
  intro session' events hop
  cases performs_of_perform hop with
  | evaluate hr _ => exact intact_of_passes h hintact hr

/-- Where all failures that name cycles have dependencies, every operation keeps the graph
intact. -/
theorem keepsIntact_of_anchored (h : History permitted (Session.new registry) session ledger)
    (hintact : session.graph.Intact) (hanchored : session.graph.Anchored) (op : Operation D) :
    session.KeepsIntact op := by
  intro session' events hop
  have hm := (grounded_of_history h).mirrored
  have haccounts := hanchored.accounted (frailAccount_of_history h) (checkable_of_history h)
  have hyields := yields_of_perform hop
  generalize session'.graph = g at hyields ⊢
  cases hyields with
  | round hr _ => exact intact_of_passes h hintact hr
  | swept _ keys => exact (hm.retains_invalidate keys).intact haccounts
  | deleted _ p => exact (hm.retains_delete p).intact haccounts
  | kept _ => exact hintact

/-- No failure is unexplained as long as every operation keeps the graph intact.  Each failure that
is stored or reported carries a declared fault or a cycle, and so does what a key would be left with
when its function saw failures.  Rounds keep the graph intact, and so does any operation if all
failures that name cycles have dependencies. -/
theorem hasReason_of_keepsIntact {registry : Registry D} {session : Session D} {ledger : Ledger D}
    (h : History KeepsIntact (Session.new registry) session ledger) :
    (∀ k e, (session.graph.node k).failure? = some e → e.HasReason) ∧
      (∀ budget roots keepGoing observer session' evaluation,
        session.evaluate budget roots keepGoing observer = some (session', evaluation) →
          session'.graph.Intact ∧ ∀ report, evaluation.verdict = .ok report →
            ∀ root e, report.failures.get? root = some e → e.HasReason) ∧
      (∀ roots keepGoing observer r, let s := session.setting roots keepGoing observer
        session.Passes s r → r.halted = false →
          ∀ k rest t waiters f ending inv r₁, r.queue = k :: rest →
            Round.Invoked s { r with queue := rest } k t waiters f ending inv r₁ →
              inv.failedReads ≠ [] → (Failure.ofChildren k inv.failedReads).HasReason) ∧
      (session.graph.Anchored → ∀ op, session.KeepsIntact op) := by
  have hintact := intact_of_history h
  have hreason := reasonAccount_of_history h
  refine ⟨fun k e he => ?_, ?_, ?_, keepsIntact_of_anchored h hintact⟩
  · have hshows := Graph.shows_of_failure? he
    exact (hreason k).of_complete hshows.1 hshows.2 e rfl
  · intro budget roots keepGoing observer session' evaluation heval
    obtain ⟨r, hr, -, rfl, rfl⟩ := evaluate_eq_some heval
    refine ⟨intact_of_passes h hintact hr, fun report hreport root e he => ?_⟩
    obtain ⟨-, rfl⟩ := Round.verdict_eq_ok hreport
    exact Round.hasReason_report (reasonAccount_of_passes h hintact hreason hr) he
  · intro roots keepGoing observer r s hr hh k rest t waiters f ending inv r₁ _ hi hne
    have htally := (Round.tally_of_reaches hr).resolve_left (by simp [hh])
    exact Round.hasReason_of_invoked (reasonAccount_of_passes h hintact hreason hr)
      (intact_of_passes h hintact hr) (grounded_of_passes (grounded_of_history h) hr) htally hi hne

/-- The first round over the ring leaves key 2 with the cycle that it is on. -/
theorem ring_hasReason_at_first : ∃ (session : Session Sample.domain)
    (ledger : Ledger Sample.domain) (e : Failure Nat Nat),
      History KeepsIntact (Session.new Sample.ring) session ledger ∧
      (session.graph.node (2 : Nat)).failure? = some e ∧ e.HasReason := by
  have hrun : ((Session.new Sample.ring).performAll
      [.inject [((0 : Nat), (5 : Nat))], .evaluate 20 [(1 : Nat)] true fun _ => false]).map
        (fun session => (session.graph.node (2 : Nat)).failure?.isSome) = some true := by cbv
  obtain ⟨session, hops, hfailed⟩ := Option.map_eq_some_iff.mp hrun
  obtain ⟨e, he⟩ := Option.isSome_iff_exists.mp hfailed
  obtain ⟨given, _, hinject, hrest⟩ := performAll_cons.mp hops
  obtain ⟨_, _, hevaluate, hnil⟩ := performAll_cons.mp hrest
  obtain rfl := Option.some.inj hnil
  have hstart : History KeepsIntact (Session.new Sample.ring) (Session.new Sample.ring) .blank :=
    .start
  have hanchored : (Session.new Sample.ring).graph.Anchored := fun _ _ hnone => by cases hnone
  have hgiven := hstart.step ((hasReason_of_keepsIntact hstart).2.2.2 hanchored _) hinject
  have hhistory := hgiven.step
    (keepsIntact_evaluate hgiven (intact_of_history hgiven) _ _ _ _) hevaluate
  exact ⟨_, _, e, hhistory, he, (hasReason_of_keepsIntact hhistory).1 _ _ he⟩

/-- The input changes, and in the next round the check of key 1 finds the change while key 1 waits
for key 2.  The cycle is broken, and key 1 forgets its edges.  So it stays complete when key 2 is
reported as changed.  In the last round key 2 is shown nothing but the cycle that it is on itself,
and is left without a reason. -/
theorem ring_unexplained_by_change : ∃ session, Reachable session ∧
    (Session.new Sample.ring).performAll
      [.inject [((0 : Nat), (5 : Nat))], .evaluate 20 [(1 : Nat)] true fun _ => false,
        .inject [((0 : Nat), (7 : Nat))], .evaluate 20 [(1 : Nat)] true fun _ => false,
        .invalidate [(2 : Nat)], .evaluate 20 [(2 : Nat)] true fun _ => false] = some session ∧
      ∃ e, (session.graph.node (2 : Nat)).failure? = some e ∧ ¬ e.HasReason := by
  have hrun : ((Session.new Sample.ring).performAll
      [.inject [((0 : Nat), (5 : Nat))], .evaluate 20 [(1 : Nat)] true fun _ => false,
        .inject [((0 : Nat), (7 : Nat))], .evaluate 20 [(1 : Nat)] true fun _ => false,
        .invalidate [(2 : Nat)], .evaluate 20 [(2 : Nat)] true fun _ => false]).bind
        (fun session => (session.graph.node (2 : Nat)).failure?.map fun e =>
          decide e.HasReason) = some false := by cbv
  obtain ⟨session, hops, hdecided⟩ := Option.bind_eq_some_iff.mp hrun
  obtain ⟨e, he, hdecided⟩ := Option.map_eq_some_iff.mp hdecided
  exact ⟨session, (reachable_new _).performAll hops, hops, e, he, of_decide_eq_false hdecided⟩

end Session

end MemoGraph
