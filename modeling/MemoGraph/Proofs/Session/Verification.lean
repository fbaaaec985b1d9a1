import MemoGraph.Proofs.Round.Stale
import MemoGraph.Proofs.Sample
import MemoGraph.Proofs.Session.Accounts

/-!
# Functions run only when needed

A round leaves complete keys alone, and calls the function of a dirty key only after it found a
change among its recorded dependencies.  A dirty key without such a change goes back to what it was
before it was dirtied, however many operations ago that was.
-/

set_option autoImplicit false

namespace MemoGraph

variable {D : Domain}

namespace Node

/-- The first node shows what the second one shows, and its outcome is as old. -/
structure Resumes (n b : Node D) : Prop where
  /-- The state as callers see it. -/
  state : n.state = b.state
  /-- The value, if there is one. -/
  value : n.value? = b.value?
  /-- The failure, if there is one. -/
  failure : n.failure? = b.failure?
  /-- The version at which the outcome changed. -/
  changedAt : n.changedAt = b.changedAt
  /-- The recorded dependencies. -/
  deps : n.deps = b.deps

/-- To dirty a complete node and to confirm it again changes nothing that it shows. -/
theorem resumes_of_confirm {n m b : Node D} {version : Version}
    (hn : n.memo = (m.confirm version).memo)
    (hm : m.memo = ({ b with status := .dirty } : Node D).memo) (hb : b.isComplete = true) :
    n.Resumes b := by
  obtain ⟨hstatus, hout, hdeps, hch, -⟩ := memo_eq_iff.mp hn
  obtain ⟨-, hmout, hmdeps, hmch, -⟩ := memo_eq_iff.mp hm
  have hcurrent : n.status = b.status := hstatus.trans (isComplete_iff.mp hb).symm
  have houtcome : n.outcome = b.outcome := hout.trans hmout
  have hsettled : n.settled? = b.settled? := by
    rw [settled?, settled?, isComplete, isComplete, hcurrent, houtcome]
  constructor
  · rw [state, state, lastFailure?, lastFailure?, hcurrent, houtcome]
  · rw [value?, value?, hsettled]
  · rw [failure?, failure?, hsettled]
  · exact hch.trans hmch
  · exact hdeps.trans hmdeps

end Node

/-! ## Since a key was dirtied -/

/-- What is dirty after an invalidation was dirty before or complete, and stores what it stored. -/
theorem Graph.memo_of_dirty_invalidate {g : Graph D} {keys : List D.Key} {k : D.Key}
    (h : ((g.invalidate keys).1.node k).status = .dirty) :
    (g.isComplete k = true ∨ (g.node k).status = .dirty) ∧
      ((g.invalidate keys).1.node k).memo = ({ g.node k with status := .dirty } : Node D).memo := by
  constructor
  · rcases status_invalidate g keys k with hs | ⟨hs, -⟩ | ⟨-, hs⟩
    · exact .inr (hs.symm.trans h)
    · exact .inl (Node.isComplete_iff.mpr hs)
    · rw [h] at hs
      cases hs
  · rw [node_invalidate_eq, h]

/-- What is dirty and stores what it stored was dirty before. -/
theorem Node.memo_of_dirty {n m : Node D} (h : n.memo = m.memo) (hn : n.status = .dirty) :
    m.status = .dirty ∧ n.memo = ({ m with status := .dirty } : Node D).memo := by
  have hm : m.status = .dirty := (memo_eq_iff.mp h).1.symm.trans hn
  refine ⟨hm, h.trans ?_⟩
  rw [← hm]

namespace Session

/-- What is dirty after an operation was dirty before or complete, and stores what it stored. -/
theorem memo_of_dirty {session session' : Session D} {op : Operation D} {events : List (Event D)}
    {k : D.Key} (hop : session.perform op = some (session', events))
    (h : (session'.graph.node k).status = .dirty) :
    (session.graph.isComplete k = true ∨ (session.graph.node k).status = .dirty) ∧
      (session'.graph.node k).memo =
        ({ session.graph.node k with status := .dirty } : Node D).memo := by
  have hyields := yields_of_perform hop
  generalize session'.graph = g at hyields h ⊢
  have hsame (hmemo : (g.node k).memo = (session.graph.node k).memo) :=
    And.imp_left (Or.inr (a := session.graph.isComplete k = true)) (Node.memo_of_dirty hmemo h)
  cases hyields with
  | @round _ _ _ _ r hr _ =>
      have hatomic : Round.Atomic (session.injectedGraph (session.version + 1)) r :=
        .of_reaches hr
      have hinc : r.graph.isComplete k = false := by simp [Graph.isComplete, Node.isComplete, h]
      have hkept := hatomic.memo_of_incomplete hinc
      refine hsame (hkept.trans (memo_of_dirty_injectedGraph ?_))
      rw [← (Node.memo_eq_iff.mp hkept).1]
      exact h
  | swept _ keys => exact Graph.memo_of_dirty_invalidate h
  | deleted _ p =>
      have hmemo := Graph.memo_delete session.graph p k
      split at hmemo
      · rw [(Node.memo_eq_iff.mp hmemo).1] at h
        cases h
      · exact hsame hmemo
  | kept => exact hsame rfl

/-- The key was complete in the session `before`, was dirtied by the next operation and has been
dirty since. -/
inductive DirtySince (k : D.Key) (before : Session D) : Session D → Prop where
  /-- the operation that dirtied the key -/
  | dirtied {session : Session D} {op : Operation D} {events : List (Event D)} :
      before.graph.isComplete k = true → before.perform op = some (session, events) →
      (session.graph.node k).status = .dirty → DirtySince k before session
  /-- an operation that left it dirty -/
  | still {session session' : Session D} {op : Operation D} {events : List (Event D)} :
      DirtySince k before session → session.perform op = some (session', events) →
      (session'.graph.node k).status = .dirty → DirtySince k before session'

/-- A key stores what it stored before it was dirtied. -/
theorem DirtySince.memo {k : D.Key} {before session : Session D}
    (h : DirtySince k before session) : before.graph.isComplete k = true ∧
      (session.graph.node k).memo =
        ({ before.graph.node k with status := .dirty } : Node D).memo := by
  induction h with
  | dirtied hc hop hdirty => exact ⟨hc, (memo_of_dirty hop hdirty).2⟩
  | still _ hop hdirty ih =>
      obtain ⟨hc, hmemo⟩ := ih
      obtain ⟨-, hout, hdeps, hch, heval⟩ := Node.memo_eq_iff.mp hmemo
      exact ⟨hc, (memo_of_dirty hop hdirty).2.trans
        (Node.memo_eq_iff.mpr ⟨rfl, hout, hdeps, hch, heval⟩)⟩

/-- Every dirty key was complete once. -/
theorem exists_dirtySince {session : Session D} (h : session.Reachable) {k : D.Key}
    (hk : (session.graph.node k).status = .dirty) :
    ∃ before : Session D, before.Reachable ∧ DirtySince k before session := by
  obtain ⟨registry, ledger, hhistory⟩ := h
  induction hhistory with
  | start => cases hk
  | @step session session' ledger op events hprev _ hop ih =>
      rcases (memo_of_dirty hop hk).1 with hc | hdirty
      · exact ⟨session, ⟨registry, ledger, hprev⟩, .dirtied hc hop hk⟩
      · obtain ⟨before, hbefore, hsince⟩ := ih hdirty
        exact ⟨before, hbefore, hsince.still hop hk⟩

/-- Functions run only when needed, in every state `r` of every round.  A key that is complete when
the round starts never comes under evaluation.  The function of a dirty key is called only if one of
its recorded groups has a complete dependency that changed after the key was evaluated while all
dependencies in earlier groups are complete and did not, and its check never comes to a later
group.  A dirty key that completes without a call and without being on a broken cycle has unchanged
dependencies only, and shows again what it showed before it was dirtied. -/
theorem runs_only_when_needed {session : Session D} (h : session.Reachable) {roots : List D.Key}
    {keepGoing : Bool} {observer : List (Event D) → Bool} {r : Round D}
    (hr : session.Passes (session.setting roots keepGoing observer) r) :
    let s := session.setting roots keepGoing observer
    let g := session.injectedGraph s.version
    (∀ k, g.isComplete k = true → r.Spared k) ∧
      (∀ r' news k, r.step s = some r' → r'.log = news ++ r.log → .called k ∈ news →
        (g.node k).status = .dirty → (r.graph.node k).memo = (g.node k).memo ∧
          ∃ i, r.graph.FirstChanged k i ∧
            ∀ r₀ j group, session.Passes s r₀ → r₀.Rereads k j group →
              r₀.process s k = r₀.checkGroup s k j group ∧ j ≤ i) ∧
      ∀ k how, (g.node k).status = .dirty → .completed k how ∈ r.log → .called k ∉ r.log →
        (∀ c ∈ r.cycles, k ∉ c.members) →
          how = .clean ∧
            (∀ d ∈ (g.node k).deps.keys, r.graph.isComplete d = true ∧
              (r.graph.node d).changedAt ≤ (g.node k).evaluatedAt) ∧
            (∃ before : Session D, before.Reachable ∧ DirtySince k before session) ∧
            ∀ before : Session D, DirtySince k before session →
              before.graph.isComplete k = true ∧
                (r.graph.node k).Resumes (before.graph.node k) := by
  intro s g
  refine ⟨fun k hk => Round.Spared.of_reaches hr hk, ?_, ?_⟩
  · intro r' news k hstep hlog hcalled hdirty
    obtain ⟨htask, i, hfirst⟩ := Round.firstChanged_of_called hr hstep hlog hcalled hdirty
    refine ⟨(Round.Atomic.of_reaches hr).memo_of_task htask, i, hfirst, ?_⟩
    intro r₀ j group hr₀ hreads
    exact ⟨Round.process_of_rereads hreads, Round.le_of_rereads hr hr₀ hfirst htask hreads⟩
  · intro k how hdirty hcompleted hcalled hcycles
    obtain ⟨hclean, hconfirmed⟩ : how = .clean ∧ Round.Confirmed s g r k := by
      rcases Round.explained_of_reaches hr hcompleted with hc | ⟨c, hc, hk⟩ | hconfirmed
      · exact absurd hc hcalled
      · exact absurd hk (hcycles c hc)
      · exact hconfirmed
    have hmemo : (g.node k).memo = (session.graph.node k).memo :=
      memo_of_dirty_injectedGraph hdirty
    have hsession : (session.graph.node k).status = .dirty :=
      (Node.memo_eq_iff.mp hmemo).1.symm.trans hdirty
    refine ⟨hclean, hconfirmed.deps, exists_dirtySince h hsession, fun before hbefore => ?_⟩
    obtain ⟨hc, hstored⟩ := hbefore.memo
    exact ⟨hc, Node.resumes_of_confirm hconfirmed.memo (hmemo.trans hstored) hc⟩

/-- Two rounds over the tower.  In the first one key 1 was reported as changed and is rebuilt to the
same value, so its reader is confirmed.  In the second one the input has changed, so the function of
key 1 is called. -/
theorem tower_confirmed_and_rebuilt :
    (∃ (session : Session Sample.domain) (r : Round Sample.domain), session.Reachable ∧
      session.Passes (session.setting [(2 : Nat)] true fun _ => false) r ∧
      r.Spared (0 : Nat) ∧ .completed (2 : Nat) .clean ∈ r.log ∧
      ∃ before : Session Sample.domain, before.Reachable ∧ DirtySince (2 : Nat) before session ∧
        (r.graph.node (2 : Nat)).Resumes (before.graph.node (2 : Nat))) ∧
    ∃ (session : Session Sample.domain) (r r' : Round Sample.domain), session.Reachable ∧
      session.Passes (session.setting [(1 : Nat)] true fun _ => false) r ∧
      r.step (session.setting [(1 : Nat)] true fun _ => false) = some r' ∧
      .called (1 : Nat) ∉ r.log ∧ .called (1 : Nat) ∈ r'.log ∧
      ∃ i, r.graph.FirstChanged (1 : Nat) i := by
  constructor
  · have hrun : (((Session.new Sample.tower).performAll [.inject [((0 : Nat), (5 : Nat))],
        .evaluate 20 [(2 : Nat)] true fun _ => false, .change Sample.tower [(1 : Nat)]]).bind
        fun session =>
          (Round.run (session.setting [(2 : Nat)] true fun _ => false) 20
            (session.opening (session.setting [(2 : Nat)] true fun _ => false))).map fun r =>
            decide ((session.injectedGraph (session.version + 1)).isComplete (0 : Nat) = true ∧
              ((session.injectedGraph (session.version + 1)).node (2 : Nat)).status = .dirty ∧
              .completed (2 : Nat) .clean ∈ r.log ∧ .called (2 : Nat) ∉ r.log ∧
              r.cycles = [])) = some true := by decide +kernel
    obtain ⟨session, hops, hdecided⟩ := Option.bind_eq_some_iff.mp hrun
    obtain ⟨r, hr, hdecided⟩ := Option.map_eq_some_iff.mp hdecided
    obtain ⟨hinput, hdirty, hclean, huncalled, hcycles⟩ := of_decide_eq_true hdecided
    have hreachable := (reachable_new Sample.tower).performAll hops
    have hpasses := (Round.reaches_of_run hr).1
    obtain ⟨hspared, -, hconfirmed⟩ := runs_only_when_needed hreachable hpasses
    obtain ⟨-, -, ⟨before, hbefore, hsince⟩, hresumes⟩ :=
      hconfirmed 2 .clean hdirty hclean huncalled (by simp [hcycles])
    exact ⟨session, r, hreachable, hpasses, hspared 0 hinput, hclean, before, hbefore, hsince,
      (hresumes before hsince).2⟩
  · have hrun : (((Session.new Sample.tower).performAll [.inject [((0 : Nat), (5 : Nat))],
        .evaluate 20 [(2 : Nat)] true fun _ => false, .inject [((0 : Nat), (7 : Nat))]]).bind
        fun session =>
          ((session.opening (session.setting [(1 : Nat)] true fun _ => false)).step
            (session.setting [(1 : Nat)] true fun _ => false)).bind fun r =>
            (r.step (session.setting [(1 : Nat)] true fun _ => false)).map fun r' =>
              decide (((session.injectedGraph (session.version + 1)).node (1 : Nat)).status =
                  .dirty ∧ .called (1 : Nat) ∉ r.log ∧
                r'.log = [.completed (1 : Nat) .builtChanged, .called (1 : Nat)] ++ r.log)) =
        some true := by decide +kernel
    obtain ⟨session, hops, hdecided⟩ := Option.bind_eq_some_iff.mp hrun
    obtain ⟨r, hfirst, hdecided⟩ := Option.bind_eq_some_iff.mp hdecided
    obtain ⟨r', hstep, hdecided⟩ := Option.map_eq_some_iff.mp hdecided
    obtain ⟨hdirty, huncalled, hlog⟩ := of_decide_eq_true hdecided
    have hreachable := (reachable_new Sample.tower).performAll hops
    have hpasses : session.Passes (session.setting [(1 : Nat)] true fun _ => false) r :=
      .single hfirst
    obtain ⟨-, i, hchanged, -⟩ := (runs_only_when_needed hreachable hpasses).2.1 r' _ 1 hstep hlog
      (by simp) hdirty
    exact ⟨session, r, r', hreachable, hpasses, hstep, huncalled, by simp [hlog], i, hchanged⟩

end Session

end MemoGraph
