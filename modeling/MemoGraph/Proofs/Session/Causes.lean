import MemoGraph.Proofs.Crew.Causes
import MemoGraph.Proofs.Session.Chronicle
import MemoGraph.Proofs.Session.Coverage

/-!
# Root causes are real and current

In every state of a session, however many workers its rounds had, each key that a failure blames has
failed by itself, blames only itself and can be reached through recorded dependencies.  Whatever
happens to it later takes the trust from everything that blames it.
-/

set_option autoImplicit false

namespace MemoGraph

variable {D : Domain}

namespace Session

/-- Injections leave root causes traceable: they make no failure and touch none. -/
theorem causal_injectedGraph {session : Session D} (hp : session.Pending)
    (h : session.graph.Causal) (version : Version) : (session.injectedGraph version).Causal := by
  intro k e hshows root hroot
  have hkeep {x : D.Key} {e : Failure D.Key D.Fault}
      (hx : session.graph.Shows x (.failure e) ∨
        (session.injectedGraph version).Shows x (.failure e)) :
      ((session.injectedGraph version).node x).memo = (session.graph.node x).memo :=
    memo_injectedGraph_of_failure hp hx
  have hstems := h k e ((Graph.shows_of_memo_eq (hkeep (.inr hshows))).mp hshows) root hroot
  exact hstems.mono fun x e hx => hkeep (.inl hx)

/-- Root causes stay accounted for and traceable over a round. -/
theorem causal_of_leaves {session : Session D} (hg : session.graph.Grounded session.version)
    (hp : session.Pending)
    (h : (∀ x, session.graph.Accounted causeAccount x) ∧ session.graph.Causal)
    {roots : List D.Key} {keepGoing : Bool} {observer : List (Event D) → Bool} {workers : Nat}
    {last c : Crew D} (hleaves : Crew.Leaves (session.setting roots keepGoing observer)
      (session.injectedGraph (session.version + 1)) session.calls workers last c) :
    (∀ x, c.live.store.graph.Accounted causeAccount x) ∧ c.live.store.graph.Causal := by
  obtain ⟨hground, hb⟩ := grounded_opening hg
  obtain ⟨haccounts, hcausal⟩ := causal_of_reaches hground hb
    (accounted_injectedGraph stable_causeAccount exemptsValues_causeAccount hg hp h.1)
    (causal_injectedGraph hp h.2 _) hleaves.reached hleaves.going
  exact ⟨hleaves.accounted haccounts, hcausal.of_node hleaves.node⟩

/-- Every deed leaves root causes accounted for and traceable. -/
theorem Does.causal {session session' : Session D} {deed : Deed D} {events : List (Event D)}
    (hdoes : session.Does deed session' events)
    (hg : session.graph.Grounded session.version) (hp : session.Pending)
    (h : (∀ x, session.graph.Accounted causeAccount x) ∧ session.graph.Causal) :
    (∀ x, session'.graph.Accounted causeAccount x) ∧ session'.graph.Causal := by
  have hm := hg.mirrored
  have halters := hdoes.alters
  generalize session'.graph = g at halters ⊢
  cases halters with
  | round hleaves => exact causal_of_leaves hg hp h hleaves
  | swept keys =>
      exact ⟨fun x => (h.1 x).invalidate hm keys, h.2.retain (hm.retains_invalidate keys)⟩
  | deleted p => exact ⟨fun x => (h.1 x).delete hm p, h.2.retain (hm.retains_delete p)⟩
  | kept => exact h

/-- Root causes are accounted for and traceable in every state of every session. -/
theorem causal_of_chronicle {permitted : Session D → Deed D → Prop} {registry : Registry D}
    {session : Session D} {ledger : Ledger D}
    (h : Chronicle permitted (Session.new registry) session ledger) :
    (∀ x, session.graph.Accounted causeAccount x) ∧ session.graph.Causal := by
  induction h with
  | start =>
      refine ⟨fun x _ o ho => ?_, fun k e hk => ?_⟩
      · cases ho
      · cases hk.2
  | step hprev _ hdoes ih =>
      exact hdoes.causal (grounded_of_chronicle hprev) (pending_of_chronicle hprev) ih

/-- Root causes are real and current in every session, whatever is done with it and however many
workers its rounds have.  Whenever a key holds a failure, each of its root causes holds a failure of
its own with a declared fault and with no other root cause than itself, and is the key itself or can
be reached from it through recorded dependencies. -/
theorem rootCauses_real {session : Session D} (h : session.Attainable) {k : D.Key}
    {e : Failure D.Key D.Fault} (he : (session.graph.node k).failure? = some e) {root : D.Key}
    (hroot : root ∈ e.rootCauses) :
    (∃ e', (session.graph.node root).failure? = some e' ∧ e'.IsOwnOf root) ∧
      Relation.ReflTransGen session.graph.DependsOn k root := by
  obtain ⟨registry, ledger, hchronicle⟩ := h
  exact ((causal_of_chronicle hchronicle).2 k e (Graph.shows_of_failure? he) root hroot).exists_own

/-- Key 3 of the fragile sample blames key 1, which it reads through key 2, after a round in which
two workers take turns. -/
theorem fragile_rootCauses_real :
    ∃ (session : Session Sample.domain) (e : Failure Nat Nat), session.Attainable ∧
      (session.graph.node (3 : Nat)).failure? = some e ∧ (1 : Nat) ∈ e.rootCauses ∧
      (∃ e', (session.graph.node (1 : Nat)).failure? = some e' ∧ e'.IsOwnOf (1 : Nat)) ∧
      Relation.ReflTransGen session.graph.DependsOn (3 : Nat) (1 : Nat) := by
  have hrun : ((Session.new Sample.fragile).evaluateWith 200 2 (· % 2) [(3 : Nat)] true
      fun _ => false).bind (fun x => (x.1.graph.node (3 : Nat)).failure?.map fun e =>
        decide ((1 : Nat) ∈ e.rootCauses)) = some true := by rfl
  obtain ⟨⟨session, evaluation⟩, hround, hdecided⟩ := Option.bind_eq_some_iff.mp hrun
  obtain ⟨e, he, hdecided⟩ := Option.map_eq_some_iff.mp hdecided
  have hroot : (1 : Nat) ∈ e.rootCauses := of_decide_eq_true hdecided
  have hattainable : session.Attainable :=
    (reachable_new Sample.fragile).attainable.does (does_of_evaluateWith hround)
  exact ⟨session, e, hattainable, he, hroot, rootCauses_real hattainable he hroot⟩

end Session

end MemoGraph
