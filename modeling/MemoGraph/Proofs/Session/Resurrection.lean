import MemoGraph.Proofs.Round.Arrivals
import MemoGraph.Proofs.Sample
import MemoGraph.Proofs.Session.Accounts

/-!
# Removed keys that come back

Deletion drops the pending injections of the chosen keys.  A key that it removes because it depends
on a chosen one keeps its pending injection, and the next round gives it a node again, even if
nobody requests it.  Any other removed key has a node after the next round exactly if it came under
evaluation.
-/

set_option autoImplicit false

namespace MemoGraph

variable {D : Domain}

theorem Graph.contains_inject {g : Graph D} {k x : D.Key} {v : D.Value} {version : Version} :
    (g.inject k v version).contains x = true ↔ x = k ∨ g.contains x = true := by
  constructor
  · intro hx
    rcases contains_of_setDeps_publish hx with hx | hx | hx
    · exact .inr hx
    · exact .inl hx
    · exact absurd hx List.not_mem_nil
  · rintro (rfl | hx)
    · simp [inject, publish, contains_update]
    · exact Round.known_publish (contains_setDeps_mono k ∅ hx)

namespace Session

/-- Injections create the nodes of their keys. -/
theorem contains_injectedGraph {session : Session D} {version : Version} {k : D.Key} :
    (session.injectedGraph version).contains k = true ↔
      session.graph.contains k = true ∨ (session.injections.get? k).isSome = true := by
  constructor
  · refine injectedGraph_induction (P := fun g => g.contains k = true →
      session.graph.contains k = true ∨ (session.injections.get? k).isSome = true) .inl ?_
    intro x v g hv _ h hk
    rcases Graph.contains_inject.mp hk with rfl | hk
    · exact .inr (by rw [hv]; rfl)
    · exact h hk
  · rintro (hk | hk)
    · exact injectedGraph_induction (P := fun g => g.contains k = true) hk
        fun _ _ _ _ _ h => Graph.contains_inject.mpr (.inr h)
    · obtain ⟨v, hv⟩ := Option.isSome_iff_exists.mp hk
      exact Graph.contains_of_isComplete (injected_of_some hv _).1

/-- What is left of the pending injections after a deletion. -/
theorem get?_injections_delete (session : Session D) (p : D.Key → Bool) (k : D.Key) :
    (session.delete p).1.injections.get? k =
      if p k = true then none else session.injections.get? k := by
  refine Table.get?_filterKeys.trans ?_
  cases p k with
  | true => rfl
  | false => rfl

/-- After a round a key has a node if it had one when the injections had taken effect, or if
observers were told that it came under evaluation. -/
theorem contains_evaluate {session session' : Session D} {budget : Nat} {roots : List D.Key}
    {keepGoing : Bool} {observer : List (Event D) → Bool} {e : Evaluation D}
    (h : session.evaluate budget roots keepGoing observer = some (session', e)) {k : D.Key} :
    session'.graph.contains k = true ↔
      (session.injectedGraph (session.version + 1)).contains k = true ∨ .enqueued k ∈ e.events := by
  obtain ⟨r, hr, -, rfl, rfl⟩ := evaluate_eq_some h
  have hannounced := Round.Announced.of_reaches hr
  rw [List.mem_reverse]
  exact ⟨hannounced.nodes k,
    fun hk => hk.elim ((Round.Atomic.of_reaches hr).known k) (hannounced.events k)⟩

/-- A deletion drops the pending injections of the chosen keys and keeps all others.  So a removed
key is left without a pending injection exactly if it had none or was chosen itself.  After the next
round a removed key has a node exactly if it came under evaluation in that round, or had a pending
injection and was removed only for what it depends on. -/
theorem returns_iff (session : Session D) (p : D.Key → Bool) :
    (∀ k, (session.delete p).1.injections.get? k =
      if p k = true then none else session.injections.get? k) ∧
    (∀ k ∈ (session.delete p).2, (session.delete p).1.injections.get? k = none ↔
      session.injections.get? k = none ∨ p k = true) ∧
    ∀ budget roots keepGoing observer session' e,
      (session.delete p).1.evaluate budget roots keepGoing observer = some (session', e) →
        ∀ k ∈ (session.delete p).2, session'.graph.contains k = true ↔
          .enqueued k ∈ e.events ∨ (session.injections.get? k).isSome = true ∧ p k = false := by
  have hpending := get?_injections_delete session p
  refine ⟨hpending, fun k _ => ?_, fun budget roots keepGoing observer session' e hop k hk => ?_⟩
  · rw [hpending]
    cases p k with
    | true => simp
    | false => simp
  · have hgone : ¬ (session.delete p).1.graph.contains k = true := fun hc =>
      (Graph.contains_foldl_remove.mp hc).2 hk
    rw [contains_evaluate hop, contains_injectedGraph, or_iff_right hgone, hpending, or_comm]
    cases p k with
    | true => simp
    | false => simp

/-- A session over the tower whose input is removed while a value is pending for key 2.  Key 1 goes
with the input, and has no node after the next round, which requests nothing. -/
theorem tower_stays_removed : ∃ (session session' : Session Sample.domain)
    (e : Evaluation Sample.domain), session.Reachable ∧
    let p : Nat → Bool := fun k => decide (k = 0)
    (1 : Nat) ∈ (session.delete p).2 ∧
    (session.delete p).1.evaluate 20 [] true (fun _ => false) = some (session', e) ∧
    session'.graph.contains (1 : Nat) = false := by
  have hrun : (((Session.new Sample.tower).performAll [.inject [((0 : Nat), (5 : Nat))],
      .evaluate 20 [(2 : Nat)] true fun _ => false, .inject [((2 : Nat), (9 : Nat))]]).bind
        fun session => ((session.delete fun k => decide (k = (0 : Nat))).1.evaluate 20 [] true
          fun _ => false).map fun x =>
            decide ((1 : Nat) ∈ (session.delete fun k => decide (k = (0 : Nat))).2 ∧
              session.injections.get? (1 : Nat) = none ∧ x.2.events = [])) = some true := by
    decide +kernel
  obtain ⟨session, hops, hdecided⟩ := Option.bind_eq_some_iff.mp hrun
  obtain ⟨⟨session', e⟩, hop, hdecided⟩ := Option.map_eq_some_iff.mp hdecided
  obtain ⟨hremoved, hpending, hevents⟩ := of_decide_eq_true hdecided
  obtain ⟨-, -, hreturns⟩ := returns_iff session fun k => decide (k = (0 : Nat))
  refine ⟨session, session', e, (reachable_new _).performAll hops, hremoved, hop, ?_⟩
  refine eq_false_of_ne_true fun hc => ?_
  rcases (hreturns _ _ _ _ _ _ hop 1 hremoved).mp hc with henqueued | ⟨hsome, -⟩
  · rw [show e.events = _ from hevents] at henqueued
    exact List.not_mem_nil henqueued
  · rw [hpending] at hsome
    cases hsome

/-- Key 2 itself is removed as well, for it depends on the input, and keeps its pending injection:
it has a node after the next round, although that round does not request it. -/
theorem tower_returns : ∃ (session session' : Session Sample.domain) (e : Evaluation Sample.domain),
    session.Reachable ∧
    let p : Nat → Bool := fun k => decide (k = 0)
    (2 : Nat) ∈ (session.delete p).2 ∧
    ((session.delete p).1.injections.get? (2 : Nat)).isSome = true ∧
    (session.delete p).1.evaluate 20 [] true (fun _ => false) = some (session', e) ∧
    .enqueued (2 : Nat) ∉ e.events ∧ session'.graph.contains (2 : Nat) = true := by
  have hrun : (((Session.new Sample.tower).performAll [.inject [((0 : Nat), (5 : Nat))],
      .evaluate 20 [(2 : Nat)] true fun _ => false, .inject [((2 : Nat), (9 : Nat))]]).bind
        fun session => ((session.delete fun k => decide (k = (0 : Nat))).1.evaluate 20 [] true
          fun _ => false).map fun x =>
            decide ((2 : Nat) ∈ (session.delete fun k => decide (k = (0 : Nat))).2 ∧
              ((session.delete fun k => decide (k = (0 : Nat))).1.injections.get?
                (2 : Nat)).isSome = true ∧
              x.2.events = [] ∧ x.1.graph.contains (2 : Nat) = true)) = some true := by
    decide +kernel
  obtain ⟨session, hops, hdecided⟩ := Option.bind_eq_some_iff.mp hrun
  obtain ⟨⟨session', e⟩, hop, hdecided⟩ := Option.map_eq_some_iff.mp hdecided
  obtain ⟨hremoved, hpending, hevents, hreturned⟩ := of_decide_eq_true hdecided
  refine ⟨session, session', e, (reachable_new _).performAll hops, hremoved, hpending, hop, ?_,
    hreturned⟩
  rw [show e.events = _ from hevents]
  exact List.not_mem_nil

end Session

end MemoGraph
