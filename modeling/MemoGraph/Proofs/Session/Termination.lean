import MemoGraph.Proofs.Round.Restarts
import MemoGraph.Proofs.Session.KeepGoing

/-!
# Rounds of a session end

A round ends, whatever the state of the session, if the invocations that it makes read keys of a
finite set only.  Whether it ends or not, no function is invoked more often than its key had to wait
for different dependencies, but for one time, and the functions of keys that are complete when the
round begins are not invoked at all.
-/

set_option autoImplicit false

namespace MemoGraph

variable {D : Domain}

namespace Session

/-- Rounds over finitely many keys end, and in every round, at any time, functions were restarted at
most once for each key that they had to wait for. -/
theorem evaluate_terminates {session : Session D} (h : session.Reachable) (roots : List D.Key)
    (keepGoing : Bool) (observer : List (Event D) → Bool) :
    let s := session.setting roots keepGoing observer
    (∀ requested : Finset D.Key, (∀ r, session.Passes s r → r.RequestsWithin s requested) →
      ∃ enough result, ∀ budget, enough ≤ budget →
        session.evaluate budget roots keepGoing observer = some result) ∧
    (∀ r, session.Passes s r → ∀ k,
      (r.invocations k : ℕ∞) ≤ 1 + (Round.awaitedIn s (session.opening s) k).encard ∧
      ((session.opening s).graph.isComplete k = true → r.invocations k = 0)) ∧
    ∀ budget session' e, session.evaluate budget roots keepGoing observer = some (session', e) →
      ∀ k, (Round.awaitedIn s (session.opening s) k).Finite ∧
        e.events.countP (Event.calls k) ≤ 1 + (Round.awaitedIn s (session.opening s) k).ncard ∧
        ((session.opening s).graph.isComplete k = true →
          e.events.countP (Event.calls k) = 0) := by
  intro s
  obtain ⟨registry, ledger, hhistory⟩ := h
  obtain ⟨hg, hb⟩ := grounded_opening (grounded_of_history hhistory)
  have hopening (k : D.Key) : (session.opening s).graph.isComplete k =
      (session.injectedGraph s.version).isComplete k :=
    congrArg Node.isComplete (Round.node_start k)
  have hspared {r : Round D} (hr : session.Passes s r) {k : D.Key}
      (hk : (session.opening s).graph.isComplete k = true) : r.invocations k = 0 :=
    Round.invocations_eq_zero hr ((hopening k).symm.trans hk)
  refine ⟨fun requested hall => ?_, fun r hr k => ⟨Round.invocations_le hr k, hspared hr⟩,
    fun budget session' e hop k => ?_⟩
  · obtain ⟨enough, r, hrun⟩ := Round.runs_of_requests hg hb hall
    exact ⟨enough, _, fun budget hbudget => evaluate_of_run (hrun budget hbudget)⟩
  · obtain ⟨r, hrun, he⟩ := Option.map_eq_some_iff.mp hop
    obtain ⟨-, rfl⟩ := Prod.mk.inj he
    have hr : session.Passes s r := (Round.reaches_of_run hrun).1
    have hfinite := Round.finite_awaitedIn hrun k
    have hle := Round.invocations_le hr k
    have hevents : r.log.reverse.countP (Event.calls k) = r.invocations k := List.countP_reverse
    refine ⟨hfinite, ?_, fun hk => hevents.trans (hspared hr hk)⟩
    have hle : (r.invocations k : ℕ∞) ≤
        1 + (Round.awaitedIn s (session.opening s) k).encard := hle
    rw [← hfinite.cast_ncard_eq] at hle
    rw [hevents]
    exact_mod_cast hle

end Session

/-! ## The tower -/

namespace Sample

theorem within_total {keys : Finset Nat} {deps : List Nat} (h : ∀ d ∈ deps, d ∈ keys) (k n : Nat) :
    (total deps k n).Within keys := by
  refine ⟨h, fun answers missing => ?_⟩
  cases missing with
  | true => exact trivial
  | false => exact trivial

theorem within_tower : tower.Within {0, 1} :=
  forall_register (forall_register (fun _ _ h => by cases h)
    (within_total (by decide) 1)) (within_total (by decide) 2)

end Sample

namespace Session

/-- A round over the tower ends.  Key 2 has to wait for key 1, so its function runs twice; the
function of the input is not invoked. -/
theorem tower_terminates : ∃ (session session' : Session Sample.domain)
    (e : Evaluation Sample.domain), session.Reachable ∧
    let s := session.setting [(2 : Nat)] true fun _ => false
    (∃ enough result, ∀ budget, enough ≤ budget →
      session.evaluate budget [(2 : Nat)] true (fun _ => false) = some result) ∧
    session.evaluate 20 [(2 : Nat)] true (fun _ => false) = some (session', e) ∧
    ((session.opening s).invocations (2 : Nat) : ℕ∞) ≤
      1 + (Round.awaitedIn s (session.opening s) (2 : Nat)).encard ∧
    e.events.countP (Event.calls (2 : Nat)) = 2 ∧
    2 ≤ 1 + (Round.awaitedIn s (session.opening s) (2 : Nat)).ncard ∧
    (session.opening s).graph.isComplete (0 : Nat) = true ∧
    e.events.countP (Event.calls (0 : Nat)) = 0 := by
  have hrun : (((Session.new Sample.tower).performAll [.inject [((0 : Nat), (5 : Nat))]]).bind
      fun session => (session.evaluate 20 [(2 : Nat)] true fun _ => false).map fun x =>
        decide (x.2.events.countP (Event.calls (2 : Nat)) = 2 ∧
          (session.opening (session.setting [(2 : Nat)] true fun _ => false)).graph.isComplete
            (0 : Nat) = true)) = some true := by decide +kernel
  obtain ⟨session, hops, hdecided⟩ := Option.bind_eq_some_iff.mp hrun
  obtain ⟨⟨session', e⟩, hop, hdecided⟩ := Option.map_eq_some_iff.mp hdecided
  obtain ⟨htwice, hcomplete⟩ := of_decide_eq_true hdecided
  have htwice : e.events.countP (Event.calls (2 : Nat)) = 2 := htwice
  have hreachable := (reachable_new Sample.tower).performAll hops
  have hwithin : session.registry.Within {0, 1} := by
    obtain ⟨next, events, hinject, hend⟩ := performAll_cons.mp hops
    obtain rfl := Option.some.inj hend
    obtain ⟨rfl, -⟩ := Prod.mk.inj (Option.some.inj hinject)
    exact Sample.within_tower
  obtain ⟨hends, hbound, hcounts⟩ :=
    evaluate_terminates hreachable [(2 : Nat)] true fun _ => false
  obtain ⟨-, htwo, -⟩ := hcounts _ _ _ hop 2
  obtain ⟨-, -, hzero⟩ := hcounts _ _ _ hop 0
  refine ⟨session, session', e, hreachable,
    hends _ fun r _ => Round.RequestsWithin.of_registry hwithin r, hop, (hbound _ .refl 2).1,
    htwice, ?_, hcomplete, hzero hcomplete⟩
  rwa [htwice] at htwo

end Session

end MemoGraph
