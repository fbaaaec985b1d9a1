import MemoGraph.Proofs.Recipe.Accesses
import MemoGraph.Proofs.Round.Recall
import MemoGraph.Proofs.Sample
import MemoGraph.Proofs.Session.KeepGoing

/-!
# State belongs to one key in one round

A function may keep state between its invocations.  The state moves from the task of the key into
the invocation and back, so what an invocation finds is what the last one for the same key in the
same round left; and inside an invocation each access begins with what the access before it left.
-/

set_option autoImplicit false

namespace MemoGraph

variable {D : Domain}

namespace Round

variable {s : Setting D} {r : Round D} {c : Call D}

/-- The accesses of an invocation lead from the state that it finds to the state that it leaves. -/
theorem threads_of_call? (h : r.call? s = some c) :
    Access.Threads c.found (c.recipe.accesses s c.key (.start c.found) c.entered)
      c.inv.scratch := by
  obtain ⟨rest, t, f, hcalls⟩ := calls_of_call? h
  have hthreads := c.recipe.threads_accesses (s := s) (k := c.key) (.start c.found) c.entered
  rwa [hcalls.carried] at hthreads

end Round

namespace Session

/-- State belongs to one key in one round.  The first invocation for a key in a round finds none,
and every later one finds what the one before it for the same key left, whatever was invoked in
between.  In each invocation the first access yields the content that was found, and each further
one what the access before it left, if it was in the same slot; it yields a blank cell otherwise,
which replaces the state.  What is left after the last access is what the invocation leaves. -/
theorem compute_state_of_one_round {session : Session D} (h : session.Reachable)
    (roots : List D.Key) (keepGoing : Bool) (observer : List (Event D) → Bool) :
    let s := session.setting roots keepGoing observer
    ∀ calls r c, Round.Ran s (session.opening s) calls r → r.call? s = some c →
      r.log.filterMap Event.callee? = (calls.map Call.key).reverse ∧
      ((∀ c' ∈ calls, c'.key ≠ c.key) → c.found = none) ∧
      (∀ earlier last later, calls = earlier ++ last :: later → last.key = c.key →
        (∀ c' ∈ later, c'.key ≠ c.key) → c.found = last.inv.scratch) ∧
      ∀ c' ∈ calls ++ [c], Access.Threads c'.found
        (c'.recipe.accesses s c'.key (.start c'.found) c'.entered) c'.inv.scratch := by
  intro s calls r c hran hcall
  obtain ⟨registry, ledger, hhistory⟩ := h
  have hground (r : Round D) (hr : session.Passes s r) : Round.Grounded s r :=
    grounded_of_passes (grounded_of_history hhistory) hr
  obtain ⟨-, -, -, hfound⟩ := Round.Recalls.of_call hground hran hcall
  refine ⟨hran.told hground, fun hfirst => hfound.trans (leftBy_eq_none hfirst), ?_, ?_⟩
  · rintro earlier last later rfl hk hlater
    rw [hfound, ← hk]
    exact leftBy_append_cons fun c' hc' => hk ▸ hlater c' hc'
  · intro c' hc'
    rcases List.mem_append.mp hc' with hc' | hc'
    · obtain ⟨_, _, -, hcall'⟩ := hran.of_mem hc'
      exact Round.threads_of_call? hcall'
    · obtain rfl := List.mem_singleton.mp hc'
      exact Round.threads_of_call? hcall

/-- Key 2 leaves the count 1, key 1 is invoked and leaves 5, and key 2 finds the 1 again; its last
access is to the other slot, which is blank. -/
theorem counters_keep_apart :
    let session := Session.new Sample.counters
    let s := session.setting [(2 : Nat)] true fun _ => false
    ∃ first other r c, Round.Ran s (session.opening s) [first, other] r ∧ r.call? s = some c ∧
      first.key = c.key ∧ other.key ≠ c.key ∧ first.inv.scratch = some ⟨true, (1 : Nat)⟩ ∧
      other.inv.scratch = some ⟨true, (5 : Nat)⟩ ∧ c.found = some ⟨true, (1 : Nat)⟩ ∧
      c.inv.scratch = some ⟨false, (0 : Nat)⟩ := by
  intro session s
  have hrun : ((Round.trace s (session.opening s) 2).bind fun x => (x.2.call? s).map fun c =>
      decide (x.1.map (fun c' => decide (c'.key = c.key)) = [true, false] ∧
        x.1.map (fun c' => c'.inv.scratch) = [some ⟨true, (1 : Nat)⟩, some ⟨true, (5 : Nat)⟩] ∧
        c.inv.scratch = some ⟨false, (0 : Nat)⟩)) = some true := by
    decide +kernel
  obtain ⟨⟨calls, r⟩, htrace, hrun⟩ := Option.bind_eq_some_iff.mp hrun
  obtain ⟨c, hcall, hdecided⟩ := Option.map_eq_some_iff.mp hrun
  obtain ⟨hkeys, hleft, hlast⟩ := of_decide_eq_true hdecided
  obtain ⟨first, tail, rfl, hfirst, htail⟩ := List.map_eq_cons_iff.mp hkeys
  obtain ⟨other, rfl, hother⟩ := List.map_eq_singleton_iff.mp htail
  have hran := Round.ran_iff_trace.mpr ⟨2, htrace⟩
  obtain ⟨hone, htwo⟩ := List.cons.inj hleft
  obtain ⟨-, -, hfound, -⟩ := compute_state_of_one_round (reachable_new Sample.counters) [(2 : Nat)]
    true (fun _ => false) [first, other] r c hran hcall
  have hkept := hfound [] first [other] rfl (of_decide_eq_true hfirst) fun c' hc' =>
    List.mem_singleton.mp hc' ▸ of_decide_eq_false hother
  exact ⟨first, other, r, c, hran, hcall, of_decide_eq_true hfirst, of_decide_eq_false hother, hone,
    (List.cons.inj htwo).1, hkept.trans hone, hlast⟩

end Session

end MemoGraph
