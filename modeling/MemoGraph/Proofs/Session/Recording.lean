import MemoGraph.Proofs.Round.Recall
import MemoGraph.Proofs.Sample
import MemoGraph.Proofs.Session.KeepGoing

/-!
# What is recorded is what was read

A key that completes through its function is checked later against what it recorded, group by group,
so nothing that was read may be missing there and nothing else may stand there.
-/

set_option autoImplicit false

namespace MemoGraph

variable {D : Domain}

namespace Session

/-- Recorded dependencies are exactly what was read.  A key that completes in a round is found
clean, or it completes through its function, or it is on a cycle.  If it completes through its
function, its groups are from then on the batches that all invocations of the function in this round
requested, without the keys that were requested before and without the batches that become empty.
Membership and size are those of the list of keys. -/
theorem recorded_deps_exact {session : Session D} (h : session.Reachable) (roots : List D.Key)
    (keepGoing : Bool) (observer : List (Event D) → Bool) :
    let s := session.setting roots keepGoing observer
    (∀ r r' k how, session.Passes s r → r.step s = some r' → .completed k how ∈ r'.log →
      .completed k how ∉ r.log → how = .clean ∨ (∃ c, r.call? s = some c ∧ c.key = k) ∨
        r.queue = [] ∧ ∃ cycle ∈ r.heldUpBy s, k ∈ cycle.members) ∧
    ∀ calls r c r' more r'', Round.Ran s (session.opening s) calls r → r.call? s = some c →
      r.step s = some r' → Committed r'.log c.key → Round.Ran s r' more r'' →
      let batches := requestedBy (calls ++ c :: more) c.key
      let deps := (r''.graph.node c.key).deps
      r''.log.filterMap Event.callee? = ((calls ++ c :: more).map Call.key).reverse ∧
      deps.groups = firstRequests batches ∧
      deps.groups.flatten = batches.flatten.eraseDups ∧
      (∀ d, deps.contains d = true ↔ d ∈ deps.groups.flatten) ∧
      deps.size = deps.groups.flatten.length := by
  intro s
  obtain ⟨registry, ledger, hhistory⟩ := h
  have hground (r : Round D) (hr : session.Passes s r) : Round.Grounded s r :=
    grounded_of_passes (grounded_of_history hhistory) hr
  refine ⟨fun r r' k how hr hstep hnew hold =>
    Round.completion_cases (hground r hr) (Round.tally_of_reaches hr) hstep hnew hold, ?_⟩
  intro calls r c r' more r'' hran hcall hstep hcommitted hmore batches deps
  have hcalled := hran.call hcall hstep
  have hwhole : Round.Ran s (session.opening s) (calls ++ c :: more) r'' := by
    simpa using hcalled.trans hmore
  have hcomplete : r'.graph.isComplete c.key = true :=
    (Round.Atomic.of_reaches hcalled.reaches).complete c.key hcommitted
  -- The key is not invoked any more, and keeps what it recorded.
  have hnone := Round.callsOf_eq_nil_of_isComplete hcalled.reaches hcomplete hmore
  have hbatches : batches = requestedBy (calls ++ [c]) c.key := by
    show requestedBy (calls ++ c :: more) c.key = _
    rw [List.append_cons, requestedBy, callsOf_append_of_nil hnone, ← requestedBy]
  have hdeps : deps = .ofBatches batches := by
    have hmemo := Round.memo_of_reaches hcalled.reaches hmore.reaches hcomplete
    rw [hbatches, ← Round.deps_of_call hground hran hcall hstep hcommitted]
    exact (Node.memo_eq_iff.mp hmemo).2.2.1
  refine ⟨hwhole.told hground, ?_, ?_, fun d => DepGroups.contains_iff, DepGroups.size_eq_length _⟩
  · rw [hdeps, DepGroups.groups_ofBatches]
  · rw [hdeps]
    exact DepGroups.keys_ofBatches batches

/-- Key 3 is invoked twice and asks for key 1 three times in each invocation.  It records key 1 in
the first group and key 2 in the second. -/
theorem repeating_recorded :
    let session := Session.new Sample.repeating
    let s := session.setting [(3 : Nat)] true fun _ => false
    ∃ calls r c r', Round.Ran s (session.opening s) calls r ∧ r.call? s = some c ∧
      c.key = (3 : Nat) ∧ r.step s = some r' ∧ Committed r'.log c.key ∧
      (r'.graph.node c.key).deps.groups = [[(1 : Nat)], [(2 : Nat)]] ∧
      firstRequests (requestedBy (calls ++ [c]) c.key) = [[(1 : Nat)], [(2 : Nat)]] := by
  intro session s
  have hrun : ((Round.trace s (session.opening s) 3).bind fun x => (x.2.call? s).bind fun c =>
      (x.2.step s).map fun r' => decide (c.key = (3 : Nat) ∧ Committed r'.log c.key ∧
        (r'.graph.node c.key).deps.groups = [[(1 : Nat)], [(2 : Nat)]])) = some true := by
    decide +kernel
  obtain ⟨⟨calls, r⟩, htrace, hrun⟩ := Option.bind_eq_some_iff.mp hrun
  obtain ⟨c, hcall, hrun⟩ := Option.bind_eq_some_iff.mp hrun
  obtain ⟨r', hstep, hdecided⟩ := Option.map_eq_some_iff.mp hrun
  obtain ⟨hk, hcommitted, hgroups⟩ := of_decide_eq_true hdecided
  have hran := Round.ran_iff_trace.mpr ⟨3, htrace⟩
  obtain ⟨-, hexact, -⟩ := (recorded_deps_exact (reachable_new Sample.repeating) [(3 : Nat)] true
    fun _ => false).2 calls r c r' [] r' hran hcall hstep hcommitted .begin
  exact ⟨calls, r, c, r', hran, hcall, hk, hstep, hcommitted, hgroups, hexact.symm.trans hgroups⟩

end Session

end MemoGraph
