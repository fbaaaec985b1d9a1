import MemoGraph.Proofs.Round.Calls
import MemoGraph.Proofs.Sample
import MemoGraph.Proofs.Session.KeepGoing

/-!
# Every signal arrives once

A key that counts one signal too many sleeps for ever, and one that counts one too few runs before
its dependencies are there, or twice.  Between any two steps of a round that keeps going, what a
task expects is therefore compared with the tasks that list its key among their waiters, and what
the task says of itself with the queue.
-/

set_option autoImplicit false

namespace MemoGraph

variable {D : Domain}

namespace Round

/-- The keys under evaluation that will signal `k`. -/
def promisers (r : Round D) (k : D.Key) : List D.Key :=
  r.tasks.keys.filter fun d => (r.waiters d).contains k

variable {s : Setting D} {r r' : Round D} {busy : Option D.Key} {n : Nat} {met : List D.Key}

theorem mem_promisers_iff {k d : D.Key} : d ∈ r.promisers k ↔ r.Enlisted k d := by
  rw [promisers, List.mem_filter, List.contains_iff_mem, mem_waiters_iff, and_iff_right_iff_imp]
  rintro ⟨t, ht, -⟩
  exact Table.mem_keys_iff.mpr ⟨t, ht⟩

theorem nodup_promisers (r : Round D) (k : D.Key) : (r.promisers k).Nodup :=
  r.tasks.keys_nodup.filter _

namespace Tally

/-- What a task expects and is owed comes from different keys. -/
theorem expected_add_owed (h : Tally r busy n met) {k : D.Key} {t : Task D}
    (ht : r.tasks.get? k = some t) : t.expected + owed busy n k = (r.promisers k).length := by
  obtain ⟨sources, hnodup, hsources, hlength⟩ := h.counted k t ht
  have hperm : sources.Perm (r.promisers k) :=
    (List.perm_ext_iff_of_nodup hnodup (nodup_promisers r k)).mpr fun d =>
      (hsources d).trans mem_promisers_iff.symm
  rw [hlength, hperm.length_eq]

theorem expected_eq_length_promisers (h : Tally r none n met) {k : D.Key} {t : Task D}
    (ht : r.tasks.get? k = some t) : t.expected = (r.promisers k).length := by
  rw [← h.expected_add_owed ht, owed, if_neg (Option.some_ne_none k).symm, Int.add_zero]

theorem mem_promisers_iff_awaited (h : Tally r none n met) {k : D.Key} {t : Task D}
    (ht : r.tasks.get? k = some t) {d : D.Key} :
    d ∈ r.promisers k ↔ d ∈ t.awaited ∧ r.graph.isComplete d = false := by
  rw [mem_promisers_iff, h.awaits k t ht d]
  simp

/-- While the round still queues, a task is at work exactly if its key is queued. -/
theorem active_iff_mem_queue (h : Tally r none n met) (hstop : r.stopping = false) {k : D.Key}
    {t : Task D} (ht : r.tasks.get? k = some t) : t.active = true ↔ k ∈ r.queue := by
  constructor
  · intro ha
    refine (h.queued k t ht ha (Option.some_ne_none k).symm).resolve_right fun hs => ?_
    exact Bool.false_ne_true (hstop.symm.trans hs)
  · intro hq
    -- A key may stay queued after it completed, but then its task is gone.
    rcases h.working k hq with hc | ⟨t', ht', ha⟩
    · exact absurd ((h.unfinished k t ht).symm.trans hc) Bool.false_ne_true
    · obtain rfl := Option.some.inj (ht.symm.trans ht')
      exact ha

theorem isComplete_of_mem_queue (h : Tally r busy n met) {k : D.Key} (hq : k ∈ r.queue)
    (ht : r.tasks.get? k = none) : r.graph.isComplete k = true := by
  refine (h.working k hq).resolve_right ?_
  rintro ⟨t, hk, -⟩
  cases ht.symm.trans hk

end Tally

/-- A key whose turn comes without a task leaves the queue, and nothing else happens. -/
theorem step_of_no_task {k : D.Key} {rest : List D.Key} (hq : r.queue = k :: rest)
    (ht : r.tasks.get? k = none) : r.step s = some { r with queue := rest } := by
  simp only [step, hq, process, ht, ite_self]

/-- Keys that completed stay complete, so their turn comes without a task, unless it is skipped. -/
theorem step_of_isComplete {graph : Graph D} {calls : Table D.Key Nat}
    (h : Reaches s (Round.start s graph calls) r) (h' : Reaches s r r') {k : D.Key}
    (hc : r.graph.isComplete k = true) {rest : List D.Key} (hq : r'.queue = k :: rest) :
    r'.step s = some { r' with queue := rest } := by
  rcases tally_of_reaches (h.trans h') with hh | htally
  · have hskip : ({ r' with queue := rest } : Round D).halted = true := hh
    rw [step, hq]
    simp only [hskip, if_true]
  · refine step_of_no_task hq (Option.eq_none_iff_forall_ne_some.mpr fun t ht => ?_)
    have hkept : r'.graph.isComplete k = true := by
      rw [Graph.isComplete, Node.isComplete_of_memo_eq (memo_of_reaches h h' hc)]
      exact hc
    exact Bool.false_ne_true ((htally.unfinished k t ht).symm.trans hkept)

end Round

namespace Session

/-- Signals are accounted for between any two steps of a round that keeps going and was not halted.
A task expects one signal from each key under evaluation that lists its key among the waiters, and
these are the incomplete keys among those it waited for.  It is at work exactly if its key is
queued, which it then is once, and exactly if it expects no signal.  What else is queued is
complete, and its turn changes nothing but the queue. -/
theorem signals_accounted (session : Session D) (roots : List D.Key)
    (observer : List (Event D) → Bool) :
    let s := session.setting roots true observer
    ∀ r, session.Passes s r → r.halted = false →
      (∀ k t, r.tasks.get? k = some t →
        t.expected = (r.promisers k).length ∧
          (∀ d, d ∈ r.promisers k ↔ d ∈ t.awaited ∧ r.graph.isComplete d = false) ∧
          (t.active = true ↔ k ∈ r.queue) ∧ (k ∈ r.queue → r.queue.count k = 1) ∧
          (t.active = true ↔ t.expected = 0)) ∧
        ∀ k ∈ r.queue, r.tasks.get? k = none → r.graph.isComplete k = true ∧
          ∀ r' rest, Round.Reaches s r r' → r'.queue = k :: rest →
            r'.step s = some { r' with queue := rest } := by
  intro s r hr hh
  have htally : Round.Tally r none 0 [] := Round.tally_of_going hr hh
  have hstop : r.stopping = false := Round.stopping_of_reaches hr rfl
  refine ⟨fun k t ht => ⟨?_, fun d => ?_, ?_, fun hq => ?_, ?_⟩, fun k hq ht => ?_⟩
  · exact htally.expected_eq_length_promisers ht
  · exact htally.mem_promisers_iff_awaited ht
  · exact htally.active_iff_mem_queue hstop ht
  · exact List.count_eq_one_of_mem htally.nodup hq
  · exact htally.ready k t ht
  · have hc := htally.isComplete_of_mem_queue hq ht
    exact ⟨hc, fun r' rest hr' hq' => Round.step_of_isComplete hr hr' hc hq'⟩

/-- Key 3 waits for key 1, which is on a cycle with key 2.  Before the cycle is broken it expects
one signal; afterwards it is woken, and so was key 2 before it failed as well. -/
theorem signals_accounted_in_knot :
    let session := Session.new Sample.knot
    let s := session.setting [(3 : Nat)] true fun _ => false
    ∃ r t r' t', session.Passes s r ∧ r.halted = false ∧ r.tasks.get? (3 : Nat) = some t ∧
      t.expected = 1 ∧ r.promisers (3 : Nat) = [(1 : Nat)] ∧ (1 : Nat) ∈ t.awaited ∧
      r.step s = some r' ∧ r'.halted = false ∧ r'.tasks.get? (3 : Nat) = some t' ∧
      r'.queue = [(3 : Nat), (2 : Nat)] ∧ t'.active = true ∧ t'.expected = 0 ∧
      r'.tasks.get? (2 : Nat) = none ∧ r'.graph.isComplete (2 : Nat) = true ∧
      ∀ r'', Round.Reaches s r' r'' → r''.queue = [(2 : Nat)] →
        r''.step s = some { r'' with queue := [] } := by
  intro session s
  have hrun : ((Round.trace s (session.opening s) 3).bind fun x => (x.2.step s).bind fun r' =>
      (x.2.tasks.get? (3 : Nat)).bind fun _ => (r'.tasks.get? (3 : Nat)).map fun _ =>
        decide (x.2.halted = false ∧ x.2.promisers (3 : Nat) = [(1 : Nat)] ∧
          r'.halted = false ∧ r'.queue = [(3 : Nat), (2 : Nat)] ∧
          (r'.tasks.get? (2 : Nat)).isNone = true)) = some true := by cbv
  obtain ⟨⟨calls, r⟩, htrace, hrun⟩ := Option.bind_eq_some_iff.mp hrun
  obtain ⟨r', hstep, hrun⟩ := Option.bind_eq_some_iff.mp hrun
  obtain ⟨t, ht, hrun⟩ := Option.bind_eq_some_iff.mp hrun
  obtain ⟨t', ht', hdecided⟩ := Option.map_eq_some_iff.mp hrun
  obtain ⟨hh, hpromisers, hh', hq, hnone⟩ := of_decide_eq_true hdecided
  rw [Option.isNone_iff_eq_none] at hnone
  have hr : session.Passes s r := (Round.ran_iff_trace.mpr ⟨3, htrace⟩).reaches
  have hstates := signals_accounted session [(3 : Nat)] fun _ => false
  obtain ⟨hexpected, hawaited, -⟩ := (hstates r hr hh).1 3 t ht
  obtain ⟨-, -, hactive, -, hready⟩ := (hstates r' (hr.tail hstep) hh').1 3 t' ht'
  obtain ⟨hcomplete, hturn⟩ := (hstates r' (hr.tail hstep) hh').2 2 (by simp [hq]) hnone
  have hat : t'.active = true := hactive.mpr (by simp [hq])
  have hone : (1 : Nat) ∈ t.awaited := ((hawaited 1).mp (by simp [hpromisers])).1
  have hcount : t.expected = 1 := by rw [hexpected, hpromisers]; rfl
  exact ⟨r, t, r', t', hr, hh, ht, hcount, hpromisers, hone, hstep, hh', ht', hq, hat,
    hready.mp hat, hnone, hcomplete, fun r'' hlater hturns => hturn r'' [] hlater hturns⟩

end Session

end MemoGraph
