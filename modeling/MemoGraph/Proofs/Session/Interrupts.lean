import MemoGraph.Proofs.Round.Interrupts
import MemoGraph.Proofs.Session.Contracts

/-!
# Interrupts

Whenever the wish to stop comes up during a round, the round obeys it: it calls no further function,
commits nothing that was cut short, ends, and says that it was stopped, unless the function that was
running crashed.  The wish is then fulfilled and does not reach the next round.
-/

set_option autoImplicit false

namespace MemoGraph

variable {D : Domain}

namespace Session

/-- The end of a round that was asked to stop. -/
theorem verdict_of_interrupted {session session' : Session D}
    (hg : session.graph.Grounded session.version) {budget : Nat} {roots : List D.Key}
    {keepGoing : Bool} {observer : List (Event D) → Bool} {e : Evaluation D}
    (heval : session.evaluate budget roots keepGoing observer = some (session', e))
    {r : Round D} (hr : session.Passes (session.setting roots keepGoing observer) r)
    (hi : r.interrupted = true) :
    let s := session.setting roots keepGoing observer
    (∃ r c payload, session.Passes s r ∧ r.call? s = some c ∧ c.left.interrupted = true ∧
      c.ending = .crash payload ∧ e.verdict = .error (.crashed c.key payload)) ∨
    ((∀ r c payload, session.Passes s r → r.call? s = some c → c.left.interrupted = true →
      c.ending ≠ .crash payload) ∧ e.verdict = .error .interrupted ∧
      session'.interrupted = false) := by
  intro s
  obtain ⟨r', hr', hend, rfl, rfl⟩ := evaluate_eq_some heval
  have hi' := Round.interrupted_of_reaches hi (Round.reaches_end hr hr' hend)
  have hground (r : Round D) (hr : session.Passes s r) : Round.Grounded s r :=
    grounded_of_passes hg hr
  cases ha : r'.aborted with
  | some a =>
      obtain ⟨r₀, c, payload, h₀, hcall, hleft, hending, rfl⟩ :=
        Round.crashed_of_interrupted hground hr' hi' ha
      exact .inl ⟨r₀, c, payload, h₀, hcall, hleft, hending,
        Round.verdict_eq_error_iff.mpr (.inl ha)⟩
  | none =>
      refine .inr ⟨fun r₀ c payload h₀ hcall _ hending => ?_,
        Round.verdict_eq_error_iff.mpr (.inr ⟨ha, hi', rfl⟩), ?_⟩
      · have haborted := (Round.aborted_iff_blames hground hr' hend).mpr
          ⟨r₀, h₀, .crashed hcall hending⟩
        cases ha.symm.trans haborted
      · show (r'.aborted.isSome && r'.interrupted) = false
        rw [ha]
        rfl

/-- A wish to stop that comes up during a round is obeyed.  Functions are called at the beginning of
a step, and no function is called any more: only the queue changes.  An invocation during which the
wish came up commits nothing, whatever it ends with, and neither does the reading of a recorded
group; a key that is verified was read to the end before.  The round ends, and either says that the
function that was running crashed, or that it was stopped. -/
theorem interrupt_obeyed {session : Session D} (h : session.Reachable) (roots : List D.Key)
    (keepGoing : Bool) (observer : List (Event D) → Bool) :
    let s := session.setting roots keepGoing observer
    (∀ r r', session.Passes s r → r.step s = some r' →
      (∃ news, r'.log = news ++ (r.call? s).toList.map (fun c => .called c.key) ++ r.log ∧
        ∀ k, .called k ∉ news) ∧
      (r.interrupted = true → r.call? s = none ∧ ∃ queue, r' = { r with queue := queue })) ∧
    (∀ r c r', session.Passes s r → r.call? s = some c → r.step s = some r' →
      c.left.interrupted = true → ∀ r'', Round.Reaches s r' r'' →
        r''.Abandons (session.injectedGraph s.version) c.key) ∧
    (∀ r c r', session.Passes s r → r.recheck? s = some c → r.step s = some r' →
      c.left.interrupted = true → c.key ∉ r'.queue ∧ ∀ r'', Round.Reaches s r' r'' →
        r''.Abandons (session.injectedGraph s.version) c.key) ∧
    (∀ r r' k, session.Passes s r → r.step s = some r' → .completed k .clean ∈ r'.log →
      .completed k .clean ∉ r.log → r.interrupted = false ∧ r.recheck? s = none ∧
        ∀ r₀ c r₁, session.Passes s r₀ → r₀.recheck? s = some c → r₀.step s = some r₁ →
          Round.Reaches s r₁ r → c.left.interrupted = false) ∧
    ((∃ r, session.Passes s r ∧ r.interrupted = true) →
      (∃ enough, ∀ budget, enough ≤ budget →
        ∃ result, session.evaluate budget roots keepGoing observer = some result) ∧
      ∀ budget session' e,
        session.evaluate budget roots keepGoing observer = some (session', e) →
        (∃ r c payload, session.Passes s r ∧ r.call? s = some c ∧ c.left.interrupted = true ∧
          c.ending = .crash payload ∧ e.verdict = .error (.crashed c.key payload)) ∨
        ((∀ r c payload, session.Passes s r → r.call? s = some c → c.left.interrupted = true →
          c.ending ≠ .crash payload) ∧ e.verdict = .error .interrupted ∧
          session'.interrupted = false)) := by
  intro s
  obtain ⟨registry, ledger, hhistory⟩ := h
  have hground := grounded_of_history hhistory
  have hatomic {r : Round D} (hr : session.Passes s r) :
      Round.Atomic (session.injectedGraph s.version) r := Round.Atomic.of_reaches hr
  refine ⟨fun r r' hr hstep => ⟨?_, fun hi => ?_⟩, fun r c r' hr hcall hstep hi r'' h'' => ?_,
    fun r c r' hr hcheck hstep hi => ⟨?_, fun r'' h'' => ?_⟩, fun r r' k hr hstep hnew hold => ?_,
    fun ⟨r, hr, hi⟩ => ⟨?_, fun budget session' e heval => ?_⟩⟩
  · exact Round.log_of_step hr (grounded_of_passes hground hr) hstep
  · have hh := Round.halted_of_interrupted hi
    exact ⟨Round.call?_of_halted hh, Round.reaches_of_halted hh (.single hstep)⟩
  · obtain ⟨hh, hk⟩ := Round.halted_of_call hcall hi hstep
    exact Round.abandons_of_halted (hatomic (hr.tail hstep)) hh hk h''
  · obtain ⟨rest, t, hchecks⟩ := Round.rechecks_of_recheck? hcheck
    exact hchecks.unqueued (Round.tally_of_going hr hchecks.going) hstep hi
  · obtain ⟨rest, t, hchecks⟩ := Round.rechecks_of_recheck? hcheck
    obtain ⟨hinterrupted, hk, -⟩ := hchecks.frame hstep
    exact Round.abandons_of_halted (hatomic (hr.tail hstep))
      (Round.halted_of_interrupted (hinterrupted.trans hi)) hk h''
  · -- The key completes in a step of a round that goes on, and so went on all the time.
    have hh : r.halted = false := by
      cases hh : r.halted with
      | false => rfl
      | true =>
          obtain ⟨queue, rfl⟩ := Round.reaches_of_halted hh (.single hstep)
          exact absurd hnew hold
    have hgo := Round.not_interrupted_of_going hh
    refine ⟨hgo, Option.eq_none_iff_forall_ne_some.mpr fun c hcheck => ?_,
      fun r₀ c r₁ _ hcheck hfirst hreach => eq_false_of_ne_true fun hi => ?_⟩
    · obtain ⟨rest, t, hchecks⟩ := Round.rechecks_of_recheck? hcheck
      exact hold (hchecks.completed hstep hnew)
    obtain ⟨rest, t, hchecks⟩ := Round.rechecks_of_recheck? hcheck
    have hlater := Round.interrupted_of_reaches ((hchecks.frame hfirst).1.trans hi) hreach
    exact Bool.false_ne_true (hgo.symm.trans hlater)
  · obtain ⟨enough, r', hrun⟩ :=
      Round.runs_of_reaches hr (Round.runs_of_halted (Round.halted_of_interrupted hi))
    exact ⟨enough, fun budget hbudget => ⟨_, evaluate_of_run (hrun budget hbudget)⟩⟩
  · exact verdict_of_interrupted hground heval hr hi

/-- Key 1 asks the round to stop and gives a value: the round says that it was stopped.  Key 2 asks
for it and crashes: the round says that it crashed. -/
theorem quitting_obeyed : ∃ session₁ e₁ session₂ e₂,
    let session := Session.new Sample.quitting
    let s := session.setting [2] true fun _ => false
    session.evaluate 20 [1] true (fun _ => false) = some (session₁, e₁) ∧
    e₁.verdict = .error .interrupted ∧ session₁.interrupted = false ∧
    session.evaluate 20 [2] true (fun _ => false) = some (session₂, e₂) ∧
    ∃ r c payload, session.Passes s r ∧ r.call? s = some c ∧ c.left.interrupted = true ∧
      c.ending = .crash payload ∧ e₂.verdict = .error (.crashed c.key payload) := by
  have hfirst : ((Session.new Sample.quitting).evaluate 20 [1] true fun _ => false).bind
      (fun x => x.2.error?) = some .interrupted := by rfl
  have hsecond : ((Session.new Sample.quitting).evaluate 20 [2] true fun _ => false).bind
      (fun x => x.2.error?) = some (.crashed (2 : Nat) (.code 7)) := by rfl
  obtain ⟨⟨session₁, e₁⟩, heval₁, herror₁⟩ := Option.bind_eq_some_iff.mp hfirst
  obtain ⟨⟨session₂, e₂⟩, heval₂, herror₂⟩ := Option.bind_eq_some_iff.mp hsecond
  have hverdict₁ := Evaluation.verdict_of_error? herror₁
  have hverdict₂ := Evaluation.verdict_of_error? herror₂
  have hobeyed (root : Nat) := (interrupt_obeyed (reachable_new Sample.quitting) [root] true
    fun _ => false).2.2.2.2
  -- The wish comes up in the first step of either round.
  have hpasses (root : Nat) (h : (((Session.new Sample.quitting).opening
      ((Session.new Sample.quitting).setting [root] true fun _ => false)).step
        ((Session.new Sample.quitting).setting [root] true fun _ => false)).any
          (fun r => r.interrupted) = true) :
      ∃ r, (Session.new Sample.quitting).Passes
        ((Session.new Sample.quitting).setting [root] true fun _ => false) r ∧
          r.interrupted = true := by
    obtain ⟨r, hstep, hi⟩ := (Option.any_eq_true _ _).mp h
    exact ⟨r, .single hstep, hi⟩
  refine ⟨session₁, e₁, session₂, e₂, heval₁, hverdict₁, ?_, heval₂, ?_⟩
  · obtain ⟨-, c, payload, -, -, -, -, hcrashed⟩ | ⟨-, -, hcleared⟩ :=
      (hobeyed 1 (hpasses 1 (by rfl))).2 20 session₁ e₁ heval₁
    · cases hverdict₁.symm.trans hcrashed
    · exact hcleared
  · obtain hcrashed | ⟨-, hstopped, -⟩ :=
      (hobeyed 2 (hpasses 2 (by rfl))).2 20 session₂ e₂ heval₂
    · exact hcrashed
    · cases hverdict₂.symm.trans hstopped

end Session

end MemoGraph
