import MemoGraph.Proofs.Crew.Completing
import MemoGraph.Proofs.Round.Interrupts

/-!
# One worker alone: actions

A key takes one action when a worker takes it from the queue.  A round of one worker puts a key that
can go on at the front of the queue, while a worker goes on with it at once; so after an action a
worker stands where the round is if it is idle or in the middle of the key at the front.  From each
stage of an action somebody who works alone gets to where the round is after this action.
-/

set_option autoImplicit false

namespace MemoGraph

variable {D : Domain} {s : Setting D}

/-- How a worker goes on with a key that has the task `t`, while its entry holds what `f` makes of
it. -/
inductive Continues (k : D.Key) (t : Task D) : (Task D → Task D) → Stage D → Prop where
  /-- it looks how -/
  | processing : Continues k t id (.processing k)
  /-- with a recorded group -/
  | checking {i : Nat} (m : Mode) : t.mode = .check i →
      Continues k t (fun t => { t with mode := m }) (.checking k i)
  /-- with its function -/
  | calling : t.mode = .rebuild → Continues k t id (.calling k)

/-- A worker at the given stage stands where the round is. -/
inductive Stands (l : Live D) : Stage D → Round D → Prop where
  /-- done with a key -/
  | rests {r : Round D} : Reflects asKept l r → Stands l .idle r
  /-- done with all keys, since the round is to stop -/
  | skips {r : Round D} {k : D.Key} {f : Task D → Task D} : r.halted = true →
      Reflects (inHand k f) l r → Stands l .idle r
  /-- about to go on with the key at the front of the queue -/
  | continues {r : Round D} {k : D.Key} {t : Task D} {f : Task D → Task D} {st : Stage D} :
      r.halted = false → r.tasks.get? k = some t → Reflects (inHand k f) l r →
      Continues k t f st → Stands l st { r with queue := k :: r.queue }

/-- Working alone leads to where the round is. -/
def Achieves (s : Setting D) (x : Live D × Stage D) (r : Round D) : Prop :=
  ∃ l st, Works s x (l, st) ∧ Stands l st r

namespace Achieves

variable {l : Live D} {st : Stage D} {r : Round D} {y : Live D × Stage D}

theorem here (h : Stands l st r) : Achieves s (l, st) r := ⟨l, st, .refl, h⟩

/-- One step, and more. -/
theorem step (hbusy : st.isIdle = false) (hstep : st.step s l = y) (h : Achieves s y r) :
    Achieves s (l, st) r := by
  obtain ⟨l', st', hworks, h'⟩ := h
  exact ⟨l', st', hworks.step hbusy hstep, h'⟩

end Achieves

theorem ComesTo.achieves {x : Live D × Stage D} {st : Stage D} {view : D.Key → Task D → Task D}
    {r r' : Round D} (h : ComesTo s x st view r)
    (hnext : ∀ {l : Live D}, Reflects view l r → Achieves s (l, st) r') : Achieves s x r' := by
  obtain ⟨l, hworks, h⟩ := h
  obtain ⟨l', st', hworks', h'⟩ := hnext h
  exact ⟨l', st', hworks.trans hworks', h'⟩

namespace Reflects

variable {l : Live D} {r : Round D} {k : D.Key} {t : Task D} {f : Task D → Task D}

/-- A crash or a broken rule gives the round up. -/
theorem doomed (h : Reflects (inHand k f) l r) (habort : r.aborted = none) (a : Abort D.Key) :
    Achieves s (l, .dooming a) (r.abort a) :=
  (h.from_dooming habort a).achieves fun h => .here (.skips rfl h)

/-! ## Running the function -/

/-- An invocation wants to be run again. -/
theorem from_concludeWaiting (h : Reflects (inHand k f) l r) (hgo : r.halted = false)
    (ht : r.tasks.get? k = some t) (inv : Invocation D) {t' : Task D} (hmode : t'.mode = .rebuild)
    (hwaiters : t'.waiters = t.waiters) :
    Achieves s (l.concludeWaiting k t' inv) (r.concludeWaiting s k t' inv) := by
  let t₂ : Task D := { t' with expected := t'.expected + inv.enlisted }
  by_cases hexpected : t₂.expected = 0
  · have hwaits : (t₂.expected ≠ 0 ∨ inv.enlisted ≠ 0) ↔ inv.enlisted ≠ 0 :=
      or_iff_right (not_not.mpr hexpected)
    by_cases henlisted : inv.enlisted = 0
    · have hround : r.concludeWaiting s k t' inv = if inv.failedReads.isEmpty then
          r.abort (.noProgress k)
          else r.completeFailed s k (some t'.requested) (.ofChildren k inv.failedReads) :=
        if_neg (mt hwaits.mp (not_not.mpr henlisted))
      have hlive : l.concludeWaiting k t' inv = if inv.failedReads.isEmpty then
          (l.retask k t₂, .dooming (.noProgress k))
          else (l.retask k { t₂ with requested := ∅ },
            .recording k t'.requested (.failure (.ofChildren k inv.failedReads)) .idle) :=
        (if_neg (not_not.mpr hexpected)).trans (if_neg (not_not.mpr henlisted))
      rw [hround, hlive]
      split
      · exact (h.keep ht fun _ => t₂).doomed (Round.aborted_of_going hgo) (.noProgress k)
      · have hkept (t₁ : Task D) (ht₁ : r.tasks.get? k = some t₁) : t'.waiters = t₁.waiters :=
          hwaiters.trans (congrArg Task.waiters (Option.some.inj (ht.symm.trans ht₁)))
        exact ((h.keep ht fun _ => { t₂ with requested := ∅ }).from_recording_failure hkept
          t'.requested (.ofChildren k inv.failedReads) .idle).achieves fun h => .here (.rests h)
    · have hround : r.concludeWaiting s k t' inv = r.resume k t₂ :=
        (if_pos (hwaits.mpr henlisted)).trans (if_pos hexpected)
      have hlive : l.concludeWaiting k t' inv = (l.retask k t₂, .calling k) :=
        (if_neg (not_not.mpr hexpected)).trans (if_pos henlisted)
      rw [hround, hlive]
      exact .here (.continues (r := r.putTask k t₂) hgo (Table.get?_insert_self _ _ _)
        (h.retask ht id t₂) (.calling hmode))
  · have hround : r.concludeWaiting s k t' inv = r.park k t₂ :=
      (if_pos (.inl hexpected)).trans (if_neg hexpected)
    have hlive : l.concludeWaiting k t' inv = (l.retask k { t₂ with active := false }, .idle) :=
      if_pos hexpected
    rw [hround, hlive]
    have hparked := h.retask ht id { t₂ with active := false }
    rw [inHand_id] at hparked
    exact .here (.rests hparked)

/-- An invocation has its consequence. -/
theorem from_conclude (h : Reflects (inHand k f) l r) (hgo : r.halted = false)
    (ht : r.tasks.get? k = some t) (hmode : t.mode = .rebuild) (inv : Invocation D)
    (hsame : (f t).absorb inv = t.absorb inv) (ending : Ending D) :
    Achieves s (l.conclude k inv ending) (r.conclude s k (t.absorb inv) inv ending) := by
  have htask := h.task_of_get? ht
  have habort := Round.aborted_of_going hgo
  have hkept (t₁ : Task D) (ht₁ : r.tasks.get? k = some t₁) :
      (t.absorb inv).waiters = t₁.waiters := by
    rw [← Option.some.inj (ht.symm.trans ht₁)]
    rfl
  have hrecorded := h.keep ht fun _ => { t.absorb inv with requested := ∅ }
  cases ending with
  | crash payload =>
      simp only [Live.conclude, htask]
      exact h.doomed habort (.crashed k payload)
  | fault e =>
      simp only [Live.conclude, htask, hsame]
      exact (hrecorded.from_recording_failure hkept (t.absorb inv).requested
        (Round.declaredFailure k e inv) .idle).achieves fun h => .here (.rests h)
  | value v =>
      simp only [Live.conclude, htask, hsame, Round.conclude]
      split
      · exact (h.keep ht fun _ => t.absorb inv).doomed habort (.valueWithMissingDeps k)
      · exact (hrecorded.from_recording_value hkept (t.absorb inv).requested v .idle).achieves
          fun h => .here (.rests h)
  | needsDeps =>
      simp only [Live.conclude, htask, hsame, Round.conclude]
      split
      · exact h.from_concludeWaiting hgo ht inv hmode rfl
      · exact (h.keep ht fun _ => t.absorb inv).doomed habort (.noProgress k)

/-- The worker takes the state that the last invocation left out of the entry, and invokes the
function. -/
theorem from_invoking (h : Reflects asKept l r) (ht : r.tasks.get? k = some t)
    {function : Function D} (hf : s.registry.find? k = some function) :
    ComesTo s (l, .calling k)
      ((r.invoke s k function t.scratch).1.stage k (r.invoke s k function t.scratch).2.1)
      (inHand k fun t => { t with scratch := none }) (r.invoke s k function t.scratch).2.2 := by
  let forget (t : Task D) : Task D := { t with scratch := none }
  have hforget : Reflects (inHand k forget) (l.retask k (forget t)) r := by
    rw [← inHand_id k] at h
    exact h.keep ht forget
  have htake : (l.entry k).retask forget = (l.entry k).retask fun _ => forget t := by
    rw [h.entry, ht]
    rfl
  have hscratch : (l.entry k).task?.bind Task.scratch = t.scratch := by
    rw [h.task_eq, ht]
    rfl
  have hfetch : (Stage.calling k).step s l =
      (l.retask k (forget t), .invoking k function t.scratch) := by
    simp only [Stage.step, hf, hscratch]
    exact congrArg (fun e => (l.put k e, Stage.invoking k function t.scratch)) htake
  have hrun := (hforget.count (s := s) k).from_running (s := s)
    (keepsWaiters_inHand k fun _ _ => rfl) (Round.contains_of_get? ht)
    (function k (r.countCall s k).1) (.start t.scratch)
  refine .step rfl hfetch (.step rfl ?_ hrun)
  simp only [Stage.step, Round.countCall, ← h.calls]
  rfl

/-- What an invocation did is dropped if the round is to stop, except that a crash counts. -/
theorem from_ending (h : Reflects (inHand k fun t => { t with scratch := none }) l r)
    (habort : r.aborted = none) (ht : r.tasks.get? k = some t) (hmode : t.mode = .rebuild)
    (inv : Invocation D) (ending : Ending D) :
    Achieves s (l, ending.stage k inv)
      (if r.interrupted && !ending.isCrash then r
        else r.conclude s k (t.absorb inv) inv ending) := by
  have hreturned (hcrash : ending.isCrash = false) : Achieves s (l, .returned k inv ending)
      (if r.interrupted && !ending.isCrash then r
        else r.conclude s k (t.absorb inv) inv ending) := by
    rw [hcrash]
    cases hi : r.interrupted with
    | true =>
        refine .step rfl ?_ (.here (.skips (Round.halted_of_interrupted hi) h))
        simp [Stage.step, h.interrupted, hi]
    | false =>
        have hgo : r.halted = false := by
          rw [Round.halted, habort, hi]
          rfl
        have hstep : (Stage.returned k inv ending).step s l = (l, .concluding k inv ending) := by
          simp [Stage.step, h.interrupted, hi]
        exact .step rfl hstep (.step rfl rfl (h.from_conclude hgo ht hmode inv rfl ending))
  cases ending with
  | crash payload =>
      have hcounts : (r.interrupted && !(Ending.crash payload : Ending D).isCrash) = false :=
        Bool.and_false _
      rw [hcounts]
      exact h.doomed habort (.crashed k payload)
  | value v => exact hreturned rfl
  | needsDeps => exact hreturned rfl
  | fault e => exact hreturned rfl

/-- The function of a key is run. -/
theorem from_calling (h : Reflects asKept l r) (hgo : r.halted = false)
    (ht : r.tasks.get? k = some t) (hmode : t.mode = .rebuild) :
    Achieves s (l, .calling k) (r.rebuild s k t) := by
  have habort := Round.aborted_of_going hgo
  unfold Round.rebuild
  cases hf : s.registry.find? k with
  | none =>
      rw [← inHand_id k] at h
      refine .step rfl ?_ (h.doomed habort (.missingFunction k))
      simp only [Stage.step, hf]
  | some function =>
      have hinvoke := h.from_invoking ht hf
      have hreads := Round.reads_invoke (s := s) (k := k) function t.scratch r
      dsimp only
      generalize r.invoke s k function t.scratch = ran at hinvoke hreads ⊢
      obtain ⟨ending, inv, r₁⟩ := ran
      obtain ⟨waiters, hkept⟩ := hreads.kept k t ht
      simp only at hkept hinvoke ⊢
      simp only [hkept]
      exact hinvoke.achieves fun h =>
        h.from_ending (hreads.aborted.trans habort) hkept hmode inv ending

/-! ## Checking a group -/

/-- A group that was read has its consequence. -/
theorem from_judging {m : Mode} (h : Reflects (inHand k fun t => { t with mode := m }) l r)
    (habort : r.aborted = none) (ht : r.tasks.get? k = some t) (i : Nat)
    {g : GroupReading D.Key} (hgo : g.enlisted = 0 → r.interrupted = false)
    (hle : g.enlisted ≤ g.waiting.length) (hzero : t.expected = 0) :
    Achieves s (l, .judging k i g) (r.concludeGroup k t i g) := by
  have htask := h.task_of_get? ht
  let t₁ : Task D := { t with
    awaited := t.awaited.insertAll g.waiting
    expected := t.expected + g.enlisted }
  have hsum : t₁.expected = 0 ↔ g.enlisted = 0 := by
    change t.expected + (g.enlisted : Int) = 0 ↔ g.enlisted = 0
    omega
  have hresume (t' : Task D) (henlisted : g.enlisted = 0) {f : Task D → Task D} {st : Stage D}
      (hst : Continues k t' f st) : Achieves s (l.retask k (f t'), st) (r.resume k t') := by
    have hgoing : r.halted = false := by
      rw [Round.halted, habort, hgo henlisted]
      rfl
    exact .here (.continues (r := r.putTask k t') hgoing (Table.get?_insert_self _ _ _)
      (h.retask ht f t') hst)
  have hpark (t' : Task D) :
      Achieves s (l.retask k { t' with active := false }, .idle) (r.park k t') := by
    have hparked := h.retask ht id { t' with active := false }
    rw [inHand_id] at hparked
    exact .here (.rests hparked)
  have hjudge {y : Live D × Stage D} {r' : Round D} (hlive : l.judge k i g = y)
      (hround : r.concludeGroup k t i g = r') (h' : Achieves s y r') :
      Achieves s (l, .judging k i g) (r.concludeGroup k t i g) :=
    hround ▸ .step rfl hlive h'
  by_cases hchanged : g.changed = true
  · let t₂ : Task D := { t₁ with mode := .rebuild }
    by_cases hexpected : t₁.expected = 0
    · refine hjudge ?_ ((if_pos hchanged).trans (if_pos hexpected))
        (hresume t₂ (hsum.mp hexpected) .processing)
      simp only [Live.judge, htask]
      exact (if_pos hchanged).trans (if_pos hexpected)
    · refine hjudge ?_ ((if_pos hchanged).trans (if_neg hexpected)) (hpark t₂)
      simp only [Live.judge, htask]
      exact (if_pos hchanged).trans (if_neg hexpected)
  · by_cases hwaiting : g.waiting.isEmpty = true
    · have henlisted : g.enlisted = 0 := by
        rw [List.isEmpty_iff.mp hwaiting] at hle
        exact Nat.le_zero.mp hle
      refine hjudge ?_ ((if_neg hchanged).trans (if_pos hwaiting))
        (hresume { t₁ with mode := .check (i + 1) } henlisted (.checking m rfl))
      simp only [Live.judge, htask]
      exact (if_neg hchanged).trans (if_pos hwaiting)
    · let t₂ : Task D := { t₁ with mode := .check i }
      by_cases hexpected : t₁.expected = 0
      · refine hjudge ?_ ((if_neg hchanged).trans ((if_neg hwaiting).trans (if_pos hexpected)))
          (hresume t₂ (hsum.mp hexpected) (.checking m rfl))
        simp only [Live.judge, htask]
        exact (if_neg hchanged).trans ((if_neg hwaiting).trans (if_pos hexpected))
      · refine hjudge ?_ ((if_neg hchanged).trans ((if_neg hwaiting).trans (if_neg hexpected)))
          (hpark t₂)
        simp only [Live.judge, htask]
        exact (if_neg hchanged).trans ((if_neg hwaiting).trans (if_neg hexpected))

/-- A recorded group of a key is checked, or the key is confirmed if there is none left. -/
theorem from_checking {m : Mode} (h : Reflects (inHand k fun t => { t with mode := m }) l r)
    (hgo : r.halted = false) (ht : r.tasks.get? k = some t) {i : Nat} (hmode : t.mode = .check i)
    (hzero : t.expected = 0) : Achieves s (l, .checking k i) (r.process s k) := by
  have hdeps : (l.entry k).deps = (r.graph.node k).deps := by rw [h.entry, Entry.deps_join]
  have hsince : (l.entry k).evaluatedAt = (r.graph.node k).evaluatedAt := by
    rw [h.entry, Entry.evaluatedAt_join]
  cases hg : (r.graph.node k).deps.group? i with
  | none =>
      have hprocess : r.process s k = r.completeClean s k := by
        simp only [Round.process, ht, hmode, hg]
      rw [hprocess]
      refine .step rfl ?_ ((h.from_confirming fun _ _ => rfl).achieves fun h => .here (.rests h))
      simp only [Stage.step, hdeps, hg]
  | some group =>
      have hprocess : r.process s k = r.checkGroup s k i group := by
        simp only [Round.process, ht, hmode, hg]
      have hstep : (Stage.checking k i : Stage D).step s l =
          (l, .reading k (.group i (r.graph.node k).evaluatedAt .start) group) := by
        simp only [Stage.step, hdeps, hsince, hg]
      have hread := h.from_reading_group (s := s) (keepsWaiters_inHand k fun _ _ => rfl)
        (Round.contains_of_get? ht) i (r.graph.node k).evaluatedAt group (g := .start) rfl
      have hreads := Round.reads_readGroup (s := s) (k := k) (r.graph.node k).evaluatedAt group
        .start r
      have hcut := Round.cut_readGroup (s := s) (k := k) (r.graph.node k).evaluatedAt group r
      have hle := Round.enlisted_readGroup s k (r.graph.node k).evaluatedAt group r
      have hstop := Round.enlisted_of_interrupted s k (r.graph.node k).evaluatedAt group
        (Round.not_interrupted_of_going hgo)
      rw [hprocess, Round.checkGroup]
      generalize Round.readGroup s k (r.graph.node k).evaluatedAt group .start r = seen
        at hread hreads hcut hle hstop ⊢
      obtain ⟨g, r₁⟩ := seen
      obtain ⟨waiters, hkept⟩ := hreads.kept k t ht
      simp only at hread hcut hle hstop hkept ⊢
      refine .step rfl hstep (hread.achieves fun h => ?_)
      cases hc : g.cut with
      | true => exact .here (.skips (Round.halted_of_interrupted (hcut hc)) h)
      | false =>
          simp only [Bool.false_eq_true, if_false, hkept]
          have hgoing (henlisted : g.enlisted = 0) : r₁.interrupted = false :=
            Bool.eq_false_iff.mpr fun hi => hstop hi henlisted
          exact h.from_judging (hreads.aborted.trans (Round.aborted_of_going hgo)) hkept i hgoing
            hle hzero

/-- A key takes its next action. -/
theorem from_continuing (h : Reflects (inHand k f) l r) (hgo : r.halted = false)
    (ht : r.tasks.get? k = some t) (hzero : t.expected = 0) {st : Stage D}
    (hst : Continues k t f st) : Achieves s (l, st) (r.process s k) := by
  have hprocess (hmode : t.mode = .rebuild) : r.process s k = r.rebuild s k t := by
    simp only [Round.process, ht, hmode]
  cases hst with
  | checking m hmode => exact h.from_checking hgo ht hmode hzero
  | calling hmode =>
      rw [inHand_id] at h
      rw [hprocess hmode]
      exact h.from_calling hgo ht hmode
  | processing =>
      have htask := h.task_of_get? ht
      rw [inHand_id] at h
      cases hmode : t.mode with
      | rebuild =>
          rw [hprocess hmode]
          refine .step rfl ?_ (h.from_calling hgo ht hmode)
          simp only [Stage.step, htask, id, hmode]
      | check i =>
          have hslack : Reflects (inHand k fun t => { t with mode := .check i }) l r := by
            refine h.congr rfl rfl (fun _ => rfl) fun x => ?_
            by_cases hx : x = k
            · rw [hx, ht, inHand_self]
              simp [asKept, ← hmode]
            · exact congrFun (congrArg Option.map (funext fun t => inHand_of_ne hx _ t)) _
          refine .step rfl ?_ (hslack.from_checking hgo ht hmode hzero)
          simp only [Stage.step, htask, id, hmode]

end Reflects

end MemoGraph
