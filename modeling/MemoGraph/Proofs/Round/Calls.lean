import MemoGraph.Proofs.Round.Accounts
import MemoGraph.Proofs.Round.Course

/-!
# The invocations of a round

Functions run one at a time, and an invocation is over before the next one begins.  So the course of
a round can be written down together with the list of its invocations: `call?` is the invocation
that the next step makes, `Ran` a sequence of steps with all that were made.  What an invocation
comes to depends on how it ends, on what it missed and on whether the round is to stop by then;
`Call.Ends` lists the cases.
-/

set_option autoImplicit false

namespace MemoGraph

variable {D : Domain}

/-- One invocation of the function of a key. -/
structure Call (D : Domain) where
  /-- The key. -/
  key : D.Key
  /-- What the function does. -/
  recipe : Recipe D
  /-- The state that it finds. -/
  found : Option (Scratch D)
  /-- The round when it begins. -/
  entered : Round D
  /-- How it ends. -/
  ending : Ending D
  /-- What it read, and the state that it leaves. -/
  inv : Invocation D
  /-- The round when it ends. -/
  left : Round D

namespace Call

/-- The invocation of the function `f` for the key `k` with the task `t`. -/
def ofTask (s : Setting D) (r : Round D) (k : D.Key) (f : Function D) (t : Task D) : Call D :=
  let (n, entered) := r.countCall s k
  let (ending, inv, left) := (f k n).run s k (.start t.scratch) entered
  { key := k, recipe := f k n, found := t.scratch, entered := entered, ending := ending,
    inv := inv, left := left }

end Call

/-- The key whose function an event says was invoked. -/
def Event.callee? : Event D → Option D.Key
  | .called k => some k
  | _ => none

theorem Event.filterMap_callee?_eq_nil {events : List (Event D)}
    (h : ∀ k, .called k ∉ events) : events.filterMap Event.callee? = [] := by
  refine List.filterMap_eq_nil_iff.mpr fun e he => ?_
  cases e with
  | called k => exact absurd he (h k)
  | enqueued k => rfl
  | completed k how => rfl

namespace Round

section Halted

variable {r : Round D}

theorem not_interrupted_of_going (hh : r.halted = false) : r.interrupted = false :=
  (Bool.or_eq_false_iff.mp hh).2

theorem aborted_of_going (hh : r.halted = false) : r.aborted = none :=
  Option.isSome_eq_false_iff.mp (Bool.or_eq_false_iff.mp hh).1 |> Option.isNone_iff_eq_none.mp

theorem halted_of_interrupted (hi : r.interrupted = true) : r.halted = true := by
  rw [halted, hi, Bool.or_true]

theorem halted_of_aborted {a : Abort D.Key} (ha : r.aborted = some a) : r.halted = true := by
  rw [halted, ha]
  rfl

end Halted

/-- The invocation that the next step makes, if it makes one. -/
def call? (s : Setting D) (r : Round D) : Option (Call D) :=
  match r.queue with
  | [] => none
  | k :: rest =>
      if r.halted then none
      else
        ((r.tasks.get? k).filter fun t => decide (t.mode = .rebuild)).bind fun t =>
          (s.registry.find? k).map fun f => .ofTask s { r with queue := rest } k f t

variable {s : Setting D} {r r' : Round D} {c : Call D}

/-- Who is invoked next, and why. -/
structure Calls (s : Setting D) (r : Round D) (rest : List D.Key) (t : Task D) (f : Function D)
    (c : Call D) : Prop where
  /-- Queued work is not skipped. -/
  going : r.halted = false
  /-- It is the turn of the key. -/
  turn : r.queue = c.key :: rest
  /-- The key is under evaluation. -/
  task : r.tasks.get? c.key = some t
  /-- It is to be rebuilt. -/
  mode : t.mode = .rebuild
  /-- It has a function. -/
  function : s.registry.find? c.key = some f
  /-- The state left by its last invocation is handed over. -/
  found : c.found = t.scratch
  /-- The call is counted and told. -/
  entered : c.entered = (({ r with queue := rest } : Round D).countCall s c.key).2
  /-- The function is carried to its end. -/
  carried : c.recipe.run s c.key (.start c.found) c.entered = (c.ending, c.inv, c.left)
  /-- This is one invocation. -/
  run : ({ r with queue := rest } : Round D).invoke s c.key f t.scratch = (c.ending, c.inv, c.left)

theorem calls_of_call? (h : r.call? s = some c) : ∃ rest t f, Calls s r rest t f c := by
  unfold call? at h
  split at h
  · cases h
  · rename_i k rest hq
    split at h
    · cases h
    · rename_i hh
      obtain ⟨t, ht, h⟩ := Option.bind_eq_some_iff.mp h
      obtain ⟨ht, hmode⟩ := Option.filter_eq_some_iff.mp ht
      obtain ⟨f, hf, rfl⟩ := Option.map_eq_some_iff.mp h
      exact ⟨rest, t, f, Bool.not_eq_true _ ▸ hh, hq, ht, of_decide_eq_true hmode, hf, rfl, rfl,
        rfl, rfl⟩

/-- A queued key that is to be rebuilt calls its function. -/
theorem call?_of_invoke (hh : r.halted = false) {k : D.Key} {rest : List D.Key}
    (hq : r.queue = k :: rest) {t : Task D} (ht : r.tasks.get? k = some t)
    (hmode : t.mode = .rebuild) {f : Function D} (hf : s.registry.find? k = some f)
    {ending : Ending D} {inv : Invocation D} {r₁ : Round D}
    (hrun : ({ r with queue := rest } : Round D).invoke s k f t.scratch = (ending, inv, r₁)) :
    ∃ c, r.call? s = some c ∧ c.key = k ∧ c.ending = ending ∧ c.inv = inv ∧ c.left = r₁ := by
  refine ⟨.ofTask s { r with queue := rest } k f t, ?_, rfl, ?_⟩
  · have hfilter : (some t).filter (fun t => decide (t.mode = .rebuild)) = some t :=
      Option.filter_eq_some_iff.mpr ⟨rfl, decide_eq_true hmode⟩
    simp only [call?, hq, hh, Bool.false_eq_true, if_false, ht, hfilter, Option.bind_some, hf,
      Option.map_some]
  · have hparts := Prod.mk.inj hrun
    exact ⟨hparts.1, (Prod.mk.inj hparts.2).1, (Prod.mk.inj hparts.2).2⟩

theorem call?_of_halted (hh : r.halted = true) : r.call? s = none := by
  unfold call?
  split
  · rfl
  · rw [if_pos hh]

/-- No function is invoked once the round is to stop. -/
theorem going_of_call? (h : r.call? s = some c) : r.halted = false := by
  obtain ⟨rest, t, f, hcalls⟩ := calls_of_call? h
  exact hcalls.going

/-- What a step can be that invokes no function. -/
inductive NoCall (s : Setting D) (r : Round D) : Round D → Prop where
  /-- a queued key is skipped, or it has completed before -/
  | skipped {k : D.Key} {rest : List D.Key} : r.queue = k :: rest →
      NoCall s r { r with queue := rest }
  /-- a key is verified -/
  | verified {k : D.Key} {rest : List D.Key} : r.queue = k :: rest →
      NoCall s r (({ r with queue := rest } : Round D).completeClean s k)
  /-- a group was read -/
  | checked {k : D.Key} {rest : List D.Key} {t : Task D} {i : Nat} {group : List D.Key}
      {waiters : OrderedSet D.Key} {seen : GroupReading D.Key} {r' : Round D} :
      Checked s { r with queue := rest } k t i group waiters seen r' →
      NoCall s r (r'.concludeGroup k { t with waiters := waiters } i seen)
  /-- the reading of a group was cut -/
  | cut {rest : List D.Key} {r' : Round D} : Reads { r with queue := rest } r' → NoCall s r r'
  /-- no function is registered -/
  | unregistered {k : D.Key} {rest : List D.Key} {t : Task D} : r.halted = false →
      r.queue = k :: rest → r.tasks.get? k = some t → t.mode = .rebuild →
      s.registry.find? k = none →
      NoCall s r (({ r with queue := rest } : Round D).abort (.missingFunction k))
  /-- the cycles that hold up the roots are broken -/
  | broken : NoCall s r (r.failMembers s (r.heldUpBy s))

theorem noCall_of_step (hcall : r.call? s = none) (hstep : r.step s = some r') : NoCall s r r' := by
  cases advance_of_step hstep with
  | skipped hq _ => exact .skipped hq
  | broken _ _ _ _ => exact .broken
  | @acted k rest _ hq hh hm =>
      have hcalled {t : Task D} {f : Function D} (htask : r.tasks.get? k = some t)
          (hmode : t.mode = .rebuild) (hf : s.registry.find? k = some f) : NoCall s r r' := by
        obtain ⟨c, hc, -⟩ := call?_of_invoke hh hq htask hmode hf rfl
        cases hcall.symm.trans hc
      cases hm with
      | idle _ => exact .skipped hq
      | verified _ _ _ => exact .verified hq
      | checked hc => exact .checked hc
      | dropped hd => exact .cut hd.reads
      | lost hl =>
          cases hl with
          | unregistered htask hmode hf => exact .unregistered hh hq htask hmode hf
          | crashed htask hmode hf _ => exact hcalled htask hmode hf
          | unread hi _ => exact hcalled hi.task hi.mode hi.function
          | idle hi _ => exact hcalled hi.task hi.mode hi.function
      | built hi _ => exact hcalled hi.task hi.mode hi.function
      | failed hi => exact hcalled hi.task hi.mode hi.function
      | blocked hi _ _ _ _ => exact hcalled hi.task hi.mode hi.function
      | waiting hi _ _ => exact hcalled hi.task hi.mode hi.function

namespace Calls

variable {rest : List D.Key} {t : Task D} {f : Function D}

theorem reads (h : Calls s r rest t f c) : Reads { r with queue := rest } c.left := by
  have hreads := reads_invoke (s := s) (k := c.key) f t.scratch ({ r with queue := rest } : Round D)
  rwa [h.run] at hreads

/-- If the round may go on after the call, its consequence is drawn. -/
theorem invoked (h : Calls s r rest t f c) (hgo : c.left.interrupted = false) :
    ∃ waiters, Invoked s { r with queue := rest } c.key t waiters f c.ending c.inv c.left := by
  obtain ⟨waiters, hkept⟩ := h.reads.kept c.key t h.task
  exact ⟨waiters, h.task, h.mode, h.function, h.run, hgo, hkept⟩

/-- The step that makes the call. -/
theorem step (h : Calls s r rest t f c) {waiters : OrderedSet D.Key}
    (hkept : c.left.tasks.get? c.key = some { t with waiters := waiters }) :
    r.step s = some (if c.left.interrupted && !c.ending.isCrash then c.left
      else c.left.conclude s c.key (Task.absorb { t with waiters := waiters } c.inv) c.inv
        c.ending) := by
  have hhalted : ({ r with queue := rest } : Round D).halted = false := h.going
  have htask : ({ r with queue := rest } : Round D).tasks.get? c.key = some t := h.task
  simp only [Round.step, h.turn, hhalted, Bool.false_eq_true, if_false, process, htask, h.mode,
    rebuild, h.function, h.run, hkept]

/-- What the invocation notes is true. -/
theorem traced (h : Calls s r rest t f c) (hg : Grounded s r) : Traced r.graph c.inv := by
  have hpop : Grounded s { r with queue := rest } := { hg with }
  have htraced := hpop.traced_invoke c.key f t.scratch
  rwa [h.run] at htraced

/-- The observer is told of the call first, and of no other call while the function runs. -/
theorem log (h : Calls s r rest t f c) :
    ∃ news, c.left.log = news ++ .called c.key :: r.log ∧ ∀ k, .called k ∉ news := by
  have hprep := Prepares.invocation s (fun _ => False) { r with queue := rest } c.key f t.scratch
  rw [h.run] at hprep
  obtain ⟨news, hlog, hnews⟩ := hprep.told
  exact ⟨news, hlog, fun k hk => (hnews _ hk).2⟩

end Calls

/-! ## What an invocation comes to -/

/-- A read finds no value because the dependency is not complete, because it failed or because the
round is to stop. -/
theorem missing_invoke (k : D.Key) (f : Function D) (scratch : Option (Scratch D))
    (h : (r.invoke s k f scratch).2.1.missing = true) :
    (r.invoke s k f scratch).2.1.awaited ≠ [] ∨ (r.invoke s k f scratch).2.1.failedReads ≠ [] ∨
      (r.invoke s k f scratch).2.2.interrupted = true := by
  refine run_induction (P := fun inv r' => inv.missing = true →
    inv.awaited ≠ [] ∨ inv.failedReads ≠ [] ∨ r'.interrupted = true) (fun _ _ _ h => h) ?_
    (fun _ _ _ h => h) (fun _ _ _ _ => .inr (.inr rfl)) _ (fun h => by cases h) h
  intro accepts d inv r' _ ih hmissing
  have hreads := reads_readOne s r' k d
  cases hreply : (r'.readOne s k d).1 with
  | value v changedAt =>
      rw [hreply] at hmissing
      exact (ih hmissing).imp_right (Or.imp_right hreads.interrupted)
  | failed e changedAt =>
      rw [hreply] at hmissing
      simp only [Invocation.note] at hmissing ⊢
      split
      · rename_i hshown
        rw [hshown] at hmissing
        exact (ih hmissing).imp_right (Or.imp_right hreads.interrupted)
      · exact .inr (.inl (List.append_ne_nil_of_right_ne_nil _ (List.cons_ne_nil _ _)))
  | pending enlisted =>
      exact .inl (List.append_ne_nil_of_right_ne_nil _ (List.cons_ne_nil _ _))
  | interrupted =>
      refine .inr (.inr (hreads.interrupted ?_))
      cases hi : r'.interrupted with
      | true => rfl
      | false =>
          cases ho : (r'.graph.node d).settled? with
          | some o =>
              rw [readOne_of_settled k d hi ho] at hreply
              cases o with
              | value v => cases hreply
              | failure e => cases hreply
          | none =>
              rw [readOne_of_unsettled k d hi ho] at hreply
              cases hreply

end Round

/-- What a step makes of the invocation of a key with the task `t`. -/
inductive Call.Ends (s : Setting D) (t : Task D) (c : Call D) : Round D → Prop where
  /-- the function crashed -/
  | crashed {payload : Payload} : c.ending = .crash payload →
      Ends s t c (c.left.abort (.crashed c.key payload))
  /-- the round is to stop by then -/
  | dropped : (∀ payload, c.ending ≠ .crash payload) → c.left.interrupted = true → Ends s t c c.left
  /-- a value although a read had found none -/
  | unread {v : D.Value} : c.left.interrupted = false → c.ending = .value v →
      c.inv.missing = true → Ends s t c (c.left.abort (.valueWithMissingDeps c.key))
  /-- no value although every read had found one -/
  | idle : c.left.interrupted = false → c.ending = .needsDeps → c.inv.missing = false →
      Ends s t c (c.left.abort (.noProgress c.key))
  /-- a value -/
  | built {v : D.Value} : c.left.interrupted = false → c.ending = .value v →
      c.inv.missing = false →
      Ends s t c (c.left.completeBuilt s c.key (t.requested.pushAll c.inv.batches) v)
  /-- a declared fault -/
  | failed {e : D.Fault} : c.left.interrupted = false → c.ending = .fault e →
      Ends s t c (c.left.completeFailed s c.key (some (t.requested.pushAll c.inv.batches))
        (Round.declaredFailure c.key e c.inv))
  /-- all that it missed has failed -/
  | blocked : c.left.interrupted = false → c.ending = .needsDeps → c.inv.missing = true →
      c.inv.failedReads ≠ [] →
      Ends s t c (c.left.completeFailed s c.key (some (t.requested.pushAll c.inv.batches))
        (.ofChildren c.key c.inv.failedReads))
  /-- it missed keys that will signal it -/
  | waiting {waiters : OrderedSet D.Key} : c.left.interrupted = false → c.ending = .needsDeps →
      c.inv.missing = true → c.inv.enlisted ≠ 0 →
      c.left.tasks.get? c.key = some { t with waiters := waiters } →
      Ends s t c (c.left.park c.key (Task.afterCall { t with waiters := waiters } c.inv))

namespace Round

variable {s : Setting D} {r r' : Round D} {c : Call D}

/-- The consequence of an invocation that wants to be run again, for the task before it. -/
theorem concludeWaiting_absorb (s : Setting D) (r : Round D) (k : D.Key) (t : Task D)
    (inv : Invocation D) : r.concludeWaiting s k (t.absorb inv) inv =
      if t.expected + inv.enlisted ≠ 0 ∨ inv.enlisted ≠ 0 then r.resumeOrPark k (t.afterCall inv)
      else if inv.failedReads.isEmpty then r.abort (.noProgress k)
      else r.completeFailed s k (some (t.requested.pushAll inv.batches))
        (.ofChildren k inv.failedReads) := rfl

/-- A function that wants to be run again waits for the keys that enlisted it; if there are none,
all that it missed has failed. -/
theorem Calls.ends_of_needsDeps {rest : List D.Key} {t : Task D} {f : Function D}
    (h : Calls s r rest t f c) (hg : Grounded s r) (ht : Tally r none 0 [])
    (hgo : c.left.interrupted = false) (hending : c.ending = .needsDeps)
    (hmissing : c.inv.missing = true) {waiters : OrderedSet D.Key}
    (hinvoked : Invoked s { r with queue := rest } c.key t waiters f c.ending c.inv c.left) :
    c.Ends s t (c.left.concludeWaiting s c.key (Task.absorb { t with waiters := waiters } c.inv)
      c.inv) := by
  have hzero : t.expected = 0 := (ht.pop h.turn h.task).expected_eq_zero h.task
  rw [concludeWaiting_absorb]
  by_cases henlisted : c.inv.enlisted = 0
  · have hexpected : t.expected + c.inv.enlisted = 0 := by omega
    have hawaited := hinvoked.awaited_eq_nil hg ht h.turn hexpected
    have hmissed := missing_invoke (s := s) (r := { r with queue := rest }) c.key f t.scratch
    rw [h.run] at hmissed
    have hfailed : c.inv.failedReads ≠ [] := by
      rcases hmissed hmissing with hnil | hfailed | hstop
      · exact absurd hawaited hnil
      · exact hfailed
      · exact absurd (hgo.symm.trans hstop) Bool.false_ne_true
    rw [if_neg (not_or.mpr ⟨Decidable.not_not.mpr hexpected, Decidable.not_not.mpr henlisted⟩),
      List.isEmpty_eq_false_iff.mpr hfailed, if_neg Bool.false_ne_true]
    exact .blocked hgo hending hmissing hfailed
  · have hparks : c.left.resumeOrPark c.key (Task.afterCall { t with waiters := waiters } c.inv) =
        c.left.park c.key (Task.afterCall { t with waiters := waiters } c.inv) := by
      refine if_neg fun hexpected => henlisted ?_
      have hexpected : t.expected + c.inv.enlisted = 0 := hexpected
      omega
    rw [if_pos (.inr henlisted)]
    refine hparks ▸ ?_
    exact .waiting hgo hending hmissing henlisted hinvoked.kept

/-- What the step that makes a call comes to. -/
theorem ends_of_call (hg : Grounded s r) (ht : Tally r none 0 []) (hcall : r.call? s = some c)
    (hstep : r.step s = some r') : ∃ t, r.tasks.get? c.key = some t ∧ c.found = t.scratch ∧
      c.Ends s t r' := by
  obtain ⟨rest, t, f, h⟩ := calls_of_call? hcall
  obtain ⟨waiters, hkept⟩ := h.reads.kept c.key t h.task
  refine ⟨t, h.task, h.found, ?_⟩
  obtain rfl := Option.some.inj ((h.step hkept).symm.trans hstep)
  cases hending : c.ending with
  | crash payload =>
      simp only [Ending.isCrash, Bool.not_true, Bool.and_false, Bool.false_eq_true, if_false]
      exact .crashed hending
  | value v =>
      cases hgo : c.left.interrupted with
      | true =>
          exact .dropped (fun _ e => by cases hending.symm.trans e) hgo
      | false =>
          simp only [Bool.false_and, Bool.false_eq_true, if_false, conclude]
          cases hmissing : c.inv.missing with
          | true => exact .unread hgo hending hmissing
          | false => exact .built hgo hending hmissing
  | fault e =>
      cases hgo : c.left.interrupted with
      | true => exact .dropped (fun _ e => by cases hending.symm.trans e) hgo
      | false =>
          simp only [Bool.false_and, Bool.false_eq_true, if_false, conclude]
          exact .failed hgo hending
  | needsDeps =>
      cases hgo : c.left.interrupted with
      | true => exact .dropped (fun _ e => by cases hending.symm.trans e) hgo
      | false =>
          simp only [Bool.false_and, Bool.false_eq_true, if_false, conclude]
          cases hmissing : c.inv.missing with
          | false => exact .idle hgo hending hmissing
          | true =>
              obtain ⟨_, hinvoked⟩ := h.invoked hgo
              exact h.ends_of_needsDeps hg ht hgo hending hmissing { hinvoked with kept := hkept }

/-- What is left of an invocation: nothing, as the round is to stop, a completed key, or a task that
waits. -/
inductive Leads (s : Setting D) (t : Task D) (c : Call D) : Round D → Prop where
  /-- the round is to stop, and the key keeps its task -/
  | stopped {r' : Round D} : r'.halted = true → r'.tasks = c.left.tasks → r'.log = c.left.log →
      Leads s t c r'
  /-- the key completes and records what was requested -/
  | completed {how : Completion} {r' : Round D} : Completes s c.key how c.left r' →
      (r'.graph.node c.key).deps = t.requested.pushAll c.inv.batches → Leads s t c r'
  /-- the key waits -/
  | waiting {waiters : OrderedSet D.Key} :
      Leads s t c (c.left.park c.key (Task.afterCall { t with waiters := waiters } c.inv))

theorem leads_of_ends {t : Task D} (h : c.Ends s t r') : Leads s t c r' := by
  have haborts (a : Abort D.Key) : Leads s t c (c.left.abort a) :=
    .stopped (halted_of_aborted (r := c.left.abort a) rfl) rfl rfl
  cases h with
  | crashed _ => exact haborts _
  | dropped _ hi => exact .stopped (halted_of_interrupted hi) rfl rfl
  | unread _ _ _ => exact haborts _
  | idle _ _ _ => exact haborts _
  | built _ _ _ =>
      obtain ⟨how, -, -, hc⟩ := completes_built s c.left c.key (t.requested.pushAll c.inv.batches) _
      exact .completed hc (by rw [graph_completeBuilt, Graph.deps_setDeps_publish])
  | failed _ _ =>
      exact .completed (completes_failed s _ _ _ _)
        (by rw [graph_completeFailed, Graph.deps_setDeps_publish])
  | blocked _ _ _ _ =>
      exact .completed (completes_failed s _ _ _ _)
        (by rw [graph_completeFailed, Graph.deps_setDeps_publish])
  | waiting _ _ _ _ _ => exact .waiting

/-! ## The invocations of several steps -/

/-- The steps from one round to another, with the invocations that they made, in order. -/
inductive Ran (s : Setting D) (start : Round D) : List (Call D) → Round D → Prop where
  /-- no step yet -/
  | begin : Ran s start [] start
  /-- one more step -/
  | step {calls : List (Call D)} {r r' : Round D} : Ran s start calls r → r.step s = some r' →
      Ran s start (calls ++ (r.call? s).toList) r'

namespace Ran

variable {start : Round D} {calls : List (Call D)}

theorem reaches (h : Ran s start calls r) : Reaches s start r := by
  induction h with
  | begin => exact .refl
  | step _ hstep ih => exact ih.tail hstep

theorem trans {more : List (Call D)} (h : Ran s start calls r) (h' : Ran s r more r') :
    Ran s start (calls ++ more) r' := by
  induction h' with
  | begin => simpa using h
  | step _ hstep ih => simpa using ih.step hstep

/-- A step that makes an invocation. -/
theorem call (h : Ran s start calls r) (hcall : r.call? s = some c) (hstep : r.step s = some r') :
    Ran s start (calls ++ [c]) r' := by
  have hmore := h.step hstep
  rwa [hcall] at hmore

/-- Every invocation was made by a step. -/
theorem of_mem (h : Ran s start calls r) (hc : c ∈ calls) :
    ∃ before r₀, Ran s start before r₀ ∧ r₀.call? s = some c := by
  induction h with
  | begin => cases hc
  | @step calls r _ hran _ ih =>
      rcases List.mem_append.mp hc with hc | hc
      · exact ih hc
      · exact ⟨calls, r, hran, Option.mem_toList.mp hc⟩

end Ran

/-- The round after a number of steps, if it takes as many, and the invocations that they made. -/
def trace (s : Setting D) (start : Round D) : Nat → Option (List (Call D) × Round D)
  | 0 => some ([], start)
  | n + 1 => (trace s start n).bind fun (calls, r) =>
      (r.step s).map fun r' => (calls ++ (r.call? s).toList, r')

theorem ran_iff_trace {start : Round D} {calls : List (Call D)} :
    Ran s start calls r ↔ ∃ n, trace s start n = some (calls, r) := by
  constructor
  · intro h
    induction h with
    | begin => exact ⟨0, rfl⟩
    | step _ hstep ih =>
        obtain ⟨n, hn⟩ := ih
        exact ⟨n + 1, by simp only [trace, hn, Option.bind_some, hstep, Option.map_some]⟩
  · rintro ⟨n, hn⟩
    induction n generalizing calls r with
    | zero =>
        obtain ⟨rfl, rfl⟩ := Prod.mk.inj (Option.some.inj hn)
        exact .begin
    | succ n ih =>
        obtain ⟨⟨calls, r⟩, hprev, hlast⟩ := Option.bind_eq_some_iff.mp hn
        obtain ⟨r', hstep, he⟩ := Option.map_eq_some_iff.mp hlast
        obtain ⟨rfl, rfl⟩ := Prod.mk.inj he
        exact (ih hprev).step hstep

/-- What follows from an invocation tells of no further one. -/
theorem log_of_ends {t : Task D} (h : c.Ends s t r') :
    ∃ news, r'.log = news ++ c.left.log ∧ ∀ k, .called k ∉ news := by
  cases leads_of_ends h with
  | stopped _ _ hlog => exact ⟨[], hlog, fun _ => List.not_mem_nil⟩
  | @completed how _ hc _ =>
      exact ⟨[.completed c.key how], hc.log, fun k hk => by cases List.mem_singleton.mp hk⟩
  | waiting => exact ⟨[], rfl, fun _ => List.not_mem_nil⟩

section Reached

variable {graph : Graph D} {counts : Table D.Key Nat}

/-- The observer is told of the invocation that a step makes before it is told of anything else, and
of no other invocation. -/
theorem log_of_step (hr : Reaches s (Round.start s graph counts) r) (hg : Grounded s r)
    (hstep : r.step s = some r') :
    ∃ news, r'.log = news ++ (r.call? s).toList.map (fun c => .called c.key) ++ r.log ∧
      ∀ k, .called k ∉ news := by
  have htally := tally_of_reaches hr
  cases hcall : r.call? s with
  | some c =>
      obtain ⟨rest, t, f, h⟩ := calls_of_call? hcall
      obtain ⟨_, -, -, hends⟩ :=
        ends_of_call hg (htally.resolve_left (by simp [h.going])) hcall hstep
      obtain ⟨before, hleft, hbefore⟩ := h.log
      obtain ⟨after, hlog, hafter⟩ := log_of_ends hends
      refine ⟨after ++ before, ?_, fun k hk => ?_⟩
      · rw [hlog, hleft, List.append_assoc, List.append_assoc]
        rfl
      · exact (List.mem_append.mp hk).elim (hafter k) (hbefore k)
  | none =>
      obtain ⟨news, hlog, hnews⟩ :=
        (course_of_step (.of_reaches hr) (sought_of_reaches hr) htally hstep).told
      refine ⟨news, by rw [hlog]; simp, fun k hk => ?_⟩
      -- A key that is to be rebuilt and calls no function has none.
      obtain ⟨hh, ⟨rest, hq⟩, t, ht, hmode⟩ := hnews k hk
      have hnone : s.registry.find? k = none := by
        cases hf : s.registry.find? k with
        | none => rfl
        | some f =>
            obtain ⟨c, hc, -⟩ := call?_of_invoke hh hq ht hmode hf rfl
            cases hcall.symm.trans hc
      have hpop : ({ r with queue := rest } : Round D).halted = false := hh
      have htask : ({ r with queue := rest } : Round D).tasks.get? k = some t := ht
      simp only [step, hq, hpop, Bool.false_eq_true, if_false, process, htask, hmode, rebuild,
        hnone, Option.some.injEq] at hstep
      obtain rfl := hstep
      have hnil : news = [] := List.append_left_eq_self.mp hlog.symm
      rw [hnil] at hk
      cases hk

/-- The invocations of a round are those that its observer is told of. -/
theorem Ran.told (hg : ∀ r, Reaches s (Round.start s graph counts) r → Grounded s r)
    {calls : List (Call D)} (h : Ran s (Round.start s graph counts) calls r) :
    r.log.filterMap Event.callee? = (calls.map Call.key).reverse := by
  induction h with
  | begin =>
      refine Event.filterMap_callee?_eq_nil ?_
      refine start_induction (P := fun r : Round D => ∀ k, .called k ∉ r.log)
        (fun k hk => by cases hk) fun k _ r hr x hx => ?_
      obtain ⟨news, hlog, hnews⟩ := (Prepares.demand s (fun _ => False) r k).told
      rw [hlog, List.mem_append] at hx
      exact hx.elim (fun hx => (hnews _ hx).2) (hr x)
  | @step calls r r' hran hstep ih =>
      obtain ⟨news, hlog, hnews⟩ := log_of_step hran.reaches (hg _ hran.reaches) hstep
      rw [hlog, List.filterMap_append, List.filterMap_append,
        Event.filterMap_callee?_eq_nil hnews, ih]
      cases r.call? s with
      | none => simp
      | some c => simp [Event.callee?]

end Reached

end Round

end MemoGraph
