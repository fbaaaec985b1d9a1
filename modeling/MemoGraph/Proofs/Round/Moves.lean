import MemoGraph.Proofs.Round.Signals
import MemoGraph.Round.Run

/-!
# What a step can do

A step of a round lets one queued key act or fails all members of the cycles that hold up the roots.
`Move` lists everything that one key's action can come to, each with the facts under which it
happens, so that an invariant is carried through a round by one case for each.
-/

set_option autoImplicit false

namespace MemoGraph

variable {D : Domain}

/-- How a key goes on after the group at position `i` was read. -/
def GroupReading.nextMode {K : Type} (seen : GroupReading K) (i : Nat) : Mode :=
  if seen.changed then .rebuild else if seen.waiting.isEmpty then .check (i + 1) else .check i

/-- Only a change makes a key rebuild. -/
theorem GroupReading.changed_of_nextMode {K : Type} {seen : GroupReading K} {i : Nat}
    (h : seen.nextMode i = .rebuild) : seen.changed = true := by
  unfold nextMode at h
  split at h
  · assumption
  · split at h
    · cases h
    · cases h

/-- The task of a key after it read a recorded group. -/
def Task.afterGroup (t : Task D) (i : Nat) (seen : GroupReading D.Key) : Task D :=
  { t with
    mode := seen.nextMode i
    awaited := t.awaited.insertAll seen.waiting
    expected := t.expected + seen.enlisted }

/-- The task of a key after an invocation that waits. -/
def Task.afterCall (t : Task D) (inv : Invocation D) : Task D :=
  { t.absorb inv with expected := t.expected + inv.enlisted }

namespace Round

/-- The key `k`, being checked, read the group at position `i` without a cut. -/
structure Checked (s : Setting D) (r : Round D) (k : D.Key) (t : Task D) (i : Nat)
    (group : List D.Key) (waiters : OrderedSet D.Key) (seen : GroupReading D.Key)
    (r' : Round D) : Prop where
  /-- The task before. -/
  task : r.tasks.get? k = some t
  /-- It was checking that group. -/
  mode : t.mode = .check i
  /-- The group is recorded. -/
  listed : (r.graph.node k).deps.group? i = some group
  /-- The reading. -/
  read : readGroup s k (r.graph.node k).evaluatedAt group .start r = (seen, r')
  /-- It was not cut. -/
  uncut : seen.cut = false
  /-- The task is still there, with more waiters perhaps. -/
  kept : r'.tasks.get? k = some { t with waiters := waiters }

/-- The function of the key `k` was invoked once and the round is not to stop. -/
structure Invoked (s : Setting D) (r : Round D) (k : D.Key) (t : Task D)
    (waiters : OrderedSet D.Key) (f : Function D) (ending : Ending D) (inv : Invocation D)
    (r' : Round D) : Prop where
  /-- The task before. -/
  task : r.tasks.get? k = some t
  /-- It was rebuilding. -/
  mode : t.mode = .rebuild
  /-- The function. -/
  function : s.registry.find? k = some f
  /-- The invocation. -/
  run : r.invoke s k f t.scratch = (ending, inv, r')
  /-- The round is not to stop. -/
  going : r'.interrupted = false
  /-- The task is still there, with more waiters perhaps. -/
  kept : r'.tasks.get? k = some { t with waiters := waiters }

/-- The reasons for which the action of a key gives the round up. -/
inductive Lost (s : Setting D) (r : Round D) (k : D.Key) : Round D → Abort D.Key → Prop where
  /-- no function is registered -/
  | unregistered {t : Task D} : r.tasks.get? k = some t → t.mode = .rebuild →
      s.registry.find? k = none → Lost s r k r (.missingFunction k)
  /-- the function crashed -/
  | crashed {t : Task D} {f : Function D} {payload : Payload} {inv : Invocation D}
      {r' : Round D} : r.tasks.get? k = some t → t.mode = .rebuild →
      s.registry.find? k = some f → r.invoke s k f t.scratch = (.crash payload, inv, r') →
      Lost s r k r' (.crashed k payload)
  /-- the function ended with a value although a read had found none -/
  | unread {t : Task D} {waiters : OrderedSet D.Key} {f : Function D} {v : D.Value}
      {inv : Invocation D} {r' : Round D} : Invoked s r k t waiters f (.value v) inv r' →
      inv.missing = true → Lost s r k r' (.valueWithMissingDeps k)
  /-- the function waits for nothing -/
  | idle {t : Task D} {waiters : OrderedSet D.Key} {f : Function D} {inv : Invocation D}
      {r' : Round D} : Invoked s r k t waiters f .needsDeps inv r' →
      (inv.missing = true → t.expected + inv.enlisted = 0 ∧ inv.enlisted = 0 ∧
        inv.failedReads = []) → Lost s r k r' (.noProgress k)

/-- The action of a key ends in a round that is to stop. -/
inductive Dropped (s : Setting D) (r : Round D) (k : D.Key) : Round D → Prop where
  /-- while it reads a recorded group -/
  | cut {t : Task D} {i : Nat} {group : List D.Key} {seen : GroupReading D.Key} {r' : Round D} :
      r.tasks.get? k = some t → t.mode = .check i →
      readGroup s k (r.graph.node k).evaluatedAt group .start r = (seen, r') →
      r'.interrupted = true → Dropped s r k r'
  /-- by the time its function ends -/
  | called {t : Task D} {f : Function D} {ending : Ending D} {inv : Invocation D}
      {r' : Round D} : r.tasks.get? k = some t → t.mode = .rebuild →
      s.registry.find? k = some f → r.invoke s k f t.scratch = (ending, inv, r') →
      r'.interrupted = true → Dropped s r k r'

/-- What the action of a key can come to. -/
inductive Move (s : Setting D) (r : Round D) (k : D.Key) : Round D → Prop where
  /-- the key has completed before -/
  | idle : r.tasks.get? k = none → Move s r k r
  /-- every recorded group is unchanged -/
  | verified {t : Task D} {i : Nat} : r.tasks.get? k = some t → t.mode = .check i →
      (r.graph.node k).deps.group? i = none → Move s r k (r.completeClean s k)
  /-- a group was read -/
  | checked {t : Task D} {i : Nat} {group : List D.Key} {waiters : OrderedSet D.Key}
      {seen : GroupReading D.Key} {r' : Round D} : Checked s r k t i group waiters seen r' →
      Move s r k (r'.concludeGroup k { t with waiters := waiters } i seen)
  /-- the round is to stop, so what was read is dropped -/
  | dropped {r' : Round D} : Dropped s r k r' → Move s r k r'
  /-- the round is given up -/
  | lost {r' : Round D} {a : Abort D.Key} : Lost s r k r' a → Move s r k (r'.abort a)
  /-- the function ended with a value -/
  | built {t : Task D} {waiters : OrderedSet D.Key} {f : Function D} {v : D.Value}
      {inv : Invocation D} {r' : Round D} : Invoked s r k t waiters f (.value v) inv r' →
      inv.missing = false →
      Move s r k (r'.completeBuilt s k (t.requested.pushAll inv.batches) v)
  /-- the function ended with a declared fault -/
  | failed {t : Task D} {waiters : OrderedSet D.Key} {f : Function D} {e : D.Fault}
      {inv : Invocation D} {r' : Round D} : Invoked s r k t waiters f (.fault e) inv r' →
      Move s r k (r'.completeFailed s k (some (t.requested.pushAll inv.batches))
        (declaredFailure k e inv))
  /-- all that the function misses has failed -/
  | blocked {t : Task D} {waiters : OrderedSet D.Key} {f : Function D} {inv : Invocation D}
      {r' : Round D} : Invoked s r k t waiters f .needsDeps inv r' → inv.missing = true →
      t.expected + inv.enlisted = 0 → inv.enlisted = 0 → inv.failedReads ≠ [] →
      Move s r k (r'.completeFailed s k (some (t.requested.pushAll inv.batches))
        (.ofChildren k inv.failedReads))
  /-- the function waits -/
  | waiting {t : Task D} {waiters : OrderedSet D.Key} {f : Function D} {inv : Invocation D}
      {r' : Round D} : Invoked s r k t waiters f .needsDeps inv r' → inv.missing = true →
      (t.expected + inv.enlisted ≠ 0 ∨ inv.enlisted ≠ 0) →
      Move s r k (r'.resumeOrPark k (Task.afterCall { t with waiters := waiters } inv))

section Cases

variable {s : Setting D} {r : Round D} {k : D.Key}

theorem Checked.reads {t : Task D} {i : Nat} {group : List D.Key} {waiters : OrderedSet D.Key}
    {seen : GroupReading D.Key} {r' : Round D} (h : Checked s r k t i group waiters seen r') :
    Reads r r' := by
  have hread := reads_readGroup (s := s) (k := k) (r.graph.node k).evaluatedAt group .start r
  rwa [h.read] at hread

theorem Invoked.reads {t : Task D} {waiters : OrderedSet D.Key} {f : Function D}
    {ending : Ending D} {inv : Invocation D} {r' : Round D}
    (h : Invoked s r k t waiters f ending inv r') : Reads r r' := by
  have hread := reads_invoke (s := s) (k := k) f t.scratch r
  rwa [h.run] at hread

theorem Lost.reads {r' : Round D} {a : Abort D.Key} (h : Lost s r k r' a) : Reads r r' := by
  cases h with
  | unregistered => exact .refl r
  | @crashed t f payload inv r' _ _ _ hrun =>
      have hread := reads_invoke (s := s) (k := k) f t.scratch r
      rwa [hrun] at hread
  | unread h _ => exact h.reads
  | idle h _ => exact h.reads

/-- Only a key under evaluation gives the round up. -/
theorem Lost.task {r' : Round D} {a : Abort D.Key} (h : Lost s r k r' a) :
    ∃ t, r.tasks.get? k = some t := by
  cases h with
  | unregistered ht _ _ => exact ⟨_, ht⟩
  | crashed ht _ _ _ => exact ⟨_, ht⟩
  | unread h _ => exact ⟨_, h.task⟩
  | idle h _ => exact ⟨_, h.task⟩

theorem Dropped.interrupted {r' : Round D} (h : Dropped s r k r') : r'.interrupted = true := by
  cases h with
  | cut _ _ _ hi => exact hi
  | called _ _ _ _ hi => exact hi

theorem Dropped.reads {r' : Round D} (h : Dropped s r k r') : Reads r r' := by
  cases h with
  | @cut t i group seen r' _ _ hread _ =>
      have hreads := reads_readGroup (s := s) (k := k) (r.graph.node k).evaluatedAt group .start r
      rwa [hread] at hreads
  | @called t f ending inv r' _ _ _ hrun _ =>
      have hread := reads_invoke (s := s) (k := k) f t.scratch r
      rwa [hrun] at hread

/-- The consequence of an invocation, by its ending. -/
theorem move_conclude {t : Task D} {waiters : OrderedSet D.Key} {f : Function D}
    {ending : Ending D} {inv : Invocation D} {r' : Round D}
    (h : Invoked s r k t waiters f ending inv r') :
    Move s r k (r'.conclude s k (Task.absorb { t with waiters := waiters } inv) inv ending) := by
  cases ending with
  | crash payload => exact .lost (.crashed h.task h.mode h.function h.run)
  | fault e => exact .failed (t := t) h
  | value v =>
      simp only [conclude]
      cases hm : inv.missing with
      | true => exact .lost (.unread h hm)
      | false => exact .built (t := t) h hm
  | needsDeps =>
      simp only [conclude]
      cases hm : inv.missing with
      | false =>
          rw [if_neg Bool.false_ne_true]
          exact .lost (.idle h fun ht => by simp [hm] at ht)
      | true =>
          rw [if_pos rfl]
          unfold concludeWaiting
          simp only
          split
          · rename_i hw
            exact .waiting h hm hw
          · rename_i hw
            obtain ⟨hexpected, henlisted⟩ := not_or.mp hw
            have hexpected : t.expected + inv.enlisted = 0 := Decidable.not_not.mp hexpected
            have henlisted : inv.enlisted = 0 := Decidable.not_not.mp henlisted
            split
            · rename_i hf
              exact .lost (.idle h fun _ => ⟨hexpected, henlisted, List.isEmpty_iff.mp hf⟩)
            · rename_i hf
              exact .blocked (t := t) h hm hexpected henlisted fun e => hf (List.isEmpty_iff.mpr e)

/-- Every action of a key is a move. -/
theorem move_process (s : Setting D) (r : Round D) (k : D.Key) : Move s r k (r.process s k) := by
  unfold process
  cases ht : r.tasks.get? k with
  | none => exact .idle ht
  | some t =>
      simp only
      cases hm : t.mode with
      | rebuild =>
          simp only [rebuild]
          cases hf : s.registry.find? k with
          | none => exact .lost (.unregistered ht hm hf)
          | some f =>
              simp only
              have hreads := reads_invoke (s := s) (k := k) f t.scratch r
              obtain ⟨ending, inv, r', hrun⟩ :
                  ∃ ending inv r', r.invoke s k f t.scratch = (ending, inv, r') :=
                ⟨_, _, _, rfl⟩
              rw [hrun] at hreads ⊢
              simp only at hreads ⊢
              obtain ⟨waiters, hkept⟩ := hreads.kept k t ht
              cases hi : r'.interrupted with
              | false =>
                  simp only [Bool.false_and, Bool.false_eq_true, if_false, hkept]
                  exact move_conclude ⟨ht, hm, hf, hrun, hi, hkept⟩
              | true =>
                  -- Only a crash counts now.
                  cases ending with
                  | crash payload =>
                      simp only [Ending.isCrash, Bool.not_true, Bool.and_false,
                        Bool.false_eq_true, if_false, hkept]
                      exact .lost (.crashed ht hm hf hrun)
                  | fault e => exact .dropped (.called ht hm hf hrun hi)
                  | value v => exact .dropped (.called ht hm hf hrun hi)
                  | needsDeps => exact .dropped (.called ht hm hf hrun hi)
      | check i =>
          simp only
          cases hg : (r.graph.node k).deps.group? i with
          | none => exact .verified ht hm hg
          | some group =>
              simp only [checkGroup]
              have hreads := reads_readGroup (s := s) (k := k) (r.graph.node k).evaluatedAt
                group .start r
              obtain ⟨seen, r', hread⟩ :
                  ∃ seen r', readGroup s k (r.graph.node k).evaluatedAt group .start r =
                    (seen, r') := ⟨_, _, rfl⟩
              have hcut := cut_readGroup (s := s) (k := k) (r.graph.node k).evaluatedAt group r
              rw [hread] at hreads hcut ⊢
              simp only at hreads hcut ⊢
              obtain ⟨waiters, hkept⟩ := hreads.kept k t ht
              cases hc : seen.cut with
              | true => exact .dropped (.cut ht hm hread (hcut hc))
              | false =>
                  simp only [Bool.false_eq_true, if_false, hkept]
                  exact .checked ⟨ht, hm, hg, hread, hc, hkept⟩

end Cases

/-! ## Steps -/

/-- What a step can be. -/
inductive Advance (s : Setting D) (r : Round D) : Round D → Prop where
  /-- the round is to stop: a queued key is skipped -/
  | skipped {k : D.Key} {rest : List D.Key} : r.queue = k :: rest → r.halted = true →
      Advance s r { r with queue := rest }
  /-- a queued key acts -/
  | acted {k : D.Key} {rest : List D.Key} {r' : Round D} : r.queue = k :: rest →
      r.halted = false → Move s { r with queue := rest } k r' → Advance s r r'
  /-- the queue has drained and the cycles that hold up the roots are broken -/
  | broken : r.queue = [] → r.halted = false → r.stopping = false → r.heldUpBy s ≠ [] →
      Advance s r (r.failMembers s (r.heldUpBy s))

theorem advance_of_step {s : Setting D} {r r' : Round D} (h : r.step s = some r') :
    Advance s r r' := by
  unfold step at h
  cases hq : r.queue with
  | cons k rest =>
      rw [hq] at h
      obtain rfl := Option.some.inj h
      cases hh : r.halted with
      | true =>
          have hh' : ({ r with queue := rest } : Round D).halted = true := hh
          rw [if_pos hh']
          exact .skipped hq hh
      | false =>
          have hh' : ¬ ({ r with queue := rest } : Round D).halted = true := by
            rw [show ({ r with queue := rest } : Round D).halted = r.halted from rfl, hh]
            exact Bool.false_ne_true
          rw [if_neg hh']
          exact .acted hq hh (move_process s _ k)
  | nil =>
      rw [hq] at h
      simp only at h
      split at h
      · cases h
      · rename_i hgo
        simp only [Bool.or_eq_true, not_or, Bool.not_eq_true] at hgo
        split at h
        · cases h
        · rename_i hfound
          obtain rfl := Option.some.inj h
          exact .broken hq hgo.1 hgo.2 fun e => hfound (by simp [e])

/-- A round that has drained its queue breaks the cycles that hold up its roots. -/
theorem step_eq_failMembers {s : Setting D} {r : Round D} (hh : r.halted = false)
    (hstop : r.stopping = false) (hq : r.queue = []) (hheld : r.heldUpBy s ≠ []) :
    r.step s = some (r.failMembers s (r.heldUpBy s)) := by
  have hsome : (r.heldUpBy s).isEmpty = false := List.isEmpty_eq_false_iff.mpr hheld
  simp [step, hq, hh, hstop, hsome]

/-- Breaking cycles fails members one after the other. -/
theorem failMembers_induction {s : Setting D} (found : List (Cycle D.Key))
    {P : Round D → Prop} {r : Round D} (begin : P { r with cycles := r.cycles ++ found })
    (member : ∀ k t r, P r → (∃ c ∈ found, k ∈ c.members) → r.tasks.get? k = some t →
      P (r.completeFailed s k (if t.mode = .rebuild then some t.requested else none)
        (.ofCycles (cyclesOf found k)))) :
    P (r.failMembers s found) := by
  show P ((OrderedSet.ofList (found.flatMap Cycle.members)).toList.foldl (failMember s found)
    { r with cycles := r.cycles ++ found })
  have hmem : ∀ k ∈ (OrderedSet.ofList (found.flatMap Cycle.members)).toList,
      ∃ c ∈ found, k ∈ c.members := by
    intro k hk
    rw [← OrderedSet.mem_def, OrderedSet.mem_ofList, List.mem_flatMap] at hk
    exact hk
  generalize (OrderedSet.ofList (found.flatMap Cycle.members)).toList = members at hmem ⊢
  generalize ({ r with cycles := r.cycles ++ found } : Round D) = r at begin ⊢
  induction members generalizing r with
  | nil => exact begin
  | cons k rest ih =>
      refine ih (fun k hk => hmem k (List.mem_cons_of_mem _ hk)) _ ?_
      unfold failMember
      cases ht : r.tasks.get? k with
      | none => exact begin
      | some t => exact member k t r begin (hmem k List.mem_cons_self) ht

/-- Broken cycles are listed. -/
theorem cycles_failMembers {s : Setting D} {r : Round D} (found : List (Cycle D.Key)) :
    (r.failMembers s found).cycles = r.cycles ++ found :=
  failMembers_induction found (P := fun r₀ => r₀.cycles = r.cycles ++ found) rfl
    fun k _ r₀ h _ _ => (completes_failed s r₀ k _ _).cycles.trans h

/-- No member of a broken cycle stays under evaluation. -/
theorem tasks_failMembers {s : Setting D} {r : Round D} {found : List (Cycle D.Key)}
    {c : Cycle D.Key} (hc : c ∈ found) {k : D.Key} (hk : k ∈ c.members) :
    (r.failMembers s found).tasks.get? k = none := by
  have hfold (members : List D.Key) (r : Round D)
      (h : k ∈ members ∨ r.tasks.get? k = none) :
      (members.foldl (failMember s found) r).tasks.get? k = none := by
    induction members generalizing r with
    | nil => exact h.resolve_left List.not_mem_nil
    | cons x rest ih =>
        apply ih
        rw [List.mem_cons] at h
        unfold failMember
        cases hx : r.tasks.get? x with
        | none =>
            rcases h with (rfl | h) | h
            · exact .inr hx
            · exact .inl h
            · exact .inr h
        | some t =>
            simp only [(completes_failed s r x _ _).tasks]
            rcases h with (rfl | h) | h
            · exact .inr (if_pos rfl)
            · exact .inl h
            · right
              split
              · rfl
              · rw [h]
                split
                · rfl
                · rfl
  refine hfold _ _ (.inl ?_)
  rw [← OrderedSet.mem_def, OrderedSet.mem_ofList]
  exact List.mem_flatMap.mpr ⟨c, hc, hk⟩

end Round

end MemoGraph
