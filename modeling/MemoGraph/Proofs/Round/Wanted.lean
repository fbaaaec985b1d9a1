import MemoGraph.Proofs.Round.Accounts
import MemoGraph.Proofs.Round.Requests

/-!
# Why keys are under evaluation

A round brings only those keys under evaluation that somebody waits for.  From every such key one
can go back to a root, from each key to one that had to wait for it.  The way lasts as long as no
key on it completes, and a key completes only after all that it waited for has.  The exception is a
function that fails before it has seen all that it asked for.
-/

set_option autoImplicit false

namespace MemoGraph

variable {D : Domain}

namespace Round

variable {s : Setting D} {r r' : Round D}

/-- The key `k` is under evaluation and had to wait for `d`. -/
def Seeks (r : Round D) (k d : D.Key) : Prop := ∃ t, r.tasks.get? k = some t ∧ d ∈ t.awaited

/-- A root leads to the key, by way of keys each of which had to wait for the next one. -/
def Rooted (s : Setting D) (r : Round D) (k : D.Key) : Prop :=
  ∃ root ∈ s.roots, Relation.ReflTransGen r.Seeks root k

/-- A root leads to every key under evaluation. -/
def Wanted (s : Setting D) (r : Round D) : Prop :=
  ∀ k, r.tasks.contains k = true → r.Rooted s k

theorem Seeks.task {k d : D.Key} (h : r.Seeks k d) : r.tasks.contains k = true := by
  obtain ⟨t, ht, -⟩ := h
  exact contains_of_get? ht

theorem Seeks.reads (hr : Reads r r') {k d : D.Key} (h : r.Seeks k d) : r'.Seeks k d := by
  obtain ⟨t, ht, hd⟩ := h
  obtain ⟨waiters, hkept⟩ := hr.kept k t ht
  exact ⟨_, hkept, hd⟩

/-- A task that is replaced by one that has met more. -/
theorem Seeks.retask {c : D.Key} {t t' : Task D} {queue : List D.Key}
    (ht : r.tasks.get? c = some t) (hmore : ∀ d ∈ t.awaited, d ∈ t'.awaited) {k d : D.Key}
    (h : r.Seeks k d) :
    ({ r with tasks := r.tasks.insert c t', queue := queue } : Round D).Seeks k d := by
  obtain ⟨t₀, ht₀, hd⟩ := h
  by_cases hkc : k = c
  · subst hkc
    obtain rfl := Option.some.inj (ht.symm.trans ht₀)
    exact ⟨t', Table.get?_insert_self _ _ _, hmore d hd⟩
  · exact ⟨t₀, by simp [Table.get?_insert, hkc, ht₀], hd⟩

theorem Seeks.complete {c : D.Key} {how : Completion} (hc : Completes s c how r r') {k d : D.Key}
    (hkc : k ≠ c) (h : r.Seeks k d) : r'.Seeks k d := by
  obtain ⟨t, ht, hd⟩ := h
  unfold Seeks
  rw [hc.tasks, if_neg hkc, ht]
  split
  · exact ⟨_, rfl, hd⟩
  · exact ⟨_, rfl, hd⟩

/-- All edges of a way to a key under evaluation lead to keys under evaluation. -/
theorem seeks_chain {R : D.Key → D.Key → Prop}
    (hedge : ∀ a b, r.Seeks a b → r.tasks.contains b = true → R a b) {root k : D.Key}
    (h : Relation.ReflTransGen r.Seeks root k) (hk : r.tasks.contains k = true) :
    Relation.ReflTransGen R root k := by
  induction h with
  | refl => exact .refl
  | tail _ hab ih => exact (ih hab.task).tail (hedge _ _ hab hk)

/-- An acting key waits for nothing that is still under evaluation. -/
theorem Tally.not_seeks {k : D.Key} (h : Tally r (some k) 0 []) {d : D.Key}
    (hd : r.tasks.contains d = true) : ¬ r.Seeks k d := by
  rintro ⟨t, ht, hmem⟩
  obtain ⟨t', ht'⟩ := Option.isSome_iff_exists.mp hd
  have hcomplete := h.isComplete_of_awaited ht hmem
  rw [h.unfinished d t' ht'] at hcomplete
  cases hcomplete

/-! ## New keys -/

/-- An invocation brings only keys under evaluation that it has to wait for. -/
theorem Invoked.met {k : D.Key} {t : Task D} {waiters : OrderedSet D.Key} {f : Function D}
    {ending : Ending D} {inv : Invocation D} (hi : Invoked s r k t waiters f ending inv r')
    {x : D.Key} (hx : r'.tasks.contains x = true) :
    r.tasks.contains x = true ∨ x ∈ inv.awaited := by
  have hadds := Adds.invoke s k f t.scratch r
  rw [hi.run] at hadds
  rcases hadds.tasks x hx with hold | ⟨batch, hbatch, hmem⟩
  · exact .inl hold
  cases hold : r.tasks.get? x with
  | some t₀ => exact .inl (contains_of_get? hold)
  | none =>
      obtain ⟨t', ht'⟩ := Option.isSome_iff_exists.mp hx
      have hinc := (hi.reads.begun x t' hold ht').1
      refine .inr ((hi.answered batch hbatch x hmem).resolve_left fun hc => ?_)
      rw [hi.reads.isComplete, hinc] at hc
      cases hc

theorem Adds.readGroup (s : Setting D) (k : D.Key) (since : Version) (group : List D.Key)
    (seen : GroupReading D.Key) (r : Round D) :
    Adds (· ∈ group) r (Round.readGroup s k since group seen r).2 := by
  induction group generalizing seen r with
  | nil => exact .refl _ r
  | cons dep rest ih =>
      exact ((readOne s r k dep).imp fun x hx => hx ▸ List.mem_cons_self).trans
        ((ih _ _).imp fun x hx => List.mem_cons_of_mem dep hx)

/-- The reading of a group brings only keys under evaluation that it has to wait for. -/
theorem Checked.met {k : D.Key} {t : Task D} {i : Nat} {group : List D.Key}
    {waiters : OrderedSet D.Key} {seen : GroupReading D.Key}
    (hc : Checked s r k t i group waiters seen r') {x : D.Key}
    (hx : r'.tasks.contains x = true) : r.tasks.contains x = true ∨ x ∈ seen.waiting := by
  have hadds : Adds (· ∈ group) r r' := by
    have hread := Adds.readGroup s k (r.graph.node k).evaluatedAt group .start r
    rwa [hc.read] at hread
  rcases hadds.tasks x hx with hold | hmem
  · exact .inl hold
  cases hold : r.tasks.get? x with
  | some t₀ => exact .inl (contains_of_get? hold)
  | none =>
      obtain ⟨t', ht'⟩ := Option.isSome_iff_exists.mp hx
      have hinc := (hc.reads.begun x t' hold ht').1
      have hcut : (readGroup s k (r.graph.node k).evaluatedAt group .start r).1.cut = false := by
        rw [hc.read]
        exact hc.uncut
      have hread := read_of_mem_group hcut hmem
      rw [hc.read, hinc] at hread
      exact .inr (hread.resolve_right fun h => Bool.noConfusion h.1)

/-- At first only roots are under evaluation. -/
theorem mem_roots_of_start {graph : Graph D} {calls : Table D.Key Nat} {k : D.Key}
    (hk : (Round.start s graph calls).tasks.contains k = true) : k ∈ s.roots := by
  obtain ⟨t, ht⟩ := Option.isSome_iff_exists.mp hk
  exact (task_of_start ht).1

/-! ## Steps -/

namespace Wanted

/-- Reading on behalf of a key that then knows what it met. -/
theorem retask (h : Wanted s r) (hr : Reads r r') {k : D.Key} {t t₁ t' : Task D}
    {queue : List D.Key} (ht : r.tasks.get? k = some t) (ht₁ : r'.tasks.get? k = some t₁)
    (hmore : ∀ d ∈ t₁.awaited, d ∈ t'.awaited)
    (hmet : ∀ x, r'.tasks.contains x = true → r.tasks.contains x = true ∨ x ∈ t'.awaited) :
    Wanted s { r' with tasks := r'.tasks.insert k t', queue := queue } := by
  have hway {x : D.Key} (hx : r.tasks.contains x = true) :
      Rooted s { r' with tasks := r'.tasks.insert k t', queue := queue } x := by
    obtain ⟨root, hroot, hchain⟩ := h x hx
    exact ⟨root, hroot, hchain.lift id fun a b hab => (hab.reads hr).retask ht₁ hmore⟩
  intro x hx
  have hx' : r'.tasks.contains x = true :=
    (Table.contains_insert_of_contains (contains_of_get? ht₁) x _).symm.trans hx
  rcases hmet x hx' with hold | hnew
  · exact hway hold
  · obtain ⟨root, hroot, hchain⟩ := hway (contains_of_get? ht)
    exact ⟨root, hroot, hchain.tail ⟨t', Table.get?_insert_self _ _ _, hnew⟩⟩

/-- The completion of a key that waits for nothing that is under evaluation. -/
theorem complete (h : Wanted s r) {k : D.Key} {how : Completion} (hc : Completes s k how r r')
    (hk : ∀ d, r.tasks.contains d = true → ¬ r.Seeks k d) : Wanted s r' := by
  intro x hx
  obtain ⟨t, ht⟩ := Option.isSome_iff_exists.mp hx
  obtain ⟨-, t₀, ht₀, -⟩ := hc.back ht
  obtain ⟨root, hroot, hchain⟩ := h x (contains_of_get? ht₀)
  refine ⟨root, hroot, seeks_chain (fun a b hab hb => ?_) hchain (contains_of_get? ht₀)⟩
  refine hab.complete hc ?_
  rintro rfl
  exact hk b hb hab

/-- An invocation that met no key without an outcome brought none under evaluation. -/
theorem invoked (h : Wanted s r) {k : D.Key} {t : Task D} {waiters : OrderedSet D.Key}
    {f : Function D} {ending : Ending D} {inv : Invocation D}
    (hi : Invoked s r k t waiters f ending inv r') (hnone : inv.awaited = []) : Wanted s r' := by
  intro x hx
  obtain ⟨root, hroot, hchain⟩ := h x ((hi.met hx).resolve_right (by simp [hnone]))
  exact ⟨root, hroot, hchain.lift id fun a b hab => hab.reads hi.reads⟩

/-- An action keeps a way to every key under evaluation, unless the round stops after it.  In a
round that keeps going, functions must not fail before they have seen all that they asked for. -/
theorem move (h : Wanted s r) (hg : Grounded s r) (ht : Tally r none 0 []) {k : D.Key}
    {rest : List D.Key} (hq : r.queue = k :: rest) (hm : Move s { r with queue := rest } k r')
    (hfault : s.keepGoing = false ∨ ∀ {t waiters f e inv r₁},
      Invoked s { r with queue := rest } k t waiters f (.fault e) inv r₁ → inv.awaited = []) :
    r'.halted = true ∨ r'.stopping = true ∨ Wanted s r' := by
  have hpop : Wanted s { r with queue := rest } := h
  -- After an invocation that met nothing without an outcome the key can complete.
  have hdone {t : Task D} {waiters : OrderedSet D.Key} {f : Function D} {ending : Ending D}
      {inv : Invocation D} {r₁ : Round D} {how : Completion}
      (hi : Invoked s { r with queue := rest } k t waiters f ending inv r₁)
      (hnone : inv.awaited = []) (hc : Completes s k how r₁ r') : Wanted s r' := by
    refine (hpop.invoked hi hnone).complete hc fun d hd hseeks => ?_
    obtain ⟨t₁, ht₁, hmem⟩ := hseeks
    obtain rfl := Option.some.inj (hi.kept.symm.trans ht₁)
    exact (ht.pop hq hi.task).not_seeks ((hi.met hd).resolve_right (by simp [hnone]))
      ⟨t, hi.task, hmem⟩
  cases hm with
  | idle _ => exact .inr (.inr hpop)
  | verified htask _ _ =>
      exact .inr (.inr (hpop.complete (completes_clean s _ k) fun d hd =>
        (ht.pop hq htask).not_seeks hd))
  | checked hc =>
      obtain ⟨active, queue, he⟩ := concludeGroup_frame _ k _ _ _
      rw [he]
      exact .inr (.inr (hpop.retask hc.reads hc.task hc.kept
        (fun d hd => OrderedSet.mem_insertAll.mpr (.inl hd))
        fun x hx => (hc.met hx).imp id fun hx => OrderedSet.mem_insertAll.mpr (.inr hx)))
  | dropped hd => exact .inl (by simp [halted, hd.interrupted])
  | lost _ => exact .inl (by simp [halted, abort])
  | @built t waiters f v inv r₁ hi hmissing =>
      obtain ⟨how, -, -, hbuilt⟩ := completes_built s r₁ k (t.requested.pushAll inv.batches) v
      have hnone := awaited_invoke_of_not_missing (s := s) (k := k) f t.scratch
        { r with queue := rest }
      rw [hi.run] at hnone
      exact .inr (.inr (hdone hi (hnone hmissing) hbuilt))
  | @failed t waiters f e inv r₁ hi =>
      have hfailed := completes_failed s r₁ k (some (t.requested.pushAll inv.batches))
        (declaredFailure k e inv)
      rcases hfault with hstop | hnone
      · refine .inr (.inl ?_)
        rw [hfailed.stopping, hstop]
        simp
      · exact .inr (.inr (hdone hi (hnone hi) hfailed))
  | blocked hi _ hexpected _ _ =>
      exact .inr (.inr (hdone hi (hi.awaited_eq_nil hg ht hq hexpected)
        (completes_failed s _ k _ _)))
  | waiting hi _ _ =>
      obtain ⟨active, queue, he⟩ := resumeOrPark_eq _ k _
      rw [he]
      exact .inr (.inr (hpop.retask hi.reads hi.task hi.kept
        (fun d hd => OrderedSet.mem_insertAll.mpr (.inl hd))
        fun x hx => (hi.met hx).imp id fun hx => OrderedSet.mem_insertAll.mpr (.inr hx)))

theorem start (s : Setting D) (graph : Graph D) (calls : Table D.Key Nat) :
    Wanted s (Round.start s graph calls) :=
  fun k hk => ⟨k, mem_roots_of_start hk, .refl⟩

end Wanted

end Round

end MemoGraph
