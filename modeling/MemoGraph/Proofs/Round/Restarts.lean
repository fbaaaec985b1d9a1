import Mathlib.Data.Set.Card
import Mathlib.Data.Set.Finite.Lattice
import MemoGraph.Proofs.Round.Ending

/-!
# How often functions run

A function is run again only after its key had to wait for a dependency, and for one that it had not
waited for before: whatever a key waited for is complete when it acts again.  So the invocations of
a function are paid for, one by one, by the dependencies that its key had to wait for, except for
the last one.
-/

set_option autoImplicit false

namespace MemoGraph

variable {D : Domain}

namespace OrderedSet

variable {α : Type}

theorem size_le_of_subset {s t : OrderedSet α} (h : ∀ a ∈ s, a ∈ t) : s.size ≤ t.size :=
  (s.nodup.subperm h).length_le

/-- A larger set. -/
theorem size_lt_of_mem {s t : OrderedSet α} (h : ∀ a ∈ s, a ∈ t) {a : α} (ht : a ∈ t)
    (hs : a ∉ s) : s.size < t.size := by
  have hnodup : (a :: s.toList).Nodup := List.nodup_cons.mpr ⟨hs, s.nodup⟩
  exact (hnodup.subperm (List.forall_mem_cons.mpr ⟨ht, h⟩)).length_le

theorem encard_setOf_mem (s : OrderedSet α) : {a | a ∈ s}.encard = s.size := by
  classical
  rw [size, ← List.toFinset_card_of_nodup s.nodup, ← Set.encard_coe_eq_coe_finsetCard]
  simp [mem_def]

end OrderedSet

/-- Whether an event says that the function of the key was invoked. -/
def Event.calls (k : D.Key) : Event D → Bool
  | .called x => decide (x = k)
  | _ => false

namespace Round

variable {s : Setting D} {r r' : Round D}

/-- How often the function of a key was invoked so far. -/
def invocations (r : Round D) (k : D.Key) : Nat := r.log.countP (Event.calls k)

theorem Prepares.invocations_eq (h : Prepares (fun _ => False) r r') (k : D.Key) :
    r'.invocations k = r.invocations k := by
  obtain ⟨news, hlog, hnews⟩ := h.told
  have hnone : news.countP (Event.calls k) = 0 := by
    refine List.countP_eq_zero.mpr fun e he hk => ?_
    cases e with
    | called x => exact (hnews _ he).2
    | enqueued x => cases hk
    | completed x how => cases hk
  rw [invocations, hlog, List.countP_append, hnone, Nat.zero_add, invocations]

theorem Completes.invocations_eq {c : D.Key} {how : Completion} (h : Completes s c how r r')
    (k : D.Key) : r'.invocations k = r.invocations k := by
  rw [invocations, h.log]
  exact List.countP_cons_of_neg Bool.false_ne_true

theorem invocations_countCall (s : Setting D) (r : Round D) (c k : D.Key) :
    (r.countCall s c).2.invocations k = r.invocations k + if c = k then 1 else 0 := by
  rw [invocations, countCall, log_record, List.countP_cons]
  simp [Event.calls, invocations]

/-! ## What invocations are paid with -/

/-- The keys that `k` had to wait for in a round that starts with `r`. -/
def awaitedIn (s : Setting D) (r : Round D) (k : D.Key) : Set D.Key :=
  {d | ∃ r', Reaches s r r' ∧ r'.Seeks k d}

theorem size_awaited_le {k : D.Key} {t : Task D} {r₀ : Round D} (hr : Reaches s r₀ r)
    (ht : r.tasks.get? k = some t) : (t.awaited.size : ℕ∞) ≤ (awaitedIn s r₀ k).encard := by
  rw [← t.awaited.encard_setOf_mem]
  exact Set.encard_le_encard fun d hd => ⟨r, hr, t, ht, hd⟩

/-- A round that ends lets its keys wait for finitely many others. -/
theorem finite_awaitedIn {budget : Nat} (h : Round.run s budget r = some r') (k : D.Key) :
    (awaitedIn s r k).Finite := by
  have hseeks (r₁ : Round D) : {d | r₁.Seeks k d}.Finite := by
    cases ht : r₁.tasks.get? k with
    | none =>
        refine Set.finite_empty.subset fun d ⟨t, ht', _⟩ => ?_
        rw [ht] at ht'
        cases ht'
    | some t =>
        refine (List.finite_toSet t.awaited.toList).subset fun d ⟨t', ht', hd⟩ => ?_
        obtain rfl := Option.some.inj (ht.symm.trans ht')
        exact hd
  refine (Set.Finite.biUnion (finite_reaches h) fun r₁ _ => hseeks r₁).subset fun d hd => ?_
  obtain ⟨r₁, hr₁, hd⟩ := hd
  exact Set.mem_biUnion hr₁ hd

/-- The invocations of all functions are paid for.  The key `busy`, if any, was invoked once more
and has not paid for it yet; `limit` bounds what keys can pay. -/
structure Paced (limit : D.Key → ℕ∞) (busy : Option D.Key) (r : Round D) : Prop where
  /-- No function was invoked more often than its key can pay for, but for one time. -/
  bounded : ∀ k, (r.invocations k : ℕ∞) ≤ 1 + limit k
  /-- Functions of keys that did not come under evaluation were not invoked. -/
  fresh : ∀ k, r.graph.isComplete k = false → r.tasks.get? k = none → r.invocations k = 0
  /-- A key under evaluation pays with the keys it had to wait for. -/
  paid : ∀ k t, r.tasks.get? k = some t →
    r.invocations k ≤ t.awaited.size + if busy = some k then 1 else 0

namespace Paced

variable {limit : D.Key → ℕ∞} {busy : Option D.Key} {k : D.Key}

theorem reads (h : Paced limit busy r) (hr : Reads r r')
    (hp : Prepares (fun _ => False) r r') : Paced limit busy r' where
  bounded x := by
    rw [hp.invocations_eq]
    exact h.bounded x
  fresh x hx hnone := by
    rw [hp.invocations_eq]
    refine h.fresh x ((hr.isComplete x).symm.trans hx) ?_
    cases ht : r.tasks.get? x with
    | none => rfl
    | some t =>
        obtain ⟨waiters, hkept⟩ := hr.kept x t ht
        rw [hnone] at hkept
        cases hkept
  paid x t' hx := by
    rw [hp.invocations_eq]
    cases ht : r.tasks.get? x with
    | none =>
        rw [h.fresh x (hr.begun x t' ht hx).1 ht]
        exact Nat.zero_le _
    | some t =>
        obtain ⟨waiters, hkept⟩ := hr.kept x t ht
        obtain rfl := Option.some.inj (hx.symm.trans hkept)
        exact h.paid x t ht

/-- A call that is not paid for yet. -/
theorem call (h : Paced limit none r) {t : Task D} (ht : r.tasks.get? k = some t)
    (hlimit : (t.awaited.size : ℕ∞) ≤ limit k) :
    Paced limit (some k) (r.countCall s k).2 where
  bounded x := by
    rw [invocations_countCall]
    split
    · rename_i hx
      subst hx
      have hpaid : r.invocations k ≤ t.awaited.size := h.paid k t ht
      calc ((r.invocations k + 1 : ℕ) : ℕ∞) ≤ (t.awaited.size : ℕ∞) + 1 := by
            exact_mod_cast Nat.succ_le_succ hpaid
        _ ≤ limit k + 1 := by gcongr
        _ = 1 + limit k := add_comm _ _
    · exact h.bounded x
  fresh x hx hnone := by
    have hxk : k ≠ x := by
      rintro rfl
      have hnone : r.tasks.get? k = none := hnone
      rw [ht] at hnone
      cases hnone
    rw [invocations_countCall, if_neg hxk]
    exact h.fresh x hx hnone
  paid x t' hx := by
    rw [invocations_countCall]
    have hpaid : r.invocations x ≤ t'.awaited.size := h.paid x t' hx
    by_cases hxk : k = x
    · simpa [hxk] using hpaid
    · simpa [hxk] using hpaid

/-- A key that completes need not pay. -/
theorem complete (h : Paced limit busy r) (hbusy : ∀ x, busy = some x → x = k) {how : Completion}
    (hc : Completes s k how r r') (hs : Graph.Settles s.version k r.graph r'.graph) :
    Paced limit none r' where
  bounded x := by
    rw [hc.invocations_eq]
    exact h.bounded x
  fresh x hx hnone := by
    have hxk : x ≠ k := by
      rintro rfl
      exact Bool.noConfusion (hx.symm.trans hs.complete)
    rw [hc.invocations_eq]
    refine h.fresh x ((hs.isComplete_of_ne hxk).symm.trans hx) ?_
    cases ht : r.tasks.get? x with
    | none => rfl
    | some t =>
        rw [hc.get?_eq_some_iff.mpr ⟨hxk, t, ht, rfl⟩] at hnone
        cases hnone
  paid x t' hx := by
    obtain ⟨hxk, t, ht, -, -, hawaited⟩ := hc.back hx
    have hpaid := h.paid x t ht
    rw [if_neg fun hb => hxk (hbusy x hb)] at hpaid
    rw [hc.invocations_eq, hawaited]
    exact hpaid

/-- A key that pays. -/
theorem retask (h : Paced limit busy r) (hbusy : ∀ x, busy = some x → x = k)
    (hk : r.tasks.contains k = true) {t : Task D} (hpaid : r.invocations k ≤ t.awaited.size)
    (active : Bool) (queue : List D.Key) :
    Paced limit none
      { r with tasks := r.tasks.insert k { t with active := active }, queue := queue } where
  bounded := h.bounded
  fresh x hx hnone := by
    refine h.fresh x hx ?_
    cases ht : r.tasks.get? x with
    | none => rfl
    | some t₀ =>
        have hknown := (Table.contains_insert_of_contains hk x { t with active := active }).trans
          (contains_of_get? ht)
        simp [Table.contains, hnone] at hknown
  paid x t' hx := by
    rcases Table.get?_insert_eq_some_iff.mp hx with ⟨rfl, rfl⟩ | ⟨hxk, hx⟩
    · exact hpaid
    · have hold := h.paid x t' hx
      rwa [if_neg fun hb => hxk (hbusy x hb)] at hold

theorem readGroup (h : Paced limit busy r) (s : Setting D) (k : D.Key) (since : Version)
    (group : List D.Key) : Paced limit busy (Round.readGroup s k since group .start r).2 :=
  h.reads (reads_readGroup since group .start r) (Prepares.readGroup s _ k since group r)

theorem invoke (h : Paced limit none r) (s : Setting D) {t : Task D}
    (ht : r.tasks.get? k = some t) (hlimit : (t.awaited.size : ℕ∞) ≤ limit k) (f : Function D) :
    Paced limit (some k) (r.invoke s k f t.scratch).2.2 := by
  have hcalled : Paced limit (some k) (r.countCall s k).2 := h.call ht hlimit
  exact hcalled.reads (reads_run _ _ _) (Prepares.invocation s _ r k f t.scratch)

end Paced

/-! ## Steps -/

/-- A key that is enlisted in an invocation met a key that it had not waited for before. -/
theorem Invoked.exists_new (ht : Tally r none 0 []) {k : D.Key} {rest : List D.Key}
    (hq : r.queue = k :: rest) {t : Task D} {waiters : OrderedSet D.Key} {f : Function D}
    {ending : Ending D} {inv : Invocation D} {r₁ : Round D}
    (hi : Invoked s { r with queue := rest } k t waiters f ending inv r₁)
    (henlisted : inv.enlisted ≠ 0) : ∃ d ∈ inv.awaited, d ∉ t.awaited := by
  have hpop := ht.pop hq hi.task
  have hread := hpop.invoke (s := s) f t.scratch
  rw [hi.run] at hread
  have hexpected := hpop.expected_eq_zero hi.task
  obtain ⟨sources, -, hsources, hlength⟩ := hread.counted k _ hi.kept
  have hlength : (inv.enlisted : Int) = sources.length := by simpa [owed, hexpected] using hlength
  cases sources with
  | nil => exact absurd (Int.natCast_eq_zero.mp hlength) henlisted
  | cons d more =>
      obtain ⟨hmet, hinc⟩ :=
        (hread.awaits k _ hi.kept d).mp ((hsources d).mp List.mem_cons_self)
      have hold : d ∉ t.awaited := fun hd => by
        have hcomplete := hpop.isComplete_of_awaited hi.task hd
        rw [← hi.reads.isComplete, hinc] at hcomplete
        cases hcomplete
      exact ⟨d, (hmet.resolve_left hold).2, hold⟩

namespace Paced

section Action

variable {limit : D.Key → ℕ∞} {k : D.Key} {rest : List D.Key} {t : Task D}
  {waiters : OrderedSet D.Key}

/-- A key that has read a recorded group. -/
theorem checked (h : Paced limit none r) {i : Nat} {group : List D.Key}
    {seen : GroupReading D.Key} (hc : Checked s r k t i group waiters seen r') :
    Paced limit none (r'.concludeGroup k { t with waiters := waiters } i seen) := by
  have hread := h.readGroup s k (r.graph.node k).evaluatedAt group
  rw [hc.read] at hread
  obtain ⟨active, queue, he⟩ := concludeGroup_frame r' k { t with waiters := waiters } i seen
  rw [he]
  refine hread.retask (fun x hx => by cases hx) (contains_of_get? hc.kept) ?_ active queue
  have hpaid : r'.invocations k ≤ t.awaited.size := by simpa using hread.paid k _ hc.kept
  refine hpaid.trans (OrderedSet.size_le_of_subset fun d hd => ?_)
  exact OrderedSet.mem_insertAll.mpr (.inl hd)

/-- A key that waits after an invocation pays for it with a key that it met. -/
theorem waiting (h : Paced limit (some k) r') (ht : Tally r none 0 [])
    (hq : r.queue = k :: rest) {f : Function D} {inv : Invocation D}
    (hi : Invoked s { r with queue := rest } k t waiters f .needsDeps inv r')
    (hwaits : t.expected + inv.enlisted ≠ 0 ∨ inv.enlisted ≠ 0) :
    Paced limit none
      (r'.resumeOrPark k (Task.afterCall { t with waiters := waiters } inv)) := by
  have hexpected := (ht.pop hq hi.task).expected_eq_zero hi.task
  obtain ⟨d, hd, hnew⟩ := hi.exists_new ht hq (by omega)
  obtain ⟨active, queue, he⟩ :=
    resumeOrPark_eq r' k (Task.afterCall { t with waiters := waiters } inv)
  rw [he]
  refine h.retask (fun x hx => (Option.some.inj hx).symm) (contains_of_get? hi.kept) ?_ active queue
  have hpaid : r'.invocations k ≤ t.awaited.size + 1 := by simpa using h.paid k _ hi.kept
  refine hpaid.trans (OrderedSet.size_lt_of_mem (fun x hx => ?_)
    (OrderedSet.mem_insertAll.mpr (.inr hd)) hnew)
  exact OrderedSet.mem_insertAll.mpr (.inl hx)

/-- An action keeps invocations paid for.  If the one that it made is not, the round is to stop. -/
theorem move (h : Paced limit none r)
    (hlimit : ∀ k t, r.tasks.get? k = some t → (t.awaited.size : ℕ∞) ≤ limit k)
    (ht : Tally r none 0 []) (hq : r.queue = k :: rest)
    (hm : Move s { r with queue := rest } k r') :
    ∃ busy, Paced limit busy r' ∧ (r'.halted = true ∨ busy = none) := by
  have hpop : Paced limit none { r with queue := rest } := { h with }
  have hcall {t : Task D} {f : Function D} {ending : Ending D} {inv : Invocation D} {r₁ : Round D}
      (htask : r.tasks.get? k = some t)
      (hrun : ({ r with queue := rest } : Round D).invoke s k f t.scratch = (ending, inv, r₁)) :
      Paced limit (some k) r₁ := by
    have hinvoke := hpop.invoke s htask (hlimit k t htask) f
    rwa [hrun] at hinvoke
  have hdone {t : Task D} {waiters : OrderedSet D.Key} {f : Function D} {ending : Ending D}
      {inv : Invocation D} {r₁ : Round D} {how : Completion}
      (hi : Invoked s { r with queue := rest } k t waiters f ending inv r₁)
      (hc : Completes s k how r₁ r')
      (hs : r₁.graph.isComplete k = false → Graph.Settles s.version k r₁.graph r'.graph) :
      Paced limit none r' :=
    (hcall hi.task hi.run).complete (fun x hx => (Option.some.inj hx).symm) hc
      (hs (ht.unfinished_of_reads hi.reads hi.task))
  cases hm with
  | idle _ => exact ⟨none, hpop, .inr rfl⟩
  | verified htask _ _ =>
      exact ⟨none, hpop.complete (fun x hx => by cases hx) (completes_clean s _ k)
        (settles_completeClean s _ k), .inr rfl⟩
  | checked hc => exact ⟨none, hpop.checked hc, .inr rfl⟩
  | dropped hd =>
      have hhalted : r'.halted = true := by simp [halted, hd.interrupted]
      cases hd with
      | @cut _ _ group _ _ _ _ hread _ =>
          have hgroup := hpop.readGroup s k (r.graph.node k).evaluatedAt group
          rw [hread] at hgroup
          exact ⟨none, hgroup, .inl hhalted⟩
      | called htask _ _ hrun _ => exact ⟨some k, hcall htask hrun, .inl hhalted⟩
  | @lost r₁ a hl =>
      have hhalted : (r₁.abort a).halted = true := by simp [halted, abort]
      have habort {busy : Option D.Key} (h₁ : Paced limit busy r₁) :
          ∃ busy, Paced limit busy (r₁.abort a) ∧ ((r₁.abort a).halted = true ∨ busy = none) :=
        ⟨busy, { h₁ with }, .inl hhalted⟩
      cases hl with
      | unregistered _ _ _ => exact habort hpop
      | crashed htask _ _ hrun => exact habort (hcall htask hrun)
      | unread hi _ => exact habort (hcall hi.task hi.run)
      | idle hi _ => exact habort (hcall hi.task hi.run)
  | built hi _ =>
      obtain ⟨how, -, -, hbuilt⟩ := completes_built s _ k _ _
      exact ⟨none, hdone hi hbuilt (settles_completeBuilt _ _), .inr rfl⟩
  | failed hi =>
      exact ⟨none, hdone hi (completes_failed s _ k _ _) (settles_completeFailed _ _), .inr rfl⟩
  | blocked hi _ _ _ _ =>
      exact ⟨none, hdone hi (completes_failed s _ k _ _) (settles_completeFailed _ _), .inr rfl⟩
  | waiting hi _ hwaits => exact ⟨none, (hcall hi.task hi.run).waiting ht hq hi hwaits, .inr rfl⟩

end Action

theorem step {limit : D.Key → ℕ∞}
    (h : ∃ busy, Paced limit busy r ∧ (r.halted = true ∨ busy = none))
    (hlimit : ∀ k t, r.tasks.get? k = some t → (t.awaited.size : ℕ∞) ≤ limit k)
    (ht : r.halted = true ∨ Tally r none 0 []) (hstep : r.step s = some r') :
    ∃ busy, Paced limit busy r' ∧ (r'.halted = true ∨ busy = none) := by
  obtain ⟨busy, hpaced, hbusy⟩ := h
  cases advance_of_step hstep with
  | skipped _ hh => exact ⟨busy, { hpaced with }, .inl hh⟩
  | acted hq hh hm =>
      obtain rfl := hbusy.resolve_left (by simp [hh])
      exact hpaced.move hlimit (ht.resolve_left (by simp [hh])) hq hm
  | broken _ hh _ _ =>
      obtain rfl := hbusy.resolve_left (by simp [hh])
      have htally := ht.resolve_left (by simp [hh])
      refine ⟨none, (htally.failMembers_induction _ (P := Paced limit none) { hpaced with }
        fun h₁ _ hf => h₁.complete (fun x hx => by cases hx) hf.completes hf.settles).2, .inr rfl⟩

theorem start (limit : D.Key → ℕ∞) (graph : Graph D) (calls : Table D.Key Nat) :
    Paced limit none (Round.start s graph calls) := by
  refine start_induction (P := Paced limit none) ⟨fun k => ?_, fun k _ _ => rfl, fun k t ht => ?_⟩
    fun k _ r h => h.reads (reads_demand s r k) (Prepares.demand s _ r k)
  · exact zero_le
  · cases ht

end Paced

/-- No function is invoked more often in a round than its key had to wait for others, but for one
time. -/
theorem invocations_le {graph : Graph D} {calls : Table D.Key Nat}
    (hr : Reaches s (Round.start s graph calls) r) (k : D.Key) :
    (r.invocations k : ℕ∞) ≤ 1 + (awaitedIn s (Round.start s graph calls) k).encard := by
  have hpaced : ∃ busy, Paced (fun k => (awaitedIn s (Round.start s graph calls) k).encard) busy r ∧
      (r.halted = true ∨ busy = none) := by
    induction hr with
    | refl => exact ⟨none, .start _ graph calls, .inr rfl⟩
    | tail hr hstep ih =>
        exact Paced.step ih (fun _ _ ht => size_awaited_le hr ht) (tally_of_reaches hr) hstep
  obtain ⟨busy, hpaced, -⟩ := hpaced
  exact hpaced.bounded k

/-- What is complete when a round begins is not invoked. -/
theorem invocations_eq_zero {graph : Graph D} {calls : Table D.Key Nat}
    (hr : Reaches s (Round.start s graph calls) r) {k : D.Key} (hk : graph.isComplete k = true) :
    r.invocations k = 0 := by
  refine List.countP_eq_zero.mpr fun e he hcalls => ?_
  cases e with
  | called x =>
      obtain rfl : x = k := of_decide_eq_true hcalls
      exact (Spared.of_reaches hr hk).uncalled he
  | enqueued x => cases hcalls
  | completed x how => cases hcalls

end Round

end MemoGraph
