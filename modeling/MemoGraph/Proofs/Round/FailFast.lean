import MemoGraph.Proofs.Round.Course
import MemoGraph.Proofs.Round.Wanted

/-!
# Rounds that stop at the first failure

The first failure in a round that does not keep going ends all queueing.  The way from a root down
to the failed key then leads through keys that wait and are never queued again, so it is still there
when the round is over.
-/

set_option autoImplicit false

namespace MemoGraph

variable {D : Domain}

namespace Round

variable {s : Setting D} {r r' : Round D}

/-! ## Actions in outline -/

/-- A round that is stopping queues nothing while it reads. -/
theorem queue_readOne_of_stopping (hstop : r.stopping = true) (reader dep : D.Key) :
    (r.readOne s reader dep).2.queue = r.queue := by
  have hdemand : (r.demand s dep).queue = r.queue := by
    rcases demand_cases s r dep with ⟨-, he⟩ | ⟨-, -, he⟩
    · rw [he]
    · rw [he]
      exact if_pos hstop
  rcases readOne_cases s r reader dep with he | he | he
  · rw [he]
  · rw [he, hdemand]
  · obtain ⟨tasks, hawait⟩ := await_frame (r.demand s dep) reader dep
    rw [he, hawait]
    exact hdemand

theorem queue_invoke_of_stopping (hstop : r.stopping = true) (k : D.Key) (f : Function D)
    (scratch : Option (Scratch D)) : (r.invoke s k f scratch).2.2.queue = r.queue := by
  have hcall : (r.countCall s k).2.stopping = true ∧ (r.countCall s k).2.queue = r.queue :=
    ⟨hstop, rfl⟩
  refine (run_induction (s := s) (k := k)
    (P := fun _ r' => r'.stopping = true ∧ r'.queue = r.queue) (fun _ _ _ h => h) ?_
    (fun _ _ _ h => h) (fun _ _ h => h) (f k (r.countCall s k).1) hcall).2
  intro accepts dep inv r' _ h
  exact ⟨(reads_readOne s r' k dep).stopping.trans h.1,
    (queue_readOne_of_stopping h.1 k dep).trans h.2⟩

theorem queue_readGroup_of_stopping (hstop : r.stopping = true) (k : D.Key) (since : Version)
    (group : List D.Key) : (readGroup s k since group .start r).2.queue = r.queue := by
  refine (readGroup_induction (s := s) (k := k)
    (P := fun _ r' => r'.stopping = true ∧ r'.queue = r.queue) ?_ group ⟨hstop, rfl⟩).2
  intro dep seen r' h
  exact ⟨(reads_readOne s r' k dep).stopping.trans h.1,
    (queue_readOne_of_stopping h.1 k dep).trans h.2⟩

/-- Letting a key go on or wait queues no other key. -/
theorem mem_queue_resumeOrPark {k x : D.Key} {t : Task D}
    (hx : x ∈ (r.resumeOrPark k t).queue) : x = k ∨ x ∈ r.queue := by
  unfold resumeOrPark at hx
  split at hx
  · exact List.mem_cons.mp hx
  · exact .inr hx

theorem mem_queue_concludeGroup {k x : D.Key} {t : Task D} {i : Nat}
    {seen : GroupReading D.Key} (hx : x ∈ (r.concludeGroup k t i seen).queue) :
    x = k ∨ x ∈ r.queue := by
  unfold concludeGroup at hx
  dsimp only at hx
  split at hx
  · exact mem_queue_resumeOrPark hx
  · split at hx
    · exact List.mem_cons.mp hx
    · exact mem_queue_resumeOrPark hx

/-- What the action of a key comes to in outline. -/
inductive Outline (s : Setting D) (r : Round D) (k : D.Key) : Round D → Prop where
  /-- it reads, and no key completes -/
  | kept {r₁ r' : Round D} : Reads r r₁ → r'.stopping = r₁.stopping → r'.log = r₁.log →
      (∀ a b, r₁.Seeks a b → r'.Seeks a b) →
      (r.stopping = true → ∀ x ∈ r'.queue, x = k ∨ x ∈ r.queue) → Outline s r k r'
  /-- it reads and completes -/
  | done {r₁ r' : Round D} {how : Completion} : Reads r r₁ →
      (r.stopping = true → r₁.queue = r.queue) → Completes s k how r₁ r' → Outline s r k r'

theorem outline_of_move {k : D.Key} (h : Move s r k r') : Outline s r k r' := by
  have hgroup {group : List D.Key} {since : Version} {seen : GroupReading D.Key} {r₁ : Round D}
      (hread : readGroup s k since group .start r = (seen, r₁)) (hstop : r.stopping = true) :
      r₁.queue = r.queue := by
    have hqueue := queue_readGroup_of_stopping (s := s) hstop k since group
    rwa [hread] at hqueue
  have hcall {f : Function D} {scratch : Option (Scratch D)} {ending : Ending D}
      {inv : Invocation D} {r₁ : Round D} (hrun : r.invoke s k f scratch = (ending, inv, r₁))
      (hstop : r.stopping = true) : r₁.queue = r.queue := by
    have hqueue := queue_invoke_of_stopping (s := s) hstop k f scratch
    rwa [hrun] at hqueue
  -- Nothing follows from what was read.
  have hrest {r₁ : Round D} (hr : Reads r r₁) (hqueue : r.stopping = true → r₁.queue = r.queue)
      (aborted : Option (Abort D.Key)) : Outline s r k { r₁ with aborted := aborted } :=
    .kept hr rfl rfl (fun _ _ h => h) fun hstop x hx => .inr (hqueue hstop ▸ hx)
  -- The key goes on or waits with a task that has met more.
  have hgoes {r₁ : Round D} {t t' : Task D} {active : Bool} {queue : List D.Key} (hr : Reads r r₁)
      (hqueue : r.stopping = true → r₁.queue = r.queue) (ht : r₁.tasks.get? k = some t)
      (hmore : ∀ d ∈ t.awaited, d ∈ t'.awaited) (hfront : ∀ x ∈ queue, x = k ∨ x ∈ r₁.queue) :
      Outline s r k
        { r₁ with tasks := r₁.tasks.insert k { t' with active := active }, queue := queue } := by
    have hawaited : ∀ d ∈ t.awaited, d ∈ ({ t' with active := active } : Task D).awaited := hmore
    exact .kept hr rfl rfl (fun _ _ h => h.retask ht hawaited)
      fun hstop x hx => hqueue hstop ▸ hfront x hx
  cases h with
  | idle _ => exact hrest (.refl r) (fun _ => rfl) r.aborted
  | verified _ _ _ => exact .done (.refl r) (fun _ => rfl) (completes_clean s r k)
  | @checked t i _ waiters seen r₁ hc =>
      have hfront (x : D.Key) (hx : x ∈ (r₁.concludeGroup k { t with waiters := waiters } i
          seen).queue) : x = k ∨ x ∈ r₁.queue := mem_queue_concludeGroup hx
      obtain ⟨active, queue, he⟩ := concludeGroup_frame _ k _ _ _
      rw [he] at hfront ⊢
      exact hgoes hc.reads (hgroup hc.read) hc.kept
        (fun d hd => OrderedSet.mem_insertAll.mpr (.inl hd)) hfront
  | dropped hd =>
      refine hrest hd.reads ?_ r'.aborted
      cases hd with
      | cut _ _ hread _ => exact hgroup hread
      | called _ _ _ hrun _ => exact hcall hrun
  | lost hl =>
      refine hrest hl.reads ?_ _
      cases hl with
      | unregistered _ _ _ => exact fun _ => rfl
      | crashed _ _ _ hrun => exact hcall hrun
      | unread hi _ => exact hcall hi.run
      | idle hi _ => exact hcall hi.run
  | built hi _ =>
      obtain ⟨how, -, -, hbuilt⟩ := completes_built s _ k _ _
      exact .done hi.reads (hcall hi.run) hbuilt
  | failed hi => exact .done hi.reads (hcall hi.run) (completes_failed s _ k _ _)
  | blocked hi _ _ _ _ => exact .done hi.reads (hcall hi.run) (completes_failed s _ k _ _)
  | @waiting t waiters _ inv r₁ hi _ _ =>
      have hfront (x : D.Key) (hx : x ∈ (r₁.resumeOrPark k
          (Task.afterCall { t with waiters := waiters } inv)).queue) : x = k ∨ x ∈ r₁.queue :=
        mem_queue_resumeOrPark hx
      obtain ⟨active, queue, he⟩ := resumeOrPark_eq _ k _
      rw [he] at hfront ⊢
      exact hgoes hi.reads (hcall hi.run) hi.kept
        (fun d hd => OrderedSet.mem_insertAll.mpr (.inl hd)) hfront

/-! ## When a round stops queueing -/

/-- An action lets the round go on as it did, unless its key fails by what its function did. -/
theorem Move.stopping {k : D.Key} (h : Move s r k r') : r'.stopping = r.stopping ∨
    ∃ t waiters f ending inv r₁ deps e, Invoked s r k t waiters f ending inv r₁ ∧
      r' = r₁.completeFailed s k (some deps) e := by
  cases h with
  | idle _ => exact .inl rfl
  | verified _ _ _ => exact .inl ((completes_clean s r k).stopping.trans (by simp))
  | checked hc =>
      obtain ⟨active, queue, he⟩ := concludeGroup_frame _ k _ _ _
      rw [he]
      exact .inl hc.reads.stopping
  | dropped hd => exact .inl hd.reads.stopping
  | lost hl => exact .inl hl.reads.stopping
  | built hi _ =>
      obtain ⟨how, hfailed, -, hbuilt⟩ := completes_built s _ k _ _
      exact .inl ((hbuilt.stopping.trans (by simp [hfailed])).trans hi.reads.stopping)
  | failed hi => exact .inr ⟨_, _, _, _, _, _, _, _, hi, rfl⟩
  | blocked hi _ _ _ _ => exact .inr ⟨_, _, _, _, _, _, _, _, hi, rfl⟩
  | waiting hi _ _ =>
      obtain ⟨active, queue, he⟩ := resumeOrPark_eq _ k _
      rw [he]
      exact .inl hi.reads.stopping

/-- Whether a round has stopped queueing can be told from what its observer was told. -/
theorem stopping_iff_of_reaches {graph : Graph D} {calls : Table D.Key Nat}
    (h : Reaches s (Round.start s graph calls) r) :
    r.stopping = true ↔ s.keepGoing = false ∧ ∃ k, .completed k .failed ∈ r.log := by
  let P (r : Round D) : Prop :=
    r.stopping = true ↔ s.keepGoing = false ∧ ∃ k, .completed k .failed ∈ r.log
  have hreads {r r' : Round D} (h : P r) (hr : Reads r r') : P r' := by
    simp only [P, hr.stopping, hr.completed]
    exact h
  have hcompletes {r r' : Round D} {k : D.Key} {how : Completion} (h : P r)
      (hc : Completes s k how r r') : P r' := by
    have hlog : (∃ x, .completed x .failed ∈ r'.log) ↔
        how = .failed ∨ ∃ x, .completed x .failed ∈ r.log := by
      simp only [hc.log, List.mem_cons, Event.completed.injEq]
      constructor
      · rintro ⟨x, ⟨-, rfl⟩ | hx⟩
        · exact .inl rfl
        · exact .inr ⟨x, hx⟩
      · rintro (rfl | ⟨x, hx⟩)
        · exact ⟨k, .inl ⟨rfl, rfl⟩⟩
        · exact ⟨x, .inr hx⟩
    simp only [P] at h
    simp only [P, hc.stopping, Bool.or_eq_true, h, Bool.and_eq_true, decide_eq_true_eq, hlog,
      Bool.not_eq_true']
    rw [and_comm (a := how = .failed), ← and_or_left, or_comm]
  induction h with
  | refl =>
      refine start_induction (P := P) ?_ fun k _ r h => hreads h (reads_demand s r k)
      simp [P, blank]
  | @tail r r' _ hstep ih =>
      cases advance_of_step hstep with
      | skipped _ _ => exact ih
      | @acted k rest r' _ _ hm =>
          have hpop : P { r with queue := rest } := ih
          cases outline_of_move hm with
          | kept hr hstop hlog _ _ =>
              have hread := hreads hpop hr
              simp only [P, ← hstop, ← hlog] at hread
              exact hread
          | done hr _ hc => exact hcompletes (hreads hpop hr) hc
      | broken _ _ _ _ =>
          exact failMembers_induction _ (P := P) ih
            fun k t r₀ h₀ _ _ => hcompletes h₀ (completes_failed s r₀ k _ _)

/-! ## The way down to a failure -/

/-- The key `k` had to wait for `d` and is not queued. -/
def Idles (r : Round D) (k d : D.Key) : Prop := r.Seeks k d ∧ k ∉ r.queue

/-- A root leads down to a failed key by way of keys that are not queued. -/
def Doomed (s : Setting D) (r : Round D) : Prop :=
  ∃ root ∈ s.roots, ∃ k e, Relation.ReflTransGen r.Idles root k ∧ r.graph.Shows k (.failure e)

/-- A key that waits for an incomplete one is not queued, unless it is acting. -/
theorem Tally.idles {busy : Option D.Key} {n : Nat} {met : List D.Key} (h : Tally r busy n met)
    {k d : D.Key} (hk : busy ≠ some k) (hd : r.graph.isComplete d = false) (hseeks : r.Seeks k d) :
    r.Idles k d := by
  refine ⟨hseeks, fun hqueue => ?_⟩
  obtain ⟨t, ht, hmem⟩ := hseeks
  rcases h.working k hqueue with hc | ⟨t', ht', hactive⟩
  · rw [h.unfinished k t ht] at hc
    cases hc
  obtain rfl := Option.some.inj (ht.symm.trans ht')
  have hidle := h.active_of_enlisted hk ht ((h.awaits k t ht d).mpr ⟨.inl hmem, hd⟩)
  rw [hidle] at hactive
  cases hactive

theorem Idles.complete {c : D.Key} {how : Completion} (hc : Completes s c how r r')
    (hstop : r'.stopping = true) {k d : D.Key} (hkc : k ≠ c) (h : r.Idles k d) : r'.Idles k d := by
  refine ⟨h.1.complete hc hkc, ?_⟩
  rw [hc.queue, if_pos hstop, List.append_nil]
  exact h.2

/-- In a round that is stopping, keys that are not queued stay so. -/
theorem Idles.step (hstop : r.stopping = true) (hstep : r.step s = some r') {k d : D.Key}
    (h : r.Idles k d) : r'.Idles k d := by
  cases advance_of_step hstep with
  | skipped hq _ => exact ⟨h.1, fun hk => h.2 (hq ▸ List.mem_cons_of_mem _ hk)⟩
  | @acted c rest r' hq _ hm =>
      have hkc : k ≠ c := by
        rintro rfl
        exact h.2 (hq ▸ List.mem_cons_self)
      have hpop : ({ r with queue := rest } : Round D).Idles k d :=
        ⟨h.1, fun hk => h.2 (hq ▸ List.mem_cons_of_mem c hk)⟩
      cases outline_of_move hm with
      | kept hr _ _ hseeks hqueue =>
          exact ⟨hseeks k d (h.1.reads hr), fun hk =>
            (hqueue hstop k hk).elim hkc fun hk => hpop.2 hk⟩
      | @done r₁ _ how hr hqueue hc =>
          have hstop' : r'.stopping = true := by
            rw [hc.stopping, hr.stopping]
            exact Bool.or_eq_true_iff.mpr (.inl hstop)
          exact Idles.complete hc hstop' hkc ⟨h.1.reads hr, hqueue hstop ▸ hpop.2⟩
  | broken _ _ hgo _ =>
      rw [hstop] at hgo
      cases hgo

/-- A way down can be taken as far as the first key that completes. -/
theorem Idles.until {c : D.Key} {how : Completion} (hc : Completes s c how r r')
    (hstop : r'.stopping = true) {root k : D.Key} (h : Relation.ReflTransGen r.Idles root k) :
    Relation.ReflTransGen r'.Idles root k ∨ Relation.ReflTransGen r'.Idles root c := by
  induction h with
  | refl => exact .inl .refl
  | @tail a b _ hab ih =>
      rcases ih with hway | hway
      · by_cases hac : a = c
        · exact .inr (hac ▸ hway)
        · exact .inl (hway.tail (hab.complete hc hstop hac))
      · exact .inr hway

namespace Doomed

/-- A root leads down to a key that fails, and no key on the way goes on. -/
theorem fail {k root : D.Key} (hroot : root ∈ s.roots) {deps : Option (DepGroups D.Key)}
    {e : Failure D.Key D.Fault} (hk : r.graph.isComplete k = false)
    (hway : Relation.ReflTransGen (r.completeFailed s k deps e).Idles root k) :
    Doomed s (r.completeFailed s k deps e) := by
  obtain ⟨e', he⟩ := outcome_completeFailed s r k deps e
  exact ⟨root, hroot, k, e', hway, (settles_completeFailed deps e hk).complete, he⟩

/-- The first failure.  Its key waits for nothing that is under evaluation, and every key on the way
to it waits for one that is. -/
theorem begin (h : Wanted s r) (hr : Reads r r') {busy : Option D.Key} {n : Nat}
    {met : List D.Key} (ht : Tally r' busy n met) {k : D.Key}
    (hbusy : ∀ x, busy = some x → x = k) (hk : r.tasks.contains k = true)
    (hseeks : ∀ d, r.tasks.contains d = true → busy = some k → ¬ r.Seeks k d)
    (deps : Option (DepGroups D.Key)) (e : Failure D.Key D.Fault) (hs : s.keepGoing = false) :
    Doomed s (r'.completeFailed s k deps e) := by
  have hinc {x : D.Key} (hx : r.tasks.contains x = true) : r'.graph.isComplete x = false := by
    obtain ⟨t, ht'⟩ := Option.isSome_iff_exists.mp (hr.contains hx)
    exact ht.unfinished x t ht'
  have hfailed := completes_failed s r' k deps e
  have hstop : (r'.completeFailed s k deps e).stopping = true := by
    rw [hfailed.stopping, hs]
    simp
  obtain ⟨root, hroot, hchain⟩ := h k hk
  have hway : Relation.ReflTransGen r'.Idles root k := by
    refine seeks_chain (fun a b hab hb => ht.idles (fun hba => ?_) (hinc hb) (hab.reads hr))
      hchain hk
    obtain rfl := hbusy a hba
    exact hseeks b hb hba hab
  rcases Idles.until hfailed hstop hway with hway | hway
  · exact fail hroot (hinc hk) hway
  · exact fail hroot (hinc hk) hway

/-- The way down lasts as long as the round does. -/
theorem step (h : Doomed s r) (hstop : r.stopping = true)
    (ht : r.halted = true ∨ Tally r none 0 []) (hstep : r.step s = some r') : Doomed s r' := by
  obtain ⟨root, hroot, k, e, hway, hshows⟩ := h
  refine ⟨root, hroot, k, e, hway.lift id fun a b hab => hab.step hstop hstep, ?_⟩
  exact (Graph.shows_of_memo_eq (Tally.memo_step ht hstep hshows.1)).mpr hshows

/-- A further failure leaves a way down to itself or to the one before. -/
theorem more (h : Doomed s r) (hstop : r.stopping = true) {k : D.Key}
    (hk : r.graph.isComplete k = false) (deps : Option (DepGroups D.Key))
    (e : Failure D.Key D.Fault) : Doomed s (r.completeFailed s k deps e) := by
  obtain ⟨root, hroot, x, e', hway, hshows⟩ := h
  have hfailed := completes_failed s r k deps e
  have hstop' : (r.completeFailed s k deps e).stopping = true := by
    rw [hfailed.stopping, hstop]
    rfl
  rcases Idles.until hfailed hstop' hway with hway | hway
  · exact ⟨root, hroot, x, e', hway, (settles_completeFailed (s := s) deps e hk).shows hk hshows⟩
  · exact fail hroot hk hway

end Doomed

/-! ## Rounds that do not keep going -/

/-- What holds in a round that does not keep going: until queueing stops, a root leads to every key
under evaluation, and from then on a root leads down to a failed key. -/
inductive Stops (s : Setting D) (r : Round D) : Prop where
  /-- no key has failed -/
  | not_yet : r.stopping = false → Wanted s r → Stops s r
  /-- a key has failed -/
  | doomed : r.stopping = true → Doomed s r → Stops s r

/-- A round that is stopping goes on stopping. -/
theorem stopping_step (hstop : r.stopping = true) (hstep : r.step s = some r') :
    r'.stopping = true := by
  cases advance_of_step hstep with
  | skipped _ _ => exact hstop
  | acted _ _ hm =>
      rcases hm.stopping with hsame | ⟨_, _, _, _, _, r₁, deps, e, hi, rfl⟩
      · exact hsame.trans hstop
      · rw [(completes_failed s r₁ _ (some deps) e).stopping, hi.reads.stopping]
        exact Bool.or_eq_true_iff.mpr (.inl hstop)
  | broken _ _ hgo _ => exact absurd (hgo.symm.trans hstop) Bool.false_ne_true

theorem stopping_reaches (hstop : r.stopping = true) (h : Reaches s r r') : r'.stopping = true := by
  induction h with
  | refl => exact hstop
  | tail _ hstep ih => exact stopping_step ih hstep

namespace Stops

/-- An action in a round without a failure. -/
theorem move (hs : s.keepGoing = false) (hw : Wanted s r) (hstop : r.stopping = false)
    (hg : Grounded s r) (ht : Tally r none 0 []) {k : D.Key} {rest : List D.Key}
    (hq : r.queue = k :: rest) (hm : Move s { r with queue := rest } k r') :
    r'.halted = true ∨ Stops s r' := by
  rcases hm.stopping with hsame | ⟨t, waiters, f, ending, inv, r₁, deps, e, hi, he⟩
  · have hgo : r'.stopping = false := hsame.trans hstop
    rcases hw.move hg ht hq hm (.inl hs) with hh | hstop' | hw'
    · exact .inl hh
    · exact absurd (hgo.symm.trans hstop') Bool.false_ne_true
    · exact .inr (.not_yet hgo hw')
  · have hpop : Wanted s { r with queue := rest } := hw
    have htally := (ht.pop hq hi.task).invoke (s := s) f t.scratch
    rw [hi.run] at htally
    rw [he]
    refine .inr (.doomed ?_ (Doomed.begin hpop hi.reads htally
      (fun x hx => (Option.some.inj hx).symm) (contains_of_get? hi.task)
      (fun d hd _ => (ht.pop hq hi.task).not_seeks hd) _ e hs))
    rw [(completes_failed s r₁ k (some deps) e).stopping, hs]
    simp

/-- The members of broken cycles fail one after the other. -/
theorem broken (hs : s.keepGoing = false) (hw : Wanted s r) (hstop : r.stopping = false)
    (ht : Tally r none 0 []) (found : List (Cycle D.Key)) : Stops s (r.failMembers s found) := by
  have hwanted {r₁ : Round D} (htasks : r₁.tasks = r.tasks) : Wanted s r₁ := by
    unfold Wanted Rooted Seeks
    rw [htasks]
    exact hw
  have hall := (ht.failMembers_induction (s := s) found
    (P := fun r₁ => r₁.tasks = r.tasks ∧ r₁.stopping = false ∨ r₁.stopping = true ∧ Doomed s r₁)
    (.inl ⟨rfl, hstop⟩) (by
      intro k t r₁ r₂ hcase h₁ hf
      refine .inr ⟨?_, ?_⟩
      · rw [hf.completes.stopping, hs]
        simp
      · rw [hf.fails]
        rcases hcase with ⟨htasks, -⟩ | ⟨hstop₁, hdoomed⟩
        · exact Doomed.begin (hwanted htasks) (.refl r₁) h₁ (fun x hx => by cases hx)
            (contains_of_get? hf.task) (fun d _ hb => by cases hb) _ _ hs
        · exact hdoomed.more hstop₁ hf.incomplete _ _)).2
  rcases hall with ⟨htasks, hgo⟩ | ⟨hstop', hdoomed⟩
  · exact .not_yet hgo (hwanted htasks)
  · exact .doomed hstop' hdoomed

/-- A step keeps it, unless the round is to stop after it. -/
theorem step (hs : s.keepGoing = false) (hg : Grounded s r)
    (ht : r.halted = true ∨ Tally r none 0 []) (h : r.halted = true ∨ Stops s r)
    (hstep : r.step s = some r') : r'.halted = true ∨ Stops s r' := by
  have hgoing (hh : r.halted = false) : Tally r none 0 [] ∧ Stops s r :=
    ⟨ht.resolve_left (by simp [hh]), h.resolve_left (by simp [hh])⟩
  have hadvance := advance_of_step hstep
  cases hadvance with
  | skipped _ hh => exact .inl hh
  | acted hq hh hm =>
      obtain ⟨htally, hstops⟩ := hgoing hh
      cases hstops with
      | not_yet hgo hw => exact move hs hw hgo hg htally hq hm
      | doomed hstop hdoomed =>
          exact .inr (.doomed (stopping_step hstop hstep) (hdoomed.step hstop ht hstep))
  | broken _ hh hgo _ =>
      obtain ⟨htally, hstops⟩ := hgoing hh
      cases hstops with
      | not_yet _ hw => exact .inr (broken hs hw hgo htally _)
      | doomed hstop _ => exact absurd (hgo.symm.trans hstop) Bool.false_ne_true

theorem of_reaches (hs : s.keepGoing = false) {graph : Graph D} (hg : graph.Grounded s.version)
    (hb : graph.Before s.version) {calls : Table D.Key Nat}
    (h : Reaches s (Round.start s graph calls) r) : r.halted = true ∨ Stops s r := by
  induction h with
  | refl =>
      have hgo : (Round.start s graph calls).stopping = false :=
        start_induction (P := fun r => r.stopping = false) rfl
          fun k _ r hr => (reads_demand s r k).stopping.trans hr
      exact .inr (.not_yet hgo (Wanted.start s graph calls))
  | tail hr hstep ih =>
      exact step hs (Grounded.of_reaches hg hb hr) (tally_of_reaches hr) ih hstep

end Stops

end Round

end MemoGraph
