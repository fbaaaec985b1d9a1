import MemoGraph.Proofs.Round.Ending
import MemoGraph.Proofs.Round.Founded

/-!
# Rounds that come to what a graph shows

Take a graph in which everything that can be read has its causes in what can be read, and a round
that starts with nothing but the values given from outside.  If the round demands only keys that the
graph shows, it builds them one after the other, and every outcome is alike to the one that the
graph shows: functions are consulted on outcomes that agree.  No cycle comes up on the way, since
what a key waits for is among its dependencies in the graph.
-/

set_option autoImplicit false

namespace MemoGraph

variable {D : Domain}

/-- A plan that is stopped by a batch without pending keys is stopped by failures. -/
theorem Plan.failed_ne_nil {look : Sight D} (plan : Plan D)
    (hlacking : (plan.consult look).upshot = .lacking)
    (hpending : (plan.consult look).pending = []) : (plan.consult look).failed ≠ [] := by
  induction plan with
  | value v => cases hlacking
  | fault e => cases hlacking
  | broken => cases hlacking
  | read batch accepts next ih =>
      have hb := pending_batch_eq_nil hpending
      cases hl : look.lacks accepts batch with
      | true =>
          rw [consult_of_lacks hl]
          intro hnil
          have hfalse : look.lacks accepts batch = false := by
            refine Sight.lacks_eq_false.mpr fun d hd => ⟨Sight.pending_eq_nil.mp hb d hd, ?_⟩
            exact List.filterMap_eq_nil_iff.mp hnil d hd
          rw [hl] at hfalse
          cases hfalse
      | false =>
          rw [consult_of_not_lacks hl] at hlacking hpending ⊢
          exact ih _ hlacking hpending

namespace Graph

variable {g : Graph D} {registry : Registry D} {k : D.Key} {f : Function D} {plan : Plan D}
  {o : Outcome D} {look : Sight D}

/-- Dependencies of an explained outcome are complete. -/
theorem Explains.isComplete_dep (h : g.Explains registry k f plan o) {d : D.Key}
    (hd : d ∈ (g.node k).deps.keys) : g.isComplete d = true := by
  rw [h.deps] at hd
  obtain ⟨batch, hbatch, hd⟩ :=
    (DepGroups.mem_keys_pushAll.mp hd).resolve_left List.not_mem_nil
  have hsettled : g.sight d ≠ none := by
    intro hnone
    have hmem := plan.mem_pending_of_read hbatch hd hnone
    rw [h.pending] at hmem
    exact List.not_mem_nil hmem
  obtain ⟨o, ho⟩ := Option.ne_none_iff_exists'.mp hsettled
  exact (shows_of_settled ho).1

/-- Consulted on outcomes that agree, a plan reads dependencies only. -/
theorem Explains.dep_of_read (h : g.Explains registry k f plan o) (hlook : look.Agrees g.sight)
    {batch : List D.Key} (hbatch : batch ∈ (plan.consult look).batches) {d : D.Key}
    (hd : d ∈ batch) : d ∈ (g.node k).deps.keys := by
  rw [h.deps]
  have hprefix := plan.prefix_of_agrees hlook h.pending
  exact DepGroups.mem_keys_pushAll.mpr (.inr ⟨batch, hprefix.subset hbatch, hd⟩)

/-- It does not break off. -/
theorem Explains.not_broken (h : g.Explains registry k f plan o)
    (hlook : look.Agrees g.sight) : (plan.consult look).upshot ≠ .broken := by
  intro hbroken
  have hpending : (plan.consult look).pending = [] := by
    apply plan.pending_eq_nil
    rw [hbroken]
    simp
  have halike := plan.alike_of_agrees hlook hpending h.pending
  obtain ⟨o', ho', -⟩ := h.outcome
  rw [Consultation.outcome?, ← halike.upshot, hbroken] at ho'
  cases ho'

/-- If it comes to an outcome, this is alike to the explained one. -/
theorem Explains.alike (hD : D.Exact) (h : g.Explains registry k f plan o)
    (hlook : look.Agrees g.sight) (hpending : (plan.consult look).pending = [])
    {o' : Outcome D} (ho' : (plan.consult look).outcome? k = some o') : o'.Alike o := by
  obtain ⟨o₁, ho₁, halike⟩ := (plan.alike_of_agrees hlook hpending h.pending).outcome ho'
  obtain ⟨o₂, ho₂, hsame⟩ := h.outcome
  obtain rfl : o₁ = o₂ := Option.some.inj (ho₁.symm.trans ho₂)
  exact halike.trans ((Outcome.same_iff_alike hD).mp hsame).symm

/-- A key that was not given a value has its outcome explained. -/
theorem Certified.explains {latest : Table D.Key D.Value} (h : g.Certified registry latest)
    {version : Version} (hg : g.Grounded version) (hk : g.isComplete k = true)
    (hnot : k ∉ latest.keys) : ∃ f plan o, g.Shows k o ∧ g.Explains registry k f plan o := by
  obtain ⟨o, -, ho⟩ := hg.settled hk
  rcases h.grounds k o ⟨hk, ho⟩ with ⟨v, hv, -⟩ | hjust
  · exact absurd (Table.mem_keys_iff.mpr ⟨v, hv⟩) hnot
  · obtain ⟨f, plan, hexplains⟩ := explains_of_justified hjust
    exact ⟨f, plan, o, ⟨hk, ho⟩, hexplains⟩

end Graph

namespace Round

/-! ## What a replay can do -/

/-- The round comes to what `goal` shows, having started with the values in `latest`. -/
structure Replays (goal : Graph D) (latest : Table D.Key D.Value) (r : Round D) : Prop where
  /-- Outcomes that can be read here and there are alike. -/
  agrees : Sight.Agrees r.sight goal.sight
  /-- There is nothing to check. -/
  unchecked : ∀ x, (r.graph.node x).status ≠ .dirty
  /-- Keys that were given values are complete. -/
  given : ∀ x ∈ latest.keys, r.graph.isComplete x = true
  /-- Only keys that `goal` shows are under evaluation. -/
  shown : ∀ x t, r.tasks.get? x = some t → goal.isComplete x = true
  /-- They wait for dependencies that they have there. -/
  below : ∀ x t, r.tasks.get? x = some t → ∀ d ∈ t.awaited, d ∈ (goal.node x).deps.keys
  /-- The round goes on. -/
  going : r.halted = false

/-- The function of the key `k`, first in the queue of a replay, was invoked. -/
structure Ventured (goal : Graph D) (r : Round D) (k : D.Key) (rest : List D.Key)
    (r₁ : Round D) : Prop where
  /-- The key was first. -/
  queue : r.queue = k :: rest
  /-- It is one that `goal` shows. -/
  shown : goal.isComplete k = true
  /-- It is under evaluation. -/
  incomplete : r.graph.isComplete k = false
  /-- The invocation read dependencies. -/
  reads : Reads { r with queue := rest } r₁
  /-- It brought keys under evaluation that `goal` shows. -/
  adds : Adds (fun x => goal.isComplete x = true) { r with queue := rest } r₁
  /-- The round is not to stop. -/
  going : r₁.interrupted = false

/-- What a step of a replay can be. -/
inductive Onward (s : Setting D) (goal : Graph D) (r : Round D) : Round D → Prop where
  /-- a queued key has completed before -/
  | passed {k : D.Key} {rest : List D.Key} : r.queue = k :: rest →
      Onward s goal r { r with queue := rest }
  /-- a key completes with an outcome that is alike -/
  | completed {k : D.Key} {rest : List D.Key} {how : Completion} {r₁ r' : Round D} :
      Ventured goal r k rest r₁ → Completes s k how r₁ r' →
      Graph.Settles s.version k r₁.graph r'.graph →
      (∀ o, r'.graph.Shows k o → ∃ o', goal.Shows k o' ∧ o.Alike o') → Onward s goal r r'
  /-- a key waits for dependencies -/
  | waited {k : D.Key} {rest : List D.Key} {t : Task D} {r₁ : Round D} :
      Ventured goal r k rest r₁ → r₁.tasks.contains k = true →
      (∀ d ∈ t.awaited, d ∈ (goal.node k).deps.keys) → Onward s goal r (r₁.park k t)

section Step

variable {s : Setting D} {r r' : Round D} {goal : Graph D} {latest : Table D.Key D.Value}
  {k : D.Key} {f : Function D} {plan : Plan D} {o : Outcome D}

/-- An invocation in a replay lets the round go on. -/
theorem Replays.going_invoke (h : Replays goal latest r) (hquiet : Quiet s)
    (he : goal.Explains s.registry k f plan o) (scratch : Option (Scratch D)) :
    (r.invoke s k f scratch).2.2.interrupted = false := by
  have hi : r.interrupted = false := by
    have hgoing := h.going
    rw [halted, Bool.or_eq_false_iff] at hgoing
    exact hgoing.2
  have hsight : (r.countCall s k).2.sight = r.sight := (reads_countCall r).sight
  show ((f k (r.countCall s k).1).run s k (.start scratch)
    (r.countCall s k).2).2.2.interrupted = false
  refine (he.follows _).going rfl ?_ (.inl hquiet) ?_
  · exact (hquiet.record _ _).trans hi
  · rw [hsight]
    exact he.not_broken h.agrees

/-- Nothing gives a replay up. -/
theorem Replays.not_lost (h : Replays goal latest r) (hquiet : Quiet s) (hg : Grounded s r)
    (ht : Tally r none 0 []) {rest : List D.Key} (hq : r.queue = k :: rest)
    (he : goal.Explains s.registry k f plan o) {r₁ : Round D} {a : Abort D.Key} :
    ¬ Lost s { r with queue := rest } k r₁ a := by
  intro hl
  have hpop : Replays goal latest { r with queue := rest } := { h with }
  have hbroken := he.not_broken hpop.agrees
  have hf {f' : Function D} (hf' : s.registry.find? k = some f') : f' = f :=
    Option.some.inj (hf'.symm.trans he.function)
  cases hl with
  | unregistered _ _ hnone =>
      rw [he.function] at hnone
      cases hnone
  | @crashed t f' payload inv r₁ _ _ hf' hrun =>
      obtain rfl := hf hf'
      have hended := (consulted_invoke he.follows (hpop.going_invoke hquiet he t.scratch)).ending
      rw [hrun] at hended
      exact hbroken (Upshot.eq_broken_of_allows hended)
  | @unread t waiters f' v inv r₁ hi hmissing =>
      obtain rfl := hf hi.function
      obtain ⟨hnotes, hended⟩ := hi.consulted he.follows
      rw [hnotes.lacks, Upshot.eq_value_of_allows hended] at hmissing
      cases hmissing
  | @idle t waiters f' inv r₁ hi hnothing =>
      obtain rfl := hf hi.function
      obtain ⟨hnotes, hended⟩ := hi.consulted he.follows
      have hu := Upshot.eq_lacking_of_allows hended hbroken
      have hmissing : inv.missing = true := by
        rw [hnotes.lacks, hu]
        rfl
      obtain ⟨hexpected, -, hfailed⟩ := hnothing hmissing
      have hawaited := hi.awaited_eq_nil hg ht hq hexpected
      rw [hnotes.pending] at hawaited
      rw [hnotes.failed] at hfailed
      exact plan.failed_ne_nil hu hawaited hfailed

/-- What the invocation of a key in a replay leads to. -/
theorem Replays.ventured (h : Replays goal latest r) (ht : Tally r none 0 [])
    {rest : List D.Key} (hq : r.queue = k :: rest) {t : Task D} {waiters : OrderedSet D.Key}
    {ending : Ending D} {inv : Invocation D} {r₁ : Round D}
    (hi : Invoked s { r with queue := rest } k t waiters f ending inv r₁)
    (he : goal.Explains s.registry k f plan o) :
    Ventured goal r k rest r₁ ∧
      ∀ batch ∈ inv.batches, ∀ d ∈ batch, d ∈ (goal.node k).deps.keys := by
  have hreads : ∀ batch ∈ inv.batches, ∀ d ∈ batch, d ∈ (goal.node k).deps.keys := by
    intro batch hbatch d hd
    rw [(hi.consulted he.follows).1.batches] at hbatch
    exact he.dep_of_read h.agrees hbatch hd
  refine ⟨⟨hq, h.shown k t hi.task, ht.unfinished k t hi.task, hi.reads, ?_, hi.going⟩, hreads⟩
  have hadds := Adds.invoke s k f t.scratch { r with queue := rest }
  rw [hi.run] at hadds
  refine hadds.imp fun x hx => ?_
  obtain ⟨batch, hbatch, hx⟩ := hx
  exact he.isComplete_dep (hreads batch hbatch x hx)

/-- No cycle holds a replay up. -/
theorem Replays.heldUpBy_eq_nil (h : Replays goal latest r) (hfounded : goal.Founded)
    (ht : Tally r none 0 []) (hq : r.queue = []) (hstop : r.stopping = false) :
    r.heldUpBy s = [] := by
  -- What waits, waits for something below that waits as well.
  have hidle (x : D.Key) : r.tasks.contains x = false := by
    induction x using hfounded.induction with
    | _ x ih =>
        cases hx : r.tasks.contains x with
        | false => rfl
        | true =>
            obtain ⟨d, hd, hdt⟩ := ht.drained hq hstop hx
            obtain ⟨t, htask⟩ := Option.isSome_iff_exists.mp hx
            rw [blockers, htask] at hd
            have hawaited : d ∈ t.awaited := OrderedSet.mem_def.mpr (List.mem_filter.mp hd).1
            have hbelow : goal.Below d x := ⟨h.shown x t htask, h.below x t htask d hawaited⟩
            rw [ih d hbelow] at hdt
            cases hdt
  apply List.eq_nil_iff_forall_not_mem.mpr
  intro c hc
  have hsound := Cycle.sound_of_mem_find hc
  obtain ⟨x, hx⟩ := List.exists_mem_of_ne_nil _ hsound.nonempty
  have hcontains := Table.contains_iff_mem_keys.mpr (hsound.inside x hx)
  rw [hidle x] at hcontains
  cases hcontains

/-- A key under evaluation in a replay was given no value, so what `goal` shows for it is
explained. -/
theorem Replays.explains (h : Replays goal latest r) (hgoal : goal.Certified s.registry latest)
    {version : Version} (hversion : goal.Grounded version) (ht : Tally r none 0 []) {t : Task D}
    (htask : r.tasks.get? k = some t) :
    ∃ f plan o, goal.Shows k o ∧ goal.Explains s.registry k f plan o := by
  refine hgoal.explains hversion (h.shown k t htask) fun hgiven => ?_
  have hcomplete := h.given k hgiven
  rw [ht.unfinished k t htask] at hcomplete
  cases hcomplete

/-- What a function concludes in a replay is what `goal` shows. -/
theorem Replays.concluded (hD : D.Exact) (h : Replays goal latest r)
    (hgoal : goal.Certified s.registry latest) {version : Version}
    (hversion : goal.Grounded version) (ht : Tally r none 0 []) {rest : List D.Key}
    (hq : r.queue = k :: rest) {t : Task D} {waiters : OrderedSet D.Key} {ending : Ending D}
    {inv : Invocation D} {r₁ : Round D} {how : Completion}
    (hi : Invoked s { r with queue := rest } k t waiters f ending inv r₁)
    (ho : Concludes k inv ending o) (hc : Completes s k how r₁ r')
    (hgraph : r'.graph =
      (r₁.graph.setDeps k (t.requested.pushAll inv.batches)).publish k o s.version) :
    Onward s goal r r' := by
  have hpop : Replays goal latest { r with queue := rest } := { h with }
  obtain ⟨f', plan, shown, hshown, he⟩ := h.explains hgoal hversion ht hi.task
  obtain rfl := Option.some.inj (hi.function.symm.trans he.function)
  obtain ⟨hnotes, hallows⟩ := hi.consulted he.follows
  obtain ⟨hpending, hout⟩ := ho.outcome hnotes hallows plan.pending_eq_nil
  have halike := he.alike hD hpop.agrees hpending hout
  have hinc := ht.unfinished_of_reads hi.reads hi.task
  have hs := Graph.settles_setDeps_publish s.version (t.requested.pushAll inv.batches) o hinc
  rw [← hgraph] at hs
  refine .completed (h.ventured ht hq hi he).1 hc hs fun o' ho' => ⟨shown, hshown, ?_⟩
  have hstored := ho'.2
  rw [hgraph] at hstored
  rcases Graph.outcome_setDeps_publish hstored with rfl | hsame
  · exact halike
  · exact ((Outcome.same_iff_alike hD).mp hsame).trans halike

/-- A function that waits in a replay does so for dependencies that its key has in `goal`. -/
theorem Replays.waits (h : Replays goal latest r) (hgoal : goal.Certified s.registry latest)
    {version : Version} (hversion : goal.Grounded version) (hg : Grounded s r)
    (ht : Tally r none 0 []) {rest : List D.Key} (hq : r.queue = k :: rest) {t : Task D}
    {waiters : OrderedSet D.Key} {inv : Invocation D} {r₁ : Round D}
    (hi : Invoked s { r with queue := rest } k t waiters f .needsDeps inv r₁)
    (hwaits : t.expected + inv.enlisted ≠ 0 ∨ inv.enlisted ≠ 0) :
    Onward s goal r (r₁.resumeOrPark k (Task.afterCall { t with waiters := waiters } inv)) := by
  obtain ⟨f', plan, shown, -, he⟩ := h.explains hgoal hversion ht hi.task
  obtain rfl := Option.some.inj (hi.function.symm.trans he.function)
  obtain ⟨hventured, hreads⟩ := h.ventured ht hq hi he
  have hexpected := (ht.pop hq hi.task).expected_eq_zero hi.task
  rw [resumeOrPark_afterCall hexpected hwaits]
  refine .waited hventured (contains_of_get? hi.kept) fun d hd => ?_
  rcases OrderedSet.mem_insertAll.mp hd with hd | hd
  · exact h.below k t hi.task d hd
  · have hpop : Grounded s { r with queue := rest } := { hg with }
    have htraced := hpop.traced_invoke k f t.scratch
    rw [hi.run] at htraced
    obtain ⟨-, batch, hbatch, hd⟩ := htraced.awaited d hd
    exact hreads batch hbatch d hd

/-- Every step of a replay goes on. -/
theorem Replays.onward (hD : D.Exact) (h : Replays goal latest r)
    (hgoal : goal.Certified s.registry latest) {version : Version}
    (hversion : goal.Grounded version) (hquiet : Quiet s) (hg : Grounded s r)
    (ht : Tally r none 0 []) (hstep : r.step s = some r') : Onward s goal r r' := by
  cases advance_of_step hstep with
  | skipped _ hh =>
      rw [h.going] at hh
      cases hh
  | broken hq _ hstop hheld => exact absurd (h.heldUpBy_eq_nil hgoal.founded ht hq hstop) hheld
  | @acted k rest r' hq hh hm =>
      have hpop : Replays goal latest { r with queue := rest } := { h with }
      have hmode {t : Task D} {i : Nat} (htask : r.tasks.get? k = some t) : t.mode ≠ .check i :=
        fun hm => h.unchecked k (hg.checking k t i htask hm)
      cases hm with
      | idle _ => exact .passed hq
      | verified htask hcheck _ => exact absurd hcheck (hmode htask)
      | checked hc => exact absurd hc.mode (hmode hc.task)
      | dropped hd =>
          cases hd with
          | cut htask hcheck _ _ => exact absurd hcheck (hmode htask)
          | @called t f ending inv r' htask _ hf hrun hi =>
              obtain ⟨f', plan, shown, -, he⟩ := h.explains hgoal hversion ht htask
              obtain rfl := Option.some.inj (hf.symm.trans he.function)
              have hgo := hpop.going_invoke hquiet he t.scratch
              rw [hrun, hi] at hgo
              cases hgo
      | lost hl =>
          obtain ⟨t, htask⟩ := hl.task
          obtain ⟨f, plan, shown, -, he⟩ := h.explains hgoal hversion ht htask
          exact absurd hl (h.not_lost hquiet hg ht hq he)
      | built hi hmissing =>
          obtain ⟨how, -, -, hbuilt⟩ := completes_built s _ k _ _
          exact h.concluded hD hgoal hversion ht hq hi (.value hmissing) hbuilt
            (graph_completeBuilt s _ k _ _)
      | failed hi =>
          exact h.concluded hD hgoal hversion ht hq hi .fault (completes_failed s _ k _ _)
            (graph_completeFailed s _ k _ _)
      | blocked hi hmissing hexpected _ hfailed =>
          exact h.concluded hD hgoal hversion ht hq hi
            (hi.concludes_of_blocked hg ht hq hmissing hexpected hfailed)
            (completes_failed s _ k _ _) (graph_completeFailed s _ k _ _)
      | waiting hi _ hwaits => exact h.waits hgoal hversion hg ht hq hi hwaits

/-! ## Replays last -/

/-- Reading keeps a replay if it brings only keys under evaluation that `goal` shows. -/
theorem Replays.reads (h : Replays goal latest r) (hr : Reads r r')
    (hadds : Adds (fun x => goal.isComplete x = true) r r') (hgo : r'.interrupted = false) :
    Replays goal latest r' where
  agrees := by
    rw [hr.sight]
    exact h.agrees
  unchecked x := by
    rw [hr.node]
    exact h.unchecked x
  given x hx := by
    rw [hr.isComplete]
    exact h.given x hx
  shown x t ht := by
    rcases hadds.tasks x (contains_of_get? ht) with hx | hx
    · obtain ⟨t₀, ht₀⟩ := Option.isSome_iff_exists.mp hx
      exact h.shown x t₀ ht₀
    · exact hx
  below x t ht d hd := by
    cases hold : r.tasks.get? x with
    | none =>
        obtain ⟨-, waiters, rfl⟩ := hr.begun x t hold ht
        exact absurd hd List.not_mem_nil
    | some t₀ =>
        obtain ⟨waiters, hkept⟩ := hr.kept x t₀ hold
        obtain rfl := Option.some.inj (ht.symm.trans hkept)
        exact h.below x t₀ hold d hd
  going := by
    have hgoing := h.going
    rw [halted, Bool.or_eq_false_iff] at hgoing ⊢
    rw [hr.aborted]
    exact ⟨hgoing.1, hgo⟩

theorem Ventured.replays {rest : List D.Key} {r₁ : Round D} (hv : Ventured goal r k rest r₁)
    (h : Replays goal latest r) : Replays goal latest r₁ :=
  have hpop : Replays goal latest { r with queue := rest } := { h with }
  hpop.reads hv.reads hv.adds hv.going

/-- A step that goes on keeps the replay. -/
theorem Replays.step (h : Replays goal latest r) (hquiet : Quiet s)
    (hstep : Onward s goal r r') : Replays goal latest r' := by
  cases hstep with
  | passed _ => exact { h with }
  | @completed k rest how r₁ r' hv hc hs halike =>
      have h₁ := hv.replays h
      refine ⟨fun d o o' ho ho' => ?_, fun x => ?_, fun x hx => hs.isComplete_mono (h₁.given x hx),
        fun x t ht => ?_, fun x t ht => ?_, ?_⟩
      · by_cases hd : d = k
        · subst hd
          obtain ⟨o₁, ho₁, hlike⟩ := halike o (Graph.shows_of_settled ho)
          obtain rfl := Option.some.inj (ho'.symm.trans (Graph.settled_of_shows ho₁))
          exact hlike
        · refine h₁.agrees d o o' ?_ ho'
          rw [← ho]
          exact (Node.settled?_of_memo_eq (hs.others d hd)).symm
      · by_cases hx : x = k
        · have hcomplete : (r'.graph.node k).status = .current := Node.isComplete_iff.mp hs.complete
          rw [hx, hcomplete]
          simp
        · rw [(Node.memo_eq_iff.mp (hs.others x hx)).1]
          exact h₁.unchecked x
      · obtain ⟨-, t₀, ht₀, -⟩ := hc.back ht
        exact h₁.shown x t₀ ht₀
      · obtain ⟨-, t₀, ht₀, -, -, hawaited⟩ := hc.back ht
        rw [hawaited]
        exact h₁.below x t₀ ht₀
      · rw [halted, hc.aborted, hc.interrupted, hquiet, Bool.or_false]
        exact h₁.going
  | @waited k rest t r₁ hv _ hbelow =>
      have h₁ := hv.replays h
      refine ⟨h₁.agrees, h₁.unchecked, h₁.given, fun x t' ht' => ?_, fun x t' ht' => ?_, h₁.going⟩
      · rcases Table.get?_insert_eq_some_iff.mp ht' with ⟨rfl, -⟩ | ⟨-, ht'⟩
        · exact hv.shown
        · exact h₁.shown x t' ht'
      · rcases Table.get?_insert_eq_some_iff.mp ht' with ⟨rfl, rfl⟩ | ⟨-, ht'⟩
        · exact hbelow
        · exact h₁.below x t' ht'

/-- A round that starts with the given values and nothing else, over keys that `goal` shows, is a
replay. -/
theorem replays_start (hgoal : goal.Certified s.registry latest)
    (hfree : ∀ x ∈ latest.keys, s.registry.find? x = none) (hquiet : Quiet s) {graph : Graph D}
    (hvalues : ∀ x o, graph.Shows x o → ∃ v, latest.get? x = some v ∧ o = .value v)
    (hunchecked : ∀ x, (graph.node x).status ≠ .dirty)
    (hgiven : ∀ x ∈ latest.keys, graph.isComplete x = true)
    (hroots : ∀ root ∈ s.roots, goal.isComplete root = true) (calls : Table D.Key Nat) :
    Replays goal latest (Round.start s graph calls) := by
  refine start_induction (P := Replays goal latest) ⟨fun x o o' ho ho' => ?_, hunchecked, hgiven,
    fun x t ht => ?_, fun x t ht => ?_, rfl⟩ fun k hk r h => ?_
  · obtain ⟨v, hv, rfl⟩ := hvalues x o (Graph.shows_of_settled ho)
    rcases hgoal.grounds x o' (Graph.shows_of_settled ho') with ⟨v', hv', rfl, -⟩ | hjust
    · obtain rfl := Option.some.inj (hv.symm.trans hv')
      exact .refl _
    · obtain ⟨hf, -⟩ := hjust
      rw [hfree x (Table.mem_keys_iff.mpr ⟨v, hv⟩)] at hf
      cases hf
  · cases ht
  · cases ht
  · refine h.reads (reads_demand s r k) ?_ ?_
    · refine (Adds.demand s r k).imp fun x hx => ?_
      rw [hx]
      exact hroots k hk
    · have hgoing := h.going
      rw [halted, Bool.or_eq_false_iff] at hgoing
      exact (hquiet.demand r k).trans hgoing.2

/-! ## Replays end -/

/-- The keys of `goal` that are not complete yet. -/
def unfinished (goal : Graph D) (r : Round D) : Finset D.Key :=
  goal.keys.toFinset.filter fun x => r.graph.isComplete x = false

/-- The keys of `goal` that have no task. -/
def untouched (goal : Graph D) (r : Round D) : Finset D.Key :=
  goal.keys.toFinset.filter fun x => r.tasks.contains x = false

/-- What a replay still has to do: keys to complete, keys to bring under evaluation, and keys to
take from the queue. -/
def load (goal : Graph D) (r : Round D) : Nat ×ₗ Nat ×ₗ Nat :=
  toLex ((unfinished goal r).card, toLex ((untouched goal r).card, r.queue.length))

theorem load_lt_iff : load goal r' < load goal r ↔
    (unfinished goal r').card < (unfinished goal r).card ∨
      (unfinished goal r').card = (unfinished goal r).card ∧
        ((untouched goal r').card < (untouched goal r).card ∨
          (untouched goal r').card = (untouched goal r).card ∧
            r'.queue.length < r.queue.length) := by
  rw [load, load, Prod.Lex.toLex_lt_toLex, Prod.Lex.toLex_lt_toLex]

theorem mem_keys_of_isComplete {x : D.Key} (hx : goal.isComplete x = true) :
    x ∈ goal.keys.toFinset :=
  List.mem_toFinset.mpr (Graph.mem_keys_iff_contains.mpr (Graph.contains_of_isComplete hx))

/-- Every step lightens the load. -/
theorem Onward.load_lt (h : Onward s goal r r') : load goal r' < load goal r := by
  rw [load_lt_iff]
  cases h with
  | @passed k rest hq =>
      refine .inr ⟨rfl, .inr ⟨rfl, ?_⟩⟩
      rw [hq]
      exact Nat.lt_succ_self _
  | @completed k rest how r₁ r' hv hc hs _ =>
      refine .inl (card_left_lt (fun x hx => ?_) (mem_keys_of_isComplete hv.shown) hv.incomplete
        hs.complete)
      exact hs.isComplete_mono ((hv.reads.isComplete x).trans hx)
  | @waited k rest t r₁ hv hk _ =>
      have hsame : unfinished goal (r₁.park k t) = unfinished goal r :=
        left_congr hv.reads.isComplete
      have htouched : untouched goal (r₁.park k t) = untouched goal r₁ :=
        left_congr fun x => Table.contains_insert_of_contains hk x _
      refine .inr ⟨congrArg Finset.card hsame, ?_⟩
      rw [htouched]
      rcases (hv.adds.imp fun x => mem_keys_of_isComplete).card_left with hlt | ⟨heq, hqueue⟩
      · exact .inl hlt
      · refine .inr ⟨heq, ?_⟩
        rw [hv.queue]
        have hlength : r₁.queue = rest := hqueue
        exact hlength ▸ Nat.lt_succ_self _

/-! ## Whole replays -/

variable {graph : Graph D} {calls : Table D.Key Nat}

/-- What holds of every state of a round that starts as a replay. -/
theorem onward_of_reaches (hD : D.Exact) (hgoal : goal.Certified s.registry latest)
    {version : Version} (hversion : goal.Grounded version) (hquiet : Quiet s)
    (hg : graph.Grounded s.version) (hb : graph.Before s.version)
    (hstart : Replays goal latest (Round.start s graph calls))
    (hr : Reaches s (Round.start s graph calls) r) :
    Replays goal latest r ∧ ∀ r', r.step s = some r' → Onward s goal r r' := by
  have honward {r : Round D} (hr : Reaches s (Round.start s graph calls) r)
      (h : Replays goal latest r) (r' : Round D) (hstep : r.step s = some r') :
      Onward s goal r r' := by
    have htally := tally_of_going hr h.going
    exact h.onward hD hgoal hversion hquiet (.of_reaches hg hb hr) htally hstep
  induction hr with
  | refl => exact ⟨hstart, honward .refl hstart⟩
  | @tail r r' hr hstep ih =>
      have h := ih.1.step hquiet (ih.2 r' hstep)
      exact ⟨h, honward (hr.tail hstep) h⟩

/-- A round all of whose steps go on ends. -/
theorem runs_of_onward (hall : ∀ r', Reaches s r r' → ∀ r'', r'.step s = some r'' →
    Onward s goal r' r'') :
    ∃ enough r', ∀ budget, enough ≤ budget → Round.run s budget r = some r' :=
  runs_of_measure (load goal) fun r' hr' r'' hstep => (hall r' hr' r'' hstep).load_lt

end Step

end Round

end MemoGraph
