import MemoGraph.Proofs.Round.Calls

/-!
# Why a round is given up

A round is given up as a whole for one of four reasons, and each is the fault of the function that
was to be invoked next: it is not registered, it crashed, it ended with a value although a read had
found none, or it asked to be run again although every read had found one.  Nothing follows such a
step, so the last state of a round tells which of them it was.
-/

set_option autoImplicit false

namespace MemoGraph

variable {D : Domain}

namespace Round

variable {s : Setting D} {r r' : Round D}

/-- The fault that makes the next step give the round up. -/
inductive Blames (s : Setting D) (r : Round D) : Abort D.Key → Prop where
  /-- no function is registered -/
  | unregistered {k : D.Key} {rest : List D.Key} {t : Task D} : r.halted = false →
      r.queue = k :: rest → r.tasks.get? k = some t → t.mode = .rebuild →
      s.registry.find? k = none → Blames s r (.missingFunction k)
  /-- the function crashes -/
  | crashed {c : Call D} {payload : Payload} : r.call? s = some c → c.ending = .crash payload →
      Blames s r (.crashed c.key payload)
  /-- the function ends with a value although a read had found none -/
  | unread {c : Call D} {v : D.Value} : r.call? s = some c → c.left.interrupted = false →
      c.ending = .value v → c.inv.missing = true → Blames s r (.valueWithMissingDeps c.key)
  /-- the function wants to be run again although every read had found a value -/
  | idle {c : Call D} : r.call? s = some c → c.left.interrupted = false → c.ending = .needsDeps →
      c.inv.missing = false → Blames s r (.noProgress c.key)

/-- The fault gives the round up.  If the round was asked to stop by then, the function crashed. -/
theorem Blames.step {a : Abort D.Key} (h : Blames s r a) :
    ∃ r₁, r.step s = some (r₁.abort a) ∧
      (r₁.interrupted = true → ∃ c payload, r.call? s = some c ∧ c.left = r₁ ∧
        c.ending = .crash payload ∧ a = .crashed c.key payload) := by
  -- A crash counts in any case, another ending only if there is no wish to stop.
  have hconclude {c : Call D} (hc : r.call? s = some c)
      (hgo : (c.left.interrupted && !c.ending.isCrash) = false)
      (hlost : ∀ t, c.left.conclude s c.key (Task.absorb t c.inv) c.inv c.ending =
        c.left.abort a) : r.step s = some (c.left.abort a) := by
    obtain ⟨rest, t, f, hcalls⟩ := calls_of_call? hc
    obtain ⟨waiters, hkept⟩ := hcalls.reads.kept c.key t hcalls.task
    rw [hcalls.step hkept, hgo, if_neg Bool.false_ne_true, hlost]
  cases h with
  | @unregistered k rest t hh hq ht hmode hf =>
      have hpop : ({ r with queue := rest } : Round D).halted = false := hh
      have htask : ({ r with queue := rest } : Round D).tasks.get? k = some t := ht
      refine ⟨{ r with queue := rest }, ?_, fun hi =>
        absurd ((not_interrupted_of_going hpop).symm.trans hi) Bool.false_ne_true⟩
      simp only [Round.step, hq, hpop, Bool.false_eq_true, if_false, process, htask, hmode, rebuild,
        hf]
  | @crashed c payload hc he =>
      exact ⟨c.left, hconclude hc (by simp [he, Ending.isCrash]) fun t => by rw [he, conclude],
        fun _ => ⟨c, payload, hc, rfl, he, rfl⟩⟩
  | @unread c v hc hgo he hm =>
      exact ⟨c.left, hconclude hc (by simp [hgo]) fun t => by simp only [he, conclude, hm, if_true],
        fun hi => absurd (hgo.symm.trans hi) Bool.false_ne_true⟩
  | @idle c hc hgo he hm =>
      exact ⟨c.left, hconclude hc (by simp [hgo]) fun t => by
        simp only [he, conclude, hm, Bool.false_eq_true, if_false],
        fun hi => absurd (hgo.symm.trans hi) Bool.false_ne_true⟩

/-- A step gives the round up for the fault of a function only. -/
theorem blames_of_step (hg : Grounded s r) (ht : Tally r none 0 []) (hh : r.halted = false)
    (hstep : r.step s = some r') {a : Abort D.Key} (ha : r'.aborted = some a) : Blames s r a := by
  have hnone := aborted_of_going hh
  -- What only reads or completes a key does not give the round up.
  have hkept {r₁ : Round D} (h : r₁.aborted = r.aborted) (h' : r'.aborted = r₁.aborted) :
      Blames s r a := by
    rw [h', h, hnone] at ha
    cases ha
  cases hcall : r.call? s with
  | some c =>
      obtain ⟨rest, t, f, hcalls⟩ := calls_of_call? hcall
      obtain ⟨t, -, -, hends⟩ := ends_of_call hg ht hcall hstep
      have hleft : c.left.aborted = r.aborted := hcalls.reads.aborted
      cases hends with
      | crashed he =>
          obtain rfl := Option.some.inj ha
          exact .crashed hcall he
      | dropped _ _ => exact hkept hleft rfl
      | unread hgo he hm =>
          obtain rfl := Option.some.inj ha
          exact .unread hcall hgo he hm
      | idle hgo he hm =>
          obtain rfl := Option.some.inj ha
          exact .idle hcall hgo he hm
      | built _ _ _ =>
          obtain ⟨_, -, -, hc⟩ := completes_built s c.left c.key
            (t.requested.pushAll c.inv.batches) _
          exact hkept hleft hc.aborted
      | failed _ _ => exact hkept hleft (completes_failed s _ _ _ _).aborted
      | blocked _ _ _ _ => exact hkept hleft (completes_failed s _ _ _ _).aborted
      | waiting _ _ _ _ _ => exact hkept hleft rfl
  | none =>
      cases noCall_of_step hcall hstep with
      | skipped _ => exact hkept rfl rfl
      | @verified k _ _ => exact hkept rfl (completes_clean s _ k).aborted
      | checked hc =>
          obtain ⟨active, queue, he⟩ := concludeGroup_frame _ _ _ _ _
          exact hkept hc.reads.aborted (by rw [he])
      | cut hreads => exact hkept hreads.aborted rfl
      | unregistered _ hq htask hmode hf =>
          obtain rfl := Option.some.inj ha
          exact .unregistered hh hq htask hmode hf
      | broken =>
          exact hkept rfl (failMembers_induction _ (P := fun r₁ => r₁.aborted = r.aborted) rfl
            fun k _ r₁ h _ _ => (completes_failed s r₁ k _ _).aborted.trans h)

/-- Once the round is to stop, only the queue changes. -/
theorem reaches_of_halted (hh : r.halted = true) (h : Reaches s r r') :
    ∃ queue, r' = { r with queue := queue } := by
  induction h with
  | refl => exact ⟨r.queue, rfl⟩
  | tail _ hstep ih =>
      obtain ⟨queue, rfl⟩ := ih
      have hhalted : ({ r with queue := queue } : Round D).halted = true := hh
      obtain ⟨k, rest, -, rfl⟩ := step_of_halted hhalted hstep
      exact ⟨rest, rfl⟩

section Reached

variable {graph : Graph D} {counts : Table D.Key Nat}

/-- The round was given up for a fault, and since then only the queue has changed. -/
theorem blames_of_reaches (hg : ∀ r, Reaches s (Round.start s graph counts) r → Grounded s r)
    (h : Reaches s (Round.start s graph counts) r) {a : Abort D.Key} (ha : r.aborted = some a) :
    ∃ r₀ r₁ queue, Reaches s (Round.start s graph counts) r₀ ∧ Blames s r₀ a ∧
      r₀.step s = some r₁ ∧ r = { r₁ with queue := queue } := by
  induction h with
  | refl =>
      have hnone : (Round.start s graph counts).aborted = none :=
        start_induction (P := fun r : Round D => r.aborted = none) rfl
          fun k _ r h => (reads_demand s r k).aborted.trans h
      cases hnone.symm.trans ha
  | @tail r r' hr hstep ih =>
      cases hh : r.halted with
      | true =>
          obtain ⟨queue, rfl⟩ := reaches_of_halted hh (.single hstep)
          obtain ⟨r₀, r₁, _, h₀, hblames, hfirst, rfl⟩ := ih ha
          exact ⟨r₀, r₁, queue, h₀, hblames, hfirst, rfl⟩
      | false =>
          have htally := tally_of_going hr hh
          exact ⟨r, r', r'.queue, hr, blames_of_step (hg r hr) htally hh hstep ha, hstep, rfl⟩

/-- At its end a round was given up for a fault exactly if this fault occurred in it. -/
theorem aborted_iff_blames (hg : ∀ r, Reaches s (Round.start s graph counts) r → Grounded s r)
    (h : Reaches s (Round.start s graph counts) r) (hend : r.step s = none) {a : Abort D.Key} :
    r.aborted = some a ↔ ∃ r₀, Reaches s (Round.start s graph counts) r₀ ∧ Blames s r₀ a := by
  constructor
  · intro ha
    obtain ⟨r₀, _, _, h₀, hblames, -⟩ := blames_of_reaches hg h ha
    exact ⟨r₀, h₀, hblames⟩
  · rintro ⟨r₀, h₀, hblames⟩
    obtain ⟨r₁, hstep, -⟩ := hblames.step
    have hlast : Reaches s (r₁.abort a) r := reaches_end (h₀.tail hstep) h hend
    obtain ⟨queue, rfl⟩ := reaches_of_halted (halted_of_aborted (r := r₁.abort a) rfl) hlast
    rfl

end Reached

/-! ## Waiting for what is missing -/

/-- The key rests, and some key that it waits for will signal it. -/
structure Waits (r : Round D) (k : D.Key) (t : Task D) : Prop where
  /-- It is under evaluation. -/
  task : r.tasks.get? k = some t
  /-- It is not at work. -/
  resting : t.active = false
  /-- It is not queued. -/
  unqueued : k ∉ r.queue
  /-- A key under evaluation that it waits for lists it among its waiters. -/
  source : ∃ d ∈ t.awaited, r.graph.isComplete d = false ∧ r.Enlisted k d

/-- A key that rests between two steps waits for a signal. -/
theorem Tally.waits (ht : Tally r none 0 []) {k : D.Key} {t : Task D}
    (htask : r.tasks.get? k = some t) (hactive : t.active = false) : Waits r k t := by
  have hexpected : t.expected ≠ 0 := fun h =>
    Bool.false_ne_true (hactive.symm.trans ((ht.ready k t htask).mpr h))
  refine ⟨htask, hactive, fun hq => ?_, ?_⟩
  · rcases ht.working k hq with hc | ⟨t', ht', hwork⟩
    · exact Bool.false_ne_true ((ht.unfinished k t htask).symm.trans hc)
    · obtain rfl := Option.some.inj (htask.symm.trans ht')
      exact Bool.false_ne_true (hactive.symm.trans hwork)
  · obtain ⟨sources, -, hsources, hcount⟩ := ht.counted k t htask
    have hcount : t.expected = sources.length := by simpa [owed] using hcount
    obtain ⟨d, hd⟩ := List.exists_mem_of_ne_nil sources fun hnil => by
      rw [hnil] at hcount
      exact hexpected hcount
    have henlisted := (hsources d).mp hd
    obtain ⟨hawaited, hc⟩ := (ht.awaits k t htask d).mp henlisted
    exact ⟨d, hawaited.resolve_right fun h => (by cases h.1), hc, henlisted⟩

/-- The function of a key that wants to be run again, and missed a value, is not to blame: the key
waits for a signal, or it fails because of dependencies that failed. -/
theorem step_of_missing {c : Call D} (hg : Grounded s r) (ht : Tally r none 0 [])
    (hcall : r.call? s = some c) (hgo : c.left.interrupted = false)
    (hending : c.ending = .needsDeps) (hmissing : c.inv.missing = true) :
    ∃ r', r.step s = some r' ∧ r'.aborted = none ∧
      ((∃ t, r'.Waits c.key t) ∨
        (c.inv.failedReads ≠ [] ∧
          (∀ child ∈ c.inv.failedReads, ∃ batch ∈ c.inv.batches, ∃ d ∈ batch,
            c.left.graph.Shows d (.failure child)) ∧
          ∃ deps, r' = c.left.completeFailed s c.key (some deps)
            (.ofChildren c.key c.inv.failedReads))) := by
  obtain ⟨rest, t, f, hcalls⟩ := calls_of_call? hcall
  obtain ⟨waiters, hkept⟩ := hcalls.reads.kept c.key t hcalls.task
  obtain ⟨r', hstep⟩ : ∃ r', r.step s = some r' := ⟨_, hcalls.step hkept⟩
  have hnone : c.left.aborted = none := hcalls.reads.aborted.trans (aborted_of_going hcalls.going)
  refine ⟨r', hstep, ?_⟩
  obtain ⟨_, -, -, hends⟩ := ends_of_call hg ht hcall hstep
  cases hends with
  | crashed he => cases hending.symm.trans he
  | dropped _ hi => exact absurd (hgo.symm.trans hi) Bool.false_ne_true
  | unread _ he _ => cases hending.symm.trans he
  | idle _ _ hm => exact absurd (hm.symm.trans hmissing) Bool.false_ne_true
  | built _ he _ => cases hending.symm.trans he
  | failed _ he => cases hending.symm.trans he
  | blocked _ _ _ hfailed =>
      refine ⟨(completes_failed s _ _ _ _).aborted.trans hnone,
        .inr ⟨hfailed, fun child hchild => ?_, _, rfl⟩⟩
      obtain ⟨d, ⟨batch, hbatch, hd⟩, hshows⟩ :=
        (hcalls.traced hg).failed child (List.mem_append_right _ hchild)
      exact ⟨batch, hbatch, d, hd, (Graph.shows_congr hcalls.reads.node).mpr hshows⟩
  | waiting _ _ _ _ hkept =>
      have htally : Tally _ none 0 [] := (Tally.step (.inr ht) hstep).resolve_left (by
        simp [halted, park, putTask, hnone, hgo])
      exact ⟨hnone, .inl ⟨_, htally.waits (Table.get?_insert_self _ _ _) rfl⟩⟩

end Round

end MemoGraph
