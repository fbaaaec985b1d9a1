import MemoGraph.Proofs.Recipe.Alike
import MemoGraph.Proofs.Recipe.Run
import MemoGraph.Proofs.Round.Accounts

/-!
# Justified outcomes

The outcome of a key is *justified* if its function, following its plan, comes to that outcome out
of what the key relies on, and requests the recorded dependencies on the way.  Justification is an
account.  A function that is invoked pays it: with the batches of earlier invocations it shares the
beginning of its plan, so that all requests together are those of the last invocation.
-/

set_option autoImplicit false

namespace MemoGraph

variable {D : Domain}

/-- The function of `k` comes to an outcome that counts as `o` out of outcomes it relies on, and
requests `deps` on the way. -/
inductive Justified (registry : Registry D) (k : D.Key) (deps : DepGroups D.Key) (o : Outcome D)
    (relies : D.Key → Outcome D → Prop) : Prop where
  /-- by a consultation of the plan that it follows -/
  | intro {f : Function D} {plan : Plan D} {look : Sight D} {o' : Outcome D} :
      registry.find? k = some f → f.Follows k plan →
      (∀ d ∈ deps.keys, ∃ od, look d = some od ∧ relies d od) →
      (plan.consult look).pending = [] → deps = .ofBatches (plan.consult look).batches →
      (plan.consult look).outcome? k = some o' → o.same o' = true →
      Justified registry k deps o relies

/-- What justifies an outcome shows an outcome of every dependency. -/
theorem Justified.shows {registry : Registry D} {k : D.Key} {deps : DepGroups D.Key}
    {o : Outcome D} {relies : D.Key → Outcome D → Prop} (h : Justified registry k deps o relies)
    {d : D.Key} (hd : d ∈ deps.keys) : ∃ od, relies d od := by
  obtain ⟨-, -, hlook, -, -, -, -⟩ := h
  obtain ⟨od, -, hrelies⟩ := hlook d hd
  exact ⟨od, hrelies⟩

/-- What a consultation comes to that meets no key without an outcome is justified by what it
sees. -/
theorem Justified.of_consult (hD : D.Exact) {registry : Registry D} {k : D.Key} {f : Function D}
    {plan : Plan D} {look : Sight D} {deps : DepGroups D.Key} {o : Outcome D}
    {relies : D.Key → Outcome D → Prop} (hf : registry.find? k = some f) (hplan : f.Follows k plan)
    (hrelies : ∀ d od, look d = some od → relies d od) (hpending : (plan.consult look).pending = [])
    (hdeps : deps = .ofBatches (plan.consult look).batches)
    (hout : (plan.consult look).outcome? k = some o) : Justified registry k deps o relies := by
  refine .intro hf hplan (fun d hd => ?_) hpending hdeps hout
    ((Outcome.same_iff_alike hD).mpr (.refl o))
  rw [hdeps] at hd
  obtain ⟨batch, hbatch, hd⟩ :=
    (DepGroups.mem_keys_pushAll.mp hd).resolve_left List.not_mem_nil
  have hsettled : look d ≠ none := by
    intro hnone
    have hmem := plan.mem_pending_of_read hbatch hd hnone
    rw [hpending] at hmem
    exact List.not_mem_nil hmem
  obtain ⟨od, hod⟩ := Option.ne_none_iff_exists'.mp hsettled
  exact ⟨od, hod, hrelies d od hod⟩

/-- A function that does the same for a key justifies the same outcomes. -/
theorem Justified.program {registry registry' : Registry D} {k : D.Key} {deps : DepGroups D.Key}
    {o : Outcome D} {relies : D.Key → Outcome D → Prop}
    (hsame : (registry'.find? k).map (· k) = (registry.find? k).map (· k))
    (h : Justified registry k deps o relies) : Justified registry' k deps o relies := by
  obtain ⟨hf, hplan, hlook, hpending, hdeps, hout, hcounts⟩ := h
  rw [hf, Option.map_some] at hsame
  obtain ⟨f', hf', hk⟩ := Option.map_eq_some_iff.mp hsame
  refine .intro hf' (fun n => ?_) hlook hpending hdeps hout hcounts
  rw [hk]
  exact hplan n

/-- The outcomes that can be read of a graph. -/
def Graph.sight (g : Graph D) : Sight D := fun d => (g.node d).settled?

/-- The function of `k`, consulted on what can be read, comes to an outcome that counts as `o` and
requests the recorded dependencies on the way. -/
structure Graph.Explains (g : Graph D) (registry : Registry D) (k : D.Key) (f : Function D)
    (plan : Plan D) (o : Outcome D) : Prop where
  /-- The function. -/
  function : registry.find? k = some f
  /-- What it does. -/
  follows : f.Follows k plan
  /-- It meets no key without an outcome. -/
  pending : (plan.consult g.sight).pending = []
  /-- Its requests. -/
  deps : (g.node k).deps = .ofBatches (plan.consult g.sight).batches
  /-- Its outcome. -/
  outcome : ∃ o', (plan.consult g.sight).outcome? k = some o' ∧ o.same o' = true

/-- What is justified by outcomes that can be read is what a consultation on them comes to. -/
theorem Graph.consult_of_justified {g : Graph D} {registry : Registry D} {k : D.Key}
    {deps : DepGroups D.Key} {o : Outcome D} (h : Justified registry k deps o g.Shows) :
    ∃ f plan o', registry.find? k = some f ∧ f.Follows k plan ∧
      (plan.consult g.sight).pending = [] ∧ deps = .ofBatches (plan.consult g.sight).batches ∧
      (plan.consult g.sight).outcome? k = some o' ∧ o.same o' = true := by
  obtain @⟨f, plan, look, o', hf, hplan, hlook, hpending, hdeps, hout, hcounts⟩ := h
  have hsight : plan.consult g.sight = plan.consult look := by
    apply Plan.consult_congr
    intro batch hbatch d hd
    have hdep : d ∈ deps.keys := by
      rw [hdeps]
      exact DepGroups.mem_keys_pushAll.mpr (.inr ⟨batch, hbatch, hd⟩)
    obtain ⟨od, hod, hshows⟩ := hlook d hdep
    rw [hod]
    exact Graph.settled_of_shows hshows
  rw [← hsight] at hpending hdeps hout
  exact ⟨f, plan, o', hf, hplan, hpending, hdeps, hout, hcounts⟩

/-- What is justified by outcomes that can be read is explained by them. -/
theorem Graph.explains_of_justified {g : Graph D} {registry : Registry D} {k : D.Key}
    {o : Outcome D} (h : Justified registry k (g.node k).deps o g.Shows) :
    ∃ f plan, g.Explains registry k f plan o := by
  obtain ⟨f, plan, o', hf, hplan, hpending, hdeps, hout, hcounts⟩ := consult_of_justified h
  exact ⟨f, plan, hf, hplan, hpending, hdeps, o', hout, hcounts⟩

/-- What outcomes with which dependencies need no justification. -/
abbrev Exempt (D : Domain) : Type := D.Key → DepGroups D.Key → Outcome D → Prop

/-- Outcomes are justified, with exemptions. -/
def justification (registry : Registry D) (exempt : Exempt D) : Account D where
  holds k deps o relies := exempt k deps o ∨ Justified registry k deps o relies
  mono := by
    intro k deps o relies relies' hmore h
    rcases h with h | ⟨hf, hplan, hlook, hpending, hdeps, hout, hsame⟩
    · exact .inl h
    · refine .inr (.intro hf hplan (fun d hd => ?_) hpending hdeps hout hsame)
      obtain ⟨od, ho, hr⟩ := hlook d hd
      exact ⟨od, ho, hmore d hd od hr⟩

theorem stable_justification (hD : D.Exact) {registry : Registry D} {exempt : Exempt D}
    (hexempt : ∀ {k deps o o'}, o'.same o = true → exempt k deps o → exempt k deps o') :
    (justification registry exempt).Stable := by
  intro k deps o o' relies hsame h
  rcases h with h | ⟨hf, hplan, hlook, hpending, hdeps, hout, hsame'⟩
  · exact .inl (hexempt hsame h)
  · have halike := (Outcome.same_iff_alike hD).mp hsame
    have halike' := (Outcome.same_iff_alike hD).mp hsame'
    exact .inr (.intro hf hplan hlook hpending hdeps hout
      ((Outcome.same_iff_alike hD).mpr (halike.trans halike')))

namespace Round

variable {s : Setting D} {r r' : Round D}

/-! ## What functions asked for -/

/-- The requests of a task are the beginning of what its function requests now. -/
def Asks (s : Setting D) (g : Graph D) (k : D.Key) (t : Task D) : Prop :=
  ∀ f plan, s.registry.find? k = some f → f.Follows k plan →
    ∃ batches, t.requested = .ofBatches batches ∧
      batches <+: (plan.consult fun d => (g.node d).settled?).batches

/-- After the completion of a key, more can be read. -/
theorem extends_of_settles {version : Version} {c : D.Key} {g g' : Graph D}
    (h : Graph.Settles version c g g') (hc : g.isComplete c = false) :
    Sight.Extends (fun d => (g'.node d).settled?) (fun d => (g.node d).settled?) := by
  intro d o ho
  have hdc : d ≠ c := by
    intro e
    have hcomplete := (Graph.shows_of_settled ho).1
    rw [e, hc] at hcomplete
    cases hcomplete
  rw [← ho]
  exact Node.settled?_of_memo_eq (h.others d hdc)

theorem taskRule_asks (s : Setting D) : TaskRule s (Asks s) where
  frame {g g' k t t'} h hnode _ hrequested _ f plan hf hplan := by
    obtain ⟨batches, hreq, hprefix⟩ := h f plan hf hplan
    refine ⟨batches, hrequested.trans hreq, ?_⟩
    simp only [hnode]
    exact hprefix
  begun g k _ f plan _ _ := ⟨[], rfl, List.nil_prefix⟩
  settle {c g g' k t} hs hc _ h f plan hf hplan := by
    obtain ⟨batches, hreq, hprefix⟩ := h f plan hf hplan
    exact ⟨batches, hreq,
      hprefix.trans (Plan.batches_consult_prefix (extends_of_settles hs hc) plan)⟩

/-- The requests of every task are the beginning of what its function requests now. -/
def Asked (s : Setting D) (r : Round D) : Prop := EachTask (Asks s) r

/-- An invocation that lets the round go on does what consulting the plan says. -/
theorem consulted_invoke {k : D.Key} {f : Function D} {plan : Plan D} (hplan : f.Follows k plan)
    {scratch : Option (Scratch D)} (hgo : (r.invoke s k f scratch).2.2.interrupted = false) :
    Recipe.Consulted (plan.consult r.sight) (.start scratch) (r.countCall s k).2
      (r.invoke s k f scratch) := by
  rw [← (reads_countCall (s := s) (k := k) r).sight]
  exact (hplan (r.countCall s k).1).run rfl hgo

theorem Invoked.consulted {k : D.Key} {t : Task D} {waiters : OrderedSet D.Key} {f : Function D}
    {ending : Ending D} {inv : Invocation D} (h : Invoked s r k t waiters f ending inv r')
    {plan : Plan D} (hplan : f.Follows k plan) :
    (Invocation.start t.scratch).Notes inv (plan.consult r.sight).batches
        (plan.consult r.sight).shown (plan.consult r.sight).failed
        (plan.consult r.sight).pending (plan.consult r.sight).upshot.isLacking ∧
      (plan.consult r.sight).upshot.Allows ending := by
  have hgo : (r.invoke s k f t.scratch).2.2.interrupted = false := by
    rw [h.run]
    exact h.going
  have hconsulted := consulted_invoke hplan hgo
  rw [h.run] at hconsulted
  exact ⟨hconsulted.notes, hconsulted.ending⟩

/-- All requests of a task together are those of its last invocation. -/
theorem Asked.requested (h : Asked s r) {k : D.Key} {t : Task D} {waiters : OrderedSet D.Key}
    {f : Function D} {ending : Ending D} {inv : Invocation D}
    (hi : Invoked s r k t waiters f ending inv r') {plan : Plan D} (hplan : f.Follows k plan) :
    t.requested.pushAll inv.batches = .ofBatches (plan.consult r.sight).batches := by
  obtain ⟨batches, hreq, hprefix⟩ := h k t hi.task f plan hi.function hplan
  rw [(hi.consulted hplan).1.batches, hreq]
  exact DepGroups.pushAll_of_prefix hprefix

/-- Every step keeps what is known of requests. -/
theorem Asked.step (h : Asked s r) (ht : r.halted = true ∨ Tally r none 0 [])
    (hstep : r.step s = some r') : Asked s r' := by
  refine EachTask.step (taskRule_asks s) h ht ?_ ?_ hstep
  · intro k rest t i group waiters seen r₁ _ hc f plan hf hplan
    obtain ⟨batches, hreq, hprefix⟩ := h k t hc.task f plan hf hplan
    refine ⟨batches, hreq, ?_⟩
    simp only [hc.reads.node]
    exact hprefix
  · intro k rest t waiters f inv r₁ _ _ hi f' plan hf hplan
    obtain rfl := Option.some.inj (hi.function.symm.trans hf)
    have hpop : Asked s { r with queue := rest } := h
    refine ⟨_, hpop.requested hi hplan, ?_⟩
    have hsight : r₁.sight = r.sight := hi.reads.sight
    show (plan.consult r.sight).batches <+: (plan.consult r₁.sight).batches
    simp only [hsight, List.prefix_rfl]

theorem asked_of_reaches {graph : Graph D} {calls : Table D.Key Nat}
    (h : Reaches s (Round.start s graph calls) r) : Asked s r := by
  induction h with
  | refl => exact EachTask.start (taskRule_asks s) graph calls
  | tail hr hstep ih => exact ih.step (tally_of_reaches hr) hstep

/-! ## What functions conclude -/

/-- Only the failures that were shown count. -/
theorem declaredFailure_start (k : D.Key) (fault : D.Fault) (inv : Invocation D) :
    declaredFailure k fault inv =
      declaredFailure k fault { Invocation.start none with shown := inv.shown } := rfl

/-- The conclusion of an invocation is that of the consultation that it did. -/
theorem Concludes.outcome {k : D.Key} {inv : Invocation D} {ending : Ending D} {o : Outcome D}
    (h : Concludes k inv ending o) {c : Consultation D} {scratch : Option (Scratch D)}
    (hnotes : (Invocation.start scratch).Notes inv c.batches c.shown c.failed c.pending
      c.upshot.isLacking)
    (hallows : c.upshot.Allows ending) (hpending : c.upshot ≠ .lacking → c.pending = []) :
    c.pending = [] ∧ c.outcome? k = some o := by
  have hmissing : inv.missing = c.upshot.isLacking := hnotes.lacks
  have hawaited : inv.awaited = c.pending := hnotes.pending
  have hfailed : inv.failedReads = c.failed := hnotes.failed
  have hshown : inv.shown = c.shown := hnotes.shown
  cases h with
  | value _ =>
      have hu := Upshot.eq_value_of_allows hallows
      exact ⟨hpending (by simp [hu]), by rw [Consultation.outcome?, hu]⟩
  | fault =>
      have hu := Upshot.eq_fault_of_allows hallows
      refine ⟨hpending (by simp [hu]), ?_⟩
      rw [Consultation.outcome?, hu, declaredFailure_start, hshown]
  | blocked hm hnone _ =>
      rw [hawaited] at hnone
      have hu : c.upshot = .lacking := by
        refine Upshot.eq_lacking_of_allows hallows fun hbroken => ?_
        rw [hmissing, hbroken] at hm
        cases hm
      refine ⟨hnone, ?_⟩
      rw [Consultation.outcome?, hu]
      simp only [hnone, if_true, hfailed]

/-- What a function concludes is justified. -/
theorem justified_of_concludes (hD : D.Exact) (h : Asked s r) {k : D.Key} {t : Task D}
    {waiters : OrderedSet D.Key} {f : Function D} {ending : Ending D} {inv : Invocation D}
    (hi : Invoked s r k t waiters f ending inv r') {plan : Plan D} (hplan : f.Follows k plan)
    {o : Outcome D} (ho : Concludes k inv ending o) :
    Justified s.registry k (t.requested.pushAll inv.batches) o r'.graph.Shows := by
  obtain ⟨hnotes, hallows⟩ := hi.consulted hplan
  have hbatches := h.requested hi hplan
  have hout := ho.outcome hnotes hallows plan.pending_eq_nil
  exact .of_consult hD hi.function hplan
    (fun d od hod => (Graph.shows_congr hi.reads.node).mpr (Graph.shows_of_settled hod))
    hout.1 hbatches hout.2

end Round

end MemoGraph
