import MemoGraph.Proofs.Recipe.Refusal
import MemoGraph.Proofs.Round.Confluence
import MemoGraph.Proofs.Round.Descent
import MemoGraph.Proofs.Round.Founded

/-!
# Failures seen in the middle of a round

A round that was cut short shows, for a root that was not completed, a failure from below it.  In a
round over the same graph that went on to the end, all keys on the way down are dependencies of one
another, so that failure comes up to the root, if no function accepts failures.
-/

set_option autoImplicit false

namespace MemoGraph

variable {D : Domain}

/-- A complete key above a failed one failed with all its root causes. -/
theorem Graph.Certified.inherits {g : Graph D} {registry : Registry D}
    {latest : Table D.Key D.Value} (h : g.Certified registry latest) (hD : D.Exact)
    (hnone : registry.AcceptsNone) {k d : D.Key} {o : Outcome D} (hk : g.Shows k o)
    (hd : d ∈ (g.node k).deps.keys) {e : Failure D.Key D.Fault} (he : g.Shows d (.failure e)) :
    ∃ e', o = .failure e' ∧ ∀ c ∈ e.rootCauses, c ∈ e'.rootCauses := by
  rcases h.grounds k o hk with ⟨v, -, -, hdeps⟩ | hjust
  · rw [hdeps] at hd
    exact absurd hd List.not_mem_nil
  · obtain ⟨f, plan, o', hf, hplan, -, hdeps, hout, hsame⟩ := consult_of_justified hjust
    rw [hdeps] at hd
    obtain ⟨batch, hbatch, hmem⟩ :=
      (DepGroups.mem_keys_pushAll.mp hd).resolve_left List.not_mem_nil
    obtain ⟨e', rfl, hcauses⟩ :=
      hnone.inherits hf hplan hbatch hmem (settled_of_shows he) hout
    cases (Outcome.same_iff_alike hD).mp hsame with
    | failure halike => exact ⟨_, rfl, fun c hc => (halike.rootCauses c).mpr (hcauses c hc)⟩

namespace Round

variable {s : Setting D} {r : Round D} {g goal : Graph D}

/-- All that a key requested or had to wait for is among its dependencies in `goal`. -/
def Foreseen (goal : Graph D) (_ : Graph D) (k : D.Key) (t : Task D) : Prop :=
  ∀ d, d ∈ t.requested.keys ∨ d ∈ t.awaited → d ∈ (goal.node k).deps.keys

theorem taskRule_foreseen (s : Setting D) (goal : Graph D) : TaskRule s (Foreseen goal) where
  frame h _ _ hrequested hawaited d hd := h d (hrequested ▸ hawaited ▸ hd)
  begun _ _ _ d hd := hd.elim (fun h => absurd h List.not_mem_nil) fun h =>
    absurd h (OrderedSet.not_mem_empty d)
  settle _ _ _ h := h

section Unfolds

variable {calls : Table D.Key Nat} {exempt : Exempt D}

/-- What a round demands, in any order of work, is what its keys read in a round that went on to
the end. -/
theorem foreseen_of_unfolds (hD : D.Exact) (hstrict : s.registry.BatchStrict)
    (hg : g.Grounded s.version) (hb : g.Before s.version)
    (hall : ∀ x, g.Accounted (justification s.registry exempt) x)
    (hexempt : ∀ {k deps o}, exempt k deps o → deps = ∅) (hkeeps : g.Keeps goal)
    (hgoal : Graph.Resolved s.registry s.version g goal)
    (hroots : ∀ root ∈ s.roots, goal.isComplete root = true)
    (h : Unfolds s (Round.start s g calls) r) : EachTask (Foreseen goal) r := by
  induction h with
  | refl => exact EachTask.start (taskRule_foreseen s goal) g calls
  | @tail r r' hunfolds hturn ih =>
      obtain ⟨hgo, -⟩ := hturn.move
      obtain ⟨queue, hperm, hstep⟩ := hturn.step
      have hstanding := (Standing.of_unfolds hg hb hunfolds).shuffle hperm
      have hmatch : Matches goal { r with queue := queue } :=
        { matches_of_unfolds hD hstrict hg hb hkeeps hgoal hroots hunfolds hgo with }
      have htally := hstanding.tally.resolve_left fun hh => Bool.false_ne_true (hgo.symm.trans hh)
      have hih : EachTask (Foreseen goal) { r with queue := queue } := ih
      refine EachTask.step (taskRule_foreseen s goal) hih hstanding.tally ?_ ?_ hstep
      · intro k rest t i group waiters seen r₁ _ hc d hd
        rcases hd with hd | hd
        · exact hih k t hc.task d (.inl hd)
        rcases OrderedSet.mem_insertAll.mp hd with hd | hd
        · exact hih k t hc.task d (.inr hd)
        · -- A key of the group that was read.
          have hread : d ∈ (readGroup s k (r.graph.node k).evaluatedAt group .start
              { r with queue := rest }).1.waiting := by
            rw [hc.read]
            exact hd
          obtain ⟨hdirty, hrecorded, hpassed⟩ := hstanding.passed hc.task hc.mode hc.listed
          exact hgoal.mem_deps_of_group hb hexempt (hall k) hg.filled
            (hmatch.shown k (contains_of_get? hc.task)) hmatch.agree hdirty hrecorded hpassed
            (mem_group_of_waiting hread)
      · intro k rest t waiters f inv r₁ _ _ hi d hd
        obtain ⟨plan, hplan⟩ := hstrict k f hi.function k
        have hbatch {batch : List D.Key} (hbatch : batch ∈ inv.batches) {x : D.Key}
            (hx : x ∈ batch) : x ∈ (goal.node k).deps.keys := by
          rw [(hi.consulted hplan).1.batches] at hbatch
          exact (hmatch.due hstanding htally hgoal hi.task).mem_deps_of_consult hmatch.agree
            (hstanding.changed hi.task hi.mode) hi.function hplan hbatch hx
        rcases hd with hd | hd
        · rcases DepGroups.mem_keys_pushAll.mp hd with hd | ⟨batch, hmem, hd⟩
          · exact hih k t hi.task d (.inl hd)
          · exact hbatch hmem hd
        · rcases OrderedSet.mem_insertAll.mp hd with hd | hd
          · exact hih k t hi.task d (.inr hd)
          · have hground : Grounded s { r with queue := rest } := { hstanding.grounded with }
            have htraced := hground.traced_invoke k f t.scratch
            rw [hi.run] at htraced
            obtain ⟨-, batch, hmem, hd⟩ := htraced.awaited d hd
            exact hbatch hmem hd

end Unfolds

/-- The failure shown for a root that was not completed comes up to it in a round that went on to
the end. -/
theorem Matches.inherits (hmatch : Matches goal r) (hD : D.Exact) {registry : Registry D}
    {latest : Table D.Key D.Value} (hcertified : goal.Certified registry latest)
    (hnone : registry.AcceptsNone) {version : Version} (hground : goal.Grounded version)
    (hforeseen : EachTask (Foreseen goal) r) {root : D.Key} {e : Failure D.Key D.Fault}
    (h : r.failureBelow root = some e) :
    ∃ e', goal.Shows root (.failure e') ∧ ∀ c ∈ e.rootCauses, c ∈ e'.rootCauses := by
  obtain ⟨⟨chain, child⟩, hdescend, rfl⟩ := Option.map_eq_some_iff.mp h
  obtain ⟨parent, d, hway, hparent, hd, hhit⟩ := way_of_descend root (fun _ hk => hk)
    (fun entry hentry => by rw [List.mem_singleton.mp hentry]) hdescend
  -- A key under evaluation above a failed one fails with its root causes.
  have hup {a b : D.Key} (ha : a ∈ r.tasks.keys) (hb : b ∈ r.demanded a)
      {e : Failure D.Key D.Fault} (he : goal.Shows b (.failure e)) :
      ∃ e', goal.Shows a (.failure e') ∧ ∀ c ∈ e.rootCauses, c ∈ e'.rootCauses := by
    obtain ⟨t, ht⟩ := Table.mem_keys_iff.mp ha
    obtain ⟨o, ho⟩ := hground.settled (hmatch.shown a (contains_of_get? ht))
    have hshows := Graph.shows_of_settled ho.1
    have hdep : b ∈ (goal.node a).deps.keys := by
      simp only [demanded, ht] at hb
      refine hforeseen a t ht b ?_
      rw [← OrderedSet.mem_def, OrderedSet.mem_insertAll, OrderedSet.mem_ofList] at hb
      exact hb.imp_right OrderedSet.mem_def.mpr
    obtain ⟨e', rfl, hcauses⟩ := hcertified.inherits hD hnone hshows hdep he
    exact ⟨e', hshows, hcauses⟩
  have hfailed : ∃ e', goal.Shows d (.failure e') ∧ ∀ c ∈ child.rootCauses, c ∈ e'.rootCauses := by
    obtain ⟨o, ho, hout⟩ := Option.bind_eq_some_iff.mp hhit
    have hshows := Graph.shows_of_settled ho
    obtain ⟨o', ho', halike⟩ := hmatch.shows hshows
    cases halike with
    | value v => cases hout
    | failure halike =>
        obtain rfl := Option.some.inj hout
        exact ⟨_, ho', fun c => (halike.rootCauses c).mp⟩
  obtain ⟨e', he', hcauses⟩ := hfailed
  obtain ⟨e₁, he₁, hcauses₁⟩ := hup hparent hd he'
  have hreached : ∃ e₂, goal.Shows root (.failure e₂) ∧ ∀ c ∈ e₁.rootCauses, c ∈ e₂.rootCauses := by
    clear hd hparent hdescend h
    induction hway using Relation.ReflTransGen.head_induction_on with
    | refl => exact ⟨e₁, he₁, fun _ => id⟩
    | head hedge _ ih =>
        obtain ⟨e₂, he₂, hcauses₂⟩ := ih
        obtain ⟨e₃, he₃, hcauses₃⟩ := hup hedge.1 hedge.2 he₂
        exact ⟨e₃, he₃, fun c hc => hcauses₃ c (hcauses₂ c hc)⟩
  obtain ⟨e₂, he₂, hcauses₂⟩ := hreached
  exact ⟨e₂, he₂, fun c hc => hcauses₂ c (hcauses₁ c (hcauses c hc))⟩

end Round

end MemoGraph
