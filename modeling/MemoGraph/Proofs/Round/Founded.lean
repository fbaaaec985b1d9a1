import MemoGraph.Proofs.Round.Justified

/-!
# Dependencies of complete keys are well-founded

Unless a cycle is broken, a key completes only after its dependencies, and no complete key depends
on it before.  So the dependencies of complete keys never run in circles, and an outcome can be
traced back to its causes by induction.
-/

set_option autoImplicit false

namespace MemoGraph

variable {D : Domain}

namespace Graph

/-- The complete key `k` depends on `d`. -/
def Below (g : Graph D) (d k : D.Key) : Prop :=
  g.isComplete k = true ∧ d ∈ (g.node k).deps.keys

/-- Dependencies of complete keys are complete. -/
def Closed (g : Graph D) : Prop :=
  ∀ k, g.isComplete k = true → ∀ d ∈ (g.node k).deps.keys, g.isComplete d = true

/-- Dependencies of complete keys do not run in circles. -/
def Founded (g : Graph D) : Prop := WellFounded g.Below

variable {g g' : Graph D}

/-- Fewer dependencies of complete keys. -/
theorem Founded.of_subset (h : g.Founded) (hsub : ∀ d k, g'.Below d k → g.Below d k) :
    g'.Founded :=
  Subrelation.wf (fun hbelow => hsub _ _ hbelow) h

theorem Founded.of_memo (h : g.Founded) (hmemo : ∀ x, (g'.node x).memo = (g.node x).memo) :
    g'.Founded := by
  apply h.of_subset
  intro d k ⟨hk, hd⟩
  rw [isComplete, Node.isComplete_of_memo_eq (hmemo k)] at hk
  rw [(Node.memo_eq_iff.mp (hmemo k)).2.2.1] at hd
  exact ⟨hk, hd⟩

/-- A key that completes after all its dependencies. -/
theorem Founded.settle (h : g.Founded) (hclosed : g.Closed) {version : Version} {c : D.Key}
    (hs : Settles version c g g') (hc : g.isComplete c = false)
    (hdeps : ∀ d ∈ (g'.node c).deps.keys, g.isComplete d = true) : g'.Founded := by
  have hne {d : D.Key} (hd : g.isComplete d = true) : d ≠ c := by
    intro e
    rw [e, hc] at hd
    cases hd
  -- No key that was complete depends on the new one.
  have hold (k : D.Key) (hk : k ≠ c) : Acc g'.Below k := by
    induction k using h.induction with
    | _ k ih =>
        constructor
        intro d ⟨hkc, hd⟩
        rw [hs.isComplete_of_ne hk] at hkc
        rw [(Node.memo_eq_iff.mp (hs.others k hk)).2.2.1] at hd
        exact ih d ⟨hkc, hd⟩ (hne (hclosed k hkc d hd))
  constructor
  intro k
  by_cases hk : k = c
  · subst hk
    constructor
    rintro d ⟨-, hd⟩
    exact hold d (hne (hdeps d hd))
  · exact hold k hk

theorem Founded.invalidate (h : g.Founded) (keys : List D.Key) : (g.invalidate keys).1.Founded := by
  apply h.of_subset
  intro d k ⟨hk, hd⟩
  rw [node_invalidate_eq] at hd
  exact ⟨(isComplete_invalidate.mp hk).1, hd⟩

theorem Founded.delete (h : g.Founded) (p : D.Key → Bool) : (g.delete p).1.Founded := by
  apply h.of_subset
  intro d k ⟨hk, hd⟩
  have hmemo := memo_delete g p k
  split at hmemo
  · rw [isComplete, Node.isComplete_of_memo_eq hmemo] at hk
    cases hk
  · rw [isComplete, Node.isComplete_of_memo_eq hmemo] at hk
    rw [(Node.memo_eq_iff.mp hmemo).2.2.1] at hd
    exact ⟨hk, hd⟩

theorem founded_empty : (∅ : Graph D).Founded := by
  constructor
  intro k
  constructor
  rintro d ⟨hk, -⟩
  cases hk

/-- What can be read has its causes in what can be read. -/
structure Certified (g : Graph D) (registry : Registry D)
    (latest : Table D.Key D.Value) : Prop where
  /-- An outcome is the value given to the key, which then depends on nothing, or justified. -/
  grounds : ∀ k o, g.Shows k o →
    (∃ v, latest.get? k = some v ∧ o = .value v ∧ (g.node k).deps = ∅) ∨
      Justified registry k (g.node k).deps o g.Shows
  /-- Dependencies do not run in circles. -/
  founded : g.Founded

/-- What is justified depends on complete keys only. -/
theorem closed_of_accounted {registry : Registry D} {exempt : Exempt D}
    (h : ∀ x, g.Accounted (justification registry exempt) x)
    (hexempt : ∀ {k deps o}, exempt k deps o → deps = ∅) {version : Version}
    (hg : g.Grounded version) : g.Closed := by
  intro k hk d hd
  obtain ⟨o, -, ho⟩ := hg.settled hk
  rcases (h k).of_complete hk ho with hex | hjustified
  · rw [hexempt hex] at hd
    exact absurd hd List.not_mem_nil
  · obtain ⟨od, hod⟩ := hjustified.shows hd
    exact hod.1

end Graph

namespace Round

variable {s : Setting D} {r r' : Round D}

/-- A step that breaks no cycle stores nothing, or completes one key whose dependencies are complete
already. -/
theorem settles_of_step (hD : D.Exact) (hstrict : s.registry.BatchStrict) (hg : Grounded s r)
    (hc : Checks r) (ha : Asked s r) (ht : r.halted = true ∨ Tally r none 0 [])
    (hcalm : r.halted = false → r.stopping = false → r.queue = [] → r.heldUpBy s = [])
    (hstep : r.step s = some r') :
    (∀ x, (r'.graph.node x).memo = (r.graph.node x).memo) ∨
      ∃ c g, (∀ x, g.node x = r.graph.node x) ∧ Graph.Settles s.version c g r'.graph ∧
        g.isComplete c = false ∧ ∀ d ∈ (r'.graph.node c).deps.keys, g.isComplete d = true := by
  cases advance_of_step hstep with
  | skipped _ _ => exact .inl fun _ => rfl
  | broken hq hh hstop hheld => exact absurd (hcalm hh hstop hq) hheld
  | @acted k rest r' hq hh hm =>
      have htally := ht.resolve_left (by simp [hh])
      have hpop : Asked s { r with queue := rest } := ha
      cases leaves_of_move hg htally hq hm with
      | nothing hnode _ => exact .inl fun x => congrArg Node.memo (hnode x)
      | confirmed htask hmode hend _ hgraph =>
          have hs : Graph.Settles s.version k r.graph r'.graph := by
            rw [hgraph]
            exact Graph.settles_confirm
          refine .inr ⟨k, r.graph, fun _ => rfl, hs, htally.unfinished k _ htask, fun d hd => ?_⟩
          rw [hgraph, Graph.node_confirm, if_pos rfl] at hd
          exact (hc.unchanged htask hmode hend d hd).1
      | @concluded t waiters f ending inv r₁ o how hi ho _ hgraph =>
          obtain ⟨plan, hplan⟩ := hstrict k f hi.function k
          have hk := htally.unfinished_of_reads hi.reads hi.task
          have hs := Graph.settles_setDeps_publish s.version (t.requested.pushAll inv.batches) o hk
          rw [← hgraph] at hs
          refine .inr ⟨k, r₁.graph, hi.reads.node, hs, hk, fun d hd => ?_⟩
          rw [hgraph, Graph.deps_setDeps_publish] at hd
          obtain ⟨od, hod⟩ := (justified_of_concludes hD hpop hi hplan ho).shows hd
          exact hod.1

/-- A step that breaks no cycle keeps the dependencies of complete keys well-founded. -/
theorem founded_step (hD : D.Exact) (hstrict : s.registry.BatchStrict) (hg : Grounded s r)
    (hc : Checks r) (ha : Asked s r) (ht : r.halted = true ∨ Tally r none 0 [])
    (hcalm : r.halted = false → r.stopping = false → r.queue = [] → r.heldUpBy s = [])
    (hclosed : r.graph.Closed) (h : r.graph.Founded) (hstep : r.step s = some r') :
    r'.graph.Founded := by
  rcases settles_of_step hD hstrict hg hc ha ht hcalm hstep with hmemo | ⟨c, g, hg, hs, hinc, hdeps⟩
  · exact h.of_memo hmemo
  · have hcomplete (x : D.Key) : g.isComplete x = r.graph.isComplete x := by
      rw [Graph.isComplete, Graph.isComplete, hg]
    have hclosed' : g.Closed := by
      intro k hk d hd
      rw [hcomplete] at hk ⊢
      rw [hg] at hd
      exact hclosed k hk d hd
    exact (h.of_memo fun x => by rw [hg]).settle hclosed' hs hinc hdeps

end Round

end MemoGraph
