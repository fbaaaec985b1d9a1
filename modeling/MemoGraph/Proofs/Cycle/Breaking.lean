import MemoGraph.Proofs.Cycle.Tied
import MemoGraph.Proofs.Cycle.Traversal
import MemoGraph.Proofs.Recipe.Alike

/-!
# Breaking cycles

When a round breaks cycles, every member fails with the cycles it is on.  A member that was being
checked keeps its recorded dependencies, one that was running its function gets those that it
requested.  Either way they contain the next member of each cycle, with one exception: a key whose
check found a change is to be rebuilt, but while it still waits for other keys of the group it has
requested nothing.  If it fails in that state, its edges are forgotten.
-/

set_option autoImplicit false

namespace MemoGraph

variable {D : Domain}

/-- The cycles that a blocked key is left with. -/
theorem Failure.mem_cyclesBelow {K E : Type} [DecidableEq K] {k : K} {children : List (Failure K E)}
    {c : Cycle K} : c ∈ cyclesBelow k children ↔
      ∃ child ∈ children, ∃ c' ∈ child.cycles, k ∉ c'.members ∧ c'.seenFrom k = c := by
  simp only [cyclesBelow, ← OrderedSet.mem_def, OrderedSet.mem_ofList, List.mem_map,
    List.mem_filter, List.mem_flatMap, Cycle.isMember, Bool.not_eq_true', decide_eq_false_iff_not]
  constructor
  · rintro ⟨c', ⟨⟨child, hchild, hc'⟩, hk⟩, rfl⟩
    exact ⟨child, hchild, c', hc', hk, rfl⟩
  · rintro ⟨child, hchild, c', hc', hk, rfl⟩
    exact ⟨c', ⟨⟨child, hchild, hc'⟩, hk⟩, rfl⟩

namespace Round

variable {s : Setting D}

/-! ## Where awaited keys are recorded -/

/-- Keys that a key waits for are among its recorded dependencies while it is checked, and among its
requests once its function has made any. -/
structure Records (g : Graph D) (k : D.Key) (t : Task D) : Prop where
  /-- A key that is checked waits for recorded dependencies. -/
  checking : ∀ i, t.mode = .check i → ∀ d ∈ t.awaited, d ∈ (g.node k).deps.keys
  /-- A key that has requested something waits for requests. -/
  rebuilding : t.mode = .rebuild → t.requested ≠ ∅ →
    ∀ d ∈ t.awaited, g.isComplete d = false → d ∈ t.requested.keys

theorem taskRule_records (s : Setting D) : TaskRule s (Records (D := D)) where
  frame {g g' k t t'} h hnode hmode hrequested hawaited := by
    refine ⟨fun i hm d hd => ?_, fun hm hreq d hd hc => ?_⟩
    · rw [hnode]
      exact h.checking i (hmode ▸ hm) d (hawaited ▸ hd)
    · rw [Graph.isComplete, hnode] at hc
      rw [hrequested] at hreq ⊢
      exact h.rebuilding (hmode ▸ hm) hreq d (hawaited ▸ hd) hc
  begun g k _ :=
    ⟨fun _ _ d hd => absurd hd (OrderedSet.not_mem_empty d), fun _ hreq => absurd rfl hreq⟩
  settle {c g g' k t} hs _ hk h := by
    refine ⟨fun i hm d hd => ?_, fun hm hreq d hd hinc => ?_⟩
    · rw [(Node.memo_eq_iff.mp (hs.others k hk)).2.2.1]
      exact h.checking i hm d hd
    · refine h.rebuilding hm hreq d hd ?_
      cases hold : g.isComplete d with
      | false => rfl
      | true =>
          rw [hs.isComplete_mono hold] at hinc
          exact Bool.noConfusion hinc

/-- Every task has the keys it waits for on record. -/
def Recorded (r : Round D) : Prop := EachTask Records r

namespace Recorded

variable {r r' : Round D}

/-- Every step keeps awaited keys recorded. -/
theorem step (h : Recorded r) (hg : Grounded s r) (hc : Checks r)
    (ht : r.halted = true ∨ Tally r none 0 []) (hstep : r.step s = some r') : Recorded r' := by
  refine EachTask.step (taskRule_records s) h ht ?_ ?_ hstep
  · intro k rest t i group waiters seen r₁ _ hchecked
    refine ⟨fun i' _ d hd => ?_, fun _ hreq => ?_⟩
    · rw [hchecked.reads.node]
      rcases OrderedSet.mem_insertAll.mp hd with hd | hd
      · exact (h k t hchecked.task).checking i hchecked.mode d hd
      · have hwaiting : d ∈ (readGroup s k (r.graph.node k).evaluatedAt group .start
            { r with queue := rest }).1.waiting := by
          rw [hchecked.read]
          exact hd
        exact List.mem_flatten.mpr
          ⟨group, List.mem_of_getElem? hchecked.listed, mem_group_of_waiting hwaiting⟩
    · exact absurd (hc.unasked hchecked.task hchecked.mode) hreq
  · intro k rest t waiters f inv r₁ hq htally hi
    have hpopped : Grounded s { r with queue := rest } := { hg with }
    have htraced := hpopped.traced_invoke k f t.scratch
    rw [hi.run] at htraced
    refine ⟨fun i hmode => ?_, fun _ _ d hd hdc => ?_⟩
    · cases hi.mode.symm.trans hmode
    · apply DepGroups.mem_keys_pushAll.mpr
      rcases OrderedSet.mem_insertAll.mp hd with hd | hd
      · -- When its function was invoked, the key had nothing left to wait for.
        rw [hi.reads.isComplete] at hdc
        have hcomplete := (htally.pop hq hi.task).isComplete_of_awaited hi.task hd
        rw [hdc] at hcomplete
        exact Bool.noConfusion hcomplete
      · exact .inr (htraced.awaited d hd).2

theorem of_reaches {graph : Graph D} (hg : graph.Grounded s.version)
    (hb : graph.Before s.version) {calls : Table D.Key Nat}
    (h : Reaches s (Round.start s graph calls) r) : Recorded r := by
  induction h with
  | refl => exact EachTask.start (taskRule_records s) graph calls
  | tail hr hstep ih =>
      exact ih.step (.of_reaches hg hb hr) (.of_reaches hr) (tally_of_reaches hr) hstep

end Recorded

/-! ## Failures out of failures -/

/-- What a function concludes names no cycle that a dependency does not name. -/
theorem pays_cycleAccount {r : Round D} (hg : Grounded s r) : Pays s r cycleAccount := by
  intro k rest t waiters f ending inv r₁ o _ hi ho e he c hc
  have hpop : Grounded s { r with queue := rest } := { hg with }
  cases ho with
  | value _ => cases he
  | @fault fault =>
      obtain rfl := Outcome.failure.inj he
      rcases declaredFailure_cases k fault inv with ⟨child, hmem, heq⟩ | heq
      · rw [heq] at hc
        obtain ⟨c', hc', rfl⟩ := List.mem_map.mp hc
        obtain ⟨d, hd, hshows⟩ := hi.child hpop child (List.mem_append_left _ hmem)
        exact .inr ⟨d, hd, child, hshows, c', hc', rfl⟩
      · rw [heq] at hc
        exact absurd hc List.not_mem_nil
  | blocked _ _ _ =>
      obtain rfl := Outcome.failure.inj he
      obtain ⟨child, hmem, c', hc', -, rfl⟩ := Failure.mem_cyclesBelow.mp hc
      obtain ⟨d, hd, hshows⟩ := hi.child hpop child (List.mem_append_right _ hmem)
      exact .inr ⟨d, hd, child, hshows, c', hc', rfl⟩

/-! ## Members that fail -/

/-- What a round finds to hold up its roots are cycles of keys under evaluation. -/
theorem task_of_heldUpBy {r : Round D} {c : Cycle D.Key} (hc : c ∈ r.heldUpBy s) {k : D.Key}
    (hk : k ∈ c.members) : ∃ t, r.tasks.get? k = some t :=
  Table.mem_keys_iff.mp ((Cycle.sound_of_mem_find hc).inside k hk)

/-- Every member waits for the next one. -/
theorem awaited_of_edge {r : Round D} {c : Cycle D.Key} (hc : c ∈ r.heldUpBy s) {k d : D.Key}
    (hedge : (k, d) ∈ c.edges) {t : Task D} (ht : r.tasks.get? k = some t) :
    d ∈ t.awaited ∧ r.graph.isComplete d = false := by
  have hd : d ∈ r.blockers k := (Cycle.sound_of_mem_find hc).edge (k, d) hedge
  simpa [blockers, ht, OrderedSet.mem_def] using hd

/-- A key is failed with the cycles that list it. -/
theorem mem_cyclesOf {found : List (Cycle D.Key)} {k : D.Key} {c : Cycle D.Key} :
    c ∈ cyclesOf found k ↔ ∃ c₀ ∈ found, k ∈ c₀.members ∧ c₀.bare = c := by
  rw [cyclesOf, ← OrderedSet.mem_def, OrderedSet.mem_ofList, List.mem_map]
  simp only [List.mem_filter, Cycle.isMember, decide_eq_true_eq, and_assoc]

/-- The dependencies that a key gets if it fails as a member of a cycle. -/
def depsOfMember (r : Round D) (k : D.Key) (t : Task D) : DepGroups D.Key :=
  if t.mode = .rebuild then t.requested else (r.graph.node k).deps

/-- A key fails with the cycles it is on, whatever it held before. -/
theorem outcome_publish_cycles (n : Node D) (cycles : List (Cycle D.Key)) (version : Version) :
    ∃ e, (n.publish (.failure (.ofCycles cycles)) version).outcome = some (.failure e) ∧
      e.Alike (.ofCycles cycles) := by
  simp only [Node.publish]
  cases hh : n.holds (.failure (.ofCycles cycles)) with
  | false => exact ⟨.ofCycles cycles, rfl, .refl _⟩
  | true =>
      cases ho : n.outcome with
      | none => simp [Node.holds, ho] at hh
      | some o =>
          cases o with
          | value v => simp [Node.holds, ho, Outcome.same] at hh
          | failure e =>
              simp only [Node.holds, ho, Outcome.same, Failure.same, Bool.and_eq_true,
                decide_eq_true_eq, OrderedSet.sameMembers_iff] at hh
              obtain ⟨⟨⟨hfault, hcauses⟩, hcycles⟩, horigin⟩ := hh
              refine ⟨e, rfl, ?_, hcauses, hcycles, horigin⟩
              cases hf : e.fault with
              | none => rfl
              | some fault => simp [hf, Failure.ofCycles] at hfault

namespace FailsMember

variable {found : List (Cycle D.Key)} {k : D.Key} {t : Task D} {r r' : Round D}

/-- The member shows the cycles it is on. -/
theorem shows (h : FailsMember s found k t r r') :
    ∃ e, r'.graph.Shows k (.failure e) ∧ e.Alike (.ofCycles (cyclesOf found k)) := by
  obtain ⟨n, hn⟩ : ∃ n : Node D, r'.graph.node k =
      n.publish (.failure (.ofCycles (cyclesOf found k))) s.version := by
    rw [h.fails, graph_completeFailed, Graph.node_publish, if_pos rfl]
    exact ⟨_, rfl⟩
  obtain ⟨e, he, halike⟩ := outcome_publish_cycles n (cyclesOf found k) s.version
  exact ⟨e, ⟨h.settles.complete, hn ▸ he⟩, halike⟩

theorem deps (h : FailsMember s found k t r r') :
    (r'.graph.node k).deps = r.depsOfMember k t := by
  rw [h.fails, deps_completeFailed, depsOfMember]
  split
  · rfl
  · rfl

end FailsMember

/-- A member of a broken cycle: it holds the cycles it is on, and its dependencies are those that it
had recorded or requested. -/
theorem failed_of_member {r : Round D} (ht : Tally r none 0 []) {found : List (Cycle D.Key)}
    {c : Cycle D.Key} (hc : c ∈ found) {k : D.Key} (hk : k ∈ c.members) {t : Task D}
    (htask : r.tasks.get? k = some t) :
    (∃ e, (r.failMembers s found).graph.Shows k (.failure e) ∧
        e.Alike (.ofCycles (cyclesOf found k))) ∧
      ((r.failMembers s found).graph.node k).deps = r.depsOfMember k t := by
  -- As long as it has a task the key is as it was; after that it has failed.
  have hall := (ht.failMembers_induction (s := s) found
    (P := fun r₁ =>
      (∃ t₁, r₁.tasks.get? k = some t₁ ∧ r₁.depsOfMember k t₁ = r.depsOfMember k t) ∨
        (∃ e, r₁.graph.Shows k (.failure e) ∧ e.Alike (.ofCycles (cyclesOf found k))) ∧
          (r₁.graph.node k).deps = r.depsOfMember k t)
    (.inl ⟨t, htask, rfl⟩) (by
      intro x t' r₁ r₂ hcase _ hf
      by_cases hkx : k = x
      · subst hkx
        rcases hcase with ⟨t₁, ht₁, hdeps⟩ | ⟨⟨e, hshows, -⟩, -⟩
        · obtain rfl : t' = t₁ := Option.some.inj (hf.task.symm.trans ht₁)
          exact .inr ⟨hf.shows, hf.deps.trans hdeps⟩
        · exact Bool.noConfusion (hshows.1.symm.trans hf.incomplete)
      · obtain ⟨-, -, hsame, -, -⟩ := Node.memo_eq_iff.mp (hf.settles.others k hkx)
        rcases hcase with ⟨t₁, ht₁, hdeps⟩ | ⟨⟨e, he, halike⟩, hdeps⟩
        · refine .inl ⟨_, hf.completes.get?_eq_some_iff.mpr ⟨hkx, t₁, ht₁, rfl⟩, hdeps ▸ ?_⟩
          split
          · simp only [depsOfMember, Task.notified, hsame]
          · simp only [depsOfMember, hsame]
        · exact .inr ⟨⟨e, hf.settles.shows hf.incomplete he, halike⟩, hsame.trans hdeps⟩)).2
  rcases hall with ⟨t₁, ht₁, -⟩ | hfailed
  · have hnone := tasks_failMembers (s := s) (r := r) hc hk
    rw [hnone] at ht₁
    cases ht₁
  · exact hfailed

/-- Keys that are on none of the cycles store what they stored. -/
theorem memo_failMembers {r : Round D} (ht : Tally r none 0 []) {found : List (Cycle D.Key)}
    {x : D.Key} (hx : ∀ c ∈ found, x ∉ c.members) :
    ((r.failMembers s found).graph.node x).memo = (r.graph.node x).memo := by
  refine (ht.failMembers_induction _
    (P := fun r₁ => (r₁.graph.node x).memo = (r.graph.node x).memo) rfl ?_).2
  intro k t r₁ r₂ hmemo _ hf
  obtain ⟨c, hc, hk⟩ := hf.member
  exact (hf.settles.others x fun e => hx c hc (e ▸ hk)).trans hmemo

/-! ## Members that forget their edges -/

section Forgets

variable {r : Round D}

/-- A key that is to be rebuilt, although its function has requested nothing. -/
def Forgets (r : Round D) (k : D.Key) : Prop :=
  ∃ t, r.tasks.get? k = some t ∧ t.mode = .rebuild ∧ t.requested = ∅

/-- A member that does not forget its edges records the next member. -/
theorem mem_depsOfMember (hrec : Recorded r) {c : Cycle D.Key} (hc : c ∈ r.heldUpBy s)
    {k d : D.Key} (hedge : (k, d) ∈ c.edges) {t : Task D} (ht : r.tasks.get? k = some t)
    (hk : ¬ r.Forgets k) : d ∈ (r.depsOfMember k t).keys := by
  obtain ⟨hawaited, hinc⟩ := awaited_of_edge hc hedge ht
  unfold depsOfMember
  cases hm : t.mode with
  | rebuild =>
      rw [if_pos rfl]
      exact (hrec k t ht).rebuilding hm (fun hreq => hk ⟨t, ht, hm, hreq⟩) d hawaited hinc
  | check i =>
      rw [if_neg (fun e => by cases e)]
      exact (hrec k t ht).checking i hm d hawaited

/-- Every key that a cycle lists is failed with that cycle. -/
theorem shows_of_member (ht : Tally r none 0 []) {c : Cycle D.Key} (hc : c ∈ r.heldUpBy s)
    {k : D.Key} (hk : k ∈ c.members) :
    ∃ e, (r.failMembers s (r.heldUpBy s)).graph.Shows k (.failure e) ∧ c.bare ∈ e.cycles ∧
      e.cycles = cyclesOf (r.heldUpBy s) k := by
  obtain ⟨t, htask⟩ := task_of_heldUpBy hc hk
  obtain ⟨⟨e, hshows, halike⟩, -⟩ := failed_of_member ht hc hk htask
  have hcycles : e.cycles = cyclesOf (r.heldUpBy s) k := halike.cycles
  refine ⟨e, hshows, ?_, hcycles⟩
  rw [hcycles]
  exact mem_cyclesOf.mpr ⟨c, hc, hk, rfl⟩

/-- A member that does not forget its edges answers for the cycles it fails with. -/
theorem cycleAccount_member (ht : Tally r none 0 []) (hrec : Recorded r) {c : Cycle D.Key}
    (hc : c ∈ r.heldUpBy s) {x : D.Key} (hx : x ∈ c.members) (hkeep : ¬ r.Forgets x) :
    (r.failMembers s (r.heldUpBy s)).graph.Accounted cycleAccount x := by
  obtain ⟨t, htask⟩ := task_of_heldUpBy hc hx
  obtain ⟨e, hshows, -, hcycles⟩ := shows_of_member ht hc hx
  obtain ⟨-, hdeps⟩ := failed_of_member (s := s) ht hc hx htask
  refine hshows.accounted fun e' he' c₀ hc₀ => ?_
  obtain rfl := Outcome.failure.inj he'
  rw [hcycles] at hc₀
  obtain ⟨c₁, hfound, hmem, rfl⟩ := mem_cyclesOf.mp hc₀
  refine .inl ⟨rfl, hmem, fun d hedge => ?_⟩
  rw [Cycle.edges_bare] at hedge
  obtain ⟨e', hd, hnames, -⟩ := shows_of_member ht hfound (Cycle.mem_members_of_edge hedge).2
  refine ⟨?_, e', Graph.relies_of_complete hd.1 hd.2, hnames⟩
  rw [hdeps]
  exact mem_depsOfMember hrec hfound hedge htask hkeep

/-- A member that forgets its edges is left with a cycle that it has no edge for. -/
theorem not_tied_of_forgets (ht : Tally r none 0 []) {c : Cycle D.Key} (hc : c ∈ r.heldUpBy s)
    {k : D.Key} (hk : k ∈ c.members) (hforgets : r.Forgets k) {g : Graph D}
    (hg : (g.node k).memo = ((r.failMembers s (r.heldUpBy s)).graph.node k).memo) :
    ¬ g.Tied := by
  intro htied
  obtain ⟨t, htask, hm, hreq⟩ := hforgets
  obtain ⟨e, hshows, hnames, -⟩ := shows_of_member ht hc hk
  obtain ⟨-, hdeps⟩ := failed_of_member (s := s) ht hc hk htask
  obtain ⟨d, hedge⟩ := Cycle.exists_edge_of_mem hk
  have hfailure := Graph.failure?_of_shows ((Graph.shows_of_memo_eq hg).mpr hshows)
  have hring := (htied k e hfailure c.bare hnames).ring (k, d) hedge
  rw [(Node.memo_eq_iff.mp hg).2.2.1, hdeps, depsOfMember, if_pos hm, hreq] at hring
  exact absurd hring List.not_mem_nil

/-- A step keeps all cycles accounted for, if no member forgets its edges. -/
theorem cycleAccount_step (h : ∀ x, r.graph.Accounted cycleAccount x) (hg : Grounded s r)
    (hc : Checks r) (hrec : Recorded r) (ht : r.halted = true ∨ Tally r none 0 [])
    {r' : Round D} (hstep : r.step s = some r')
    (hkeep : r.halted = false → r.stopping = false → r.queue = [] →
      ∀ c ∈ r.heldUpBy s, ∀ k ∈ c.members, ¬ r.Forgets k) :
    ∀ x, r'.graph.Accounted cycleAccount x := by
  refine accounted_step stable_cycleAccount h hg hc ht hstep (fun _ => pays_cycleAccount hg) ?_
  intro hh hstop hq c hfound k hk
  exact cycleAccount_member (ht.resolve_left (by simp [hh])) hrec hfound hk
    (hkeep hh hstop hq c hfound k hk)

end Forgets

/-- What can be read of a key for the first time is paid for out of what could be read before, or it
is the failure of a key on a broken cycle. -/
theorem paid_of_step {A : Account D} (hA : A.Stable) {r r' : Round D}
    (h : ∀ x, (r.graph.node x).status = .dirty → r.graph.Accounted A x) (hg : Grounded s r)
    (hc : Checks r) (ht : r.halted = true ∨ Tally r none 0 []) (hstep : r.step s = some r')
    (pays : Pays s r A)
    {x : D.Key} {o : Outcome D} (hx : r.graph.isComplete x = false) (ho : r'.graph.Shows x o) :
    A.holds x (r'.graph.node x).deps o r.graph.Shows ∨
      (r.halted = false ∧ r' = r.failMembers s (r.heldUpBy s)) ∧
        ∃ e, o = .failure e ∧ e.Alike (.ofCycles (cyclesOf (r.heldUpBy s) x)) := by
  have hnew (hmemo : (r'.graph.node x).memo = (r.graph.node x).memo) : False := by
    have hcomplete := ho.1
    rw [Graph.isComplete, Node.isComplete_of_memo_eq hmemo] at hcomplete
    exact Bool.noConfusion (hx.symm.trans hcomplete)
  cases advance_of_step hstep with
  | skipped _ _ => exact (hnew rfl).elim
  | @acted k rest r' hq hh hm =>
      have htally := ht.resolve_left (by simp [hh])
      rcases paid_of_move hA h hg hc htally hq hm
        (fun t waiters f ending inv r₁ o hi ho => pays hq hi ho) with
        hnode | ⟨hs, -, hpaid⟩
      · exact (hnew (congrArg Node.memo (hnode x))).elim
      · by_cases hxk : x = k
        · subst hxk
          exact .inl (hpaid o ho.2)
        · exact (hnew (hs.others x hxk)).elim
  | broken hq hh hstop _ =>
      have htally := ht.resolve_left (by simp [hh])
      by_cases hmember : ∃ c ∈ r.heldUpBy s, x ∈ c.members
      · obtain ⟨c, hfound, hmem⟩ := hmember
        obtain ⟨t, htask⟩ := task_of_heldUpBy hfound hmem
        obtain ⟨⟨e, hshows, halike⟩, -⟩ := failed_of_member (s := s) htally hfound hmem htask
        refine .inr ⟨⟨hh, rfl⟩, e, ?_, halike⟩
        exact Option.some.inj (ho.2.symm.trans hshows.2)
      · exact (hnew (memo_failMembers htally fun c hfound hmem => hmember ⟨c, hfound, hmem⟩)).elim

end Round

end MemoGraph
