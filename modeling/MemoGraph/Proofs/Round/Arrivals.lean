import MemoGraph.Proofs.Round.Confluence

/-!
# Where nodes come from

A round creates nodes for the keys that come under evaluation, and for no others: the dependencies
that it records are complete or under evaluation when it does.  Observers are told of every key that
comes under evaluation, so the events of a round list the nodes that are new after it.
-/

set_option autoImplicit false

namespace MemoGraph

variable {D : Domain}

namespace Round

variable {s : Setting D} {g : Graph D} {r r' : Round D}

/-! ## What is requested is known -/

/-- What the function of a waiting key requested is complete or under evaluation. -/
theorem Tally.known_of_sought (h : Tally r none 0 []) {k : D.Key} {t : Task D}
    (ht : r.tasks.get? k = some t) (hs : Sought r.graph k t) {d : D.Key}
    (hd : d ∈ t.requested.keys) : r.Known d := by
  cases hc : r.graph.isComplete d with
  | true => exact .inl hc
  | false =>
      have hawaited := (hs d hd).resolve_left (by simp [hc])
      obtain ⟨t', ht', -⟩ := (h.awaits k t ht d).mpr ⟨.inl hawaited, hc⟩
      exact .inr (contains_of_get? ht')

/-- So is what it has requested by the end of an invocation. -/
theorem Tally.known_of_invoked (h : Tally r none 0 []) (hs : EachTask Sought r) {k : D.Key}
    {rest : List D.Key} (hq : r.queue = k :: rest) {t : Task D} {waiters : OrderedSet D.Key}
    {f : Function D} {ending : Ending D} {inv : Invocation D}
    (hi : Invoked s { r with queue := rest } k t waiters f ending inv r') {d : D.Key}
    (hd : d ∈ (t.requested.pushAll inv.batches).keys) : r'.Known d := by
  rcases DepGroups.mem_keys_pushAll.mp hd with hd | ⟨batch, hbatch, hd⟩
  · exact hi.reads.known (h.known_of_sought hi.task (hs k t hi.task) hd)
  · cases hc : r'.graph.isComplete d with
    | true => exact .inl hc
    | false =>
        have hmet := (hi.answered batch hbatch d hd).resolve_left (by simp [hc])
        have hread := (h.pop hq hi.task).invoke (s := s) f t.scratch
        rw [hi.run] at hread
        obtain ⟨t', ht', -⟩ := (hread.awaits k _ hi.kept d).mpr ⟨.inr ⟨rfl, hmet⟩, hc⟩
        exact .inr (contains_of_get? ht')

/-! ## New nodes are announced -/

/-- A state of a round over the graph `g` whose new nodes are those of the keys that observers were
told came under evaluation. -/
structure Announced (g : Graph D) (r : Round D) : Prop where
  /-- Keys under evaluation are announced. -/
  tasks : ∀ x, r.tasks.contains x = true → .enqueued x ∈ r.log
  /-- So are the keys of new nodes. -/
  nodes : ∀ x, r.graph.contains x = true → g.contains x = true ∨ .enqueued x ∈ r.log
  /-- What is announced has a node. -/
  events : ∀ x, .enqueued x ∈ r.log → r.graph.contains x = true

namespace Announced

theorem known (h : Announced g r) {x : D.Key} (hx : r.Known x) :
    g.contains x = true ∨ .enqueued x ∈ r.log :=
  hx.elim (fun hc => h.nodes x (Graph.contains_of_isComplete hc)) fun ht => .inr (h.tasks x ht)

/-- The same nodes, no new task and no new announcement. -/
theorem frame (h : Announced g r) (hgraph : r'.graph = r.graph)
    (htasks : ∀ x, r'.tasks.contains x = true → r.tasks.contains x = true)
    (hlog : ∀ x, .enqueued x ∈ r'.log ↔ .enqueued x ∈ r.log) : Announced g r' where
  tasks x hx := (hlog x).mpr (h.tasks x (htasks x hx))
  nodes x hx := by
    rw [hgraph] at hx
    exact (h.nodes x hx).imp_right (hlog x).mpr
  events x hx := by
    rw [hgraph]
    exact h.events x ((hlog x).mp hx)

theorem demand (h : Announced g r) (s : Setting D) (k : D.Key) :
    Announced g (r.demand s k) := by
  have hcreate {x : D.Key} :
      (r.graph.create k).contains x = true ↔ x = k ∨ r.graph.contains x = true := by
    rw [Graph.contains_create, Bool.or_eq_true, decide_eq_true_eq]
  rcases demand_cases s r k with ⟨hknown, he⟩ | ⟨-, -, he⟩
  · rw [he]
    refine ⟨h.tasks, fun x hx => ?_, fun x hx => hcreate.mpr (.inr (h.events x hx))⟩
    rcases hcreate.mp hx with rfl | hx
    · exact h.known hknown
    · exact h.nodes x hx
  · rw [he]
    refine ⟨fun x hx => ?_, fun x hx => ?_, fun x hx => hcreate.mpr ?_⟩
    · rcases Table.contains_insert.mp hx with rfl | hx
      · exact List.mem_cons_self
      · exact List.mem_cons_of_mem _ (h.tasks x hx)
    · rcases hcreate.mp hx with rfl | hx
      · exact .inr List.mem_cons_self
      · exact (h.nodes x hx).imp_right (List.mem_cons_of_mem _)
    · rcases List.mem_cons.mp hx with hx | hx
      · exact .inl (Event.enqueued.inj hx)
      · exact .inr (h.events x hx)

theorem await (h : Announced g r) (reader dep : D.Key) :
    Announced g (r.await reader dep).2 := by
  rcases await_cases r reader dep with ⟨-, he⟩ | ⟨t, ht, -, he⟩
  · rw [he]
    exact h
  · rw [he]
    refine h.frame rfl (fun x hx => ?_) fun x => Iff.rfl
    exact (Table.contains_insert_of_contains (contains_of_get? ht) x _).symm.trans hx

theorem readOne (h : Announced g r) (s : Setting D) (reader dep : D.Key) :
    Announced g (r.readOne s reader dep).2 := by
  rcases readOne_cases s r reader dep with he | he | he
  · rw [he]
    exact h
  · rw [he]
    exact h.demand s dep
  · rw [he]
    exact (h.demand s dep).await reader dep

theorem readGroup (h : Announced g r) (s : Setting D) (k : D.Key) (since : Version)
    (group : List D.Key) : Announced g (Round.readGroup s k since group .start r).2 :=
  readGroup_induction (P := fun _ r => Announced g r) (fun d _ _ h => h.readOne s k d) group h

theorem invoke (h : Announced g r) (s : Setting D) (k : D.Key) (f : Function D)
    (scratch : Option (Scratch D)) : Announced g (r.invoke s k f scratch).2.2 := by
  have hcall : Announced g (r.countCall s k).2 :=
    h.frame rfl (fun _ => id) fun x => by simp [countCall]
  exact run_induction (P := fun _ r => Announced g r) (fun _ _ _ h => h)
    (fun _ d _ _ _ h => h.readOne s k d) (fun _ _ _ h => h)
    (fun _ _ h => h.frame rfl (fun _ => id) fun _ => Iff.rfl) _ hcall

/-- A task that is replaced. -/
theorem retask (h : Announced g r) {k : D.Key} (hk : r.tasks.contains k = true) (t : Task D)
    (queue : List D.Key) :
    Announced g { r with tasks := r.tasks.insert k t, queue := queue } := by
  refine h.frame rfl (fun x hx => ?_) fun x => Iff.rfl
  exact (Table.contains_insert_of_contains hk x t).symm.trans hx

/-- A completion that creates nodes of known keys only. -/
theorem complete (h : Announced g r) {k : D.Key} {how : Completion} (hc : Completes s k how r r')
    (hmore : ∀ x, r.graph.contains x = true → r'.graph.contains x = true)
    (hnodes : ∀ x, r'.graph.contains x = true → r.graph.contains x = true ∨ r.Known x) :
    Announced g r' := by
  have hlog {x : D.Key} : .enqueued x ∈ r'.log ↔ .enqueued x ∈ r.log := by
    rw [hc.log]
    simp
  refine ⟨fun x hx => hlog.mpr ?_, fun x hx => ?_, fun x hx => hmore x (h.events x (hlog.mp hx))⟩
  · obtain ⟨t, ht⟩ := Option.isSome_iff_exists.mp hx
    obtain ⟨-, t₀, ht₀, -⟩ := hc.back ht
    exact h.tasks x (contains_of_get? ht₀)
  · exact ((hnodes x hx).elim (h.nodes x) h.known).imp_right hlog.mpr

/-- A completion that records known dependencies. -/
theorem record (h : Announced g r) {k : D.Key} {how : Completion} (hc : Completes s k how r r')
    (hk : r.tasks.contains k = true) {deps : DepGroups D.Key} {o : Outcome D}
    (hgraph : r'.graph = (r.graph.setDeps k deps).publish k o s.version)
    (hdeps : ∀ d ∈ deps.keys, r.Known d) : Announced g r' := by
  refine h.complete hc (fun x hx => ?_) fun x hx => ?_
  · rw [hgraph]
    exact known_publish (Graph.contains_setDeps_mono k deps hx)
  · rw [hgraph] at hx
    rcases Graph.contains_of_setDeps_publish hx with hx | rfl | hx
    · exact .inl hx
    · exact .inr (.inr hk)
    · exact .inr (hdeps x hx)

/-- A completion that leaves the recorded dependencies. -/
theorem republish (h : Announced g r) {k : D.Key} {how : Completion} (hc : Completes s k how r r')
    (hk : r.tasks.contains k = true) {f : Node D → Node D}
    (hgraph : r'.graph = r.graph.update k f) : Announced g r' := by
  refine h.complete hc (fun x hx => ?_) fun x hx => ?_
  · rw [hgraph]
    exact Graph.contains_update_mono k f hx
  · rw [hgraph, Graph.contains_update, Bool.or_eq_true, decide_eq_true_eq] at hx
    rcases hx with rfl | hx
    · exact .inr (.inr hk)
    · exact .inl hx

/-- What an action creates is announced. -/
theorem move (h : Announced g r) (ht : Tally r none 0 []) (hs : EachTask Sought r) {k : D.Key}
    {rest : List D.Key} (hq : r.queue = k :: rest) (hm : Move s { r with queue := rest } k r') :
    Announced g r' := by
  have hpop : Announced g { r with queue := rest } := { h with }
  have hread {group : List D.Key} {seen : GroupReading D.Key} {r₁ : Round D}
      (hgroup : Round.readGroup s k (r.graph.node k).evaluatedAt group .start
        { r with queue := rest } = (seen, r₁)) : Announced g r₁ := by
    have hg := hpop.readGroup s k (r.graph.node k).evaluatedAt group
    rwa [hgroup] at hg
  have hcall {f : Function D} {scratch : Option (Scratch D)} {ending : Ending D}
      {inv : Invocation D} {r₁ : Round D}
      (hrun : ({ r with queue := rest } : Round D).invoke s k f scratch = (ending, inv, r₁)) :
      Announced g r₁ := by
    have hi := hpop.invoke s k f scratch
    rwa [hrun] at hi
  cases hm with
  | idle _ => exact hpop
  | verified htask _ _ =>
      exact hpop.republish (completes_clean s _ k) (contains_of_get? htask)
        (graph_completeClean s _ k)
  | checked hc =>
      obtain ⟨active, queue, he⟩ := concludeGroup_frame _ k _ _ _
      rw [he]
      exact (hread hc.read).retask (contains_of_get? hc.kept) _ queue
  | dropped hd =>
      cases hd with
      | cut _ _ hgroup _ => exact hread hgroup
      | called _ _ _ hrun _ => exact hcall hrun
  | @lost r₁ a hl =>
      have h₁ : Announced g r₁ := by
        cases hl with
        | unregistered _ _ _ => exact hpop
        | crashed _ _ _ hrun => exact hcall hrun
        | unread hi _ => exact hcall hi.run
        | idle hi _ => exact hcall hi.run
      exact { h₁ with }
  | built hi _ =>
      obtain ⟨how, -, -, hbuilt⟩ := completes_built s _ k _ _
      exact (hcall hi.run).record hbuilt (contains_of_get? hi.kept) (graph_completeBuilt s _ k _ _)
        fun d => ht.known_of_invoked hs hq hi
  | failed hi =>
      exact (hcall hi.run).record (completes_failed s _ k _ _) (contains_of_get? hi.kept)
        (graph_completeFailed s _ k _ _) fun d => ht.known_of_invoked hs hq hi
  | blocked hi _ _ _ _ =>
      exact (hcall hi.run).record (completes_failed s _ k _ _) (contains_of_get? hi.kept)
        (graph_completeFailed s _ k _ _) fun d => ht.known_of_invoked hs hq hi
  | waiting hi _ _ =>
      obtain ⟨active, queue, he⟩ := resumeOrPark_eq _ k _
      rw [he]
      exact (hcall hi.run).retask (contains_of_get? hi.kept) _ queue

/-- What breaking a cycle creates is announced. -/
theorem failsMember (h : Announced g r) (ht : Tally r none 0 []) (hs : EachTask Sought r)
    {found : List (Cycle D.Key)} {k : D.Key} {t : Task D} (hf : FailsMember s found k t r r') :
    Announced g r' := by
  have hk := contains_of_get? hf.task
  by_cases hmode : t.mode = .rebuild
  · have hgraph := congrArg Round.graph hf.fails
    rw [if_pos hmode, graph_completeFailed] at hgraph
    exact h.record hf.completes hk hgraph fun d => ht.known_of_sought hf.task (hs k t hf.task)
  · have hgraph := congrArg Round.graph hf.fails
    rw [if_neg hmode, graph_completeFailed] at hgraph
    exact h.republish hf.completes hk hgraph

theorem step (h : Announced g r) (ht : r.halted = true ∨ Tally r none 0 [])
    (hs : EachTask Sought r) (hstep : r.step s = some r') : Announced g r' := by
  cases advance_of_step hstep with
  | skipped _ _ => exact { h with }
  | acted hq hh hm => exact h.move (ht.resolve_left (by simp [hh])) hs hq hm
  | broken _ hh _ _ =>
      have htally := ht.resolve_left (by simp [hh])
      have hbegin : Announced g { r with cycles := r.cycles ++ r.heldUpBy s } ∧
          EachTask Sought { r with cycles := r.cycles ++ r.heldUpBy s } := ⟨{ h with }, hs⟩
      refine (htally.failMembers_induction _ (P := fun r => Announced g r ∧ EachTask Sought r)
        hbegin ?_).2.1
      rintro k t r₁ r₂ ⟨h₁, hs₁⟩ ht₁ hf
      exact ⟨h₁.failsMember ht₁ hs₁ hf,
        hs₁.complete (taskRule_sought s) hf.completes hf.settles hf.incomplete⟩

/-- In every state of a round, new nodes are those of announced keys. -/
theorem of_reaches {calls : Table D.Key Nat} (h : Reaches s (Round.start s g calls) r) :
    Announced g r := by
  induction h with
  | refl =>
      refine start_induction (P := Announced g) ⟨?_, fun x => .inl, ?_⟩ fun k _ r h => h.demand s k
      · exact fun x hx => Bool.noConfusion hx
      · exact fun x hx => absurd hx List.not_mem_nil
  | tail hr hstep ih => exact ih.step (tally_of_reaches hr) (sought_of_reaches hr) hstep

end Announced

end Round

end MemoGraph
