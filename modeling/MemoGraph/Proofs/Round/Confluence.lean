import MemoGraph.Proofs.Round.Due
import MemoGraph.Proofs.Round.Orders
import MemoGraph.Proofs.Round.Wanted

/-!
# What a round stores does not depend on the order of work

Two rounds over the same graph agree on every key that is complete in both, since each key stores
what it is due to store.  By the same argument a round reads, and brings under evaluation, only keys
that are complete in the end of the other one.  So two rounds that went on to the end agree on all
keys.
-/

set_option autoImplicit false

namespace MemoGraph

variable {D : Domain}

/-- A node that recording dependencies created is of the reader or of something it reads. -/
theorem Graph.contains_of_setDeps {g : Graph D} {k x : D.Key} {deps : DepGroups D.Key}
    (h : (g.setDeps k deps).contains x = true) :
    g.contains x = true ∨ x = k ∨ x ∈ deps.keys := by
  let P (g' : Graph D) : Prop := g'.contains x = true → g.contains x = true ∨ x = k ∨ x ∈ deps.keys
  have hupdate : P (g.update k fun n => { n with deps := deps }) := fun hx => by
    rw [contains_update, Bool.or_eq_true, decide_eq_true_eq] at hx
    exact hx.elim (fun e => .inr (.inl e)) .inl
  refine List.foldlRecOn (motive := P) deps.keys _ ?_ (fun g' hg' dep hdep hx => ?_) h
  · refine List.foldlRecOn (motive := P) _ _ hupdate fun g' hg' dep _ hx => hg' ?_
    rwa [unlink, contains_adjust] at hx
  · rw [link, contains_update, Bool.or_eq_true, decide_eq_true_eq] at hx
    exact hx.elim (fun e => .inr (.inr (e ▸ hdep))) hg'

/-- A node that a completion created is of the completed key or of something it reads. -/
theorem Graph.contains_of_setDeps_publish {g : Graph D} {k x : D.Key} {deps : DepGroups D.Key}
    {o : Outcome D} {version : Version}
    (h : ((g.setDeps k deps).publish k o version).contains x = true) :
    g.contains x = true ∨ x = k ∨ x ∈ deps.keys := by
  rw [publish, contains_update, Bool.or_eq_true, decide_eq_true_eq] at h
  exact h.elim (fun e => .inr (.inl e)) contains_of_setDeps

namespace Round

variable {s : Setting D} {r r' : Round D} {g goal : Graph D}

/-! ## Nodes that come up -/

/-- Nodes that are new in the second round are of keys that it knows. -/
def Grows (r r' : Round D) : Prop :=
  ∀ x, r'.graph.contains x = true → r.graph.contains x = true ∨ r'.Known x

namespace Grows

variable {r'' : Round D}

theorem trans (h : Grows r r') (h' : Grows r' r'') (hknown : ∀ x, r'.Known x → r''.Known x) :
    Grows r r'' :=
  fun x hx => (h' x hx).elim (fun hx => (h x hx).imp_right (hknown x)) .inr

theorem demand (s : Setting D) (r : Round D) (k : D.Key) : Grows r (r.demand s k) := by
  intro x hx
  rw [graph_demand, Graph.contains_create, Bool.or_eq_true, decide_eq_true_eq] at hx
  rcases hx with rfl | hx
  · exact .inr (known_demand s r x)
  · exact .inl hx

theorem readOne (s : Setting D) (r : Round D) (reader dep : D.Key) :
    Grows r (r.readOne s reader dep).2 := by
  rcases readOne_cases s r reader dep with he | he | he
  · rw [he]
    exact fun x => .inl
  · rw [he]
    exact demand s r dep
  · rw [he]
    have hreads := reads_await (r.demand s dep) reader dep
    refine (demand s r dep).trans (fun x hx => .inl ?_) fun x => hreads.known
    obtain ⟨tasks, hawait⟩ := await_frame (r.demand s dep) reader dep
    rwa [hawait] at hx

theorem invoke (s : Setting D) (r : Round D) (k : D.Key) (f : Function D)
    (scratch : Option (Scratch D)) : Grows r (r.invoke s k f scratch).2.2 := by
  refine run_induction (P := fun _ r' => Grows r r') (fun _ _ _ h => h)
    (fun accepts d inv r' _ h => ?_) (fun _ _ _ h => h) (fun _ _ h => h) _ fun x hx => .inl hx
  exact h.trans (readOne s r' k d) fun x => (reads_readOne s r' k d).known

theorem readGroup (s : Setting D) (r : Round D) (k : D.Key) (since : Version)
    (group : List D.Key) : Grows r (Round.readGroup s k since group .start r).2 := by
  refine readGroup_induction (P := fun _ r' => Grows r r') (fun d seen r' h => ?_) group
    fun x hx => .inl hx
  exact h.trans (readOne s r' k d) fun x => (reads_readOne s r' k d).known

end Grows

/-! ## What an action comes to -/

/-- The key `x` is read by the next action of the key `k`. -/
inductive Touches (s : Setting D) (r : Round D) (k x : D.Key) : Prop where
  /-- in a recorded group -/
  | group {t : Task D} {i : Nat} {group : List D.Key} : r.tasks.get? k = some t →
      t.mode = .check i → (r.graph.node k).deps.group? i = some group → x ∈ group →
      Touches s r k x
  /-- in a batch that the function requests -/
  | batch {t : Task D} {waiters : OrderedSet D.Key} {f : Function D} {ending : Ending D}
      {inv : Invocation D} {r₁ : Round D} {batch : List D.Key} :
      Invoked s r k t waiters f ending inv r₁ → batch ∈ inv.batches → x ∈ batch →
      Touches s r k x

/-- What the action of the key `k` stores, in a round over the graph `g`. -/
inductive Stores (s : Setting D) (g : Graph D) (r : Round D) (k : D.Key) (r' : Round D) : Prop where
  /-- no key completes -/
  | nothing : (∀ x, r'.graph.node x = r.graph.node x) → Stores s g r k r'
  /-- the key completes, with what it is due to store -/
  | outcome : r.tasks.contains k = true → Graph.Settles s.version k r.graph r'.graph →
      Graph.Due s.registry s.version g r.graph k (r'.graph.node k) → Stores s g r k r'

/-- What the action of the key `k` comes to, in a round over the graph `g`. -/
structure Effect (s : Setting D) (g : Graph D) (r : Round D) (k : D.Key) (r' : Round D) : Prop where
  /-- Nothing or what is due is stored. -/
  stored : Stores s g r k r'
  /-- Only keys that are read come under evaluation. -/
  begun : ∀ x, r'.tasks.contains x = true → r.tasks.contains x = true ∨ Touches s r k x
  /-- New nodes are of keys that the round knows. -/
  grows : Grows r r'

section Effect

variable {k : D.Key} {rest : List D.Key}

/-- A group that the check of a key found changed, once all of it is complete. -/
theorem changedSince_of_first {i : Nat} (hmemo : (r.graph.node k).memo = (g.node k).memo)
    (hfirst : r.graph.FirstChanged k i)
    (hall : ∀ group, (r.graph.node k).deps.group? i = some group →
      ∀ d ∈ group, r.graph.isComplete d = true) : g.ChangedSince r.graph k i := by
  obtain ⟨-, -, hdeps, -, heval⟩ := Node.memo_eq_iff.mp hmemo
  constructor
  · obtain ⟨group, hgroup, d, hd, -, hlt⟩ := hfirst.changed
    exact ⟨group, hdeps ▸ hgroup, hall group hgroup, d, hd, heval ▸ hlt⟩
  · intro j group hj hgroup d hd
    obtain ⟨hc, hle⟩ := hfirst.before j group hj (hdeps.symm ▸ hgroup) d hd
    exact ⟨hc, heval ▸ hle⟩

/-- What the function of a key concludes is due. -/
theorem Standing.due (h : Standing s g r) (hD : D.Exact) (hstrict : s.registry.BatchStrict)
    (ht : Tally r none 0 []) (hq : r.queue = k :: rest) {t : Task D}
    {waiters : OrderedSet D.Key} {f : Function D} {ending : Ending D} {inv : Invocation D}
    {r₁ : Round D} (hi : Invoked s { r with queue := rest } k t waiters f ending inv r₁)
    {o : Outcome D} (ho : Concludes k inv ending o)
    (hnode : (r'.graph.node k).memo = ({ (r₁.graph.node k).publish o s.version with
      deps := t.requested.pushAll inv.batches } : Node D).memo) :
    Graph.Due s.registry s.version g r.graph k (r'.graph.node k) := by
  have htask := contains_of_get? hi.task
  have hmemo := h.atomic.memo_of_task htask
  have hasked : Asked s { r with queue := rest } := h.asked
  obtain ⟨plan, hplan⟩ := hstrict k f hi.function k
  have hjust := justified_of_concludes hD hasked hi hplan ho
  have hdeps : (r'.graph.node k).deps = t.requested.pushAll inv.batches :=
    (Node.memo_eq_iff.mp hnode).2.2.1
  have hinc : g.isComplete k = false := by
    rw [Graph.isComplete, ← Node.isComplete_of_memo_eq hmemo]
    exact ht.unfinished k t hi.task
  refine .rebuilt hinc (fun hdirty => ?_) (o := o) ?_ ?_
  · rw [← (Node.memo_eq_iff.mp hmemo).1] at hdirty
    obtain ⟨i, hfirst, hall⟩ := h.outdated k t hi.task hi.mode hdirty
    exact ⟨i, changedSince_of_first hmemo hfirst fun group hgroup d hd =>
      (hall group hgroup d hd).elim id ((ht.pop hq hi.task).isComplete_of_awaited hi.task)⟩
  · rw [hdeps]
    obtain ⟨hf, hplan, hlook, hpending, hbatches, hout, hsame⟩ := hjust
    refine .intro hf hplan (fun d hd => ?_) hpending hbatches hout hsame
    obtain ⟨od, hod, hshows⟩ := hlook d hd
    exact ⟨od, hod, (Graph.shows_congr hi.reads.node).mp hshows⟩
  · rw [hnode, hdeps]
    exact Graph.memo_publish_congr ((congrArg Node.memo (hi.reads.node k)).trans hmemo) o _ _

/-- A task that goes on after reading. -/
theorem Effect.of_retask {r₁ : Round D} (hreads : Reads r r₁) (hgrows : Grows r r₁)
    (hnew : ∀ x, r₁.tasks.contains x = true → r.tasks.contains x = true ∨ Touches s r k x)
    {t t' : Task D} (ht : r₁.tasks.get? k = some t) (queue : List D.Key) :
    Effect s g r k { r₁ with tasks := r₁.tasks.insert k t', queue := queue } where
  stored := .nothing hreads.node
  begun x hx := by
    rw [Table.contains_insert_of_contains (contains_of_get? ht)] at hx
    exact hnew x hx
  grows x hx := (hgrows x hx).imp_right Known.retask

/-- A completion after reading. -/
theorem Effect.of_completes {r₁ : Round D} (hreads : Reads r r₁) (hgrows : Grows r r₁)
    (hnew : ∀ x, r₁.tasks.contains x = true → r.tasks.contains x = true ∨ Touches s r k x)
    {t : Task D} (ht : r.tasks.get? k = some t) {how : Completion}
    (hc : Completes s k how r₁ r') (hs : Graph.Settles s.version k r₁.graph r'.graph)
    (hdue : Graph.Due s.registry s.version g r.graph k (r'.graph.node k))
    (hnodes : ∀ x, r'.graph.contains x = true →
      r₁.graph.contains x = true ∨ x = k ∨ x ∈ (r'.graph.node k).deps.keys) :
    Effect s g r k r' where
  stored := .outcome (contains_of_get? ht) (hs.of_node hreads.node) hdue
  begun x hx := by
    obtain ⟨t', ht'⟩ := Option.isSome_iff_exists.mp hx
    obtain ⟨-, t₀, ht₀, -⟩ := hc.back ht'
    exact hnew x (contains_of_get? ht₀)
  grows x hx := by
    rcases hnodes x hx with hold | rfl | hdep
    · exact (hgrows x hold).imp_right (hc.known hs)
    · exact .inr (.inl hs.complete)
    · -- Dependencies are complete when the key completes.
      refine .inr (hc.known hs (.inl ?_))
      rw [hreads.isComplete]
      exact hdue.isComplete_dep hdep

/-- An invocation brings only keys under evaluation that it requests. -/
theorem Invoked.touches {t : Task D} {waiters : OrderedSet D.Key} {f : Function D}
    {ending : Ending D} {inv : Invocation D} {r₁ : Round D}
    (hi : Invoked s r k t waiters f ending inv r₁) {x : D.Key}
    (hx : r₁.tasks.contains x = true) : r.tasks.contains x = true ∨ Touches s r k x := by
  have hadds := Adds.invoke s k f t.scratch r
  rw [hi.run] at hadds
  exact (hadds.tasks x hx).imp_right fun ⟨batch, hbatch, hmem⟩ => .batch hi hbatch hmem

theorem Invoked.grows {t : Task D} {waiters : OrderedSet D.Key} {f : Function D}
    {ending : Ending D} {inv : Invocation D} {r₁ : Round D}
    (hi : Invoked s r k t waiters f ending inv r₁) : Grows r r₁ := by
  have hinvoke := Grows.invoke s r k f t.scratch
  rwa [hi.run] at hinvoke

/-- A key whose function concludes. -/
theorem Standing.effect_of_concludes (h : Standing s g r) (hD : D.Exact)
    (hstrict : s.registry.BatchStrict) (ht : Tally r none 0 []) (hq : r.queue = k :: rest)
    {t : Task D} {waiters : OrderedSet D.Key} {f : Function D} {ending : Ending D}
    {inv : Invocation D} {r₁ : Round D} {how : Completion} {o : Outcome D}
    (hi : Invoked s { r with queue := rest } k t waiters f ending inv r₁)
    (ho : Concludes k inv ending o) (hc : Completes s k how r₁ r')
    (hgraph : r'.graph =
      (r₁.graph.setDeps k (t.requested.pushAll inv.batches)).publish k o s.version) :
    Effect s g { r with queue := rest } k r' := by
  have hinc := ht.unfinished_of_reads hi.reads hi.task
  have hs := Graph.settles_setDeps_publish s.version (t.requested.pushAll inv.batches) o hinc
  rw [← hgraph] at hs
  refine .of_completes hi.reads hi.grows (fun x => hi.touches) hi.task hc hs
    (h.due hD hstrict ht hq hi ho ?_) fun x hx => ?_
  · rw [hgraph]
    exact Graph.memo_setDeps_publish _ _ _
  · rw [hgraph] at hx ⊢
    rw [Graph.deps_setDeps_publish]
    exact Graph.contains_of_setDeps_publish hx

/-- A key that its check finds clean. -/
theorem Standing.effect_of_verified (h : Standing s g r) {t : Task D} {i : Nat}
    (htask : r.tasks.get? k = some t) (hmode : t.mode = .check i)
    (hend : (r.graph.node k).deps.group? i = none) :
    Effect s g { r with queue := rest } k
      (({ r with queue := rest } : Round D).completeClean s k) := by
  have hpop : Checks { r with queue := rest } := h.checks
  have hmemo := h.atomic.memo_of_task (contains_of_get? htask)
  obtain ⟨hstatus, hout, hdeps, hchanged, heval⟩ := Node.memo_eq_iff.mp hmemo
  refine .of_completes (.refl _) (fun x => .inl) (fun x => .inl) htask
    (completes_clean s _ k) (settles_completeClean s _ k) (.confirmed ?_ (fun d hd => ?_) ?_)
    fun x hx => ?_
  · rw [← hstatus]
    exact h.grounded.checking k t i htask hmode
  · rw [← hdeps] at hd
    rw [← heval]
    exact hpop.unchanged htask hmode hend d hd
  · rw [graph_completeClean, Graph.node_confirm, if_pos rfl]
    exact Node.memo_eq_iff.mpr ⟨rfl, hout, hdeps, hchanged, rfl⟩
  · rw [graph_completeClean, Graph.confirm, Graph.contains_update, Bool.or_eq_true,
      decide_eq_true_eq] at hx
    exact hx.symm.imp_right .inl

/-- Every action has its effect, unless the round is to stop after it. -/
theorem Standing.effect (h : Standing s g r) (hD : D.Exact) (hstrict : s.registry.BatchStrict)
    (ht : Tally r none 0 []) (hq : r.queue = k :: rest)
    (hm : Move s { r with queue := rest } k r') :
    r'.halted = true ∨ Effect s g { r with queue := rest } k r' := by
  cases hm with
  | idle _ => exact .inr ⟨.nothing fun _ => rfl, fun x => .inl, fun x => .inl⟩
  | verified htask hmode hend => exact .inr (h.effect_of_verified htask hmode hend)
  | @checked t i group waiters seen r₁ hc =>
      obtain ⟨active, queue, he⟩ := concludeGroup_frame r₁ k { t with waiters := waiters } i seen
      rw [he]
      have hgroup := Grows.readGroup s { r with queue := rest } k (r.graph.node k).evaluatedAt group
      rw [hc.read] at hgroup
      refine .inr (.of_retask hc.reads hgroup (fun x hx => ?_) hc.kept queue)
      refine (hc.met hx).imp_right fun hw => .group hc.task hc.mode hc.listed ?_
      have hread : x ∈ (readGroup s k (r.graph.node k).evaluatedAt group .start
          { r with queue := rest }).1.waiting := by
        rw [hc.read]
        exact hw
      exact mem_group_of_waiting hread
  | dropped hd => exact .inl (by simp [halted, hd.interrupted])
  | lost _ => exact .inl (by simp [halted, abort])
  | built hi hmissing =>
      obtain ⟨how, -, -, hbuilt⟩ := completes_built s _ k _ _
      exact .inr (h.effect_of_concludes hD hstrict ht hq hi (.value hmissing) hbuilt
        (graph_completeBuilt s _ k _ _))
  | failed hi =>
      exact .inr (h.effect_of_concludes hD hstrict ht hq hi .fault (completes_failed s _ k _ _)
        (graph_completeFailed s _ k _ _))
  | blocked hi hmissing hexpected _ hfailed =>
      exact .inr (h.effect_of_concludes hD hstrict ht hq hi
        (hi.concludes_of_blocked h.grounded ht hq hmissing hexpected hfailed)
        (completes_failed s _ k _ _) (graph_completeFailed s _ k _ _))
  | @waiting t waiters f inv r₁ hi _ _ =>
      obtain ⟨active, queue, he⟩ := resumeOrPark_eq r₁ k
        (Task.afterCall { t with waiters := waiters } inv)
      rw [he]
      exact .inr (.of_retask hi.reads hi.grows (fun x => hi.touches) hi.kept queue)

end Effect

/-! ## Along a round -/

/-- A turn is an action of a queued key. -/
theorem Turn.move (h : Turn s r r') : r.halted = false ∧ ∃ k rest, (k :: rest).Perm r.queue ∧
    Move s { r with queue := rest } k r' := by
  cases h with
  | @act before after k hq hh =>
      refine ⟨hh, k, before ++ after, ?_, move_process s _ k⟩
      rw [hq]
      exact List.perm_middle.symm

section Unfolds

variable {calls : Table D.Key Nat}

/-- What holds at the start of a round and is kept by every effect holds in every state that turns
lead to, unless the round is to stop there. -/
theorem unfolds_induction (hD : D.Exact) (hstrict : s.registry.BatchStrict)
    (hg : g.Grounded s.version) (hb : g.Before s.version) {P : Round D → Prop}
    (begin : P (Round.start s g calls))
    (shuffle : ∀ {r : Round D} (queue : List D.Key), P r → P { r with queue := queue })
    (act : ∀ {r r' : Round D} {k : D.Key} {rest : List D.Key}, Standing s g r →
      Tally r none 0 [] → r.queue = k :: rest → Effect s g { r with queue := rest } k r' →
      (∀ x, r.Known x → r'.Known x) → P r → P r')
    (h : Unfolds s (Round.start s g calls) r) (hh : r.halted = false) : P r := by
  induction h with
  | refl => exact begin
  | @tail r r' hunfolds hturn ih =>
      obtain ⟨hgo, k, rest, hperm, hm⟩ := hturn.move
      have hstanding := (Standing.of_unfolds hg hb hunfolds).shuffle hperm
      have htally : Tally { r with queue := k :: rest } none 0 [] :=
        hstanding.tally.resolve_left fun hstop => Bool.false_ne_true (hgo.symm.trans hstop)
      have heffect := (hstanding.effect hD hstrict htally rfl hm).resolve_left fun hstop =>
        Bool.false_ne_true (hh.symm.trans hstop)
      have hknown (x : D.Key) (hx : r.Known x) : r'.Known x := by
        obtain ⟨queue, hqueue, hstep⟩ := hturn.step
        have htally' := (Standing.of_unfolds hg hb hunfolds).shuffle hqueue
        exact Tally.known_step htally'.tally hstep hx
      exact act hstanding htally rfl heffect hknown (shuffle _ (ih hgo))

/-- What a round over the graph `g` did to it. -/
structure Faithful (s : Setting D) (g : Graph D) (r : Round D) : Prop where
  /-- Complete keys store what they stored. -/
  keeps : g.Keeps r.graph
  /-- Other keys that are complete store what they were due to store. -/
  resolved : Graph.Resolved s.registry s.version g r.graph
  /-- New nodes are of keys that the round knows. -/
  grown : ∀ x, r.graph.contains x = true → g.contains x = true ∨ r.Known x

theorem faithful_start : Faithful s g (Round.start s g calls) where
  keeps x _ := by rw [node_start]
  resolved := by
    have hself : Graph.Resolved s.registry s.version g g := fun k hk => .inl ⟨hk, rfl⟩
    exact hself.of_node node_start
  grown := by
    refine start_induction (P := fun r => ∀ x, r.graph.contains x = true →
      g.contains x = true ∨ r.Known x) (fun x => .inl) fun k _ r h x hx => ?_
    rcases Grows.demand s r k x hx with hold | hknown
    · exact (h x hold).imp_right (reads_demand s r k).known
    · exact .inr hknown

theorem faithful_of_unfolds (hD : D.Exact) (hstrict : s.registry.BatchStrict)
    (hg : g.Grounded s.version) (hb : g.Before s.version)
    (h : Unfolds s (Round.start s g calls) r) (hh : r.halted = false) : Faithful s g r := by
  refine unfolds_induction hD hstrict hg hb faithful_start
    (fun _ hf => ⟨hf.keeps, hf.resolved, hf.grown⟩) (fun hs ht hq he hknown hf => ?_) h hh
  refine ⟨?_, ?_, fun x hx => ?_⟩
  · cases he.stored with
    | nothing hnode => exact fun x hx => (congrArg Node.memo (hnode x)).trans (hf.keeps x hx)
    | outcome htask hsettles _ =>
        obtain ⟨t, ht'⟩ := Option.isSome_iff_exists.mp htask
        have hkeeps := hsettles.keeps (ht.unfinished _ t ht')
        exact fun x hx => (hkeeps x (hf.keeps.isComplete hx)).trans (hf.keeps x hx)
  · cases he.stored with
    | nothing hnode => exact hf.resolved.of_node hnode
    | outcome htask hsettles hdue =>
        obtain ⟨t, ht'⟩ := Option.isSome_iff_exists.mp htask
        exact hf.resolved.settle hsettles (ht.unfinished _ t ht') hdue
  · exact (he.grows x hx).elim (fun hold => (hf.grown x hold).imp_right (hknown x)) .inr

end Unfolds

/-! ## Two rounds -/

/-- The round agrees with `goal`, and all that it evaluates is complete there. -/
structure Matches (goal : Graph D) (r : Round D) : Prop where
  /-- Complete keys are complete in `goal` and store the same there. -/
  agree : r.graph.Agree goal
  /-- Keys under evaluation are complete in `goal`. -/
  shown : ∀ x, r.tasks.contains x = true → goal.isComplete x = true

/-- What is complete in both rounds is shown alike. -/
theorem Matches.shows {goal : Graph D} (h : Matches goal r) {k : D.Key} {o : Outcome D}
    (hk : r.graph.Shows k o) : ∃ o', goal.Shows k o' ∧ o.Alike o' := by
  obtain ⟨hcomplete, halike⟩ := h.agree k hk.1
  have hrel := halike.outcome
  rw [hk.2] at hrel
  generalize hstored : (goal.node k).outcome = stored at hrel
  cases hrel with
  | some hrel => exact ⟨_, ⟨hcomplete, hstored⟩, hrel⟩

section Matches

variable {k : D.Key} {rest : List D.Key} {calls : Table D.Key Nat}

/-- A key that is being rebuilt although it was dirty has a dependency that changed. -/
theorem Standing.changed (h : Standing s g r) {t : Task D} (ht : r.tasks.get? k = some t)
    (hm : t.mode = .rebuild) (hdirty : (g.node k).status = .dirty) :
    ∃ d ∈ (g.node k).deps.keys,
      r.graph.isComplete d = true ∧ (g.node k).evaluatedAt < (r.graph.node d).changedAt := by
  obtain ⟨hstatus, -, hdeps, -, heval⟩ :=
    Node.memo_eq_iff.mp (h.atomic.memo_of_task (contains_of_get? ht))
  obtain ⟨i, hfirst, -⟩ := h.outdated k t ht hm (hstatus.trans hdirty)
  obtain ⟨group, hgroup, d, hd, hc, hlt⟩ := hfirst.changed
  rw [hdeps] at hgroup
  rw [heval] at hlt
  exact ⟨d, List.mem_flatten_of_mem (List.mem_of_getElem? hgroup) hd, hc, hlt⟩

/-- A key under evaluation is due to store what it stores in `goal`. -/
theorem Matches.due (hmatch : Matches goal r) (h : Standing s g r) (ht : Tally r none 0 [])
    (hgoal : Graph.Resolved s.registry s.version g goal) {t : Task D}
    (htask : r.tasks.get? k = some t) :
    Graph.Due s.registry s.version g goal k (goal.node k) := by
  refine hgoal.due ?_ (hmatch.shown k (contains_of_get? htask))
  rw [Graph.isComplete,
    ← Node.isComplete_of_memo_eq (h.atomic.memo_of_task (contains_of_get? htask))]
  exact ht.unfinished k t htask

/-- The groups that the check of a key passed, as they were recorded. -/
theorem Standing.passed (h : Standing s g r) {t : Task D} {i : Nat} {group : List D.Key}
    (htask : r.tasks.get? k = some t) (hmode : t.mode = .check i)
    (hgroup : (r.graph.node k).deps.group? i = some group) :
    (g.node k).status = .dirty ∧ (g.node k).deps.group? i = some group ∧
      ∀ j group, j < i → (g.node k).deps.group? j = some group → ∀ d ∈ group,
        r.graph.isComplete d = true ∧ (r.graph.node d).changedAt ≤ (g.node k).evaluatedAt := by
  obtain ⟨hstatus, -, hdeps, -, heval⟩ :=
    Node.memo_eq_iff.mp (h.atomic.memo_of_task (contains_of_get? htask))
  refine ⟨hstatus ▸ h.grounded.checking k t i htask hmode, hdeps ▸ hgroup,
    fun j group' hj hgroup' d hd => ?_⟩
  obtain ⟨hcomplete, hle⟩ := (h.checks k t htask i hmode).2 j group' hj (hdeps.symm ▸ hgroup') d hd
  exact ⟨hcomplete, heval ▸ hle⟩

/-- A round reads only keys that are complete in the end of another one. -/
theorem Matches.touched (hmatch : Matches goal r) (h : Standing s g r)
    (hstrict : s.registry.BatchStrict) (ht : Tally r none 0 [])
    (hgoal : Graph.Resolved s.registry s.version g goal) {x : D.Key}
    (hx : Touches s { r with queue := rest } k x) : goal.isComplete x = true := by
  cases hx with
  | group htask hmode hgroup hmem =>
      obtain ⟨hdirty, hrecorded, hpassed⟩ := h.passed htask hmode hgroup
      exact (hmatch.due h ht hgoal htask).isComplete_group hmatch.agree hdirty hrecorded
        hpassed hmem
  | @batch t waiters f ending inv r₁ batch hi hbatch hmem =>
      obtain ⟨plan, hplan⟩ := hstrict k f hi.function k
      have hdue := hmatch.due h ht hgoal hi.task
      rw [(hi.consulted hplan).1.batches] at hbatch
      exact hdue.isComplete_dep (hdue.mem_deps_of_consult hmatch.agree
        (h.changed hi.task hi.mode) hi.function hplan hbatch hmem)

theorem Matches.effect (hmatch : Matches goal r) (h : Standing s g r) (hD : D.Exact)
    (hstrict : s.registry.BatchStrict) (ht : Tally r none 0 [])
    (hgoal : Graph.Resolved s.registry s.version g goal)
    (he : Effect s g { r with queue := rest } k r') : Matches goal r' := by
  refine ⟨?_, fun x hx => ?_⟩
  · cases he.stored with
    | nothing hnode => exact hmatch.agree.of_node hnode
    | outcome htask hsettles hdue =>
        have hk := hmatch.shown k htask
        refine hmatch.agree.settle hsettles hk ?_
        exact hdue.alike hD hmatch.agree (hgoal.due hdue.incomplete hk)
  · rcases he.begun x hx with hold | hnew
    · exact hmatch.shown x hold
    · exact hmatch.touched h hstrict ht hgoal hnew

/-- A round matches any graph that resolves the same graph and has its roots complete. -/
theorem matches_of_unfolds (hD : D.Exact) (hstrict : s.registry.BatchStrict)
    (hg : g.Grounded s.version) (hb : g.Before s.version) (hkeeps : g.Keeps goal)
    (hgoal : Graph.Resolved s.registry s.version g goal)
    (hroots : ∀ root ∈ s.roots, goal.isComplete root = true)
    (h : Unfolds s (Round.start s g calls) r) (hh : r.halted = false) : Matches goal r := by
  refine unfolds_induction hD hstrict hg hb ⟨fun d hd => ?_, fun x hx => ?_⟩
    (fun _ hm => ⟨hm.agree, hm.shown⟩)
    (fun hs ht _ he _ hm => hm.effect hs hD hstrict ht hgoal he) h hh
  · rw [Graph.isComplete, node_start] at hd
    rw [node_start]
    exact ⟨hkeeps.isComplete hd, .of_memo_eq (hkeeps d hd).symm⟩
  · exact hroots x (mem_roots_of_start hx)

end Matches

end Round

end MemoGraph
