import MemoGraph.Proofs.Round.Requests
import MemoGraph.Proofs.Round.Checks

/-!
# The course of a round

To the graph a round is a sequence of completions.  Between two of them it prepares: it brings keys
under evaluation, queues them and calls functions, and no node changes.  Every completion has its
cause in what was prepared.  So what holds throughout a round is shown by two cases, one for
preparing and one for the completion of a key.
-/

set_option autoImplicit false

namespace MemoGraph

variable {D : Domain}

/-! ## Known keys stay known -/

namespace Graph

variable {g : Graph D} {x : D.Key}

theorem contains_update_mono (k : D.Key) (f : Node D → Node D) (h : g.contains x = true) :
    (g.update k f).contains x = true := by
  rw [contains_update, h, Bool.or_true]

theorem contains_unlink_mono (parent dep : D.Key) (h : g.contains x = true) :
    (g.unlink parent dep).contains x = true := by
  unfold unlink adjust
  split
  · exact contains_update_mono dep _ h
  · exact h

theorem contains_setDeps_mono (k : D.Key) (deps : DepGroups D.Key) (h : g.contains x = true) :
    (g.setDeps k deps).contains x = true := by
  refine List.foldlRecOn (motive := fun g => g.contains x = true) deps.keys _ ?_
    fun (g : Graph D) (h : g.contains x = true) dep _ => contains_update_mono dep _ h
  exact List.foldlRecOn (motive := fun g => g.contains x = true) _ _ (contains_update_mono k _ h)
    fun (g : Graph D) (h : g.contains x = true) dep _ => contains_unlink_mono k dep h

end Graph

/-- What may be told of a key while no key completes; `calls` are the keys whose functions may be
called. -/
def Event.Tells (g : Graph D) (calls : D.Key → Prop) : Event D → Prop
  | .enqueued x => g.isComplete x = false
  | .called x => g.isComplete x = false ∧ calls x
  | .completed _ _ => False

namespace Round

/-! ## Preparing -/

/-- The second round is reached from the first without a completion. -/
structure Prepares (calls : D.Key → Prop) (r r' : Round D) : Prop where
  /-- No node changes. -/
  node : ∀ x, r'.graph.node x = r.graph.node x
  /-- No key is forgotten. -/
  known : ∀ x, r.graph.contains x = true → r'.graph.contains x = true
  /-- No task is dropped. -/
  kept : ∀ x, r.tasks.contains x = true → r'.tasks.contains x = true
  /-- New tasks are of incomplete keys. -/
  begun : ∀ x, r'.tasks.contains x = true →
    r.tasks.contains x = true ∨ r.graph.isComplete x = false
  /-- Only keys with tasks are queued. -/
  queued : ∀ x ∈ r'.queue, x ∈ r.queue ∨ r'.tasks.contains x = true
  /-- Cycles that were listed stay listed. -/
  cycles : ∀ c ∈ r.cycles, c ∈ r'.cycles
  /-- The observer is told of incomplete keys. -/
  told : ∃ news, r'.log = news ++ r.log ∧ ∀ e ∈ news, e.Tells r.graph calls

namespace Prepares

variable {s : Setting D} {calls : D.Key → Prop} {r r' r'' : Round D} {k : D.Key}

theorem refl (calls : D.Key → Prop) (r : Round D) : Prepares calls r r where
  node _ := rfl
  known _ := id
  kept _ := id
  begun _ := .inl
  queued _ := .inl
  cycles _ := id
  told := ⟨[], rfl, fun _ he => absurd he List.not_mem_nil⟩

theorem isComplete (h : Prepares calls r r') (x : D.Key) :
    r'.graph.isComplete x = r.graph.isComplete x := by
  rw [Graph.isComplete, Graph.isComplete, h.node]

theorem tells (h : Prepares calls r r') {calls' : D.Key → Prop}
    (hcalls : ∀ x, calls x → calls' x) {e : Event D} (he : e.Tells r'.graph calls) :
    e.Tells r.graph calls' := by
  cases e with
  | enqueued x => exact (h.isComplete x).symm.trans he
  | called x => exact ⟨(h.isComplete x).symm.trans he.1, hcalls x he.2⟩
  | completed x how => exact he

theorem imp {calls' : D.Key → Prop} (h : Prepares calls r r')
    (hcalls : ∀ x, calls x → calls' x) : Prepares calls' r r' := by
  obtain ⟨news, hlog, hnews⟩ := h.told
  exact { h with told := ⟨news, hlog, fun e he => (refl calls r).tells hcalls (hnews e he)⟩ }

theorem trans (h : Prepares calls r r') (h' : Prepares calls r' r'') : Prepares calls r r'' where
  node x := (h'.node x).trans (h.node x)
  known x hx := h'.known x (h.known x hx)
  kept x hx := h'.kept x (h.kept x hx)
  begun x hx := by
    rcases h'.begun x hx with hx | hx
    · exact h.begun x hx
    · exact .inr ((h.isComplete x).symm.trans hx)
  queued x hx := by
    rcases h'.queued x hx with hx | hx
    · exact (h.queued x hx).imp id (h'.kept x)
    · exact .inr hx
  cycles c hc := h'.cycles c (h.cycles c hc)
  told := by
    obtain ⟨news, hlog, hnews⟩ := h.told
    obtain ⟨news', hlog', hnews'⟩ := h'.told
    refine ⟨news' ++ news, by rw [hlog', hlog, List.append_assoc], fun e he => ?_⟩
    rcases List.mem_append.mp he with he | he
    · exact h.tells (fun _ => id) (hnews' e he)
    · exact hnews e he

/-- What was told stays told. -/
theorem mem_log (h : Prepares calls r r') {e : Event D} (he : e ∈ r.log) : e ∈ r'.log := by
  obtain ⟨news, hlog, -⟩ := h.told
  rw [hlog]
  exact List.mem_append_right news he

/-! ### Reading -/

theorem demand (s : Setting D) (calls : D.Key → Prop) (r : Round D) (k : D.Key) :
    Prepares calls r (r.demand s k) := by
  have hknown (x : D.Key) (hx : r.graph.contains x = true) :
      (r.graph.create k).contains x = true := by
    rw [Graph.contains_create, hx, Bool.or_true]
  rcases demand_cases s r k with ⟨-, he⟩ | ⟨hc, -, he⟩
  · rw [he]
    exact { refl calls r with
      node := fun x => Graph.node_create _ _ _
      known := hknown }
  · rw [he]
    refine ⟨fun x => Graph.node_create _ _ _, hknown,
      fun x hx => Table.contains_insert.mpr (.inr hx), fun x hx => ?_, fun x hx => ?_,
      fun c => id, [.enqueued k], rfl, fun e he => List.mem_singleton.mp he ▸ hc⟩
    · rcases Table.contains_insert.mp hx with rfl | hx
      · exact .inr hc
      · exact .inl hx
    · dsimp only at hx
      split at hx
      · exact .inl hx
      · rcases List.mem_append.mp hx with hx | hx
        · exact .inl hx
        · exact .inr (Table.contains_insert.mpr (.inl (List.mem_singleton.mp hx)))

theorem await (calls : D.Key → Prop) (r : Round D) (reader dep : D.Key) :
    Prepares calls r (r.await reader dep).2 := by
  have hadds := Adds.await (fun _ => False) r reader dep
  obtain ⟨tasks, he⟩ := await_frame r reader dep
  rw [he] at hadds ⊢
  exact { refl calls r with
    kept := hadds.kept
    begun := fun x hx => .inl ((hadds.tasks x hx).resolve_right id)
    queued := fun _ => .inl }

theorem readOne (s : Setting D) (calls : D.Key → Prop) (r : Round D) (reader dep : D.Key) :
    Prepares calls r (r.readOne s reader dep).2 := by
  rcases readOne_cases s r reader dep with he | he | he
  · rw [he]
    exact refl calls r
  · rw [he]
    exact demand s calls r dep
  · rw [he]
    exact (demand s calls r dep).trans (await calls _ reader dep)

theorem readGroup (s : Setting D) (calls : D.Key → Prop) (k : D.Key) (since : Version)
    (group : List D.Key) (r : Round D) :
    Prepares calls r (Round.readGroup s k since group .start r).2 :=
  readGroup_induction (P := fun _ r' => Prepares calls r r')
    (fun dep _ _ h => h.trans (readOne s calls _ k dep)) group (refl calls r)

/-- After the call itself an invocation calls no function. -/
theorem invocation (s : Setting D) (calls : D.Key → Prop) (r : Round D) (k : D.Key)
    (f : Function D) (scratch : Option (Scratch D)) :
    Prepares calls (r.countCall s k).2 (r.invoke s k f scratch).2.2 :=
  run_induction (P := fun _ r' => Prepares calls (r.countCall s k).2 r')
    (fun _ _ _ h => h) (fun _ dep _ _ _ h => h.trans (readOne s calls _ k dep))
    (fun _ _ _ h => h) (fun _ r' h => h.trans { refl calls r' with }) _ (refl calls _)

/-- An invocation calls the function of its key first of all. -/
theorem invoke (s : Setting D) (f : Function D) (scratch : Option (Scratch D))
    (hk : r.graph.isComplete k = false) (hcalls : calls k) :
    Prepares calls r (r.invoke s k f scratch).2.2 ∧
      .called k ∈ (r.invoke s k f scratch).2.2.log := by
  have hcall : Prepares calls r (r.countCall s k).2 := { refl calls r with
    told := ⟨[.called k], rfl, fun e he => List.mem_singleton.mp he ▸ ⟨hk, hcalls⟩⟩ }
  have hrun := invocation s calls r k f scratch
  exact ⟨hcall.trans hrun, hrun.mem_log List.mem_cons_self⟩

/-! ### Going on and waiting -/

/-- A queued key leaves the queue. -/
theorem pop {rest : List D.Key} (hq : r.queue = k :: rest) :
    Prepares calls r { r with queue := rest } :=
  { refl calls r with queued := fun _ hx => .inl (hq ▸ List.mem_cons_of_mem k hx) }

theorem retask (hk : r.tasks.contains k = true) (t : Task D) {queue : List D.Key}
    (hqueue : ∀ x ∈ queue, x = k ∨ x ∈ r.queue) :
    Prepares calls r { r with tasks := r.tasks.insert k t, queue := queue } := by
  have htasks (x : D.Key) : (r.tasks.insert k t).contains x = r.tasks.contains x :=
    Table.contains_insert_of_contains hk x t
  exact { refl calls r with
    kept := fun x hx => (htasks x).trans hx
    begun := fun x hx => .inl ((htasks x).symm.trans hx)
    queued := fun x hx => by
      rcases hqueue x hx with rfl | hx
      · exact .inr ((htasks x).trans hk)
      · exact .inl hx }

theorem resume (hk : r.tasks.contains k = true) (t : Task D) :
    Prepares calls r (r.resume k t) :=
  retask hk t fun _ => List.mem_cons.mp

theorem resumeOrPark (hk : r.tasks.contains k = true) (t : Task D) :
    Prepares calls r (r.resumeOrPark k t) := by
  unfold Round.resumeOrPark
  split
  · exact resume hk t
  · exact retask hk _ fun _ => .inr

theorem concludeGroup (hk : r.tasks.contains k = true) (t : Task D) (i : Nat)
    (seen : GroupReading D.Key) : Prepares calls r (r.concludeGroup k t i seen) := by
  unfold Round.concludeGroup
  dsimp only
  split
  · exact resumeOrPark hk _
  · split
    · exact resume hk _
    · exact resumeOrPark hk _

end Prepares

/-! ## Completions and their causes -/

/-- Why a key completes.  A key on a broken cycle fails; any other key is verified, or completed by
what its function did. -/
inductive Cause (s : Setting D) (r : Round D) (k : D.Key) : Completion → Round D → Prop where
  /-- all recorded dependencies are unchanged -/
  | verified {r' : Round D} : (∀ d ∈ (r.graph.node k).deps.keys, r.graph.Unchanged k d) →
      r'.graph.node k = (r.graph.node k).confirm s.version → Cause s r k .clean r'
  /-- the function ended with a value, after all that it requested had completed -/
  | built {r' : Round D} {how : Completion} : how ≠ .failed → how ≠ .clean → .called k ∈ r.log →
      (∀ d ∈ (r'.graph.node k).deps.keys, r.graph.isComplete d = true) → Cause s r k how r'
  /-- the function failed -/
  | failed {r' : Round D} {e : Failure D.Key D.Fault} : .called k ∈ r.log →
      (r'.graph.node k).outcome = some (.failure e) → Cause s r k .failed r'
  /-- the key is on a cycle -/
  | member {r' : Round D} {c : Cycle D.Key} {e : Failure D.Key D.Fault} : c ∈ r.cycles →
      k ∈ c.members → (r'.graph.node k).outcome = some (.failure e) → Cause s r k .failed r'

/-- The second round is the first after the completion of an incomplete key. -/
structure Settled (s : Setting D) (k : D.Key) (how : Completion) (r r' : Round D) : Prop where
  /-- The key was under evaluation. -/
  task : r.tasks.contains k = true
  /-- Its task is dropped, its waiters are signalled and the observer is told. -/
  completes : Completes s k how r r'
  /-- No other node changes. -/
  settles : Graph.Settles s.version k r.graph r'.graph
  /-- No key is forgotten. -/
  known : ∀ x, r.graph.contains x = true → r'.graph.contains x = true
  /-- There is a cause. -/
  cause : Cause s r k how r'

theorem known_publish {g : Graph D} {k : D.Key} {o : Outcome D} {version : Version} {x : D.Key}
    (h : g.contains x = true) : (g.publish k o version).contains x = true :=
  Graph.contains_update_mono k _ h

/-- A failed key holds a failure. -/
theorem outcome_completeFailed (s : Setting D) (r : Round D) (k : D.Key)
    (deps : Option (DepGroups D.Key)) (e : Failure D.Key D.Fault) :
    ∃ e', ((r.completeFailed s k deps e).graph.node k).outcome = some (.failure e') := by
  rw [graph_completeFailed, Graph.node_publish, if_pos rfl]
  obtain ⟨o, ho⟩ := Option.isSome_iff_exists.mp
    (Graph.Grounded.isSome_publish _ (.failure e) s.version)
  rw [ho]
  cases o with
  | failure e' => exact ⟨e', rfl⟩
  | value v =>
      rcases Node.outcome_publish s.version ho with h | h
      · cases h
      · cases h

section Settled

variable {s : Setting D} {r : Round D} {k : D.Key} {t : Task D}

theorem settled_verified (ht : r.tasks.get? k = some t)
    (hdeps : ∀ d ∈ (r.graph.node k).deps.keys, r.graph.Unchanged k d) :
    Settled s k .clean r (r.completeClean s k) where
  task := contains_of_get? ht
  completes := completes_clean s r k
  settles := settles_completeClean s r k
  known x hx := by
    rw [graph_completeClean]
    exact Graph.contains_update_mono k _ hx
  cause := .verified hdeps (by rw [graph_completeClean, Graph.node_confirm, if_pos rfl])

theorem settled_built (ht : r.tasks.get? k = some t) (hk : r.graph.isComplete k = false)
    {deps : DepGroups D.Key} (hcalled : .called k ∈ r.log)
    (hdeps : ∀ d ∈ deps.keys, r.graph.isComplete d = true) (v : D.Value) :
    ∃ how, Settled s k how r (r.completeBuilt s k deps v) := by
  obtain ⟨how, hfailed, hclean, hcompletes⟩ := completes_built s r k deps v
  refine ⟨how, contains_of_get? ht, hcompletes, settles_completeBuilt deps v hk, fun x hx => ?_,
    .built hfailed hclean hcalled ?_⟩
  · rw [graph_completeBuilt]
    exact known_publish (Graph.contains_setDeps_mono k deps hx)
  · rw [graph_completeBuilt, Graph.deps_setDeps_publish]
    exact hdeps

theorem settled_failed (ht : r.tasks.get? k = some t) (hk : r.graph.isComplete k = false)
    (deps : Option (DepGroups D.Key)) (e : Failure D.Key D.Fault)
    (hcause : .called k ∈ r.log ∨ ∃ c ∈ r.cycles, k ∈ c.members) :
    Settled s k .failed r (r.completeFailed s k deps e) where
  task := contains_of_get? ht
  completes := completes_failed s r k deps e
  settles := settles_completeFailed deps e hk
  known x hx := by
    rw [graph_completeFailed]
    apply known_publish
    cases deps with
    | none => exact hx
    | some deps => exact Graph.contains_setDeps_mono k deps hx
  cause := by
    obtain ⟨e', he⟩ := outcome_completeFailed s r k deps e
    rcases hcause with hcalled | ⟨c, hc, hk⟩
    · exact .failed hcalled he
    · exact .member hc hk he

end Settled

/-! ## Steps -/

/-- The second round is reached from the first by preparing and completions. -/
inductive Course (s : Setting D) (calls : D.Key → Prop) (r : Round D) : Round D → Prop where
  /-- nothing happened -/
  | start : Course s calls r r
  /-- something was prepared -/
  | prepare {r₁ r₂ : Round D} : Course s calls r r₁ → Prepares calls r₁ r₂ → Course s calls r r₂
  /-- a key completed -/
  | settle {k : D.Key} {how : Completion} {r₁ r₂ : Round D} : Course s calls r r₁ →
      Settled s k how r₁ r₂ → Course s calls r r₂

/-- The key acts next, and it does so by running its function. -/
def Runs (r : Round D) (k : D.Key) : Prop :=
  r.halted = false ∧ (∃ rest, r.queue = k :: rest) ∧
    ∃ t, r.tasks.get? k = some t ∧ t.mode = .rebuild

section Step

variable {s : Setting D} {r r' : Round D}

/-- The action of a key. -/
theorem course_of_move (hc : Checks r) (hsought : EachTask Sought r) (ht : Tally r none 0 [])
    (hh : r.halted = false) {k : D.Key} {rest : List D.Key} (hq : r.queue = k :: rest)
    (hm : Move s { r with queue := rest } k r') : Course s r.Runs r r' := by
  let r₀ : Round D := { r with queue := rest }
  have hpop : Course s r.Runs r r₀ := .prepare .start (.pop hq)
  have hinc {t : Task D} (htask : r₀.tasks.get? k = some t) : r₀.graph.isComplete k = false :=
    ht.unfinished k t htask
  have hruns {t : Task D} (htask : r₀.tasks.get? k = some t) (hmode : t.mode = .rebuild) :
      r.Runs k := ⟨hh, ⟨rest, hq⟩, t, htask, hmode⟩
  -- What a reading and an invocation do before anything follows from them.
  have hread {group : List D.Key} {seen : GroupReading D.Key} {r₁ : Round D}
      (hgroup : readGroup s k (r₀.graph.node k).evaluatedAt group .start r₀ = (seen, r₁)) :
      Course s r.Runs r r₁ := by
    have hprep := Prepares.readGroup s r.Runs k (r₀.graph.node k).evaluatedAt group r₀
    rw [hgroup] at hprep
    exact hpop.prepare hprep
  have hcall {t : Task D} {f : Function D} {ending : Ending D} {inv : Invocation D} {r₁ : Round D}
      (htask : r₀.tasks.get? k = some t) (hmode : t.mode = .rebuild)
      (hrun : r₀.invoke s k f t.scratch = (ending, inv, r₁)) :
      Course s r.Runs r r₁ ∧ .called k ∈ r₁.log ∧ r₁.graph.isComplete k = false := by
    have hprep := Prepares.invoke s f t.scratch (hinc htask) (hruns htask hmode)
    rw [hrun] at hprep
    exact ⟨hpop.prepare hprep.1, hprep.2, (hprep.1.isComplete k).trans (hinc htask)⟩
  cases hm with
  | idle _ => exact hpop
  | verified htask hmode hend =>
      exact hpop.settle (settled_verified htask (hc.unchanged htask hmode hend))
  | @checked _ i _ _ seen _ hchecked =>
      exact (hread hchecked.read).prepare (.concludeGroup (contains_of_get? hchecked.kept) _ i seen)
  | dropped hd =>
      cases hd with
      | cut _ _ hgroup _ => exact hread hgroup
      | called htask hmode _ hrun _ => exact (hcall htask hmode hrun).1
  | @lost r₁ a hl =>
      refine Course.prepare ?_ ({ Prepares.refl r.Runs r₁ with } : Prepares r.Runs r₁ (r₁.abort a))
      cases hl with
      | unregistered _ _ _ => exact hpop
      | crashed htask hmode _ hrun => exact (hcall htask hmode hrun).1
      | unread hi _ => exact (hcall hi.task hi.mode hi.run).1
      | idle hi _ => exact (hcall hi.task hi.mode hi.run).1
  | @built _ _ _ v _ _ hi hmissing =>
      obtain ⟨hcourse, hcalled, hk⟩ := hcall hi.task hi.mode hi.run
      obtain ⟨how, hsettled⟩ := settled_built (s := s) hi.kept hk hcalled
        (fun d hd => isComplete_of_requested hsought ht hq hi hmissing hd) v
      exact hcourse.settle hsettled
  | failed hi =>
      obtain ⟨hcourse, hcalled, hk⟩ := hcall hi.task hi.mode hi.run
      exact hcourse.settle (settled_failed hi.kept hk _ _ (.inl hcalled))
  | blocked hi _ _ _ _ =>
      obtain ⟨hcourse, hcalled, hk⟩ := hcall hi.task hi.mode hi.run
      exact hcourse.settle (settled_failed hi.kept hk _ _ (.inl hcalled))
  | waiting hi _ _ =>
      exact (hcall hi.task hi.mode hi.run).1.prepare (.resumeOrPark (contains_of_get? hi.kept) _)

theorem course_of_step (hc : Checks r) (hsought : EachTask Sought r)
    (ht : r.halted = true ∨ Tally r none 0 []) (hstep : r.step s = some r') :
    Course s r.Runs r r' := by
  cases advance_of_step hstep with
  | skipped hq _ => exact .prepare .start (.pop hq)
  | acted hq hh hm =>
      exact course_of_move hc hsought (ht.resolve_left (by simp [hh])) hh hq hm
  | broken _ hh _ _ =>
      have htally := ht.resolve_left (by simp [hh])
      have hlisted : Prepares r.Runs r { r with cycles := r.cycles ++ r.heldUpBy s } :=
        { Prepares.refl r.Runs r with cycles := fun _ hc => List.mem_append_left _ hc }
      refine (htally.failMembers_induction _ (P := fun r₁ =>
        (∀ c ∈ r.heldUpBy s, c ∈ r₁.cycles) ∧ Course s r.Runs r r₁)
        ⟨fun c hc => List.mem_append_right _ hc, .prepare .start hlisted⟩ ?_).2.2
      rintro k t r₁ r₂ ⟨hcycles, hcourse⟩ _ hf
      obtain ⟨c, hc, hk⟩ := hf.member
      have hsettled : Settled s k .failed r₁ r₂ := by
        rw [hf.fails]
        exact settled_failed hf.task hf.incomplete _ _ (.inr ⟨c, hcycles c hc, hk⟩)
      refine ⟨fun c hc => ?_, hcourse.settle hsettled⟩
      rw [hf.completes.cycles]
      exact hcycles c hc

/-- In a step the observer is told of calls for the key that runs only. -/
theorem Course.told {calls : D.Key → Prop} (h : Course s calls r r') :
    ∃ news, r'.log = news ++ r.log ∧ ∀ x, .called x ∈ news → calls x := by
  induction h with
  | start => exact ⟨[], rfl, fun x hx => absurd hx List.not_mem_nil⟩
  | prepare _ hprep ih =>
      obtain ⟨news, hlog, hnews⟩ := ih
      obtain ⟨more, hlog', hmore⟩ := hprep.told
      refine ⟨more ++ news, by rw [hlog', hlog, List.append_assoc], fun x hx => ?_⟩
      rcases List.mem_append.mp hx with hx | hx
      · exact (hmore _ hx).2
      · exact hnews x hx
  | @settle k how _ _ _ hs ih =>
      obtain ⟨news, hlog, hnews⟩ := ih
      refine ⟨.completed k how :: news, by rw [hs.completes.log, hlog, List.cons_append],
        fun x hx => hnews x ?_⟩
      simpa using hx

/-- What holds before the roots are demanded, and is kept by preparing and by completions, holds
throughout a round. -/
theorem course_induction {P : Round D → Prop} {graph : Graph D} {calls : Table D.Key Nat}
    (begin : P (blank graph calls))
    (prepare : ∀ {r r' : Round D}, P r → Prepares (fun _ => True) r r' → P r')
    (settle : ∀ {k : D.Key} {how : Completion} {r r' : Round D}, P r → Settled s k how r r' → P r')
    (h : Reaches s (Round.start s graph calls) r) : P r := by
  have hcourse {calls : D.Key → Prop} {r r' : Round D} (hr : P r) (h : Course s calls r r') :
      P r' := by
    induction h with
    | start => exact hr
    | prepare _ hprep ih => exact prepare ih (hprep.imp fun _ _ => trivial)
    | settle _ hs ih => exact settle ih hs
  induction h with
  | refl =>
      exact start_induction (P := P) begin fun k _ r hr => prepare hr (.demand s _ r k)
  | tail hr hstep ih =>
      exact hcourse ih
        (course_of_step (.of_reaches hr) (sought_of_reaches hr) (tally_of_reaches hr) hstep)

end Step

end Round

end MemoGraph
