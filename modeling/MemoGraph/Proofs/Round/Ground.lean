import MemoGraph.Proofs.Round.Progress

/-!
# What every round stands on

Four facts hold of the graph in every state of every round, whatever the functions do: edges are
stored in both directions, every node that was ever completed has an outcome, nothing is dated later
than the round, and keys that need work were evaluated in an earlier one.  Only dirty keys are ever
checked.
-/

set_option autoImplicit false

namespace MemoGraph

variable {D : Domain}

namespace Graph

/-- Whatever was completed once has an outcome. -/
def Filled (g : Graph D) : Prop :=
  ∀ k, (g.node k).status ≠ .new → (g.node k).outcome.isSome = true

/-- What holds of a graph between rounds and after the round at `version`. -/
structure Grounded (g : Graph D) (version : Version) : Prop where
  /-- Edges are stored in both directions. -/
  mirrored : g.Mirrored
  /-- Whatever was completed once has an outcome. -/
  filled : g.Filled
  /-- No key was evaluated later. -/
  dated : ∀ k, (g.node k).evaluatedAt ≤ version

namespace Grounded

variable {g : Graph D} {version : Version}

/-- A key that can be read shows an outcome. -/
theorem settled (h : g.Grounded version) {k : D.Key} (hk : g.isComplete k = true) :
    ∃ o, (g.node k).settled? = some o ∧ (g.node k).outcome = some o := by
  have hnew : (g.node k).status ≠ .new := by
    rw [Node.isComplete_iff.mp hk]
    exact fun e => by cases e
  obtain ⟨o, ho⟩ := Option.isSome_iff_exists.mp (h.filled k hnew)
  have hk' : (g.node k).isComplete = true := hk
  exact ⟨o, by rw [Node.settled?, if_pos hk', ho], ho⟩

/-- A key without an outcome to read is incomplete. -/
theorem incomplete_of_unsettled (h : g.Grounded version) {k : D.Key}
    (ho : (g.node k).settled? = none) : g.isComplete k = false := by
  refine eq_false_of_ne_true fun hk => ?_
  obtain ⟨o, hsettled, -⟩ := h.settled hk
  rw [ho] at hsettled
  cases hsettled

theorem of_node (h : g.Grounded version) {g' : Graph D} (hg : ∀ x, g'.node x = g.node x) :
    g'.Grounded version where
  mirrored := h.mirrored.of_same_edges (fun k => by rw [hg]) (fun k => by rw [hg])
  filled k := by
    rw [hg]
    exact h.filled k
  dated k := by
    rw [hg]
    exact h.dated k

/-- A completion at a version that is not earlier. -/
theorem settle (h : g.Grounded version) {version' : Version} (hle : version ≤ version')
    {k : D.Key} {g' : Graph D} (hs : Settles version' k g g') (hm : g'.Mirrored)
    (ho : (g'.node k).outcome.isSome = true) : g'.Grounded version' where
  mirrored := hm
  filled x hx := by
    by_cases hxk : x = k
    · exact hxk ▸ ho
    · obtain ⟨hstatus, hout, -⟩ := Node.memo_eq_iff.mp (hs.others x hxk)
      rw [hout]
      exact h.filled x (hstatus ▸ hx)
  dated x := by
    by_cases hxk : x = k
    · exact hxk ▸ Nat.le_of_eq hs.evaluated
    · rw [(Node.memo_eq_iff.mp (hs.others x hxk)).2.2.2.2]
      exact Nat.le_trans (h.dated x) hle

theorem isSome_publish (n : Node D) (o : Outcome D) (version : Version) :
    (n.publish o version).outcome.isSome = true := by
  simp only [Node.publish]
  split
  · rename_i hh
    cases ho : n.outcome with
    | none => simp [Node.holds, ho] at hh
    | some o' => rfl
  · rfl

theorem inject (h : g.Grounded version) {version' : Version} (hle : version ≤ version')
    (k : D.Key) (v : D.Value) : (g.inject k v version').Grounded version' where
  mirrored := h.mirrored.inject k v version'
  filled x hx := by
    by_cases hxk : x = k
    · rw [Graph.inject, node_publish, if_pos hxk]
      exact isSome_publish _ _ _
    · obtain ⟨hstatus, hout, -⟩ := Node.memo_eq_iff.mp
        (memo_setDeps_publish_of_ne (g := g) version' ∅ (.value v) hxk)
      rw [Graph.inject, clearDeps, hout]
      exact h.filled x (by rwa [Graph.inject, clearDeps, hstatus] at hx)
  dated x := by
    by_cases hxk : x = k
    · rw [Graph.inject, node_publish, if_pos hxk]
      exact Nat.le_refl version'
    · rw [Graph.inject, clearDeps, (Node.memo_eq_iff.mp
        (memo_setDeps_publish_of_ne (g := g) version' ∅ (.value v) hxk)).2.2.2.2]
      exact Nat.le_trans (h.dated x) hle

theorem invalidate (h : g.Grounded version) (keys : List D.Key) :
    (g.invalidate keys).1.Grounded version where
  mirrored := h.mirrored.invalidate keys
  filled k hk := by
    rw [node_invalidate_eq]
    refine h.filled k ?_
    rcases status_invalidate g keys k with hs | ⟨hs, -⟩ | ⟨hs, -⟩
    · rwa [hs] at hk
    · rw [hs]
      exact fun e => by cases e
    · exact hs
  dated k := by
    rw [node_invalidate_eq]
    exact h.dated k

theorem delete (h : g.Grounded version) (p : D.Key → Bool) : (g.delete p).1.Grounded version := by
  refine ⟨h.mirrored.delete p, fun k hk => ?_, fun k => ?_⟩
  · by_cases hc : k ∈ g.closure p
    · have hmemo := memo_delete g p k
      rw [if_pos hc] at hmemo
      rw [(Node.memo_eq_iff.mp hmemo).1] at hk
      exact absurd rfl hk
    · have hmemo := memo_delete g p k
      rw [if_neg hc] at hmemo
      obtain ⟨hstatus, hout, -⟩ := Node.memo_eq_iff.mp hmemo
      rw [hout]
      exact h.filled k (hstatus ▸ hk)
  · have hmemo := memo_delete g p k
    by_cases hc : k ∈ g.closure p
    · rw [if_pos hc] at hmemo
      rw [(Node.memo_eq_iff.mp hmemo).2.2.2.2]
      exact Nat.zero_le version
    · rw [if_neg hc] at hmemo
      rw [(Node.memo_eq_iff.mp hmemo).2.2.2.2]
      exact h.dated k

end Grounded

theorem grounded_empty (version : Version) : (∅ : Graph D).Grounded version where
  mirrored := mirrored_empty
  filled _ hk := absurd rfl hk
  dated _ := Nat.zero_le version

end Graph

namespace Round

/-- What holds in every state of a round. -/
structure Grounded (s : Setting D) (r : Round D) : Prop where
  /-- The graph is grounded at the version of the round. -/
  graph : r.graph.Grounded s.version
  /-- Keys that need work were evaluated earlier. -/
  before : r.graph.Before s.version
  /-- Only dirty keys are checked. -/
  checking : ∀ k t i, r.tasks.get? k = some t → t.mode = .check i →
    (r.graph.node k).status = .dirty

namespace Grounded

variable {s : Setting D} {r : Round D}

theorem reads (h : Grounded s r) {r' : Round D} (hr : Reads r r') : Grounded s r' where
  graph := h.graph.of_node hr.node
  before k hk := by
    rw [hr.isComplete] at hk
    rw [hr.node]
    exact h.before k hk
  checking k t i ht hm := by
    rw [hr.node]
    cases hold : r.tasks.get? k with
    | none =>
        -- A new task checks its key only if it is dirty.
        obtain ⟨-, waiters, rfl⟩ := hr.begun k t hold ht
        simp only [Task.start] at hm
        split at hm
        · assumption
        · cases hm
    | some t₀ =>
        obtain ⟨waiters, hkept⟩ := hr.kept k t₀ hold
        rw [ht] at hkept
        refine h.checking k t₀ i hold ?_
        rw [Option.some.inj hkept] at hm
        exact hm

theorem retask (h : Grounded s r) {k : D.Key} {t : Task D} {queue : List D.Key}
    (ht : ∀ i, t.mode = .check i → (r.graph.node k).status = .dirty) :
    Grounded s { r with tasks := r.tasks.insert k t, queue := queue } where
  graph := h.graph
  before := h.before
  checking x t' i hx hm := by
    rcases Table.get?_insert_eq_some_iff.mp hx with ⟨rfl, rfl⟩ | ⟨-, hx⟩
    · exact ht i hm
    · exact h.checking x t' i hx hm

theorem complete (h : Grounded s r) {r' : Round D} {k : D.Key} {how : Completion}
    (hc : Completes s k how r r') (hs : Graph.Settles s.version k r.graph r'.graph)
    (hm : r'.graph.Mirrored) (ho : (r'.graph.node k).outcome.isSome = true) :
    Grounded s r' where
  graph := h.graph.settle (Nat.le_refl _) hs hm ho
  before := hs.before h.before
  checking x t i hx hmode := by
    obtain ⟨hxk, t₀, ht₀, hmode₀, -⟩ := hc.back hx
    rw [(Node.memo_eq_iff.mp (hs.others x hxk)).1]
    exact h.checking x t₀ i ht₀ (hmode₀ ▸ hmode)

theorem completeBuilt (h : Grounded s r) {k : D.Key} (hk : r.graph.isComplete k = false)
    (deps : DepGroups D.Key) (v : D.Value) : Grounded s (r.completeBuilt s k deps v) := by
  obtain ⟨how, -, -, hc⟩ := completes_built s r k deps v
  refine h.complete hc (settles_completeBuilt deps v hk) ?_ ?_
  · rw [graph_completeBuilt]
    exact (h.graph.mirrored.setDeps k deps).publish k _ _
  · rw [graph_completeBuilt, Graph.node_publish, if_pos rfl]
    exact Graph.Grounded.isSome_publish _ _ _

theorem completeFailed (h : Grounded s r) {k : D.Key} (hk : r.graph.isComplete k = false)
    (deps : Option (DepGroups D.Key)) (e : Failure D.Key D.Fault) :
    Grounded s (r.completeFailed s k deps e) := by
  refine h.complete (completes_failed s r k deps e) (settles_completeFailed deps e hk) ?_ ?_
  · rw [graph_completeFailed]
    cases deps with
    | none => exact h.graph.mirrored.publish k _ _
    | some deps => exact (h.graph.mirrored.setDeps k deps).publish k _ _
  · rw [graph_completeFailed, Graph.node_publish, if_pos rfl]
    exact Graph.Grounded.isSome_publish _ _ _

theorem completeClean (h : Grounded s r) {k : D.Key} {t : Task D} {i : Nat}
    (ht : r.tasks.get? k = some t) (hmode : t.mode = .check i) :
    Grounded s (r.completeClean s k) := by
  refine h.complete (completes_clean s r k) (settles_completeClean s r k) ?_ ?_
  · rw [graph_completeClean]
    exact h.graph.mirrored.confirm k _
  · rw [graph_completeClean, Graph.node_confirm, if_pos rfl]
    refine h.graph.filled k ?_
    rw [h.checking k t i ht hmode]
    exact fun e => by cases e

/-- Every step keeps what rounds stand on. -/
theorem step (h : Grounded s r) (ht : r.halted = true ∨ Tally r none 0 []) {r' : Round D}
    (hstep : r.step s = some r') : Grounded s r' := by
  cases advance_of_step hstep with
  | skipped _ _ => exact { h with }
  | @acted k rest r' hq hh hm =>
      have htally := ht.resolve_left (by simp [hh])
      have hpop : Grounded s { r with queue := rest } := { h with }
      cases hm with
      | idle _ => exact hpop
      | verified htask hmode _ => exact hpop.completeClean htask hmode
      | checked hc =>
          obtain ⟨active, queue, he⟩ := concludeGroup_frame _ k _ _ _
          rw [he]
          refine (hpop.reads hc.reads).retask fun i _ => ?_
          rw [hc.reads.node]
          exact h.checking k _ _ hc.task hc.mode
      | dropped hd => exact hpop.reads hd.reads
      | lost hl => exact { hpop.reads hl.reads with }
      | built hc _ =>
          have hk := htally.unfinished_of_reads hc.reads hc.task
          exact (hpop.reads hc.reads).completeBuilt hk _ _
      | failed hc =>
          have hk := htally.unfinished_of_reads hc.reads hc.task
          exact (hpop.reads hc.reads).completeFailed hk _ _
      | blocked hc _ _ _ _ =>
          have hk := htally.unfinished_of_reads hc.reads hc.task
          exact (hpop.reads hc.reads).completeFailed hk _ _
      | waiting hc _ _ =>
          obtain ⟨active, queue, he⟩ := resumeOrPark_eq _ k _
          rw [he]
          refine (hpop.reads hc.reads).retask fun i hmode => ?_
          cases hc.mode.symm.trans hmode
  | broken _ hh _ _ =>
      have htally := ht.resolve_left (by simp [hh])
      exact (htally.failMembers_induction _ (P := Grounded s) { h with }
        fun h₁ _ hf => hf.fails ▸ h₁.completeFailed hf.incomplete _ _).2

/-- A round over a grounded graph, dated before the round where work is needed. -/
theorem start {graph : Graph D} (hg : graph.Grounded s.version) (hb : graph.Before s.version)
    (calls : Table D.Key Nat) : Grounded s (Round.start s graph calls) := by
  refine start_induction (P := fun r => Grounded s r) ⟨hg, hb, fun k t i ht => ?_⟩
    fun k _ r h => h.reads (reads_demand s r k)
  cases ht

theorem of_reaches {graph : Graph D} (hg : graph.Grounded s.version)
    (hb : graph.Before s.version) {calls : Table D.Key Nat} {r : Round D}
    (h : Reaches s (Round.start s graph calls) r) : Grounded s r := by
  induction h with
  | refl => exact start hg hb calls
  | tail hr hstep ih => exact ih.step (tally_of_reaches hr) hstep

end Grounded

end Round

end MemoGraph
