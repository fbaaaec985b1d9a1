import MemoGraph.Proofs.Cycle.Tied
import MemoGraph.Proofs.Round.Founded
import MemoGraph.Proofs.Session.Accounts
import MemoGraph.Proofs.Session.AllOrNothing

/-!
# Edges, and what invalidation reaches

Edges are stored in both directions in every state of a session.  The walk of an invalidation stops
at keys that are not complete, so it reaches every complete reader exactly as long as no complete
key depends on an incomplete one.  Values never do.  A key that fails while it waits for others may,
if its round ends before these complete, and from then on an invalidation can miss it.
-/

set_option autoImplicit false

namespace MemoGraph

variable {D : Domain}

namespace Graph

/-- The key `k` has recorded that it read `d`. -/
def DependsOn (g : Graph D) (k d : D.Key) : Prop := d ∈ (g.node k).deps.keys

/-- All dependencies of the key are complete. -/
def Supported (g : Graph D) (k : D.Key) : Prop := ∀ d, g.DependsOn k d → g.isComplete d = true

/-- A complete key has complete dependencies, or it holds a failure. -/
def Solid (g : Graph D) : Prop :=
  ∀ k, g.isComplete k = true → g.Supported k ∨ ∃ e, (g.node k).outcome = some (.failure e)

/-- What is complete in the second graph depends on complete keys only, or it is complete in the
first graph with the same outcome, and its dependencies fare no worse. -/
def Carries (g g' : Graph D) : Prop :=
  ∀ k, g'.isComplete k = true → g'.Supported k ∨
    g.isComplete k = true ∧ (g'.node k).outcome = (g.node k).outcome ∧
      (g.Supported k → g'.Supported k)

variable {g g' : Graph D}

theorem Carries.refl (g : Graph D) : g.Carries g := fun _ hk => .inr ⟨hk, rfl, id⟩

theorem Closed.carry (h : g.Closed) (hc : g.Carries g') : g'.Closed := by
  intro k hk
  rcases hc k hk with hs | ⟨hold, -, hs⟩
  · exact hs
  · exact hs (h k hold)

theorem Solid.carry (h : g.Solid) (hc : g.Carries g') : g'.Solid := by
  intro k hk
  rcases hc k hk with hs | ⟨hold, hout, hs⟩
  · exact .inl hs
  · rw [hout]
    exact (h k hold).imp hs id

theorem dependsOn_invalidate {keys : List D.Key} {k d : D.Key} :
    (g.invalidate keys).1.DependsOn k d ↔ g.DependsOn k d := by
  rw [DependsOn, DependsOn, node_invalidate_eq]

/-- A walk does not leave a complete key above a dependency that it took the trust from. -/
theorem Mirrored.carries_invalidate (h : g.Mirrored) (keys : List D.Key) :
    g.Carries (g.invalidate keys).1 := by
  intro k hk
  refine .inr ⟨(isComplete_invalidate.mp hk).1, by rw [node_invalidate_eq], fun hs d hd => ?_⟩
  have hold := dependsOn_invalidate.mp hd
  exact h.isComplete_dep_invalidate hold hk (hs d hold)

/-- A deletion takes no dependency of a key that it leaves. -/
theorem Mirrored.carries_delete (h : g.Mirrored) (p : D.Key → Bool) :
    g.Carries (g.delete p).1 := by
  intro k hk
  have hmemo := memo_delete g p k
  by_cases hdoomed : k ∈ g.closure p
  · rw [if_pos hdoomed] at hmemo
    rw [isComplete, Node.isComplete_of_memo_eq hmemo] at hk
    cases hk
  · rw [if_neg hdoomed] at hmemo
    obtain ⟨-, hout, hdeps, -⟩ := Node.memo_eq_iff.mp hmemo
    refine .inr ⟨(Node.isComplete_of_memo_eq hmemo).symm.trans hk, hout, fun hs d hd => ?_⟩
    rw [DependsOn, hdeps] at hd
    have hdep := memo_delete g p d
    rw [if_neg (h.dep_not_mem_closure hdoomed hd)] at hdep
    exact (Node.isComplete_of_memo_eq hdep).trans (hs d hd)

/-! ## What a walk can miss -/

/-- From a complete key dependencies lead to complete keys. -/
theorem Closed.isComplete_of_transGen (h : g.Closed) {k x : D.Key}
    (hpath : Relation.TransGen g.DependsOn k x) (hk : g.isComplete k = true) :
    g.isComplete x = true := by
  induction hpath with
  | single hd => exact h k hk _ hd
  | tail _ hd ih => exact h _ ih _ hd

/-- A walk from keys that are not complete goes nowhere. -/
theorem dirtied_eq_nil {keys : List D.Key} (h : ∀ x ∈ keys, g.isComplete x = false) :
    (g.invalidate keys).2.dirtied = [] := by
  have hnone : keys.filter g.isComplete = [] :=
    List.filter_eq_nil_iff.mpr fun x hx hc => by
      rw [h x hx] at hc
      cases hc
  have hwalk : (g.invalidate keys).2.dirtied =
      reach (keys.foldl strike g).readers (keys.foldl strike g).trusted [] := by
    simp only [invalidate, hnone]
    rfl
  rw [hwalk]
  refine List.eq_nil_iff_forall_not_mem.mpr fun k hk => ?_
  induction mem_reach_iff.mp hk with
  | seed _ hs => exact List.not_mem_nil hs
  | edge hprev _ _ ih => exact ih (mem_reach_iff.mpr hprev)

/-- So a complete key above a key that is not complete survives the invalidation of that key. -/
theorem isComplete_invalidate_dep {k d : D.Key} (hk : g.isComplete k = true)
    (hd : g.isComplete d = false) : (g.invalidate [d]).1.isComplete k = true := by
  refine isComplete_invalidate.mpr ⟨hk, fun hmem => ?_, ?_⟩
  · rw [List.mem_singleton.mp hmem, hd] at hk
    cases hk
  · rw [dirtied_eq_nil fun x hx => List.mem_singleton.mp hx ▸ hd]
    exact List.not_mem_nil

end Graph

namespace Session

/-! ## Both directions of every edge -/

/-- In every state of a session a key is among the dependencies of another exactly if that one is
among its reverse dependencies, and all keys that are listed are known. -/
theorem edges_mirrored {session : Session D} (h : session.Reachable) :
    (∀ k d, d ∈ (session.graph.node k).deps.keys ↔ k ∈ (session.graph.node d).rdeps) ∧
      (∀ k, ∀ group ∈ (session.graph.node k).deps.groups, ∀ d ∈ group,
        session.graph.contains d = true) ∧
      ∀ d, ∀ k ∈ (session.graph.node d).rdeps, session.graph.contains k = true := by
  obtain ⟨registry, ledger, hhistory⟩ := h
  have hmirrored := (grounded_of_history hhistory).mirrored
  refine ⟨hmirrored, fun k group hgroup d hd => ?_, fun d k hk => ?_⟩
  · exact (hmirrored.contains_of_dep (List.mem_flatten.mpr ⟨group, hgroup, hd⟩)).2
  · exact (hmirrored.contains_of_dep ((hmirrored k d).mpr hk)).1

/-- A session over the tower whose functions are then replaced: key 2 stops reading the input, and
is not listed among its readers any more. -/
theorem tower_edges_mirrored : ∃ session : Session Sample.domain, session.Reachable ∧
    (2 : Nat) ∈ (session.graph.node (1 : Nat)).rdeps ∧
      (2 : Nat) ∉ (session.graph.node (0 : Nat)).rdeps := by
  have hrun : ((Session.new Sample.tower).performAll [.inject [((0 : Nat), (5 : Nat))],
      .evaluate 20 [(2 : Nat)] true fun _ => false, .change Sample.chain [(2 : Nat)],
      .evaluate 20 [(2 : Nat)] true fun _ => false]).map (fun session =>
        decide ((session.graph.node (2 : Nat)).deps.keys = [(1 : Nat)])) = some true := by
    decide +kernel
  obtain ⟨session, hops, hdecided⟩ := Option.map_eq_some_iff.mp hrun
  have hdeps := of_decide_eq_true hdecided
  have hreachable := (reachable_new Sample.tower).performAll hops
  obtain ⟨hmirrored, -, -⟩ := edges_mirrored hreachable
  refine ⟨session, hreachable, (hmirrored 2 1).mp ?_, fun hread => ?_⟩
  · rw [hdeps]
    exact List.mem_cons_self
  · have hdep := (hmirrored 2 0).mpr hread
    rw [hdeps] at hdep
    exact absurd (List.mem_singleton.mp hdep) (by decide)

/-! ## Whom an invalidation misses -/

/-- After an invalidation no complete key depends on a named key, directly or through others. -/
def MissesNobody (session : Session D) : Prop :=
  ∀ (keys : List D.Key) (k x : D.Key), x ∈ keys →
    (session.invalidate keys).1.graph.isComplete k = true →
      ¬ Relation.TransGen (session.invalidate keys).1.graph.DependsOn k x

/-- Nobody is missed exactly if complete keys have complete dependencies. -/
theorem missesNobody_iff_closed {session : Session D} (h : session.graph.Mirrored) :
    session.MissesNobody ↔ session.graph.Closed := by
  constructor
  · intro hmiss k hk d hd
    cases hdc : session.graph.isComplete d with
    | true => rfl
    | false =>
        have hstill := Graph.isComplete_invalidate_dep hk hdc
        have hpath : (session.graph.invalidate [d]).1.DependsOn k d :=
          Graph.dependsOn_invalidate.mpr hd
        exact absurd (.single hpath) (hmiss [d] k d (List.mem_singleton.mpr rfl) hstill)
  · intro hclosed keys k x hx hk hpath
    have hafter : (session.graph.invalidate keys).1.Closed :=
      hclosed.carry (h.carries_invalidate keys)
    exact (Graph.isComplete_invalidate.mp (hafter.isComplete_of_transGen hpath hk)).2.1 hx

theorem carries_injectedGraph (session : Session D) (version : Version) :
    session.graph.Carries (session.injectedGraph version) := by
  intro k hk
  cases hv : session.injections.get? k with
  | some v =>
      refine .inl fun d hd => ?_
      rw [Graph.DependsOn, (injected_of_some hv _).2] at hd
      exact absurd hd List.not_mem_nil
  | none =>
      have hkept := memo_injectedGraph_of_none hv version
      obtain ⟨-, hout, hdeps, -⟩ := Node.memo_eq_iff.mp hkept
      refine .inr ⟨(Node.isComplete_of_memo_eq hkept).symm.trans hk, hout, fun hs d hd => ?_⟩
      rw [Graph.DependsOn, hdeps] at hd
      exact isComplete_injectedGraph (hs d hd)

/-- After an operation, a complete key above an incomplete one holds a failure, which it came to in
this round, or it was complete above an incomplete key before. -/
theorem rests_of_perform {session session' : Session D} (hmirrored : session.graph.Mirrored)
    (hsolid : session.graph.Solid) {op : Operation D} {events : List (Event D)}
    (hop : session.perform op = some (session', events)) {k : D.Key}
    (hk : session'.graph.isComplete k = true) : session'.graph.Supported k ∨
      (∃ f, (session'.graph.node k).outcome = some (.failure f)) ∧
        (.completed k .failed ∈ events ∨
          session.graph.isComplete k = true ∧ ¬ session.graph.Supported k) := by
  have hyields := yields_of_perform hop
  generalize session'.graph = g at hyields hk ⊢
  have hold (hcarries : session.graph.Carries g) (hs : ¬ g.Supported k) :
      (∃ f, (g.node k).outcome = some (.failure f)) ∧
        session.graph.isComplete k = true ∧ ¬ session.graph.Supported k := by
    refine ⟨(hsolid.carry hcarries k hk).resolve_left hs, ?_⟩
    obtain ⟨hc, -, hsupported⟩ := (hcarries k hk).resolve_left hs
    exact ⟨hc, fun h => hs (hsupported h)⟩
  refine Classical.or_iff_not_imp_left.mpr fun hs => ?_
  cases hyields with
  | round hr _ =>
      have hinjected := carries_injectedGraph session (session.version + 1)
      obtain ⟨hfailure, hwhy⟩ :=
        (Round.rests_of_reaches hr (hsolid.carry hinjected) k hk).resolve_left hs
      refine ⟨hfailure, hwhy.imp List.mem_reverse.mpr fun ⟨hc, d, hd, hinc⟩ => ?_⟩
      have hunsupported : ¬ (session.injectedGraph (session.version + 1)).Supported k :=
        fun h => Bool.noConfusion ((h d hd).symm.trans hinc)
      obtain ⟨hc, -, hsupported⟩ := (hinjected k hc).resolve_left hunsupported
      exact ⟨hc, fun h => hunsupported (hsupported h)⟩
  | swept _ keys => exact (hold (hmirrored.carries_invalidate keys) hs).imp id .inr
  | deleted _ p => exact (hold (hmirrored.carries_delete p) hs).imp id .inr
  | kept => exact (hold (.refl _) hs).imp id .inr

/-- A key that completed in an operation is complete after it. -/
theorem isComplete_of_completed {session session' : Session D} {op : Operation D}
    {events : List (Event D)} (hop : session.perform op = some (session', events)) {k : D.Key}
    {how : Completion} (hk : .completed k how ∈ events) : session'.graph.isComplete k = true := by
  have hyields := yields_of_perform hop
  generalize session'.graph = g at hyields ⊢
  cases hyields with
  | round hr _ => exact (Round.Atomic.of_reaches hr).complete k ⟨how, List.mem_reverse.mp hk⟩
  | swept => exact absurd hk List.not_mem_nil
  | deleted => exact absurd hk List.not_mem_nil
  | kept => exact absurd hk List.not_mem_nil

/-- Only failures can depend on keys that are not complete. -/
theorem solid_of_history {permitted : Session D → Operation D → Prop} {registry : Registry D}
    {session : Session D} {ledger : Ledger D}
    (h : History permitted (Session.new registry) session ledger) : session.graph.Solid := by
  induction h with
  | start =>
      intro k hk
      cases hk
  | step hprev _ hop ih =>
      intro k hk
      exact (rests_of_perform (grounded_of_history hprev).mirrored ih hop hk).imp id And.left

/-- An invalidation misses nobody exactly if every key that holds a failure has complete
dependencies.  What an operation can do to this is an evaluation that leaves a key, failed in its
round, above a dependency that did not complete; as long as none does, nobody is missed. -/
theorem missesNobody_iff_supported {session : Session D} (h : session.Reachable) :
    (session.MissesNobody ↔
      ∀ k f, (session.graph.node k).failure? = some f → session.graph.Supported k) ∧
    ∀ op session' events, session.perform op = some (session', events) → session.MissesNobody →
      (session'.MissesNobody ↔
        ∀ k, .completed k .failed ∈ events → session'.graph.Supported k) := by
  obtain ⟨registry, ledger, hhistory⟩ := h
  have hmirrored := (grounded_of_history hhistory).mirrored
  have hsolid := solid_of_history hhistory
  refine ⟨(missesNobody_iff_closed hmirrored).trans ⟨fun hclosed k f hf => ?_, fun hall k hk => ?_⟩,
    fun op session' events hop hmiss => ?_⟩
  · exact hclosed k (Graph.shows_of_failure? hf).1
  · rcases hsolid k hk with hs | ⟨f, hf⟩
    · exact hs
    · exact hall k f (Graph.failure?_of_shows ⟨hk, hf⟩)
  · have hnext := (grounded_of_history (.step hhistory trivial hop)).mirrored
    have hclosed := (missesNobody_iff_closed hmirrored).mp hmiss
    rw [missesNobody_iff_closed hnext]
    constructor
    · exact fun hclosed' k hk => hclosed' k (isComplete_of_completed hop hk)
    · intro hall k hk
      rcases rests_of_perform hmirrored hsolid hop hk with hs | ⟨-, hfailed | ⟨hold, hunsupported⟩⟩
      · exact hs
      · exact hall k hfailed
      · exact absurd (hclosed k hold) hunsupported

/-- A session over the tower in which nothing fails: an invalidation of the input reaches the key
that reads it. -/
theorem tower_missesNobody : ∃ session : Session Sample.domain, session.Reachable ∧
    session.MissesNobody ∧ session.graph.isComplete (2 : Nat) = true ∧
      (session.invalidate [(0 : Nat)]).1.graph.isComplete (2 : Nat) = false := by
  have hrun : (((Session.new Sample.tower).performAll [.inject [((0 : Nat), (5 : Nat))]]).bind
      fun session => (session.perform (.evaluate 20 [(2 : Nat)] true fun _ => false)).map fun x =>
        decide (x.1.graph.isComplete (2 : Nat) = true ∧
          (0 : Nat) ∈ (x.1.graph.node (2 : Nat)).deps.keys ∧
          x.2 = [.enqueued (2 : Nat), .called (2 : Nat), .enqueued (1 : Nat), .called (1 : Nat),
            .completed (1 : Nat) .builtChanged, .called (2 : Nat),
            .completed (2 : Nat) .builtChanged])) = some true := by decide +kernel
  obtain ⟨given, hops, hdecided⟩ := Option.bind_eq_some_iff.mp hrun
  obtain ⟨⟨session, events⟩, hevaluate, hdecided⟩ := Option.map_eq_some_iff.mp hdecided
  obtain ⟨hcomplete, hdep, hevents⟩ := of_decide_eq_true hdecided
  obtain ⟨next, _, hinject, hnil⟩ := performAll_cons.mp hops
  obtain rfl := Option.some.inj hnil
  have hnew : (Session.new Sample.tower).MissesNobody :=
    (missesNobody_iff_supported (reachable_new _)).1.mpr fun k f hf => by cases hf
  have hgiven : next.MissesNobody := by
    refine ((missesNobody_iff_supported (reachable_new _)).2 _ _ _ hinject hnew).mpr fun k hk => ?_
    obtain ⟨-, rfl⟩ := Prod.mk.inj (Option.some.inj hinject)
    exact absurd hk List.not_mem_nil
  have hreachable := (reachable_new _).performAll hops
  have hmiss : session.MissesNobody := by
    refine ((missesNobody_iff_supported hreachable).2 _ _ _ hevaluate hgiven).mpr fun k hk => ?_
    rw [show events = _ from hevents] at hk
    simp at hk
  refine ⟨session, hreachable.perform hevaluate, hmiss, hcomplete, ?_⟩
  apply eq_false_of_ne_true
  intro hstill
  exact hmiss [0] 2 0 (List.mem_singleton.mpr rfl) hstill
    (.single (Graph.dependsOn_invalidate.mpr hdep))

/-- The input changes, and key 1, which reads it, is dirtied.  In the next round the function of key
2 reads key 1 and fails at once, and the round is interrupted before key 1 has its turn: key 2 keeps
its failure above a dirty key, and an invalidation of that key misses it. -/
theorem impatient_missed : ∃ session : Session Sample.domain, session.Reachable ∧
    ¬ session.MissesNobody := by
  have hrun : ((Session.new Sample.impatient).performAll [.inject [((0 : Nat), (5 : Nat))],
      .evaluate 20 [(1 : Nat)] true fun _ => false, .inject [((0 : Nat), (6 : Nat))],
      .evaluate 20 [(2 : Nat)] true fun log => decide (Committed log (2 : Nat))]).map
        (fun session => decide ((session.graph.node (1 : Nat)).status = .dirty ∧
          session.graph.isComplete (2 : Nat) = true ∧
          (1 : Nat) ∈ (session.graph.node (2 : Nat)).deps.keys)) = some true := by decide +kernel
  obtain ⟨session, hops, hdecided⟩ := Option.map_eq_some_iff.mp hrun
  obtain ⟨hdirty, hcomplete, hdep⟩ := of_decide_eq_true hdecided
  have hincomplete : session.graph.isComplete (1 : Nat) = false := by
    rw [Graph.isComplete, Node.isComplete, hdirty]
    rfl
  refine ⟨session, (reachable_new _).performAll hops, fun hmiss => ?_⟩
  exact hmiss [1] 2 1 (List.mem_singleton.mpr rfl)
    (Graph.isComplete_invalidate_dep hcomplete hincomplete)
    (.single (Graph.dependsOn_invalidate.mpr hdep))

end Session

end MemoGraph
