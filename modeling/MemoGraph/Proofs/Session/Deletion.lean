import MemoGraph.Proofs.Graph.Walk
import MemoGraph.Proofs.Session.Coverage

/-!
# What a deletion removes

Deletion follows the stored readers of a key.  Edges are stored in both directions in every state of
a session, so it removes exactly the keys whose recorded dependencies lead to a key that was chosen.
No survivor loses a dependency, and none is left with an edge to a removed key.
-/

set_option autoImplicit false

namespace MemoGraph

variable {D : Domain}

namespace Graph

variable {g : Graph D}

/-- The dependencies of the key lead to a known key that passes the test; the key itself counts. -/
def LeadsTo (g : Graph D) (p : D.Key → Bool) (k : D.Key) : Prop :=
  ∃ m, p m = true ∧ g.contains m = true ∧ Relation.ReflTransGen g.DependsOn k m

theorem LeadsTo.head {p : D.Key → Bool} {k d : D.Key} (h : g.LeadsTo p d)
    (hd : g.DependsOn k d) : g.LeadsTo p k := by
  obtain ⟨m, hp, hm, hpath⟩ := h
  exact ⟨m, hp, hm, .head hd hpath⟩

/-- Following readers from the chosen keys meets the known keys that lead to one of them. -/
theorem Mirrored.mem_closure_iff_leadsTo (h : g.Mirrored) {p : D.Key → Bool} {k : D.Key} :
    k ∈ g.closure p ↔ g.contains k = true ∧ g.LeadsTo p k := by
  rw [mem_closure_iff]
  constructor
  · intro hreached
    induction hreached with
    | seed hknown hchosen =>
        have hm := mem_keys_iff_contains.mp hknown
        exact ⟨hm, _, (List.mem_filter.mp hchosen).2, hm, .refl⟩
    | edge _ hread hknown ih =>
        exact ⟨mem_keys_iff_contains.mp hknown, ih.2.head ((h _ _).mpr hread)⟩
  · rintro ⟨-, m, hp, hm, hpath⟩
    induction hpath using Relation.ReflTransGen.head_induction_on with
    | refl =>
        have hknown := mem_keys_iff_contains.mpr hm
        exact .seed hknown (List.mem_filter.mpr ⟨hknown, hp⟩)
    | head hd _ ih =>
        exact .edge ih ((h _ _).mp hd) (mem_keys_iff_contains.mpr (h.contains_of_dep hd).1)

theorem contains_delete {p : D.Key → Bool} {k : D.Key} :
    (g.delete p).1.contains k = true ↔ g.contains k = true ∧ k ∉ (g.delete p).2 :=
  contains_foldl_remove

theorem nodup_delete (p : D.Key → Bool) : (g.delete p).2.Nodup := nodup_reach _ _ _

/-- A survivor is the node that it was, up to its readers. -/
theorem node_delete_of_not_removed {p : D.Key → Bool} {k : D.Key} (hk : k ∉ (g.delete p).2) :
    (g.delete p).1.node k = { g.node k with rdeps := ((g.delete p).1.node k).rdeps } := by
  have hmemo := (memo_delete g p k).trans (if_neg hk)
  exact congrArg (fun n : Node D => { n with rdeps := ((g.delete p).1.node k).rdeps }) hmemo

/-- A survivor loses the removed keys among its readers, and no others. -/
theorem Mirrored.mem_rdeps_delete (h : g.Mirrored) {p : D.Key → Bool} {k x : D.Key}
    (hk : k ∉ (g.delete p).2) :
    x ∈ ((g.delete p).1.node k).rdeps ↔ x ∈ (g.node k).rdeps ∧ x ∉ (g.delete p).2 :=
  (mem_rdeps_foldl_remove fun x d hx => (h x d).mpr hx).trans (and_iff_right hk)

end Graph

namespace Session

variable {session : Session D}

theorem Reachable.mirrored (h : session.Reachable) : session.graph.Mirrored := by
  obtain ⟨registry, ledger, hhistory⟩ := h
  exact (grounded_of_history hhistory).mirrored

/-- In every state of a session, deletion removes exactly the known keys whose dependencies lead to
a known key that passes the test, and counts them.  Every other node keeps all that it stores, loses
exactly the removed keys among its readers, and has no edge to any of them. -/
theorem delete_exact (h : session.Reachable) (p : D.Key → Bool) :
    ((∀ k, k ∈ (session.delete p).2 ↔
        session.graph.contains k = true ∧ session.graph.LeadsTo p k) ∧
      (∀ k, (session.delete p).1.graph.contains k = true ↔
        session.graph.contains k = true ∧ k ∉ (session.delete p).2) ∧
      Stats.ofRemoved (session.delete p).2 =
        { changed := 0, dirtied := 0
          deleted := {k | session.graph.contains k = true ∧ session.graph.LeadsTo p k}.ncard }) ∧
    ∀ k, (session.delete p).1.graph.contains k = true →
      (session.delete p).1.graph.node k =
        { session.graph.node k with rdeps := ((session.delete p).1.graph.node k).rdeps } ∧
      (∀ x, x ∈ ((session.delete p).1.graph.node k).rdeps ↔
        x ∈ (session.graph.node k).rdeps ∧ x ∉ (session.delete p).2) ∧
      ∀ x ∈ (session.delete p).2,
        (∀ group ∈ ((session.delete p).1.graph.node k).deps.groups, x ∉ group) ∧
          x ∉ ((session.delete p).1.graph.node k).rdeps := by
  have hmirrored := h.mirrored
  have hremoved (k : D.Key) : k ∈ (session.delete p).2 ↔
      session.graph.contains k = true ∧ session.graph.LeadsTo p k :=
    hmirrored.mem_closure_iff_leadsTo
  refine ⟨⟨hremoved, fun k => Graph.contains_delete, ?_⟩, fun k hk => ?_⟩
  · have hcount := ncard_setOf_mem (Graph.nodup_delete (g := session.graph) p)
    rw [Stats.ofRemoved, show (session.delete p).2.length = _ from hcount.symm]
    simp only [← hremoved]
    rfl
  · have hkept := (Graph.contains_delete.mp hk).2
    have hreaders (x : D.Key) := hmirrored.mem_rdeps_delete (x := x) hkept
    refine ⟨Graph.node_delete_of_not_removed hkept, hreaders, fun x hx => ⟨?_, ?_⟩⟩
    · intro group hgroup hmem
      -- The survivor has the dependencies that it had, and a reader of a removed key is removed.
      have hdep : (session.graph.delete p).1.DependsOn k x :=
        List.mem_flatten.mpr ⟨group, hgroup, hmem⟩
      rw [Graph.DependsOn, Graph.node_delete_of_not_removed hkept] at hdep
      exact hmirrored.dep_not_mem_closure hkept hdep hx
    · exact fun hread => ((hreaders x).mp hread).2 hx

/-- A session over the tower from which key 1 is removed: key 2 reads it and goes with it, and the
input stays, without readers. -/
theorem tower_delete_exact : ∃ session : Session Sample.domain, session.Reachable ∧
    let p : Nat → Bool := fun k => decide (k = 1)
    (1 : Nat) ∈ (session.delete p).2 ∧ (2 : Nat) ∈ (session.delete p).2 ∧
      (session.delete p).1.graph.contains (0 : Nat) = true ∧
      ((session.delete p).1.graph.node (0 : Nat)).outcome =
        (session.graph.node (0 : Nat)).outcome ∧
      (2 : Nat) ∉ ((session.delete p).1.graph.node (0 : Nat)).rdeps := by
  have hrun : ((Session.new Sample.tower).performAll [.inject [((0 : Nat), (5 : Nat))],
      .evaluate 20 [(2 : Nat)] true fun _ => false]).map (fun session =>
        decide ((session.graph.contains (0 : Nat) = true ∧
          session.graph.contains (1 : Nat) = true ∧ session.graph.contains (2 : Nat) = true) ∧
          (1 : Nat) ∈ (session.graph.node (2 : Nat)).deps.keys ∧
          (session.graph.node (0 : Nat)).deps.keys = [])) = some true := by decide +kernel
  obtain ⟨session, hops, hdecided⟩ := Option.map_eq_some_iff.mp hrun
  obtain ⟨⟨hzero, hone, htwo⟩, hdep, hnone⟩ := of_decide_eq_true hdecided
  have hreachable := (reachable_new _).performAll hops
  obtain ⟨⟨hremoved, hcontains, -⟩, hkept⟩ :=
    delete_exact hreachable fun k => decide (k = (1 : Nat))
  have hchosen : session.graph.LeadsTo (fun k => decide (k = (1 : Nat))) (1 : Nat) :=
    ⟨1, rfl, hone, .refl⟩
  have htwo := (hremoved 2).mpr ⟨htwo, hchosen.head hdep⟩
  have hstays : (0 : Nat) ∉ (session.delete fun k => decide (k = (1 : Nat))).2 := by
    intro hzero
    obtain ⟨-, m, hm, -, hpath⟩ := (hremoved 0).mp hzero
    cases hpath.cases_head with
    | inl h =>
        subst h
        exact absurd hm (by decide)
    | inr h =>
        obtain ⟨d, hd, -⟩ := h
        rw [Graph.DependsOn, hnone] at hd
        exact List.not_mem_nil hd
  have hzero := (hcontains 0).mpr ⟨hzero, hstays⟩
  obtain ⟨hnode, -, hedges⟩ := hkept 0 hzero
  refine ⟨session, hreachable, (hremoved 1).mpr ⟨hone, hchosen⟩, htwo, hzero, ?_, (hedges 2 htwo).2⟩
  rw [hnode]

end Session

end MemoGraph
