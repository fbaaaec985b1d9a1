import MemoGraph.Proofs.Round.Stale
import MemoGraph.Proofs.Sample
import MemoGraph.Proofs.Session.Chronicle

/-!
# Rounds are all or nothing for each key

While a round runs, keys come under evaluation and what they read is noted with them.  However the
round ends, a key was then either committed, and that once, or its evaluation is taken back: it is
left as it was when the injections had taken effect.  Edges change with their readers only, and
nothing that the round kept for a key outlives it.
-/

set_option autoImplicit false

namespace MemoGraph

variable {D : Domain}

namespace Crew.Leaves

variable {s : Setting D} {graph : Graph D} {calls : Table D.Key Nat} {workers : Nat}
  {last c : Crew D}

theorem committed_iff (h : Leaves s graph calls workers last c) {k : D.Key} :
    Committed c.live.log.reverse k ↔ ∃ how, .completed k how ∈ last.live.told last.stages := by
  rw [h.told]
  exact exists_congr fun _ => List.mem_reverse.trans Multiset.mem_coe.symm

/-- No key is committed twice in a round. -/
theorem countP_commits_le (h : Leaves s graph calls workers last c) (k : D.Key) :
    c.live.log.reverse.countP (Event.commits k) ≤ 1 := by
  have hle := (Atomic.of_reaches h.reached h.going).once k
  rw [h.told, Multiset.coe_countP] at hle
  rw [List.countP_reverse]
  simpa using hle

/-- The evaluation of a key that was not committed is taken back. -/
theorem memo_of_not_committed (h : Leaves s graph calls workers last c) {k : D.Key}
    (hk : ¬ Committed c.live.log.reverse k) :
    (c.live.store.graph.node k).memo = (graph.node k).memo := by
  rw [h.node]
  refine (Atomic.of_reaches h.reached h.going).kept k (fun how hmem => hk ?_) fun st hst =>
    h.not_rewrites hst k
  exact h.committed_iff.mpr ⟨how, hmem⟩

/-- The readers of a key change by keys that were committed. -/
theorem mem_rdeps (h : Leaves s graph calls workers last c) (hm : graph.Mirrored) {x : D.Key}
    (hx : ¬ Committed c.live.log.reverse x) (d : D.Key) :
    x ∈ (c.live.store.graph.node d).rdeps ↔ x ∈ (graph.node d).rdeps := by
  rw [← h.mirrored hm x d, ← hm x d, (Node.memo_eq_iff.mp (h.memo_of_not_committed hx)).2.2.1]

end Crew.Leaves

namespace Session

/-- However a round ends, with one worker or several, every key was committed at most once; a key
that was not committed stores what it stored when the injections had taken effect, or is new and
unknown before; a reverse dependency changed only if its reader was committed; and no key is left
under evaluation or with anything that the round kept for it. -/
theorem evaluate_all_or_nothing {session : Session D} (h : session.Attainable) {workers : Nat}
    {roots : List D.Key} {keepGoing : Bool} {observer : List (Event D) → Bool} {c : Crew D}
    (hround : Crew.Reaches (session.setting roots keepGoing observer)
      (session.muster (session.setting roots keepGoing observer) workers) c) (hover : c.IsOver) :
    let g := session.injectedGraph (session.version + 1)
    let session' := session.disband (session.setting roots keepGoing observer) c
    let events := c.live.log.reverse
    (∀ k, events.countP (Event.commits k) ≤ 1) ∧
      (∀ k, ¬ Committed events k →
        g.contains k = true ∧ session'.graph.contains k = true ∧
            (session'.graph.node k).memo = (g.node k).memo ∨
          g.contains k = false ∧ (session'.graph.node k).memo = Node.fresh.memo) ∧
      (∀ d x, ¬ Committed events x →
        (x ∈ (session'.graph.node d).rdeps ↔ x ∈ (g.node d).rdeps)) ∧
      ∀ k, (c.live.entry k).phase ≠ .evaluating ∧ (c.live.entry k).building = none := by
  obtain ⟨registry, ledger, hchronicle⟩ := h
  obtain ⟨hg, -⟩ := grounded_opening (grounded_of_chronicle hchronicle)
  obtain ⟨last, hleaves⟩ := Crew.exists_leaves hround hover
  refine ⟨hleaves.countP_commits_le, fun k hk => ?_, fun d x hx => ?_, hleaves.at_rest⟩
  · have hmemo := hleaves.memo_of_not_committed hk
    cases hknown : (session.injectedGraph (session.version + 1)).contains k with
    | true => exact .inl ⟨rfl, hleaves.known hknown, hmemo⟩
    | false =>
        have hfresh := Graph.node_of_not_contains hknown
        exact .inr ⟨rfl, hmemo.trans (congrArg Node.memo hfresh)⟩
  · exact hleaves.mem_rdeps hg.mirrored hx d

/-- A round of one worker over the tower that is stopped when key 1 completes.  Key 2 was waiting
for it, under evaluation, and is left as a key that was never completed. -/
theorem tower_stopped_leaves_root_new :
    ∃ (session : Session Sample.domain) (c : Crew Sample.domain), session.Attainable ∧
      Crew.Reaches (session.setting [(2 : Nat)] true fun log => decide (Committed log (1 : Nat)))
        (session.muster
          (session.setting [(2 : Nat)] true fun log => decide (Committed log (1 : Nat))) 1) c ∧
      c.IsOver ∧ (2 : Nat) ∈ c.live.touched ∧
      (c.live.store.graph.node (2 : Nat)).memo = (Node.fresh : Node Sample.domain).memo ∧
      (c.live.entry (2 : Nat)).building = none := by
  have hrun : (((Session.new Sample.tower).performAll [.inject [((0 : Nat), (5 : Nat))]]).bind
      fun session =>
        let s := session.setting [(2 : Nat)] true fun log => decide (Committed log (1 : Nat))
        (Crew.run s (fun _ => 0) 60 (session.muster s 1)).map fun c =>
          decide (¬ Committed c.live.log.reverse (2 : Nat) ∧ (2 : Nat) ∈ c.live.touched ∧
            (session.injectedGraph (session.version + 1)).contains (2 : Nat) = false)) =
      some true := by decide +kernel
  obtain ⟨session, hops, hdecided⟩ := Option.bind_eq_some_iff.mp hrun
  obtain ⟨c, hround, hdecided⟩ := Option.map_eq_some_iff.mp hdecided
  obtain ⟨huncommitted, htouched, hunknown⟩ := of_decide_eq_true hdecided
  obtain ⟨hreaches, hover⟩ := reaches_of_run hround
  have hattainable := ((reachable_new Sample.tower).performAll hops).attainable
  obtain ⟨-, hkept, -, hrest⟩ := evaluate_all_or_nothing hattainable hreaches hover
  refine ⟨session, c, hattainable, hreaches, hover, htouched, ?_, (hrest 2).2⟩
  rcases hkept 2 huncommitted with ⟨h, -⟩ | ⟨-, h⟩
  · rw [hunknown] at h
    cases h
  · exact h

end Session

end MemoGraph
