import MemoGraph.Proofs.Crew.Accounts

/-!
# How rounds of several workers end

A round ends when everybody is idle, however it came to that.  Nobody has anything in hand then or
is about to tell something, and every key under evaluation was touched.  So what others see after
the round is the graph below the entries, and no key is left under evaluation.
-/

set_option autoImplicit false

namespace MemoGraph

variable {D : Domain} {s : Setting D} {graph : Graph D} {calls : Table D.Key Nat} {workers : Nat}
  {last c : Crew D}

/-- A round over `graph` is over in the state `c`, and `last` was the state before. -/
structure Crew.Leaves (s : Setting D) (graph : Graph D) (calls : Table D.Key Nat) (workers : Nat)
    (last c : Crew D) : Prop where
  /-- The round reached the state before. -/
  reached : Reaches s (.start s graph calls workers) last
  /-- It was not over by then. -/
  going : ¬ last.IsOver
  /-- It ended there. -/
  ends : last.Ends c

/-- A round that is over ended in some state. -/
theorem Crew.exists_leaves (h : Reaches s (.start s graph calls workers) c) (hover : c.IsOver) :
    ∃ last, Leaves s graph calls workers last c := by
  rcases calm_of_reaches h with ⟨-, hnot⟩ | ⟨-, last, hr, hnot, hends⟩
  · exact absurd hover hnot
  · exact ⟨last, hr, hnot, hends⟩

namespace Crew.Leaves

/-- Every key that is still under evaluation was touched. -/
theorem touched (h : Leaves s graph calls workers last c) (x : D.Key)
    (hx : (last.live.entry x).building ≠ none) : x ∈ last.live.touched.toList := by
  rcases (Atomic.of_reaches h.reached h.going).touched x hx with ht | ⟨st, hst, next, hnext⟩
  · exact OrderedSet.mem_def.mp ht
  · rw [h.ends.idle st hst] at hnext
    cases hnext

/-- What others see after the round is what was below the entries. -/
theorem node (h : Leaves s graph calls workers last c) (k : D.Key) :
    c.live.store.graph.node k = last.live.graph.node k :=
  h.ends.node h.touched k

/-- No key is left under evaluation, and nothing is kept of the round. -/
theorem at_rest (h : Leaves s graph calls workers last c) (k : D.Key) :
    (c.live.entry k).phase ≠ .evaluating ∧ (c.live.entry k).building = none := by
  have hsound := (Owned.of_reaches h.reached h.going).sound k
  rw [Live.entry, h.ends.store, Store.entry_abandonAll]
  split
  · exact ⟨hsound.phase_abandon, Entry.building_abandon _⟩
  · rename_i hk
    have hnone : (last.live.entry k).building = none :=
      Classical.byContradiction fun hb => hk (h.touched k hb)
    have hphase := hsound.phase_abandon
    rw [Entry.abandon_of_none hnone] at hphase
    exact ⟨hphase, hnone⟩

/-- Everything was told. -/
theorem told (h : Leaves s graph calls workers last c) :
    last.live.told last.stages = c.live.log := by
  rw [Live.told_of_idle _ h.ends.idle, h.ends.log]

/-- No worker is about to complete a key. -/
theorem not_rewrites (h : Leaves s graph calls workers last c) {st : Stage D}
    (hst : st ∈ last.stages) (k : D.Key) : st.rewrites ≠ some k := by
  rw [h.ends.idle st hst]
  exact fun e => by cases e

/-- Known keys stay known. -/
theorem known (h : Leaves s graph calls workers last c) {k : D.Key}
    (hk : graph.contains k = true) : c.live.store.graph.contains k = true := by
  rw [Store.contains_graph, h.ends.store, Store.contains_abandonAll]
  exact (Atomic.of_reaches h.reached h.going).known k hk

/-- A round leaves a mirrored graph. -/
theorem mirrored (h : Leaves s graph calls workers last c) (hm : graph.Mirrored) :
    c.live.store.graph.Mirrored := by
  intro k d
  rw [h.node, h.node]
  refine (Linked.of_reaches hm h.reached h.going).settled k (fun st hst => ?_) d
  rw [h.ends.idle st hst]
  exact fun e => by cases e

/-- A round leaves a grounded graph. -/
theorem grounded (h : Leaves s graph calls workers last c) (hg : graph.Grounded s.version)
    (hb : graph.Before s.version) : c.live.store.graph.Grounded s.version := by
  have hdated := dated_of_reaches hg hb h.reached h.going
  refine ⟨h.mirrored hg.mirrored, fun k => ?_, fun k => ?_⟩
  · rw [h.node]
    exact hdated.filled k
  · rw [h.node]
    exact hdated.dated k

/-- A round leaves all keys accounted for. -/
theorem accounted (h : Leaves s graph calls workers last c) {A : Ledgered D}
    (ha : Accounts A last.live last.stages) (x : D.Key) :
    c.live.store.graph.Accounted (A.account c.live.log) x := by
  have hx := ha x fun st hst => h.not_rewrites hst x
  rw [h.told] at hx
  exact hx.of_node h.node

end Crew.Leaves

end MemoGraph
