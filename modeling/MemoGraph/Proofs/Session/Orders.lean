import MemoGraph.Proofs.Round.Confluence
import MemoGraph.Proofs.Sample
import MemoGraph.Proofs.Session.KeepGoing

/-!
# The graph does not depend on the order of work

Rounds over the same roots that keep going to the end leave the same graph, whichever queued key
they let act next.
-/

set_option autoImplicit false

namespace MemoGraph

variable {D : Domain}

theorem Node.Alike.state_eq {n n' : Node D} (h : n.Alike n') (hs : n.status = n'.status) :
    n.state = n'.state := by
  have hfailed : n.lastFailure?.isSome = n'.lastFailure?.isSome := by
    have hrel := h.outcome
    unfold Node.lastFailure?
    generalize n.outcome = stored, n'.outcome = stored' at hrel ⊢
    cases hrel with
    | none => rfl
    | some ho =>
        cases ho with
        | value v => rfl
        | failure _ => rfl
  unfold Node.state
  rw [hs, hfailed]

/-- Graphs that show the same, up to the order of root causes and of reverse dependencies. -/
structure Graph.Alike (g g' : Graph D) : Prop where
  /-- The same keys are known. -/
  contains : ∀ k, g.contains k = g'.contains k
  /-- They are in the same state. -/
  state : ∀ k, (g.node k).state = (g'.node k).state
  /-- They store alike outcomes and dependencies, dated alike. -/
  node : ∀ k, (g.node k).Alike (g'.node k)
  /-- They are read by the same keys. -/
  rdeps : ∀ k x, x ∈ (g.node k).rdeps ↔ x ∈ (g'.node k).rdeps

namespace Round

variable {s s' : Setting D} {r r' : Round D} {g : Graph D} {calls calls' : Table D.Key Nat}

/-- A round that keeps going never stops queueing, whatever the order of work. -/
theorem stopping_of_unfolds (h : Unfolds s (Round.start s g calls) r) (hs : s.keepGoing = true) :
    r.stopping = false := by
  induction h with
  | refl => exact stopping_of_reaches .refl hs
  | tail _ hturn ih =>
      obtain ⟨-, k, rest, -, hm⟩ := hturn.move
      rcases hm.stopping with hkept | ⟨t, waiters, f, ending, inv, r₁, deps, e, hi, rfl⟩
      · exact hkept.trans ih
      · rw [(completes_failed s r₁ k (some deps) e).stopping, hi.reads.stopping, ih, hs]
        simp

/-- A round over `g` that went on to its end in some order of work, without breaking a cycle. -/
structure Ended (s : Setting D) (g : Graph D) (r : Round D) : Prop where
  /-- Turns lead to it. -/
  unfolds : ∃ calls, Unfolds s (Round.start s g calls) r
  /-- It is over. -/
  drained : r.step s = none
  /-- It was not given up or asked to stop. -/
  going : r.halted = false

namespace Ended

theorem standing (h : Ended s g r) (hg : g.Grounded s.version) (hb : g.Before s.version) :
    Standing s g r ∧ Tally r none 0 [] := by
  obtain ⟨calls, hunfolds⟩ := h.unfolds
  have hstanding := Standing.of_unfolds hg hb hunfolds
  exact ⟨hstanding, hstanding.tally.resolve_left fun hh =>
    Bool.false_ne_true (h.going.symm.trans hh)⟩

theorem isComplete_root (h : Ended s g r) (hs : s.keepGoing = true) (hg : g.Grounded s.version)
    (hb : g.Before s.version) {root : D.Key} (hroot : root ∈ s.roots) :
    r.graph.isComplete root = true := by
  obtain ⟨hstanding, htally⟩ := h.standing hg hb
  obtain ⟨calls, hunfolds⟩ := h.unfolds
  exact htally.isComplete_root hstanding.known (stopping_of_unfolds hunfolds hs) h.drained h.going
    hroot

/-- Every key that is complete at the end of one round is complete at the end of the other one, and
stores the same. -/
theorem matches_of_ended (h : Ended s g r) (h' : Ended s' g r') (hD : D.Exact)
    (hstrict : s.registry.BatchStrict) (hregistry : s'.registry = s.registry)
    (hversion : s'.version = s.version) (hs' : s'.keepGoing = true)
    (hroots : ∀ root ∈ s.roots, root ∈ s'.roots) (hg : g.Grounded s.version)
    (hb : g.Before s.version) : Matches r'.graph r := by
  obtain ⟨calls, hunfolds⟩ := h.unfolds
  obtain ⟨calls', hunfolds'⟩ := h'.unfolds
  have hfaithful := faithful_of_unfolds hD (hregistry ▸ hstrict) (hversion ▸ hg) (hversion ▸ hb)
    hunfolds' h'.going
  have hresolved := hfaithful.resolved
  rw [hregistry, hversion] at hresolved
  exact matches_of_unfolds hD hstrict hg hb hfaithful.keeps hresolved
    (fun root hroot => h'.isComplete_root hs' (hversion ▸ hg) (hversion ▸ hb) (hroots root hroot))
    hunfolds h.going

/-- Nothing is under evaluation at the end, and only keys that were known or are complete have
nodes. -/
theorem contains_iff (h : Ended s g r) (hD : D.Exact) (hstrict : s.registry.BatchStrict)
    (hg : g.Grounded s.version) (hb : g.Before s.version)
    (hidle : ∀ x, r.tasks.contains x = false) (x : D.Key) :
    r.graph.contains x = true ↔ g.contains x = true ∨ r.graph.isComplete x = true := by
  obtain ⟨calls, hunfolds⟩ := h.unfolds
  obtain ⟨hstanding, -⟩ := h.standing hg hb
  constructor
  · intro hx
    refine ((faithful_of_unfolds hD hstrict hg hb hunfolds h.going).grown x hx).imp_right
      fun hknown => hknown.resolve_right fun htask => ?_
    rw [hidle x] at htask
    cases htask
  · rintro (hx | hx)
    · exact hstanding.atomic.known x hx
    · cases hc : r.graph.contains x with
      | true => rfl
      | false =>
          rw [Graph.isComplete, Graph.node_of_not_contains hc] at hx
          cases hx

/-- Rounds over the same roots that keep going to the end leave graphs that are alike. -/
theorem alike (h : Ended s g r) (h' : Ended s' g r') (hD : D.Exact)
    (hstrict : s.registry.BatchStrict) (hregistry : s'.registry = s.registry)
    (hversion : s'.version = s.version) (hs : s.keepGoing = true) (hs' : s'.keepGoing = true)
    (hroots : ∀ root, root ∈ s.roots ↔ root ∈ s'.roots) (hg : g.Grounded s.version)
    (hb : g.Before s.version) : r.graph.Alike r'.graph := by
  have hg' : g.Grounded s'.version := hversion ▸ hg
  have hb' : g.Before s'.version := hversion ▸ hb
  have hstrict' : s'.registry.BatchStrict := hregistry ▸ hstrict
  obtain ⟨hstanding, htally⟩ := h.standing hg hb
  obtain ⟨hstanding', htally'⟩ := h'.standing hg' hb'
  have hmatch := h.matches_of_ended h' hD hstrict hregistry hversion hs'
    (fun root => (hroots root).mp) hg hb
  have hmatch' := h'.matches_of_ended h hD hstrict' hregistry.symm hversion.symm hs
    (fun root => (hroots root).mpr) hg' hb'
  have hcomplete (k : D.Key) : r.graph.isComplete k = r'.graph.isComplete k :=
    Bool.eq_iff_iff.mpr ⟨fun hk => (hmatch.agree k hk).1, fun hk => (hmatch'.agree k hk).1⟩
  -- A key under evaluation in one round would be complete in the other one, and so in both.
  have hidle (x : D.Key) : r.tasks.contains x = false := by
    cases hx : r.tasks.contains x with
    | false => rfl
    | true =>
        obtain ⟨t, ht⟩ := Option.isSome_iff_exists.mp hx
        have hdone := (hcomplete x).trans (hmatch.shown x hx)
        rw [htally.unfinished x t ht] at hdone
        cases hdone
  have hidle' (x : D.Key) : r'.tasks.contains x = false := by
    cases hx : r'.tasks.contains x with
    | false => rfl
    | true =>
        obtain ⟨t, ht⟩ := Option.isSome_iff_exists.mp hx
        have hdone := (hcomplete x).symm.trans (hmatch'.shown x hx)
        rw [htally'.unfinished x t ht] at hdone
        cases hdone
  -- Keys that are not complete store what they stored before.
  have hkept (k : D.Key) (hk : r.graph.isComplete k = false) :
      (r.graph.node k).memo = (r'.graph.node k).memo := by
    have hk' := (hcomplete k).symm.trans hk
    refine (hstanding.atomic.kept k fun hc => ?_).trans (hstanding'.atomic.kept k fun hc => ?_).symm
    · exact Bool.false_ne_true (hk.symm.trans (hstanding.atomic.complete k hc))
    · exact Bool.false_ne_true (hk'.symm.trans (hstanding'.atomic.complete k hc))
  have hnode (k : D.Key) : (r.graph.node k).Alike (r'.graph.node k) ∧
      (r.graph.node k).status = (r'.graph.node k).status := by
    cases hk : r.graph.isComplete k with
    | true =>
        have hk' := (hcomplete k).symm.trans hk
        exact ⟨(hmatch.agree k hk).2,
          (Node.isComplete_iff.mp hk).trans (Node.isComplete_iff.mp hk').symm⟩
    | false => exact ⟨.of_memo_eq (hkept k hk), (Node.memo_eq_iff.mp (hkept k hk)).1⟩
  refine ⟨fun k => ?_, fun k => (hnode k).1.state_eq (hnode k).2, fun k => (hnode k).1,
    fun k x => ?_⟩
  · rw [Bool.eq_iff_iff, h.contains_iff hD hstrict hg hb hidle,
      h'.contains_iff hD hstrict' hg' hb' hidle', hcomplete]
  · rw [← hstanding.grounded.graph.mirrored, ← hstanding'.grounded.graph.mirrored,
      (hnode x).1.deps]

end Ended

end Round

namespace Session

/-- The graph that a round leaves does not depend on the order in which queued keys act.  From any
state of a session, two rounds over the same roots that keep going to the end, without being stopped
and without a cycle to break, leave the same keys in the same states, with the same values and
failures, dependencies, reverse dependencies and versions. -/
theorem graph_same_in_any_order (hD : D.Exact) {session : Session D} (h : session.Reachable)
    (hstrict : session.registry.BatchStrict) {roots roots' : List D.Key}
    (hroots : ∀ root, root ∈ roots ↔ root ∈ roots') {observer observer' : List (Event D) → Bool}
    {r r' : Round D}
    (hr : Round.Unfolds (session.setting roots true observer)
      (session.opening (session.setting roots true observer)) r)
    (hr' : Round.Unfolds (session.setting roots' true observer')
      (session.opening (session.setting roots' true observer')) r')
    (hend : r.step (session.setting roots true observer) = none)
    (hend' : r'.step (session.setting roots' true observer') = none)
    (hh : r.halted = false) (hh' : r'.halted = false) : r.graph.Alike r'.graph := by
  obtain ⟨registry, ledger, hhistory⟩ := h
  obtain ⟨hg, hb⟩ := grounded_opening (grounded_of_history hhistory)
  have hended : Round.Ended (session.setting roots true observer)
      (session.injectedGraph (session.version + 1)) r := ⟨⟨_, hr⟩, hend, hh⟩
  have hended' : Round.Ended (session.setting roots' true observer')
      (session.injectedGraph (session.version + 1)) r' := ⟨⟨_, hr'⟩, hend', hh'⟩
  refine hended.alike hended' hD hstrict rfl rfl rfl rfl (fun root => ?_) hg hb
  exact OrderedSet.mem_ofList.trans ((hroots root).trans OrderedSet.mem_ofList.symm)

/-- The two totals over one input, asked for in either order. -/
theorem tower_same_in_both_orders : ∃ (session : Session Sample.domain)
    (r r' : Round Sample.domain), session.Reachable ∧
      Round.Unfolds (session.setting [(1 : Nat), (2 : Nat)] true fun _ => false)
        (session.opening (session.setting [(1 : Nat), (2 : Nat)] true fun _ => false)) r ∧
      Round.Unfolds (session.setting [(2 : Nat), (1 : Nat)] true fun _ => false)
        (session.opening (session.setting [(2 : Nat), (1 : Nat)] true fun _ => false)) r' ∧
      r.log ≠ r'.log ∧ (r.graph.node (2 : Nat)).value? = some (10 : Nat) ∧
        r.graph.Alike r'.graph := by
  let session : Session Sample.domain :=
    ((Session.new Sample.tower).inject [((0 : Nat), (4 : Nat))]).1
  have hop : (Session.new Sample.tower).perform (.inject [((0 : Nat), (4 : Nat))]) =
      some (session, []) := rfl
  have hreachable : session.Reachable := (reachable_new Sample.tower).perform hop
  let s := session.setting [(1 : Nat), (2 : Nat)] true fun _ => false
  let s' := session.setting [(2 : Nat), (1 : Nat)] true fun _ => false
  have hsome : ((Round.run s 40 (session.opening s)).bind fun r =>
      (Round.run s' 40 (session.opening s')).bind fun r' =>
        if r.halted = false ∧ r'.halted = false ∧ r.cycles = [] ∧ r'.cycles = [] ∧
          r.log ≠ r'.log ∧ (r.graph.node (2 : Nat)).value? = some (10 : Nat)
        then some () else none).isSome = true := by decide +kernel
  obtain ⟨_, hfound⟩ := Option.isSome_iff_exists.mp hsome
  obtain ⟨r, hrun, hfound⟩ := Option.bind_eq_some_iff.mp hfound
  obtain ⟨r', hrun', hfound⟩ := Option.bind_eq_some_iff.mp hfound
  obtain ⟨⟨hh, hh', hcycles, hcycles', hlog, hvalue⟩, -⟩ := Option.ite_none_right_eq_some.mp hfound
  obtain ⟨hpass, hend⟩ := Round.reaches_of_run hrun
  obtain ⟨hpass', hend'⟩ := Round.reaches_of_run hrun'
  have hr := Round.unfolds_of_reaches hpass hh hcycles
  have hr' := Round.unfolds_of_reaches hpass' hh' hcycles'
  refine ⟨session, r, r', hreachable, hr, hr', hlog, hvalue, ?_⟩
  exact graph_same_in_any_order Sample.exact_domain hreachable Sample.batchStrict_tower
    (fun root => by simp [or_comm]) hr hr' hend hend' hh hh'

end Session

end MemoGraph
