import MemoGraph.Proofs.Round.Accounts
import MemoGraph.Proofs.Session.KeepGoing

/-!
# Accounts between rounds

Injected values take effect when a round starts, long after the readers of the key were dirtied.  In
between the key itself is not complete, unless the value is the one it holds.  So an injection is to
its readers what the completion of a key is, and accounts survive the start of a round as they
survive its steps.
-/

set_option autoImplicit false

namespace MemoGraph

variable {D : Domain}

namespace Session

/-! ## Pending injections -/

/-- A complete key holds the value that is to be injected into it. -/
def Pending (session : Session D) : Prop :=
  ∀ k v, session.injections.get? k = some v → session.graph.isComplete k = true →
    (session.graph.node k).holds (.value v) = true

theorem holds_of_hasValue {session : Session D} {k : D.Key} {v : D.Value}
    (h : session.hasValue k v = true) : (session.graph.node k).holds (.value v) = true := by
  unfold hasValue at h
  cases hv : (session.graph.node k).value? with
  | none => simp [hv] at h
  | some old =>
      simp only [hv] at h
      obtain ⟨o, ho, hvalue⟩ := Option.bind_eq_some_iff.mp hv
      have hout : (session.graph.node k).outcome = some o := (Graph.shows_of_settled ho).2
      cases o with
      | failure e => cases hvalue
      | value v' =>
          obtain rfl := Option.some.inj hvalue
          simp [Node.holds, hout, Outcome.same, h]

theorem holds_invalidate (g : Graph D) (keys : List D.Key) (k : D.Key) (o : Outcome D) :
    ((g.invalidate keys).1.node k).holds o = (g.node k).holds o := by
  rw [Graph.node_invalidate_eq]
  rfl

theorem Pending.invalidate {session : Session D} (h : session.Pending) (keys : List D.Key) :
    (session.invalidate keys).1.Pending := by
  intro k v hv hk
  have hk' : (session.graph.invalidate keys).1.isComplete k = true := hk
  have hgoal : ((session.graph.invalidate keys).1.node k).holds (.value v) = true := by
    rw [holds_invalidate]
    exact h k v hv (Graph.isComplete_invalidate.mp hk').1
  exact hgoal

theorem Pending.inject {session : Session D} (h : session.Pending)
    (values : List (D.Key × D.Value)) : (session.inject values).1.Pending := by
  intro k v hv hk
  let differing := (values.filter fun e => !session.hasValue e.1 e.2).map Prod.fst
  have hk' : (session.graph.invalidate differing).1.isComplete k = true := hk
  obtain ⟨hc, hn, -⟩ := Graph.isComplete_invalidate.mp hk'
  have hgoal : ((session.graph.invalidate differing).1.node k).holds (.value v) = true := by
    rw [holds_invalidate]
    rcases Table.get?_foldl_insert hv with hmem | ⟨-, hold⟩
    · apply holds_of_hasValue
      cases hhas : session.hasValue k v with
      | true => rfl
      | false =>
          have hd : k ∈ differing :=
            List.mem_map.mpr ⟨(k, v), List.mem_filter.mpr ⟨hmem, by simp [hhas]⟩, rfl⟩
          exact absurd hd hn
    · exact h k v hold hc
  exact hgoal

theorem Pending.delete {session : Session D} (h : session.Pending) (p : D.Key → Bool) :
    (session.delete p).1.Pending := by
  intro k v hv hk
  have hk' : (session.graph.delete p).1.isComplete k = true := hk
  have hv' : (session.injections.filterKeys fun k => !p k).get? k = some v := hv
  have hmemo := Graph.memo_delete session.graph p k
  have hgoal : ((session.graph.delete p).1.node k).holds (.value v) = true := by
    by_cases hc : k ∈ session.graph.closure p
    · rw [if_pos hc] at hmemo
      rw [Graph.isComplete, Node.isComplete_of_memo_eq hmemo] at hk'
      simp [Node.isComplete, Node.fresh] at hk'
    · rw [if_neg hc] at hmemo
      rw [Graph.isComplete, Node.isComplete_of_memo_eq hmemo] at hk'
      rw [Node.holds, (Node.memo_eq_iff.mp hmemo).2.1]
      refine h k v ?_ hk'
      rw [Table.get?_filterKeys] at hv'
      split at hv'
      · exact hv'
      · cases hv'
  exact hgoal

/-- After every operation, what is to be injected agrees with what is complete. -/
theorem Performs.pending {session session' : Session D} {op : Operation D}
    {events : List (Event D)} (h : session.Performs op session' events) (hp : session.Pending) :
    session'.Pending := by
  cases h with
  | evaluate _ _ =>
      intro k v hv
      cases hv
  | invalidate keys => exact hp.invalidate keys
  | inject values => exact hp.inject values
  | delete p => exact hp.delete p
  | change registry keys =>
      have hprogram : (session.program registry).Pending := hp
      exact hprogram.invalidate keys
  | interrupt => exact hp

/-- What is to be injected agrees with what is complete, in every state of every session. -/
theorem pending_of_history {permitted : Session D → Operation D → Prop} {registry : Registry D}
    {session : Session D} {ledger : Ledger D}
    (h : History permitted (Session.new registry) session ledger) : session.Pending := by
  induction h with
  | start =>
      intro k v hv
      cases hv
  | step _ _ hop ih => exact (performs_of_perform hop).pending ih

/-! ## The start of a round -/

theorem memo_foldl_inject (version : Version) {entries : List (D.Key × D.Value)}
    (h : (entries.map Prod.fst).Nodup) (g : Graph D) :
    (∀ e ∈ entries, ((entries.foldl (fun g e => g.inject e.1 e.2 version) g).node e.1).memo =
      ({ (g.node e.1).publish (.value e.2) version with deps := ∅ } : Node D).memo) ∧
      ∀ k, k ∉ entries.map Prod.fst →
        ((entries.foldl (fun g e => g.inject e.1 e.2 version) g).node k).memo =
          (g.node k).memo := by
  induction entries generalizing g with
  | nil => exact ⟨fun e he => absurd he List.not_mem_nil, fun _ _ => rfl⟩
  | cons e rest ih =>
      obtain ⟨hfresh, hrest⟩ := List.nodup_cons.mp h
      obtain ⟨hnamed, hothers⟩ := ih hrest (g.inject e.1 e.2 version)
      have hkept (k : D.Key) (hk : k ≠ e.1) :
          ((g.inject e.1 e.2 version).node k).memo = (g.node k).memo :=
        Graph.memo_setDeps_publish_of_ne version ∅ (.value e.2) hk
      refine ⟨fun e' he' => ?_, fun k hk => ?_⟩
      · rcases List.mem_cons.mp he' with rfl | he'
        · exact (hothers e'.1 hfresh).trans (Graph.memo_setDeps_publish version ∅ (.value e'.2))
        · have hne : e'.1 ≠ e.1 := fun heq => hfresh (heq ▸ List.mem_map_of_mem he')
          obtain ⟨-, hout, -, hch, -⟩ := Node.memo_eq_iff.mp (hkept e'.1 hne)
          refine (hnamed e' he').trans ?_
          simp only [Node.publish, Node.memo, Node.holds, hout, hch]
          rfl
      · rw [List.map_cons, List.mem_cons, not_or] at hk
        exact (hothers k hk.2).trans (hkept k hk.1)

/-- After the injections a named key holds its value and depends on nothing; what counts as the
value stays as it was. -/
theorem memo_injectedGraph (session : Session D) (version : Version) (k : D.Key) :
    ((session.injectedGraph version).node k).memo =
      match session.injections.get? k with
      | some v =>
          ({ (session.graph.node k).publish (.value v) version with deps := ∅ } : Node D).memo
      | none => (session.graph.node k).memo := by
  obtain ⟨hnamed, hothers⟩ := memo_foldl_inject version session.injections.nodup session.graph
  cases hv : session.injections.get? k with
  | some v => exact hnamed (k, v) (Table.get?_eq_some_iff.mp hv)
  | none =>
      refine hothers k fun hk => ?_
      obtain ⟨v, hv'⟩ := Table.mem_keys_iff.mp hk
      rw [hv] at hv'
      cases hv'

/-- Injections touch only the keys that they name. -/
theorem memo_injectedGraph_of_none {session : Session D} {k : D.Key}
    (h : session.injections.get? k = none) (version : Version) :
    ((session.injectedGraph version).node k).memo = (session.graph.node k).memo := by
  have hmemo := memo_injectedGraph session version k
  rwa [h] at hmemo

/-- After the injections a named key is complete and depends on nothing. -/
theorem injected_of_some {session : Session D} {k : D.Key} {v : D.Value}
    (h : session.injections.get? k = some v) (version : Version) :
    (session.injectedGraph version).isComplete k = true ∧
      ((session.injectedGraph version).node k).deps = ∅ := by
  have hmemo := memo_injectedGraph session version k
  rw [h] at hmemo
  obtain ⟨hstatus, -, hdeps, -⟩ := Node.memo_eq_iff.mp hmemo
  exact ⟨Node.isComplete_iff.mpr hstatus, hdeps⟩

/-- The outcome of a named key after the injections. -/
theorem outcome_injectedGraph {session : Session D} {version : Version} {k : D.Key}
    {v : D.Value} {o : Outcome D} (hv : session.injections.get? k = some v)
    (ho : ((session.injectedGraph version).node k).outcome = some o) :
    o = .value v ∨ o.same (.value v) = true := by
  have hmemo := memo_injectedGraph session version k
  rw [hv] at hmemo
  rw [(Node.memo_eq_iff.mp hmemo).2.1] at ho
  exact Node.outcome_publish version ho

/-- Accounts survive the start of a round; keys with an injected value need another one. -/
theorem accounted_opening {session : Session D} (hg : session.graph.Grounded session.version)
    (hp : session.Pending) {A A' : Account D} (h : ∀ x, session.graph.Accounted A x)
    (keep : ∀ x, session.injections.get? x = none →
      ∀ {deps o relies}, A.holds x deps o relies → A'.holds x deps o relies)
    (supply : ∀ k v, session.injections.get? k = some v → ∀ {o relies},
      o = .value v ∨ o.same (.value v) = true → A'.holds k ∅ o relies) :
    ∀ x, (session.injectedGraph (session.version + 1)).Accounted A' x := by
  intro x
  cases hx : session.injections.get? x with
  | some v =>
      intro _ o ho
      rw [(injected_of_some hx _).2]
      exact supply x v hx (outcome_injectedGraph hx ho)
  | none =>
      have hall : (session.injectedGraph (session.version + 1)).Before (session.version + 1) ∧
          (session.injectedGraph (session.version + 1)).Accounted A x := by
        refine injectedGraph_induction
          (P := fun g => g.Before (session.version + 1) ∧ g.Accounted A x) ⟨fun k _ => ?_, h x⟩ ?_
        · exact Nat.lt_succ_of_le (hg.dated k)
        · intro k v g hv hmemo ⟨hb, ha⟩
          have hs : Graph.Settles (session.version + 1) k g
              (g.inject k v (session.version + 1)) := by
            apply Graph.settles_inject
            intro hk
            rw [Graph.isComplete, Node.isComplete_of_memo_eq hmemo] at hk
            rw [Node.holds, (Node.memo_eq_iff.mp hmemo).2.1]
            exact hp k v hv hk
          have hxk : x ≠ k := by
            intro e
            rw [e, hv] at hx
            cases hx
          exact ⟨hs.before hb, hs.accounted hb hxk ha⟩
      exact hall.2.imp fun _ _ _ _ _ => keep x hx

/-- Injections make no failure and touch none. -/
theorem memo_injectedGraph_of_failure {session : Session D} (hp : session.Pending)
    {version : Version} {k : D.Key} {e : Failure D.Key D.Fault}
    (h : session.graph.Shows k (.failure e) ∨
      (session.injectedGraph version).Shows k (.failure e)) :
    ((session.injectedGraph version).node k).memo = (session.graph.node k).memo := by
  cases hv : session.injections.get? k with
  | none => exact memo_injectedGraph_of_none hv _
  | some v =>
      exfalso
      rcases h with ⟨hk, ho⟩ | ⟨-, ho⟩
      · have hholds := hp k v hv hk
        simp [Node.holds, ho, Outcome.same] at hholds
      · rcases outcome_injectedGraph hv ho with h | h
        · cases h
        · exact Bool.noConfusion h

/-- Injections take the trust from no key. -/
theorem isComplete_injectedGraph {session : Session D} {version : Version} {k : D.Key}
    (h : session.graph.isComplete k = true) :
    (session.injectedGraph version).isComplete k = true := by
  cases hv : session.injections.get? k with
  | none => exact (Node.isComplete_of_memo_eq (memo_injectedGraph_of_none hv _)).trans h
  | some v => exact (injected_of_some hv _).1

/-- Injections dirty no key. -/
theorem memo_of_dirty_injectedGraph {session : Session D} {version : Version} {k : D.Key}
    (h : ((session.injectedGraph version).node k).status = .dirty) :
    ((session.injectedGraph version).node k).memo = (session.graph.node k).memo := by
  cases hv : session.injections.get? k with
  | none => exact memo_injectedGraph_of_none hv _
  | some v =>
      have hcurrent := Node.isComplete_iff.mp (injected_of_some hv version).1
      rw [h] at hcurrent
      cases hcurrent

/-! ## Rounds and histories -/

/-- What holds when a round begins and is kept by its steps holds throughout the round. -/
theorem passes_induction {session : Session D} (hg : session.graph.Grounded session.version)
    {roots : List D.Key} {keepGoing : Bool} {observer : List (Event D) → Bool}
    {P : Round D → Prop} (begin : P (session.opening (session.setting roots keepGoing observer)))
    (step : ∀ {r r'}, session.Passes (session.setting roots keepGoing observer) r →
      Round.Grounded (session.setting roots keepGoing observer) r → Round.Checks r →
        (r.halted = true ∨ Round.Tally r none 0 []) → P r →
          r.step (session.setting roots keepGoing observer) = some r' → P r')
    {r : Round D} (hr : session.Passes (session.setting roots keepGoing observer) r) : P r := by
  induction hr with
  | refl => exact begin
  | tail hr hstep ih =>
      exact step hr (grounded_of_passes hg hr) (.of_reaches hr) (Round.tally_of_reaches hr) ih hstep

/-- Accounts that only failures need survive the injections. -/
theorem accounted_injectedGraph {A : Account D} (hA : A.Stable) (hvalues : A.ExemptsValues)
    {session : Session D} (hg : session.graph.Grounded session.version) (hp : session.Pending)
    (h : ∀ x, session.graph.Accounted A x) :
    ∀ x, (session.injectedGraph (session.version + 1)).Accounted A x := by
  apply accounted_opening hg hp h
  · intro x _ deps o relies hh
    exact hh
  · rintro k v _ o relies (rfl | hsame)
    · exact hvalues v
    · exact hA hsame (hvalues v)

/-- Accounts that only failures need survive the start of a round. -/
theorem accounted_begin {A : Account D} (hA : A.Stable) (hvalues : A.ExemptsValues)
    {session : Session D} (hg : session.graph.Grounded session.version) (hp : session.Pending)
    (h : ∀ x, session.graph.Accounted A x) {roots : List D.Key} {keepGoing : Bool}
    {observer : List (Event D) → Bool} :
    ∀ x, (session.opening (session.setting roots keepGoing observer)).graph.Accounted A x :=
  fun x => (accounted_injectedGraph hA hvalues hg hp h x).of_node Round.node_start

/-- What holds of the empty graph, and is kept by walks that dirty readers, by deletions and by
permitted rounds, holds in all histories. -/
theorem graph_of_history {permitted : Session D → Operation D → Prop} {registry : Registry D}
    {P : Graph D → Prop} (empty : P ∅)
    (sweep : ∀ {g} keys, g.Mirrored → P g → P (g.invalidate keys).1)
    (delete : ∀ {g} p, g.Mirrored → P g → P (g.delete p).1)
    (round : ∀ {session ledger}, History permitted (Session.new registry) session ledger →
      ∀ {budget roots keepGoing observer},
        permitted session (.evaluate budget roots keepGoing observer) → P session.graph →
          ∀ {r}, session.Passes (session.setting roots keepGoing observer) r → P r.graph)
    {session : Session D} {ledger : Ledger D}
    (h : History permitted (Session.new registry) session ledger) : P session.graph := by
  induction h with
  | start => exact empty
  | @step session session' ledger op events hprev hpermitted hop ih =>
      have hm := (grounded_of_history hprev).mirrored
      have hyields := yields_of_perform hop
      generalize session'.graph = g at hyields ⊢
      cases hyields with
      | round hr _ => exact round hprev hpermitted ih hr
      | swept _ keys => exact sweep keys hm ih
      | deleted _ p => exact delete p hm ih
      | kept _ => exact ih

/-- Accounts last through a history if its rounds keep them. -/
theorem accounted_of_history {A : Account D} {permitted : Session D → Operation D → Prop}
    {registry : Registry D}
    (round : ∀ {session ledger}, History permitted (Session.new registry) session ledger →
      ∀ {budget roots keepGoing observer},
        permitted session (.evaluate budget roots keepGoing observer) →
          (∀ x, session.graph.Accounted A x) →
            ∀ {r}, session.Passes (session.setting roots keepGoing observer) r →
              ∀ x, r.graph.Accounted A x)
    {session : Session D} {ledger : Ledger D}
    (h : History permitted (Session.new registry) session ledger) :
    ∀ x, session.graph.Accounted A x := by
  refine graph_of_history (P := fun g => ∀ x, g.Accounted A x) ?_ ?_ ?_ round h
  · intro x _ o ho
    cases ho
  · exact fun keys hm ih x => (ih x).invalidate hm keys
  · exact fun p hm ih x => (ih x).delete hm p

end Session

end MemoGraph
