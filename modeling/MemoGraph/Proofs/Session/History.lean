import MemoGraph.Proofs.Round.Progress
import MemoGraph.Session

/-!
# Session histories

A history is a sequence of operations on one session.  Beside the session it keeps a `Ledger` of
what callers gave it: the last value injected under each key, and the keys whose value still is one
that was injected.  Properties of sessions are proved for every state that some history reaches.
-/

set_option autoImplicit false

namespace MemoGraph

variable {D : Domain}

/-- What a caller can do with a session. -/
inductive Operation (D : Domain) where
  /-- run a round -/
  | evaluate (budget : Nat) (roots : List D.Key) (keepGoing : Bool)
      (observer : List (Event D) → Bool)
  /-- report changed keys -/
  | invalidate (keys : List D.Key)
  /-- set values from outside -/
  | inject (values : List (D.Key × D.Value))
  /-- remove keys -/
  | delete (p : D.Key → Bool)
  /-- use other functions and report changed keys -/
  | change (registry : Registry D) (keys : List D.Key)
  /-- ask the next round to stop -/
  | interrupt

namespace Session

/-- The session after an operation, with the events that observers were told; `none` if a round
takes more steps than its budget. -/
def perform (session : Session D) : Operation D → Option (Session D × List (Event D))
  | .evaluate budget roots keepGoing observer =>
      (session.evaluate budget roots keepGoing observer).map fun e => (e.1, e.2.events)
  | .invalidate keys => some ((session.invalidate keys).1, [])
  | .inject values => some ((session.inject values).1, [])
  | .delete p => some ((session.delete p).1, [])
  | .change registry keys => some (((session.program registry).invalidate keys).1, [])
  | .interrupt => some (session.interrupt, [])

end Session

/-- What callers gave to a session. -/
structure Ledger (D : Domain) where
  /-- The last value injected under each key. -/
  latest : Table D.Key D.Value
  /-- Whether the value that a key holds was injected. -/
  supplied : D.Key → Prop

namespace Ledger

/-- Nothing was given yet. -/
def blank : Ledger D := { latest := ∅, supplied := fun _ => False }

/-- Take note of an operation on `session`.  Pending injections take effect when a round starts; a
key that is built or fails gives up the value it was given. -/
def enter (ledger : Ledger D) (session : Session D) : Operation D → List (Event D) → Ledger D
  | .evaluate .., events =>
      { ledger with
        supplied := fun k => (k ∈ session.injections.keys ∨ ledger.supplied k) ∧
          ∀ how, .completed k how ∈ events → how = .clean }
  | .inject values, _ =>
      { ledger with latest := values.foldl (fun t e => t.insert e.1 e.2) ledger.latest }
  | _, _ => ledger

end Ledger

/-- The states of a session after permitted operations, from `start` on, with their ledgers. -/
inductive History (permitted : Session D → Operation D → Prop) (start : Session D) :
    Session D → Ledger D → Prop where
  /-- no operation yet -/
  | start : History permitted start start .blank
  /-- one more operation -/
  | step {session session' : Session D} {ledger : Ledger D} {op : Operation D}
      {events : List (Event D)} : History permitted start session ledger →
      permitted session op → session.perform op = some (session', events) →
      History permitted start session' (ledger.enter session op events)

namespace Session

/-- A session that some operations lead to from an empty one. -/
def Reachable (session : Session D) : Prop :=
  ∃ registry ledger, History (fun _ _ => True) (Session.new registry) session ledger

/-- The session after several operations. -/
def performAll (session : Session D) (ops : List (Operation D)) : Option (Session D) :=
  ops.foldlM (fun session op => (session.perform op).map Prod.fst) session

theorem performAll_cons {session session' : Session D} {op : Operation D}
    {ops : List (Operation D)} : session.performAll (op :: ops) = some session' ↔
      ∃ next events, session.perform op = some (next, events) ∧
        next.performAll ops = some session' := by
  simp only [performAll, List.foldlM_cons, Option.bind_eq_bind, Option.bind_eq_some_iff,
    Option.map_eq_some_iff, Prod.exists]
  constructor
  · rintro ⟨next, ⟨next', events, hop, rfl⟩, hrest⟩
    exact ⟨next', events, hop, hrest⟩
  · rintro ⟨next, events, hop, hrest⟩
    exact ⟨next, ⟨next, events, hop, rfl⟩, hrest⟩

theorem reachable_new (registry : Registry D) : (Session.new registry).Reachable :=
  ⟨registry, .blank, .start⟩

theorem Reachable.perform {session session' : Session D} (h : session.Reachable)
    {op : Operation D} {events : List (Event D)}
    (hop : session.perform op = some (session', events)) : session'.Reachable := by
  obtain ⟨registry, ledger, hhistory⟩ := h
  exact ⟨registry, _, .step hhistory trivial hop⟩

/-- A history goes on with operations that are permitted anyway. -/
theorem history_performAll {permitted : Session D → Operation D → Prop} {start session : Session D}
    {ledger : Ledger D} (h : History permitted start session ledger) {ops : List (Operation D)}
    {session' : Session D} (hops : session.performAll ops = some session')
    (hpermitted : ∀ op ∈ ops, ∀ s, permitted s op) :
    ∃ ledger', History permitted start session' ledger' := by
  induction ops generalizing session ledger with
  | nil =>
      obtain rfl := Option.some.inj hops
      exact ⟨ledger, h⟩
  | cons op ops ih =>
      obtain ⟨next, events, hop, hrest⟩ := performAll_cons.mp hops
      obtain ⟨hfirst, hpermitted⟩ := List.forall_mem_cons.mp hpermitted
      exact ih (.step h (hfirst session) hop) hrest hpermitted

theorem Reachable.performAll {session session' : Session D} (h : session.Reachable)
    {ops : List (Operation D)} (hops : session.performAll ops = some session') :
    session'.Reachable := by
  obtain ⟨registry, ledger, hhistory⟩ := h
  exact ⟨registry, history_performAll hhistory hops fun _ _ _ => trivial⟩

/-! ## Rounds of a session -/

/-- The states of a round over `roots`, from its start to its end. -/
def Passes (session : Session D) (s : Setting D) (r : Round D) : Prop :=
  Round.Reaches s (session.opening s) r

/-- An evaluation ends with the last state of its round. -/
theorem evaluate_eq_some {session session' : Session D} {budget : Nat} {roots : List D.Key}
    {keepGoing : Bool} {observer : List (Event D) → Bool} {e : Evaluation D}
    (h : session.evaluate budget roots keepGoing observer = some (session', e)) :
    let s := session.setting roots keepGoing observer
    ∃ r, session.Passes s r ∧ r.step s = none ∧ session' = session.closing s r ∧
      e = { verdict := r.verdict s, events := r.log.reverse } := by
  intro s
  obtain ⟨r, hrun, he⟩ := Option.map_eq_some_iff.mp h
  obtain ⟨hpass, hend⟩ := Round.reaches_of_run hrun
  rw [Prod.mk.injEq] at he
  exact ⟨r, hpass, hend, he.1.symm, he.2.symm⟩

theorem evaluate_of_run {session : Session D} {budget : Nat} {roots : List D.Key}
    {keepGoing : Bool} {observer : List (Event D) → Bool} {r : Round D}
    (h : Round.run (session.setting roots keepGoing observer) budget
      (session.opening (session.setting roots keepGoing observer)) = some r) :
    session.evaluate budget roots keepGoing observer =
      some (session.closing (session.setting roots keepGoing observer) r,
        { verdict := r.verdict (session.setting roots keepGoing observer)
          events := r.log.reverse }) := by
  simp only [evaluate, h, Option.map_some]

/-- What an operation makes of a session, with the events that observers are told. -/
inductive Performs (session : Session D) : Operation D → Session D → List (Event D) → Prop where
  /-- a round goes on to its end -/
  | evaluate {budget : Nat} {roots : List D.Key} {keepGoing : Bool}
      {observer : List (Event D) → Bool} {r : Round D} :
      session.Passes (session.setting roots keepGoing observer) r →
      r.step (session.setting roots keepGoing observer) = none →
      Performs session (.evaluate budget roots keepGoing observer)
        (session.closing (session.setting roots keepGoing observer) r) r.log.reverse
  /-- the readers of the keys are dirtied -/
  | invalidate (keys : List D.Key) :
      Performs session (.invalidate keys) (session.invalidate keys).1 []
  /-- the values are kept for the next round, and the readers of their keys are dirtied -/
  | inject (values : List (D.Key × D.Value)) :
      Performs session (.inject values) (session.inject values).1 []
  /-- the keys are removed with their readers -/
  | delete (p : D.Key → Bool) : Performs session (.delete p) (session.delete p).1 []
  /-- the readers of the keys are dirtied under the new functions -/
  | change (registry : Registry D) (keys : List D.Key) :
      Performs session (.change registry keys)
        ((session.program registry).invalidate keys).1 []
  /-- the next round is to stop -/
  | interrupt : Performs session .interrupt session.interrupt []

theorem performs_of_perform {session session' : Session D} {op : Operation D}
    {events : List (Event D)} (hop : session.perform op = some (session', events)) :
    session.Performs op session' events := by
  cases op with
  | evaluate budget roots keepGoing observer =>
      obtain ⟨⟨next, e⟩, heval, hnext⟩ := Option.map_eq_some_iff.mp hop
      obtain ⟨r, hr, hend, rfl, rfl⟩ := evaluate_eq_some heval
      obtain ⟨rfl, rfl⟩ := Prod.mk.inj hnext
      exact .evaluate hr hend
  | invalidate keys =>
      obtain ⟨rfl, rfl⟩ := Prod.mk.inj (Option.some.inj hop)
      exact .invalidate keys
  | inject values =>
      obtain ⟨rfl, rfl⟩ := Prod.mk.inj (Option.some.inj hop)
      exact .inject values
  | delete p =>
      obtain ⟨rfl, rfl⟩ := Prod.mk.inj (Option.some.inj hop)
      exact .delete p
  | change registry keys =>
      obtain ⟨rfl, rfl⟩ := Prod.mk.inj (Option.some.inj hop)
      exact .change registry keys
  | interrupt =>
      obtain ⟨rfl, rfl⟩ := Prod.mk.inj (Option.some.inj hop)
      exact .interrupt

/-- What an operation makes of the graph, with the events that observers are told. -/
inductive Yields (session : Session D) : Operation D → Graph D → List (Event D) → Prop where
  /-- a round goes on to its end -/
  | round {budget : Nat} {roots : List D.Key} {keepGoing : Bool}
      {observer : List (Event D) → Bool} {r : Round D} :
      session.Passes (session.setting roots keepGoing observer) r →
      r.step (session.setting roots keepGoing observer) = none →
      Yields session (.evaluate budget roots keepGoing observer) r.graph r.log.reverse
  /-- a walk from some keys dirties their readers -/
  | swept (op : Operation D) (keys : List D.Key) :
      Yields session op (session.graph.invalidate keys).1 []
  /-- some keys are removed with their readers -/
  | deleted (op : Operation D) (p : D.Key → Bool) :
      Yields session op (session.graph.delete p).1 []
  /-- the graph stays as it is -/
  | kept (op : Operation D) : Yields session op session.graph []

theorem yields_of_perform {session session' : Session D} {op : Operation D}
    {events : List (Event D)} (hop : session.perform op = some (session', events)) :
    session.Yields op session'.graph events := by
  cases performs_of_perform hop with
  | evaluate hr hend => exact .round hr hend
  | invalidate keys => exact .swept _ keys
  | inject values => exact .swept _ _
  | delete p => exact .deleted _ p
  | change registry keys => exact .swept _ keys
  | interrupt => exact .kept _

/-- Applying injections keeps what each single injection keeps.  When a key has its turn, it still
stores what it stored before any injection. -/
theorem injectedGraph_induction {session : Session D} {version : Version} {P : Graph D → Prop}
    (begin : P session.graph)
    (inject : ∀ k v g, session.injections.get? k = some v →
      (g.node k).memo = (session.graph.node k).memo → P g → P (g.inject k v version)) :
    P (session.injectedGraph version) := by
  unfold injectedGraph
  have hmem : ∀ e ∈ session.injections.entries, session.injections.get? e.1 = some e.2 :=
    fun e he => Table.get?_eq_some_iff.mpr he
  have hnodup := session.injections.nodup
  have hmemo : ∀ e ∈ session.injections.entries,
      (session.graph.node e.1).memo = (session.graph.node e.1).memo := fun _ _ => rfl
  generalize session.injections.entries = entries at hmem hnodup hmemo ⊢
  suffices h : ∀ g, P g → (∀ e ∈ entries, (g.node e.1).memo = (session.graph.node e.1).memo) →
      P (entries.foldl (fun g e => g.inject e.1 e.2 version) g) from h _ begin hmemo
  clear hmemo begin
  induction entries with
  | nil => exact fun g hg _ => hg
  | cons e rest ih =>
      intro g hg hmemo
      obtain ⟨hfresh, hrest⟩ := List.nodup_cons.mp hnodup
      refine ih (fun e he => hmem e (List.mem_cons_of_mem _ he)) hrest _
        (inject e.1 e.2 g (hmem e List.mem_cons_self) (hmemo e List.mem_cons_self) hg) ?_
      intro e' he'
      have hne : e'.1 ≠ e.1 := fun h => hfresh (h ▸ List.mem_map_of_mem he')
      rw [← hmemo e' (List.mem_cons_of_mem _ he')]
      exact Graph.memo_setDeps_publish_of_ne version ∅ (.value e.2) hne

end Session

end MemoGraph
