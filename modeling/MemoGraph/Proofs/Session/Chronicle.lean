import MemoGraph.Proofs.Crew.Single
import MemoGraph.Proofs.Session.Accounts

/-!
# Chronicles of sessions

A chronicle is a history in which rounds may be worked on by any number of workers.  Their steps
come in any order, and at any moment such a round may be asked to stop from outside.  An evaluation
by one worker that takes a key through one action after another is such a round as well.
-/

set_option autoImplicit false

namespace MemoGraph

variable {D : Domain}

/-- What is done with a session. -/
inductive Deed (D : Domain) where
  /-- an operation -/
  | operation (op : Operation D)
  /-- a round that some workers work on -/
  | round (workers : Nat) (roots : List D.Key) (keepGoing : Bool)
      (observer : List (Event D) → Bool)

/-- What a deed makes of a session, with the events that observers are told. -/
inductive Session.Does (session : Session D) :
    Deed D → Session D → List (Event D) → Prop where
  /-- the operation is performed -/
  | operation {op : Operation D} {session' : Session D} {events : List (Event D)} :
      session.perform op = some (session', events) → Does session (.operation op) session' events
  /-- the workers bring the round to an end -/
  | round {workers : Nat} {roots : List D.Key} {keepGoing : Bool}
      {observer : List (Event D) → Bool} {c : Crew D} :
      Crew.Reaches (session.setting roots keepGoing observer)
        (session.muster (session.setting roots keepGoing observer) workers) c → c.IsOver →
      Does session (.round workers roots keepGoing observer)
        (session.disband (session.setting roots keepGoing observer) c) c.live.log.reverse

/-- Take note of a deed; every round counts as an evaluation. -/
def Ledger.note (ledger : Ledger D) (session : Session D) : Deed D → List (Event D) → Ledger D
  | .operation op, events => ledger.enter session op events
  | .round _ roots keepGoing observer, events =>
      ledger.enter session (.evaluate 0 roots keepGoing observer) events

/-- The states of a session after permitted deeds, from `start` on, with their ledgers. -/
inductive Chronicle (permitted : Session D → Deed D → Prop) (start : Session D) :
    Session D → Ledger D → Prop where
  /-- nothing was done yet -/
  | start : Chronicle permitted start start .blank
  /-- one more deed -/
  | step {session session' : Session D} {ledger : Ledger D} {deed : Deed D}
      {events : List (Event D)} : Chronicle permitted start session ledger →
      permitted session deed → session.Does deed session' events →
      Chronicle permitted start session' (ledger.note session deed events)

namespace Session

/-- A session that some deeds lead to from an empty one. -/
def Attainable (session : Session D) : Prop :=
  ∃ registry ledger, Chronicle (fun _ _ => True) (Session.new registry) session ledger

/-- A history is a chronicle of operations. -/
theorem chronicle_of_history {permitted : Session D → Operation D → Prop}
    {permitted' : Session D → Deed D → Prop}
    (hpermitted : ∀ session op, permitted session op → permitted' session (.operation op))
    {start session : Session D} {ledger : Ledger D} (h : History permitted start session ledger) :
    Chronicle permitted' start session ledger := by
  induction h with
  | start => exact .start
  | @step session session' ledger op events _ hop' hop ih =>
      exact .step ih (hpermitted session op hop') (.operation hop)

theorem Reachable.attainable {session : Session D} (h : session.Reachable) :
    session.Attainable := by
  obtain ⟨registry, ledger, hhistory⟩ := h
  exact ⟨registry, ledger, chronicle_of_history (fun _ _ _ => trivial) hhistory⟩

theorem Attainable.does {session session' : Session D} (h : session.Attainable) {deed : Deed D}
    {events : List (Event D)} (hdoes : session.Does deed session' events) :
    session'.Attainable := by
  obtain ⟨registry, ledger, hchronicle⟩ := h
  exact ⟨registry, _, .step hchronicle trivial hdoes⟩

/-! ## Rounds that run by a schedule -/

/-- Taking turns by a schedule is one way for a round to go on. -/
theorem reaches_of_run {s : Setting D} {schedule : Nat → Nat} {budget : Nat} {c c' : Crew D}
    (h : Crew.run s schedule budget c = some c') : Crew.Reaches s c c' ∧ c'.IsOver := by
  induction budget generalizing c with
  | zero => cases h
  | succ budget ih =>
      simp only [Crew.run] at h
      split at h
      · rename_i verdict hlead
        obtain rfl := Option.some.inj h
        exact ⟨.refl, verdict, hlead⟩
      · obtain ⟨hr, hover⟩ := ih h
        refine ⟨?_, hover⟩
        cases hturn : c.turn s (schedule budget) with
        | none =>
            rw [hturn] at hr
            exact hr
        | some next =>
            rw [hturn] at hr
            exact .head (.turn _ hturn) hr

/-- Running a round by a schedule is a deed. -/
theorem does_of_evaluateWith {session session' : Session D} {budget workers : Nat}
    {schedule : Nat → Nat} {roots : List D.Key} {keepGoing : Bool}
    {observer : List (Event D) → Bool} {e : Evaluation D}
    (h : session.evaluateWith budget workers schedule roots keepGoing observer =
      some (session', e)) :
    session.Does (.round workers roots keepGoing observer) session' e.events := by
  simp only [evaluateWith] at h
  split at h
  · cases h
  · rename_i c hrun
    obtain ⟨hr, hover⟩ := reaches_of_run hrun
    split at h
    · obtain ⟨rfl, rfl⟩ := Prod.mk.inj (Option.some.inj h)
      exact .round hr hover
    · cases h

/-! ## Rounds of one worker -/

/-- An evaluation is a round of a crew of one worker: it ends with the same verdict, leaves the same
session and tells the same events. -/
theorem crew_of_evaluate {session session' : Session D} {budget : Nat} {roots : List D.Key}
    {keepGoing : Bool} {observer : List (Event D) → Bool} {e : Evaluation D}
    (h : session.evaluate budget roots keepGoing observer = some (session', e)) :
    ∃ c, Crew.Reaches (session.setting roots keepGoing observer)
        (session.muster (session.setting roots keepGoing observer) 1) c ∧
      c.lead = .over e.verdict ∧
      session.disband (session.setting roots keepGoing observer) c = session' ∧
      c.live.log.reverse = e.events := by
  obtain ⟨r, hr, hend, rfl, rfl⟩ := evaluate_eq_some h
  obtain ⟨c, hreaches, hlead, hgraph, hinterrupted, hcalls, hlog⟩ := Crew.exists_of_end hr hend
  refine ⟨c, hreaches, hlead, ?_, congrArg List.reverse hlog⟩
  rw [disband, closing, hgraph, hinterrupted, hcalls]

/-- What can become of the graph by a deed. -/
inductive Alters (session : Session D) : Graph D → Prop where
  /-- some workers go through a round over the graph with what was injected -/
  | round {workers : Nat} {roots : List D.Key} {keepGoing : Bool}
      {observer : List (Event D) → Bool} {last c : Crew D} :
      Crew.Leaves (session.setting roots keepGoing observer)
        (session.injectedGraph (session.version + 1)) session.calls workers last c →
      Alters session c.live.store.graph
  /-- a walk from some keys dirties their readers -/
  | swept (keys : List D.Key) : Alters session (session.graph.invalidate keys).1
  /-- some keys are removed with their readers -/
  | deleted (p : D.Key → Bool) : Alters session (session.graph.delete p).1
  /-- the graph stays as it is -/
  | kept : Alters session session.graph

theorem Does.alters {session session' : Session D} {deed : Deed D} {events : List (Event D)}
    (h : session.Does deed session' events) : session.Alters session'.graph := by
  cases h with
  | @operation op _ _ hop =>
      cases op with
      | evaluate budget roots keepGoing observer =>
          obtain ⟨⟨next, e⟩, heval, hnext⟩ := Option.map_eq_some_iff.mp hop
          obtain ⟨rfl, rfl⟩ := Prod.mk.inj hnext
          obtain ⟨c, hreaches, hlead, rfl, -⟩ := crew_of_evaluate heval
          obtain ⟨last, hleaves⟩ := Crew.exists_leaves hreaches ⟨_, hlead⟩
          exact .round hleaves
      | invalidate keys =>
          cases performs_of_perform hop
          exact .swept keys
      | inject values =>
          cases performs_of_perform hop
          exact .swept _
      | delete p =>
          cases performs_of_perform hop
          exact .deleted p
      | change registry keys =>
          cases performs_of_perform hop
          exact .swept keys
      | interrupt =>
          cases performs_of_perform hop
          exact .kept
  | round hr hover =>
      obtain ⟨last, hleaves⟩ := Crew.exists_leaves hr hover
      exact .round hleaves

/-! ## What all sessions keep -/

/-- Every deed leaves a grounded graph. -/
theorem Does.grounded {session session' : Session D} {deed : Deed D} {events : List (Event D)}
    (h : session.Does deed session' events) (hg : session.graph.Grounded session.version) :
    session'.graph.Grounded session'.version := by
  cases h with
  | operation hop => exact (performs_of_perform hop).grounded hg
  | round hr hover =>
      obtain ⟨last, hleaves⟩ := Crew.exists_leaves hr hover
      obtain ⟨hg, hb⟩ := grounded_opening hg
      exact hleaves.grounded hg hb

/-- After every deed, what is to be injected agrees with what is complete. -/
theorem Does.pending {session session' : Session D} {deed : Deed D} {events : List (Event D)}
    (h : session.Does deed session' events) (hp : session.Pending) : session'.Pending := by
  cases h with
  | operation hop => exact (performs_of_perform hop).pending hp
  | round _ _ =>
      intro k v hv
      cases hv

section Chronicle

variable {permitted : Session D → Deed D → Prop} {registry : Registry D} {session : Session D}
  {ledger : Ledger D}

theorem grounded_of_chronicle (h : Chronicle permitted (Session.new registry) session ledger) :
    session.graph.Grounded session.version := by
  induction h with
  | start => exact Graph.grounded_empty _
  | step _ _ hdoes ih => exact hdoes.grounded ih

theorem pending_of_chronicle (h : Chronicle permitted (Session.new registry) session ledger) :
    session.Pending := by
  induction h with
  | start =>
      intro k v hv
      cases hv
  | step _ _ hdoes ih => exact hdoes.pending ih

end Chronicle

end Session

end MemoGraph
