import MemoGraph.Proofs.Sample
import MemoGraph.Proofs.Session.Accounts
import MemoGraph.Proofs.Round.Commits

/-!
# When an outcome last changed

A node keeps its outcome and the version at which it changed until it is committed with an outcome
that the stored one does not count as; then it is dated at the version of that round.  So the date
alone tells whether a key still stores what it stored at some earlier point of its history.
-/

set_option autoImplicit false

namespace MemoGraph

variable {D : Domain}

namespace Node

/-- What becomes of a node: it keeps outcome and date, and if it is evaluated, then at the version;
or it is committed at the version with another outcome. -/
structure Ages (version : Version) (committed : Prop) (n n' : Node D) : Prop where
  /-- A node is evaluated at the version. -/
  evaluated : n'.evaluatedAt = n.evaluatedAt ∨ n'.evaluatedAt = version
  /-- Outcome and date are the old ones, or the outcome is replaced. -/
  dated : (n'.outcome = n.outcome ∧ n'.changedAt = n.changedAt) ∨
    (committed ∧ n'.evaluatedAt = version ∧ n.Replaced version n')

namespace Ages

variable {version : Version} {committed : Prop} {n n' : Node D}

theorem of_memo (h : n'.memo = n.memo) : Ages version committed n n' := by
  obtain ⟨-, hout, -, hch, hev⟩ := memo_eq_iff.mp h
  exact ⟨.inl hev, .inl ⟨hout, hch⟩⟩

theorem imp {committed' : Prop} (h : Ages version committed n n') (hc : committed → committed') :
    Ages version committed' n n' :=
  ⟨h.evaluated, h.dated.imp id fun hnew => ⟨hc hnew.1, hnew.2⟩⟩

theorem congr {m m' : Node D} (h : Ages version committed n n') (hn : n.memo = m.memo)
    (hn' : m'.memo = n'.memo) : Ages version committed m m' := by
  obtain ⟨-, hout, -, hch, hev⟩ := memo_eq_iff.mp hn
  obtain ⟨-, hout', -, hch', hev'⟩ := memo_eq_iff.mp hn'
  refine ⟨?_, ?_⟩
  · rw [hev', ← hev]
    exact h.evaluated
  · rw [hout', hch', hev', ← hout, ← hch]
    refine h.dated.imp id fun ⟨hc, hversion, hnew⟩ => ⟨hc, hversion, ?_⟩
    obtain ⟨o, ho, hholds⟩ := hnew.stored
    refine ⟨hch'.trans hnew.dated, o, hout'.trans ho, ?_⟩
    rw [holds, ← hout]
    exact hholds

/-- No node changed later than it was evaluated. -/
theorem changedAt_le (h : Ages version committed n n') (hn : n.changedAt ≤ n.evaluatedAt)
    (hversion : n.evaluatedAt ≤ version) : n'.changedAt ≤ n'.evaluatedAt := by
  rcases h.dated with ⟨-, hch⟩ | ⟨-, hev, hnew⟩
  · rw [hch]
    rcases h.evaluated with hev | hev
    · exact hev ▸ hn
    · exact hev ▸ Nat.le_trans hn hversion
  · exact Nat.le_of_eq (hnew.dated.trans hev.symm)

end Ages

end Node

namespace Round

variable {s : Setting D}

/-- In a round a key ages by being committed. -/
theorem ages_of_reaches {g : Graph D} {calls : Table D.Key Nat} {r : Round D}
    (h : Reaches s (Round.start s g calls) r) (k : D.Key) :
    (g.node k).Ages s.version (Committed r.log k) (r.graph.node k) := by
  have hboth : Atomic g r ∧ (g.node k).Ages s.version (Committed r.log k) (r.graph.node k) := by
    apply course_induction
      (P := fun r => Atomic g r ∧ (g.node k).Ages s.version (Committed r.log k) (r.graph.node k))
      ⟨.blank g calls, .of_memo rfl⟩ ?_ ?_ h
    · intro r r' ⟨hatomic, hages⟩ hp
      refine ⟨hatomic.prepare hp, ?_⟩
      rw [hp.node]
      exact hages.imp hp.committed.mpr
    · intro c how r r' ⟨hatomic, hages⟩ hs
      refine ⟨hatomic.settle hs, ?_⟩
      by_cases hk : k = c
      · -- So far the key stores what it stored before the round.
        subst hk
        have hsettles : (r.graph.node k).Ages s.version (Committed r'.log k) (r'.graph.node k) :=
          ⟨.inr hs.settles.evaluated, hs.settles.dated.imp id fun hnew =>
            ⟨hs.committed.mpr (.inl rfl), hs.settles.evaluated, hnew.1⟩⟩
        exact hsettles.congr (hatomic.memo_of_task hs.task) rfl
      · exact (hages.imp fun hc => hs.committed.mpr (.inr hc)).congr rfl (hs.settles.others k hk)
  exact hboth.2

end Round

namespace Session

/-! ## One operation -/

/-- The operation does not remove the key. -/
def Spares (k : D.Key) (session : Session D) (op : Operation D) : Prop :=
  ∀ p, op = .delete p → k ∉ (session.delete p).2

/-- The key is committed by a round: it completes, or its pending value takes effect. -/
def Commits (session : Session D) (op : Operation D) (events : List (Event D)) (k : D.Key) :
    Prop :=
  (∃ budget roots keepGoing observer, op = .evaluate budget roots keepGoing observer) ∧
    (k ∈ session.injections.keys ∨ Committed events k)

/-- When pending values take effect, each is committed. -/
theorem ages_injectedGraph (session : Session D) (version : Version) (k : D.Key) :
    (session.graph.node k).Ages version (k ∈ session.injections.keys)
      ((session.injectedGraph version).node k) := by
  cases hv : session.injections.get? k with
  | none => exact .of_memo (memo_injectedGraph_of_none hv _)
  | some v =>
      have hmemo := memo_injectedGraph session version k
      rw [hv] at hmemo
      obtain ⟨-, hout, -, hch, hev⟩ := Node.memo_eq_iff.mp hmemo
      refine ⟨.inr hev, ?_⟩
      rw [hout, hch, hev]
      refine (Node.dated_publish (session.graph.node k) (.value v) version).imp id fun hnew => ?_
      exact ⟨Table.mem_keys_iff.mpr ⟨v, hv⟩, rfl, hnew.congr hout hch⟩

/-- A round commits a pending value as it starts, and any other key at most once after that. -/
theorem ages_of_passes {session : Session D} {s : Setting D} {r : Round D}
    (hr : session.Passes s r) (k : D.Key) :
    (session.graph.node k).Ages s.version (k ∈ session.injections.keys ∨ Committed r.log k)
      (r.graph.node k) := by
  have hround := Round.ages_of_reaches hr k
  cases hv : session.injections.get? k with
  | none => exact (hround.imp .inr).congr (memo_injectedGraph_of_none hv _) rfl
  | some v =>
      have hkept := Round.memo_of_reaches .refl hr (x := k) ?_
      · rw [Round.node_start] at hkept
        exact ((ages_injectedGraph session s.version k).imp .inl).congr rfl hkept
      · rw [Graph.isComplete, Round.node_start]
        exact (injected_of_some hv _).1

/-- A walk that dirties readers evaluates nothing. -/
theorem ages_invalidate (g : Graph D) (keys : List D.Key) (version : Version) (committed : Prop)
    (k : D.Key) : (g.node k).Ages version committed ((g.invalidate keys).1.node k) := by
  rw [Graph.node_invalidate_eq]
  exact ⟨.inl rfl, .inl ⟨rfl, rfl⟩⟩

/-- What becomes of a key by one operation that does not remove it. -/
theorem ages_of_perform {session session' : Session D} {op : Operation D}
    {events : List (Event D)} (hop : session.perform op = some (session', events)) {k : D.Key}
    (hk : Spares k session op) :
    (session.graph.node k).Ages session'.version (session.Commits op events k)
      (session'.graph.node k) := by
  cases performs_of_perform hop with
  | @evaluate budget roots keepGoing observer r hr _ =>
      refine (ages_of_passes hr k).imp fun hc => ⟨⟨budget, roots, keepGoing, observer, rfl⟩, ?_⟩
      exact hc.imp_right fun ⟨how, hhow⟩ => ⟨how, List.mem_reverse.mpr hhow⟩
  | invalidate keys => exact ages_invalidate _ _ _ _ k
  | inject values => exact ages_invalidate _ _ _ _ k
  | delete p =>
      have hkept : k ∉ session.graph.closure p := hk p rfl
      have hmemo := Graph.memo_delete session.graph p k
      rw [if_neg hkept] at hmemo
      exact .of_memo hmemo
  | change registry keys => exact ages_invalidate _ _ _ _ k
  | interrupt => exact .of_memo rfl

/-- Every round has a version of its own. -/
theorem version_of_perform {session session' : Session D} {op : Operation D}
    {events : List (Event D)} (hop : session.perform op = some (session', events)) :
    session.version ≤ session'.version ∧
      ∀ k, session.Commits op events k → session'.version = session.version + 1 := by
  have hsame {op : Operation D} (h : session'.version = session.version)
      (hop : ∀ budget roots keepGoing observer,
        op ≠ .evaluate budget roots keepGoing observer) :
      session.version ≤ session'.version ∧
        ∀ k, session.Commits op events k → session'.version = session.version + 1 := by
    refine ⟨Nat.le_of_eq h.symm, fun k hc => ?_⟩
    obtain ⟨budget, roots, keepGoing, observer, heq⟩ := hc.1
    exact absurd heq (hop budget roots keepGoing observer)
  cases performs_of_perform hop with
  | evaluate _ _ => exact ⟨Nat.le_succ _, fun _ _ => rfl⟩
  | invalidate keys => exact hsame rfl fun _ _ _ _ => nofun
  | inject values => exact hsame rfl fun _ _ _ _ => nofun
  | delete p => exact hsame rfl fun _ _ _ _ => nofun
  | change registry keys => exact hsame rfl fun _ _ _ _ => nofun
  | interrupt => exact hsame rfl fun _ _ _ _ => nofun

/-! ## Histories -/

/-- No key changed later than it was evaluated, and none was evaluated later than the last round. -/
theorem changedAt_le_of_history {registry : Registry D} {session : Session D} {ledger : Ledger D}
    (h : History (fun _ _ => True) (Session.new registry) session ledger) (k : D.Key) :
    (session.graph.node k).changedAt ≤ (session.graph.node k).evaluatedAt ∧
      (session.graph.node k).evaluatedAt ≤ session.version := by
  refine ⟨?_, (grounded_of_history h).dated k⟩
  induction h with
  | start => exact Nat.le_refl _
  | @step session session' ledger op events hprev _ hop ih =>
      by_cases hk : Spares k session op
      · refine (ages_of_perform hop hk).changedAt_le ih ?_
        exact Nat.le_trans ((grounded_of_history hprev).dated k) (version_of_perform hop).1
      · -- The key was removed, so its node is fresh.
        obtain ⟨p, hp⟩ := Classical.not_forall.mp hk
        obtain ⟨rfl, hremoved⟩ := Classical.not_imp.mp hp
        obtain ⟨rfl, -⟩ := Prod.mk.inj (Option.some.inj hop)
        have hremoved : k ∈ session.graph.closure p := Classical.not_not.mp hremoved
        have hmemo := Graph.memo_delete session.graph p k
        rw [if_pos hremoved] at hmemo
        obtain ⟨-, -, -, hch, hev⟩ := Node.memo_eq_iff.mp hmemo
        show ((session.graph.delete p).1.node k).changedAt ≤ _
        rw [hch]
        exact Nat.zero_le _

/-- Somewhere between the two sessions a round committed the key with an outcome that the stored one
does not count as, and that is what the key is dated at in the later session. -/
def Rewritten (k : D.Key) (session later : Session D) : Prop :=
  ∃ before after op events ledger ledger', History (Spares k) session before ledger ∧
    before.perform op = some (after, events) ∧ before.Commits op events k ∧
    (before.graph.node k).Replaced after.version (after.graph.node k) ∧
    History (Spares k) after later ledger' ∧
    (later.graph.node k).changedAt = after.version

theorem version_le_of_history {permitted : Session D → Operation D → Prop}
    {session later : Session D} {ledger : Ledger D} (h : History permitted session later ledger) :
    session.version ≤ later.version := by
  induction h with
  | start => exact Nat.le_refl _
  | step _ _ hop ih => exact Nat.le_trans ih (version_of_perform hop).1

/-- A key keeps outcome and date, or it was rewritten after the session. -/
theorem kept_or_rewritten {session later : Session D} {ledger : Ledger D} {k : D.Key}
    (h : History (Spares k) session later ledger) :
    ((later.graph.node k).outcome = (session.graph.node k).outcome ∧
        (later.graph.node k).changedAt = (session.graph.node k).changedAt) ∨
      Rewritten k session later := by
  induction h with
  | start => exact .inl ⟨rfl, rfl⟩
  | @step later next ledger op events hprev hspares hop ih =>
      rcases (ages_of_perform hop hspares).dated with ⟨hout, hch⟩ | ⟨hcommits, -, hnew⟩
      · rw [hout, hch]
        refine ih.imp id ?_
        rintro ⟨before, after, op', events', ledger₁, ledger₂, h₁, hop', hcommits, hnew, h₂, hdate⟩
        exact ⟨before, after, op', events', ledger₁, _, h₁, hop', hcommits, hnew,
          .step h₂ hspares hop, hch.trans hdate⟩
      · exact .inr ⟨later, next, op, events, ledger, .blank, hprev, hop, hcommits, hnew, .start,
          hnew.dated⟩

/-- What was rewritten after the session is dated after it. -/
theorem Rewritten.lt {k : D.Key} {session later : Session D} (h : Rewritten k session later) :
    session.version < (later.graph.node k).changedAt := by
  obtain ⟨before, after, op, events, ledger, ledger', h₁, hop, hcommits, -, -, hdate⟩ := h
  rw [hdate, (version_of_perform hop).2 k hcommits]
  exact Nat.lt_succ_of_le (version_le_of_history h₁)

/-- The date of a change is exact.  In every state of a session no key changed later than it was
evaluated, and none was evaluated later than the last round.  As long as a key is not removed, it
still stores the very outcome it stored at some earlier point of the history if its date is not
later than the last round at that point; and its date is later exactly if it was committed since
then with an outcome that the one it replaced does not count as. -/
theorem changedAt_exact {session : Session D} (h : session.Reachable) (k : D.Key) :
    (session.graph.node k).changedAt ≤ (session.graph.node k).evaluatedAt ∧
      (session.graph.node k).evaluatedAt ≤ session.version ∧
      ∀ later ledger, History (Spares k) session later ledger →
        ((later.graph.node k).changedAt ≤ session.version →
          (later.graph.node k).outcome = (session.graph.node k).outcome) ∧
        (session.version < (later.graph.node k).changedAt ↔ Rewritten k session later) := by
  obtain ⟨registry, ledger₀, hhistory⟩ := h
  obtain ⟨hchanged, hevaluated⟩ := changedAt_le_of_history hhistory k
  refine ⟨hchanged, hevaluated, fun later ledger hlater => ?_⟩
  rcases kept_or_rewritten hlater with ⟨hout, hch⟩ | hnew
  · refine ⟨fun _ => hout, fun hlt => ?_, Rewritten.lt⟩
    rw [hch] at hlt
    exact absurd (Nat.le_trans hchanged hevaluated) (Nat.not_le.mpr hlt)
  · exact ⟨fun hle => absurd hnew.lt (Nat.not_lt.mpr hle), fun _ => hnew, Rewritten.lt⟩

/-- The tower before and after its input was given another value.  Key 1, rebuilt to the same value
in between, is dated as before; with the new input it is dated later. -/
theorem tower_changedAt_exact :
    ∃ session rebuilt renewed : Session Sample.domain, session.Reachable ∧
      (∃ ledger, History (Spares (1 : Nat)) session rebuilt ledger) ∧
      (rebuilt.graph.node (1 : Nat)).outcome = (session.graph.node (1 : Nat)).outcome ∧
      (∃ ledger, History (Spares (1 : Nat)) session renewed ledger) ∧
      Rewritten (1 : Nat) session renewed := by
  have hrun : (((Session.new Sample.tower).performAll [.inject [((0 : Nat), (5 : Nat))],
      .evaluate 20 [(2 : Nat)] true fun _ => false]).bind fun session =>
        (session.performAll [.change Sample.tower [(1 : Nat)],
          .evaluate 20 [(2 : Nat)] true fun _ => false]).bind fun rebuilt =>
        (session.performAll [.inject [((0 : Nat), (7 : Nat))],
          .evaluate 20 [(2 : Nat)] true fun _ => false]).map fun renewed =>
          decide ((rebuilt.graph.node (1 : Nat)).changedAt ≤ session.version ∧
            session.version < (renewed.graph.node (1 : Nat)).changedAt)) = some true := by
    decide +kernel
  obtain ⟨session, hops, hdecided⟩ := Option.bind_eq_some_iff.mp hrun
  obtain ⟨rebuilt, hrebuilt, hdecided⟩ := Option.bind_eq_some_iff.mp hdecided
  obtain ⟨renewed, hrenewed, hdecided⟩ := Option.map_eq_some_iff.mp hdecided
  obtain ⟨hle, hlt⟩ := of_decide_eq_true hdecided
  have hreachable := (reachable_new Sample.tower).performAll hops
  obtain ⟨ledger, hlater⟩ : ∃ ledger, History (Spares (1 : Nat)) session rebuilt ledger :=
    history_performAll .start hrebuilt (by simp [Spares])
  obtain ⟨ledger', hlater'⟩ : ∃ ledger, History (Spares (1 : Nat)) session renewed ledger :=
    history_performAll .start hrenewed (by simp [Spares])
  obtain ⟨-, -, hexact⟩ := changedAt_exact hreachable 1
  exact ⟨session, rebuilt, renewed, hreachable, ⟨ledger, hlater⟩,
    (hexact rebuilt ledger hlater).1 hle, ⟨ledger', hlater'⟩,
    (hexact renewed ledger' hlater').2.mp hlt⟩

end Session

end MemoGraph
