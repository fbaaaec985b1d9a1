import MemoGraph.Proofs.Cycle.Breaking
import MemoGraph.Proofs.Session.Accounts

/-!
# When cycle failures stay tied to their edges

Cycle failures are tied to recorded edges in every state of a session, unless some round failed a
member of a cycle after its check had found a change and before its function had requested anything.
Such a member loses its dependencies, and what names its cycle is not tied any more.
-/

set_option autoImplicit false

namespace MemoGraph

variable {D : Domain}

namespace Session

/-- In some state of the round a cycle is broken and a member of it forgets its edges. -/
def Forgets (session : Session D) : Operation D → Prop
  | .evaluate _ roots keepGoing observer =>
      ∃ r, session.Passes (session.setting roots keepGoing observer) r ∧ r.halted = false ∧
        r.stopping = false ∧ r.queue = [] ∧
        ∃ c ∈ r.heldUpBy (session.setting roots keepGoing observer), ∃ k ∈ c.members, r.Forgets k
  | _ => False

/-- All cycles stay accounted for throughout a round in which no member forgets its edges. -/
theorem cycleAccount_of_passes {session : Session D}
    (hg : session.graph.Grounded session.version) (hp : session.Pending)
    (h : ∀ x, session.graph.Accounted cycleAccount x) {budget : Nat} {roots : List D.Key}
    {keepGoing : Bool} {observer : List (Event D) → Bool}
    (hkeep : ¬ session.Forgets (.evaluate budget roots keepGoing observer)) {r : Round D}
    (hr : session.Passes (session.setting roots keepGoing observer) r) :
    ∀ x, r.graph.Accounted cycleAccount x := by
  refine passes_induction hg (P := fun r => ∀ x, r.graph.Accounted cycleAccount x)
    (accounted_begin stable_cycleAccount exemptsValues_cycleAccount hg hp h) ?_ hr
  intro r r' hr hground hc ht ih hstep
  obtain ⟨hgo, hbo⟩ := grounded_opening hg
  refine Round.cycleAccount_step ih hground hc (.of_reaches hgo hbo hr) ht hstep ?_
  intro hh hstop hq c hfound k hk hforgets
  exact hkeep ⟨r, hr, hh, hstop, hq, c, hfound, k, hk, hforgets⟩

/-- Permits every operation in which no member forgets its edges. -/
def Remembers (session : Session D) (op : Operation D) : Prop := ¬ session.Forgets op

theorem remembers_inject (session : Session D) (values : List (D.Key × D.Value)) :
    session.Remembers (.inject values) :=
  fun hforgets => hforgets

/-- All cycles are accounted for as long as no member has forgotten its edges. -/
theorem cycleAccount_of_history {registry : Registry D} {session : Session D}
    {ledger : Ledger D} (h : History Remembers (Session.new registry) session ledger) :
    ∀ x, session.graph.Accounted cycleAccount x :=
  accounted_of_history (fun hprev _ _ _ _ hkeep ih _ hr =>
    cycleAccount_of_passes (grounded_of_history hprev) (pending_of_history hprev) ih hkeep hr) h

/-- A round in which a member forgets its edges leaves a cycle that is not tied. -/
theorem not_tied_of_forgets {session session' : Session D} {op : Operation D}
    {events : List (Event D)} (hforgets : session.Forgets op)
    (hop : session.perform op = some (session', events)) : ¬ session'.graph.Tied := by
  cases performs_of_perform hop with
  | @evaluate budget roots keepGoing observer r' hr' hend =>
      obtain ⟨r, hr, hh, hstop, hq, c, hc, k, hk, hforgets⟩ := hforgets
      let s := session.setting roots keepGoing observer
      have htally := (Round.tally_of_reaches hr).resolve_left (by simp [hh])
      have hstep := Round.step_eq_failMembers hh hstop hq (List.ne_nil_of_mem hc)
      have hbroken : session.Passes s (r.failMembers s (r.heldUpBy s)) := .tail hr hstep
      obtain ⟨e', hshows, -⟩ := Round.shows_of_member htally hc hk
      apply Round.not_tied_of_forgets htally hc hk hforgets
      -- What the member was left with stays until the end of the round.
      exact Round.memo_of_reaches hbroken (Round.reaches_end hbroken hr' hend) hshows.1
  | _ => exact hforgets.elim

/-- Cycle failures stay tied to the edges that justify them as long as no member of a broken cycle
has forgotten its edges, so that invalidating any key of the path or of the cycle takes the trust
from the failure.  The first operation in which a member forgets its edges ends this, and no other
does. -/
theorem tied_iff_remembers {registry : Registry D} {session : Session D} {ledger : Ledger D}
    (h : History Remembers (Session.new registry) session ledger) :
    session.graph.Tied ∧
      (∀ k e, (session.graph.node k).failure? = some e → ∀ c ∈ e.cycles,
        ∀ x ∈ c.path ++ c.members, ∀ keys, x ∈ keys →
          (session.invalidate keys).1.graph.isComplete k = false) ∧
      ∀ op session' events, session.perform op = some (session', events) →
        (session'.graph.Tied ↔ session.Remembers op) := by
  have hall := cycleAccount_of_history h
  refine ⟨Graph.tied_of_accounted hall, ?_, ?_⟩
  · intro k e he c hc x hx keys hk
    exact Graph.not_complete_of_invalidate hall (grounded_of_history h).mirrored he hc hx hk
  · intro op session' events hop
    constructor
    · intro htied hforgets
      exact not_tied_of_forgets hforgets hop htied
    · intro hkeep
      exact Graph.tied_of_accounted (cycleAccount_of_history (.step h hkeep hop))

/-- A cycle that was found in a round over the input and the key that reads itself. -/
theorem loop_tied_at_first : ∃ session ledger,
    History Remembers (Session.new Sample.loop) session ledger ∧ session.graph.Tied ∧
      (session.graph.node (1 : Nat)).failure?.map Failure.cycles = some [⟨[], [1]⟩] ∧
      (session.invalidate [(1 : Nat)]).1.graph.isComplete (1 : Nat) = false := by
  have hrun : ((Session.new Sample.loop).performAll
      [.inject [((0 : Nat), (0 : Nat))], .evaluate 20 [(1 : Nat)] true fun _ => false]).map
        (fun session => decide (session.graph.Tied ∧
          (session.graph.node (1 : Nat)).failure?.map Failure.cycles = some [⟨[], [1]⟩])) =
      some true := by cbv
  obtain ⟨session, hops, hdecided⟩ := Option.map_eq_some_iff.mp hrun
  obtain ⟨htied, hcycle⟩ := of_decide_eq_true hdecided
  obtain ⟨given, _, hinject, hrest⟩ := performAll_cons.mp hops
  obtain ⟨_, _, hevaluate, hnil⟩ := performAll_cons.mp hrest
  obtain rfl := Option.some.inj hnil
  have hgiven : History Remembers (Session.new Sample.loop) given _ :=
    .step .start (remembers_inject _ _) hinject
  have hremembers := ((tied_iff_remembers hgiven).2.2 _ _ _ hevaluate).mp htied
  have hhistory := hgiven.step hremembers hevaluate
  obtain ⟨e, he, hcycles⟩ := Option.map_eq_some_iff.mp hcycle
  refine ⟨_, _, hhistory, (tied_iff_remembers hhistory).1, hcycle, ?_⟩
  exact (tied_iff_remembers hhistory).2.1 1 e he ⟨[], [1]⟩ (by simp [hcycles]) 1 (by simp) [1]
    (by simp)

/-- The input changes after the cycle was found.  The check of the key that reads itself finds the
change and waits for itself, the cycle is broken, and its edge is forgotten. -/
theorem loop_untied_by_change : ∃ session, Reachable session ∧
    (Session.new Sample.loop).performAll
      [.inject [((0 : Nat), (0 : Nat))], .evaluate 20 [(1 : Nat)] true fun _ => false,
        .inject [((0 : Nat), (1 : Nat))], .evaluate 20 [(1 : Nat)] true fun _ => false] =
      some session ∧ ¬ session.graph.Tied := by
  have hrun : ((Session.new Sample.loop).performAll
      [.inject [((0 : Nat), (0 : Nat))], .evaluate 20 [(1 : Nat)] true fun _ => false,
        .inject [((0 : Nat), (1 : Nat))], .evaluate 20 [(1 : Nat)] true fun _ => false]).map
        (fun session => decide session.graph.Tied) = some false := by cbv
  obtain ⟨session, hops, hdecided⟩ := Option.map_eq_some_iff.mp hrun
  exact ⟨session, (reachable_new _).performAll hops, hops, of_decide_eq_false hdecided⟩

end Session

end MemoGraph
