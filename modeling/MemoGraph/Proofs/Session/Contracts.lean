import MemoGraph.Proofs.Round.Blame
import MemoGraph.Proofs.Sample
import MemoGraph.Proofs.Session.KeepGoing

/-!
# Broken contracts

A function has to ask for another run exactly if it lacks a value.  A round that is given up because
a function did neither names this function and no other, and a function that keeps to its contract
never makes a round be given up: its key waits for a signal or fails.
-/

set_option autoImplicit false

namespace MemoGraph

variable {D : Domain}

namespace Round

/-- A round ends with the reason why it was given up, or because it was stopped. -/
theorem verdict_eq_error_iff {s : Setting D} {r : Round D} {a : Abort D.Key} :
    r.verdict s = .error a ↔
      r.aborted = some a ∨ (r.aborted = none ∧ r.interrupted = true ∧ a = .interrupted) := by
  unfold verdict
  cases ha : r.aborted with
  | some b => simp
  | none =>
      cases hi : r.interrupted with
      | true => simp [eq_comm]
      | false => simp

end Round

namespace Evaluation

/-- Why there is no report. -/
def error? (e : Evaluation D) : Option (Abort D.Key) :=
  match e.verdict with
  | .error a => some a
  | .ok _ => none

theorem verdict_of_error? {e : Evaluation D} {a : Abort D.Key} (h : e.error? = some a) :
    e.verdict = .error a := by
  unfold error? at h
  split at h
  · rename_i b hb
    rw [hb, Option.some.inj h]
  · cases h

end Evaluation

namespace Session

/-- A round is given up for a fault exactly if the fault occurred in it. -/
theorem verdict_iff_blames {session session' : Session D}
    (hg : session.graph.Grounded session.version) {budget : Nat} {roots : List D.Key}
    {keepGoing : Bool} {observer : List (Event D) → Bool} {e : Evaluation D}
    (heval : session.evaluate budget roots keepGoing observer = some (session', e))
    {a : Abort D.Key} (ha : a ≠ .interrupted) :
    e.verdict = .error a ↔ ∃ r, session.Passes (session.setting roots keepGoing observer) r ∧
      Round.Blames (session.setting roots keepGoing observer) r a := by
  obtain ⟨r, hr, hend, -, rfl⟩ := evaluate_eq_some heval
  rw [Round.verdict_eq_error_iff, or_iff_left fun h => ha h.2.2]
  exact Round.aborted_iff_blames (fun r hr => grounded_of_passes hg hr) hr hend

/-- Broken contracts are blamed on the functions that break them.  A round is given up because a key
made no progress exactly if its function asked to be run again although every read had found a
value, and because of a value with missing dependencies exactly if its function gave one although a
read had found none.  A function that asks to be run again after such a read leaves its key waiting
for an incomplete key that will signal it, or fails it with the failures that it read. -/
theorem contract_breach_blamed {session : Session D} (h : session.Reachable)
    (roots : List D.Key) (keepGoing : Bool) (observer : List (Event D) → Bool) :
    let s := session.setting roots keepGoing observer
    (∀ budget session' e, session.evaluate budget roots keepGoing observer = some (session', e) →
      ∀ k,
      (e.verdict = .error (.noProgress k) ↔ ∃ r c, session.Passes s r ∧ r.call? s = some c ∧
        c.key = k ∧ c.left.interrupted = false ∧ c.ending = .needsDeps ∧ c.inv.missing = false) ∧
      (e.verdict = .error (.valueWithMissingDeps k) ↔ ∃ r c v, session.Passes s r ∧
        r.call? s = some c ∧ c.key = k ∧ c.left.interrupted = false ∧ c.ending = .value v ∧
        c.inv.missing = true)) ∧
    ∀ r c, session.Passes s r → r.call? s = some c → c.left.interrupted = false →
      c.ending = .needsDeps → c.inv.missing = true →
      ∃ r', r.step s = some r' ∧ r'.aborted = none ∧
        ((∃ t, r'.Waits c.key t) ∨
          (c.inv.failedReads ≠ [] ∧
            (∀ child ∈ c.inv.failedReads, ∃ batch ∈ c.inv.batches, ∃ d ∈ batch,
              c.left.graph.Shows d (.failure child)) ∧
            ∃ deps, r' = c.left.completeFailed s c.key (some deps)
              (.ofChildren c.key c.inv.failedReads))) := by
  intro s
  obtain ⟨registry, ledger, hhistory⟩ := h
  have hground := grounded_of_history hhistory
  refine ⟨fun budget session' e heval k => ⟨?_, ?_⟩, fun r c hr hcall hgo hending hmissing => ?_⟩
  · rw [verdict_iff_blames hground heval fun h => by cases h]
    constructor
    · rintro ⟨r, hr, hblames⟩
      cases hblames with
      | idle hcall hgo hending hmissing =>
          exact ⟨r, _, hr, hcall, rfl, hgo, hending, hmissing⟩
    · rintro ⟨r, c, hr, hcall, rfl, hgo, hending, hmissing⟩
      exact ⟨r, hr, .idle hcall hgo hending hmissing⟩
  · rw [verdict_iff_blames hground heval fun h => by cases h]
    constructor
    · rintro ⟨r, hr, hblames⟩
      cases hblames with
      | unread hcall hgo hending hmissing =>
          exact ⟨r, _, _, hr, hcall, rfl, hgo, hending, hmissing⟩
    · rintro ⟨r, c, v, hr, hcall, rfl, hgo, hending, hmissing⟩
      exact ⟨r, hr, .unread hcall hgo hending hmissing⟩
  · have htally := Round.tally_of_going hr (Round.going_of_call? hcall)
    exact Round.step_of_missing (grounded_of_passes hground hr) htally hcall hgo hending hmissing

/-- Key 1 is blamed for asking to be run again, and key 2 for its value. -/
theorem careless_blamed : ∃ session₁ e₁ session₂ e₂,
    let session := Session.new Sample.careless
    let s₁ := session.setting [1] true fun _ => false
    let s₂ := session.setting [2] true fun _ => false
    session.evaluate 20 [1] true (fun _ => false) = some (session₁, e₁) ∧
    e₁.verdict = .error (.noProgress 1) ∧
    (∃ r c, session.Passes s₁ r ∧ r.call? s₁ = some c ∧ c.key = 1 ∧
      c.left.interrupted = false ∧ c.ending = .needsDeps ∧ c.inv.missing = false) ∧
    session.evaluate 20 [2] true (fun _ => false) = some (session₂, e₂) ∧
    e₂.verdict = .error (.valueWithMissingDeps 2) ∧
    ∃ r c v, session.Passes s₂ r ∧ r.call? s₂ = some c ∧ c.key = 2 ∧
      c.left.interrupted = false ∧ c.ending = .value v ∧ c.inv.missing = true := by
  have hfirst : ((Session.new Sample.careless).evaluate 20 [1] true fun _ => false).bind
      (fun x => x.2.error?) = some (.noProgress (1 : Nat)) := by rfl
  have hsecond : ((Session.new Sample.careless).evaluate 20 [2] true fun _ => false).bind
      (fun x => x.2.error?) = some (.valueWithMissingDeps (2 : Nat)) := by rfl
  obtain ⟨⟨session₁, e₁⟩, heval₁, herror₁⟩ := Option.bind_eq_some_iff.mp hfirst
  obtain ⟨⟨session₂, e₂⟩, heval₂, herror₂⟩ := Option.bind_eq_some_iff.mp hsecond
  have hverdict₁ := Evaluation.verdict_of_error? herror₁
  have hverdict₂ := Evaluation.verdict_of_error? herror₂
  have hblamed (root : Nat) := (contract_breach_blamed (reachable_new Sample.careless) [root] true
    fun _ => false).1
  exact ⟨session₁, e₁, session₂, e₂, heval₁, hverdict₁,
    (hblamed 1 20 session₁ e₁ heval₁ 1).1.mp hverdict₁, heval₂, hverdict₂,
    (hblamed 2 20 session₂ e₂ heval₂ 2).2.mp hverdict₂⟩

end Session

end MemoGraph
