import MemoGraph.Proofs.Round.Verdicts
import MemoGraph.Proofs.Sample
import MemoGraph.Proofs.Session.KeepGoing

/-!
# Cycle verdicts are exact

The first round of a session gives every root the value that recursion finds for it, and a cycle
failure if recursion finds none.  No key is failed for a cycle that it is not above, and no key that
leads back to itself slips through.
-/

set_option autoImplicit false

namespace MemoGraph

variable {D : Domain}

namespace Session

/-- In the first round of a session whose functions never fail and accept no failures, the roots
with a value are those for which recursion derives it.  Every other root fails, because of cycles
alone, and all members of these cycles have failed by themselves. -/
theorem cycle_verdicts_exact {registry : Registry D} (hsure : registry.Sure) {budget : Nat}
    {roots : List D.Key} {observer : List (Event D) → Bool} {session' : Session D}
    {e : Evaluation D} {report : Report D}
    (heval : (Session.new registry).evaluate budget roots true observer = some (session', e))
    (hok : e.verdict = .ok report) : ∀ root ∈ roots,
      (∀ v, report.values.get? root = some v ↔ registry.Derives report.version root v) ∧
      ((∀ v, ¬ registry.Derives report.version root v) →
        ∃ f, report.failures.get? root = some f ∧ f.isCycle = true ∧
          f.fault = none ∧ (∀ c, c ∉ f.rootCauses) ∧ f.cycles ≠ [] ∧
          ∀ c ∈ f.cycles, c.members ≠ [] ∧ ∀ m ∈ c.members,
            (session'.graph.node m).state = .failed ∧
              ∃ f', (session'.graph.node m).failure? = some f' ∧ f'.origin = .own) := by
  intro root hroot
  obtain ⟨r, hr, hend, rfl, rfl⟩ := evaluate_eq_some heval
  obtain ⟨hh, rfl⟩ := Round.verdict_eq_ok hok
  have hmem : root ∈ ((Session.new registry).setting roots true observer).roots :=
    OrderedSet.mem_ofList.mpr hroot
  have hfitting : Round.Fitting ((Session.new registry).setting roots true observer) r :=
    Round.fitting_of_reaches hsure (Nat.succ_pos _) hr
  have hground := grounded_of_passes (Graph.grounded_empty _) hr
  have hcomplete := Round.isComplete_root_of_end hr rfl hend hh hmem
  obtain ⟨o, -, ho⟩ := hground.graph.settled hcomplete
  have hlists := Round.lists_of_isComplete hground hmem hcomplete ho
  have hsound (v : D.Value) (hv : r.graph.Shows root (.value v)) :=
    (hfitting root (.value v) hv).derives
  cases hfitting root o ⟨hcomplete, ho⟩ with
  | @value v hv =>
      cases hlists with
      | value hvalue _ =>
          refine ⟨fun v' => ⟨fun hv' => hsound v' (Round.shows_of_value hv').2, fun hv' => ?_⟩,
            fun hnone => absurd hv (hnone v)⟩
          obtain rfl := hsure.acceptsNone.derives_unique hv hv'
          exact hvalue
  | @failure f hnone hcycles =>
      cases hlists with
      | failure _ hfailure =>
          refine ⟨fun v => ⟨fun hv => hsound v (Round.shows_of_value hv).2,
            fun hv => absurd hv (hnone v)⟩, fun _ => ⟨f, hfailure, hcycles.isCycle, hcycles.fault,
            hcycles.rootCauses, hcycles.cycles,
            fun c hc => ⟨hcycles.inhabited c hc, fun m hm => ?_⟩⟩⟩
          obtain ⟨f', hshows, hown⟩ := hcycles.members c hc m hm
          have hstatus : (r.graph.node m).status = .current := Node.isComplete_iff.mp hshows.1
          refine ⟨?_, f', Graph.failure?_of_shows hshows, hown⟩
          simp [closing, Node.state, hstatus, Node.lastFailure?, hshows.2, Outcome.failure?]

/-- Key 4 has its value; key 3 fails for the cycle of keys 1 and 2 that it leads into. -/
theorem knot_verdicts : ∃ session' e report,
    (Session.new Sample.knot).evaluate 20 [(3 : Nat), (4 : Nat)] true (fun _ => false) =
      some (session', e) ∧ e.verdict = .ok report ∧
    Sample.knot.Derives report.version (4 : Nat) (1 : Nat) ∧
      report.values.get? (4 : Nat) = some (1 : Nat) ∧
    (∀ v, ¬ Sample.knot.Derives report.version (3 : Nat) v) ∧
      ∃ f, report.failures.get? (3 : Nat) = some f ∧ f.isCycle = true ∧ f.cycles ≠ [] := by
  have hdone : (Round.run ((Session.new Sample.knot).setting [(3 : Nat), (4 : Nat)] true
      fun _ => false) 20 ((Session.new Sample.knot).opening
        ((Session.new Sample.knot).setting [(3 : Nat), (4 : Nat)] true fun _ => false))).map
      (fun r => decide (r.halted = false ∧ ((r.graph.node (3 : Nat)).failure?).isSome = true)) =
    some true := by cbv
  obtain ⟨r, hrun, hdecided⟩ := Option.map_eq_some_iff.mp hdone
  obtain ⟨hh, hfailed⟩ := of_decide_eq_true hdecided
  have heval := evaluate_of_run hrun
  have hok := Round.verdict_of_going (s := (Session.new Sample.knot).setting [(3 : Nat), (4 : Nat)]
    true fun _ => false) hh
  have hexact := cycle_verdicts_exact Sample.sure_knot heval hok
  have hreckon : (Sample.total [] (4 : Nat) 1).reckon 1 (fun _ => (0 : Nat)) none =
    some ([], (1 : Nat)) := rfl
  have hfour : Sample.knot.Derives 1 (4 : Nat) (1 : Nat) :=
    .run rfl hreckon fun _ hd => absurd hd List.not_mem_nil
  have hthree (v : Nat) : ¬ Sample.knot.Derives 1 (3 : Nat) v := by
    intro hv
    have hshows := (Round.shows_of_value (((hexact 3 (by simp)).1 v).mpr hv)).2
    simp [Node.failure?, Graph.settled_of_shows hshows, Outcome.failure?] at hfailed
  obtain ⟨f, hf, hcycle, -, -, hne, -⟩ := (hexact 3 (by simp)).2 hthree
  exact ⟨_, _, _, heval, hok, hfour, ((hexact 4 (by simp)).1 1).mpr hfour, hthree, f, hf, hcycle,
    hne⟩

end Session

end MemoGraph
