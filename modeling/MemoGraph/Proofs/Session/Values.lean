import MemoGraph.Proofs.Crew.Justified
import MemoGraph.Proofs.Session.Chronicle
import MemoGraph.Proofs.Session.Justified

/-!
# Memoized values are justified

In every state of a session whose functions are batch strict, every value that did not come from
outside is what its function makes of the outcomes of the recorded dependencies, which are all
complete.  Nothing is assumed about cycles, rounds may end in any way, and several workers may have
worked on them.
-/

set_option autoImplicit false

namespace MemoGraph

variable {D : Domain}

/-- There is a plan behind every batch strict function. -/
theorem Registry.BatchStrict.exists_plans {registry : Registry D} (h : registry.BatchStrict) :
    ∃ plans : D.Key → Plan D, ∀ k f, registry.find? k = some f → f.Follows k (plans k) := by
  have hplan (k : D.Key) : ∃ plan, ∀ f, registry.find? k = some f → f.Follows k plan := by
    cases hf : registry.find? k with
    | none => exact ⟨.broken, fun f hf => by cases hf⟩
    | some f =>
        obtain ⟨plan, hplan⟩ := h k f hf k
        refine ⟨plan, fun f' hf' => ?_⟩
        obtain rfl := Option.some.inj hf'
        exact hplan
  choose plans hplans using hplan
  exact ⟨plans, hplans⟩

namespace Session

/-- Values are accounted for by a justification, unless the key holds what it was given. -/
def valueLedger (hD : D.Exact) (session : Session D) (ledger : Ledger D) : Ledgered D where
  account told := justification session.registry (Excused True ledger.latest fun k =>
    (k ∈ session.injections.keys ∨ ledger.supplied k) ∧
      ∀ how, .completed k how ∈ told → how = .clean)
  price := valuePrice session.registry
  stable _ := stable_justification hD fun hsame h => h.same hD hsame
  pays _ := Or.imp_left fun ⟨e, he⟩ => .inr ⟨trivial, e, he⟩
  keep hlog := Or.imp_left (Excused.imp fun ⟨hgiven, hold⟩ =>
    ⟨hgiven, fun how hmem => (hlog how hmem).elim (hold how) id⟩)

/-- Values stay justified over a round of several workers, if functions give up when they are told
that something is missing. -/
theorem justified_of_leaves (hD : D.Exact) {session : Session D} {ledger : Ledger D}
    (hg : session.graph.Grounded session.version) (hp : session.Pending)
    (hl : session.Noted ledger) (hstrict : session.registry.BatchStrict)
    (hheeds : session.registry.Heeds) (hall : ∀ x, session.graph.Accounted
      (justification session.registry (Excused True ledger.latest ledger.supplied)) x)
    {roots : List D.Key} {keepGoing : Bool} {observer : List (Event D) → Bool} {workers : Nat}
    {last c : Crew D} (hleaves : Crew.Leaves (session.setting roots keepGoing observer)
      (session.injectedGraph (session.version + 1)) session.calls workers last c) (x : D.Key) :
    c.live.store.graph.Accounted (justification session.registry
      (Excused True ledger.latest fun k => (k ∈ session.injections.keys ∨ ledger.supplied k) ∧
        ∀ how, .completed k how ∈ c.live.log.reverse → how = .clean)) x := by
  obtain ⟨hground, hb⟩ := grounded_opening hg
  obtain ⟨plans, hplans⟩ := hstrict.exists_plans
  have hlawful : (planRule (session.setting roots keepGoing observer) plans).Lawful
      (session.setting roots keepGoing observer) :=
    lawful_planRule hD fun k f hf => ⟨hplans k f hf, hheeds k f hf k⟩
  have hopening : ∀ x, (session.injectedGraph (session.version + 1)).Accounted
      ((valueLedger hD session ledger).account 0) x :=
    excused_opening hD hg hp hl hall fun k hk =>
      ⟨hk, fun how hmem => absurd hmem (Multiset.notMem_zero _)⟩
  have haccounts := accounts_of_reaches (valueLedger hD session ledger) hlawful (fun h => h) hground
    hb hopening hleaves.reached hleaves.going
  refine (hleaves.accounted haccounts x).imp fun _ _ _ _ _ => Or.imp_left ?_
  exact Excused.imp fun ⟨hgiven, hold⟩ =>
    ⟨hgiven, fun how hmem => hold how (Multiset.mem_coe.mpr (List.mem_reverse.mp hmem))⟩

/-- A change of functions that is reported, or a round of several workers over functions that give
up when they are told that something is missing. -/
def Proper (session : Session D) : Deed D → Prop
  | .operation op => session.ReportsChanges op
  | .round _ _ _ _ => session.registry.Heeds

theorem Does.noted {session session' : Session D} {ledger : Ledger D} {deed : Deed D}
    {events : List (Event D)} (h : session.Does deed session' events)
    (hl : session.Noted ledger) : session'.Noted (ledger.note session deed events) := by
  cases h with
  | operation hop => exact (performs_of_perform hop).noted hl
  | round _ _ =>
      intro k v hv
      cases hv

/-- Values are justified in every state of a session whose functions are batch strict. -/
theorem justified_of_chronicle (hD : D.Exact) {registry : Registry D}
    (hstrict : registry.BatchStrict) {session : Session D} {ledger : Ledger D}
    (h : Chronicle Proper (Session.new registry) session ledger) :
    session.Noted ledger ∧ session.registry.BatchStrict ∧ ∀ x, session.graph.Accounted
      (justification session.registry (Excused True ledger.latest ledger.supplied)) x := by
  induction h with
  | start =>
      refine ⟨fun k v hv => ?_, hstrict, fun x _ o ho => ?_⟩
      · cases hv
      · cases ho
  | @step session session' ledger deed events hprev hproper hdoes ih =>
      obtain ⟨hl, hstrict, hall⟩ := ih
      have hg := grounded_of_chronicle hprev
      have hp := pending_of_chronicle hprev
      refine ⟨hdoes.noted hl, ?_⟩
      cases hdoes with
      | operation hop =>
          exact (performs_of_perform hop).justified hD hg hp hl hproper (.inl trivial) hstrict hall
      | round hr hover =>
          obtain ⟨last, hleaves⟩ := Crew.exists_leaves hr hover
          exact ⟨hstrict, justified_of_leaves hD hg hp hl hstrict hproper hall hleaves⟩

/-- A justified value is the one that the function computes in any round with these outcomes. -/
theorem run_of_justified (hD : D.Exact) {session : Session D} {k : D.Key} {v : D.Value}
    (h : Justified session.registry k (session.graph.node k).deps (.value v) session.graph.Shows) :
    ∃ f, session.registry.find? k = some f ∧
      ∀ (s : Setting D) (n : Nat) (scratch : Option (Scratch D)) (r : Round D),
        r.graph = session.graph → r.interrupted = false →
          ∃ inv, (f k n).run s k (.start scratch) r = (.value v, inv, r) ∧
            DepGroups.ofBatches inv.batches = (session.graph.node k).deps := by
  obtain ⟨f, plan, hexplains⟩ := Graph.explains_of_justified h
  refine ⟨f, hexplains.function, fun s n scratch r hr hi => ?_⟩
  have hsight : r.sight = session.graph.sight := by
    rw [← hr]
    rfl
  have hpending := hexplains.pending
  have hupshot : (plan.consult session.graph.sight).upshot = .value v := by
    obtain ⟨o', hout, hcounts⟩ := hexplains.outcome
    cases o' with
    | failure e => cases hcounts
    | value v' =>
        rw [(hD.value v v').mp hcounts]
        exact Consultation.upshot_of_value hout
  rw [← hsight] at hpending hupshot
  have hmissing : (Invocation.start scratch : Invocation D).missing = false := rfl
  have hgo := (hexplains.follows n).going (s := s) (k := k) hmissing hi (.inr hpending)
    (by rw [hupshot]; simp)
  obtain ⟨hnotes, hending, hround⟩ := (hexplains.follows n).run hmissing hgo
  rw [hupshot] at hending
  refine ⟨((f k n).run s k (.start scratch) r).2.1, ?_, ?_⟩
  · exact Prod.ext hending (Prod.ext rfl (hround hpending))
  · rw [hexplains.deps, ← hsight, hnotes.batches]
    rfl

/-- In every state of a session with batch strict functions, which give up whenever they are told
that something is missing, a value that did not come from outside is locally justified: all its
recorded dependencies are complete, and its function, run against their outcomes, requests exactly
the recorded groups and ends with the value. -/
theorem values_justified (hD : D.Exact) {registry : Registry D} (hstrict : registry.BatchStrict)
    {session : Session D} {ledger : Ledger D}
    (h : Chronicle Proper (Session.new registry) session ledger) {k : D.Key} {v : D.Value}
    (hdone : (session.graph.node k).value? = some v) (hsupplied : ¬ ledger.supplied k) :
    (∀ d ∈ (session.graph.node k).deps.keys, session.graph.isComplete d = true) ∧
      ∃ f, session.registry.find? k = some f ∧
        ∀ (s : Setting D) (n : Nat) (scratch : Option (Scratch D)) (r : Round D),
          r.graph = session.graph → r.interrupted = false →
            ∃ inv, (f k n).run s k (.start scratch) r = (.value v, inv, r) ∧
              DepGroups.ofBatches inv.batches = (session.graph.node k).deps := by
  have hall := (justified_of_chronicle hD hstrict h).2.2 k
  obtain ⟨o, ho, hvalue⟩ := Option.bind_eq_some_iff.mp hdone
  have hshows := Graph.shows_of_settled ho
  cases o with
  | failure e => cases hvalue
  | value v' =>
      obtain rfl := Option.some.inj hvalue
      rcases hall.of_complete hshows.1 hshows.2 with (⟨hk, -⟩ | ⟨-, e, he⟩) | hjustified
      · exact absurd hk hsupplied
      · cases he
      · refine ⟨fun d hd => ?_, run_of_justified hD hjustified⟩
        obtain ⟨-, -, hlook, -, -, -, -⟩ := hjustified
        obtain ⟨od, -, hd⟩ := hlook d hd
        exact hd.1

/-- The total of a total, after a round over it in which two workers take turns. -/
theorem chain_value_justified : ∃ session ledger,
    Chronicle Proper (Session.new Sample.chain) session ledger ∧
      (session.graph.node (2 : Nat)).value? = some (2 : Nat) ∧
      (∀ d ∈ (session.graph.node (2 : Nat)).deps.keys, session.graph.isComplete d = true) ∧
      ∃ f, session.registry.find? (2 : Nat) = some f ∧
        ∀ (s : Setting Sample.domain) (n : Nat) (scratch : Option (Scratch Sample.domain))
          (r : Round Sample.domain), r.graph = session.graph → r.interrupted = false →
            ∃ inv, (f (2 : Nat) n).run s (2 : Nat) (.start scratch) r = (.value (2 : Nat), inv, r) ∧
              DepGroups.ofBatches inv.batches = (session.graph.node (2 : Nat)).deps := by
  have hrun : ((Session.new Sample.chain).evaluateWith 200 2 (· % 2) [(2 : Nat)] true
      fun _ => false).map (fun x => (x.1.graph.node (2 : Nat)).value?) = some (some (2 : Nat)) := by
    rfl
  obtain ⟨⟨session, e⟩, hround, hvalue⟩ := Option.map_eq_some_iff.mp hrun
  have hproper : (Session.new Sample.chain).Proper (.round 2 [(2 : Nat)] true fun _ => false) :=
    Sample.heeds_chain
  have hchronicle : Chronicle Proper (Session.new Sample.chain) session _ :=
    .step .start hproper (does_of_evaluateWith hround)
  refine ⟨session, _, hchronicle, hvalue, ?_⟩
  refine values_justified Sample.exact_domain Sample.batchStrict_chain hchronicle hvalue ?_
  rintro ⟨hgiven | hgiven, -⟩
  · exact List.not_mem_nil hgiven
  · exact hgiven

end Session

end MemoGraph
