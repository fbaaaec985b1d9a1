import MemoGraph.Proofs.Cycle.Breaking
import MemoGraph.Proofs.Sample
import MemoGraph.Proofs.Session.Accounts

/-!
# Memoized outcomes are justified

In every state of a session whose functions are batch strict, every outcome that did not come from
outside is what its function makes of the outcomes of the recorded dependencies, which are all
complete.  Where cycles may be met this is so for values.  Rounds may end in any way.
-/

set_option autoImplicit false

namespace MemoGraph

variable {D : Domain}

/-- Outcomes that need no justification, given the events of the round so far. -/
structure Exemption (D : Domain) where
  /-- The outcome of the key needs no justification. -/
  holds : List (Event D) → Exempt D
  /-- Neither do outcomes that count as the same. -/
  same : ∀ {log k deps o o'}, o'.same o = true → holds log k deps o → holds log k deps o'
  /-- Only completions of the key other than by a confirmation can end this. -/
  keep : ∀ {log log' k deps o},
    (∀ how, .completed k how ∈ log' → .completed k how ∈ log ∨ how = .clean) →
      holds log k deps o → holds log' k deps o

namespace Round

variable {s : Setting D} {r r' : Round D} (E : Exemption D)

/-- One step keeps outcomes justified if broken cycles need no justification. -/
theorem justified_step (hD : D.Exact) (hstrict : s.registry.BatchStrict)
    (h : ∀ x, r.graph.Accounted (justification s.registry (E.holds r.log)) x)
    (hg : Grounded s r) (hc : Checks r) (ha : Asked s r)
    (ht : r.halted = true ∨ Tally r none 0 []) (hstep : r.step s = some r')
    (hbroken : r.halted = false → r.stopping = false → r.queue = [] →
      ∀ c ∈ r.heldUpBy s, ∀ k ∈ c.members, ∀ deps e, E.holds r'.log k deps (.failure e)) :
    ∀ x, r'.graph.Accounted (justification s.registry (E.holds r'.log)) x := by
  have hkeep {built : D.Key → Prop} (hb : OnlyBuilt built r r') {x : D.Key} (hx : ¬ built x)
      {deps : DepGroups D.Key} {o : Outcome D} {relies : D.Key → Outcome D → Prop}
      (hh : (justification s.registry (E.holds r.log)).holds x deps o relies) :
      (justification s.registry (E.holds r'.log)).holds x deps o relies := by
    refine hh.imp (E.keep fun how hmem => ?_) id
    rcases hb x how hmem with hold | hclean | hbuilt
    · exact .inl hold
    · exact .inr hclean
    · exact absurd hbuilt hx
  cases advance_of_step hstep with
  | skipped _ _ => exact h
  | @acted k rest r' hq hh hm =>
      have htally := ht.resolve_left (by simp [hh])
      have hpop : Asked s { r with queue := rest } := ha
      refine accounted_move (stable_justification hD E.same) h hg hc htally hq hm
        (fun built hb x hx => hkeep hb hx) ?_
      intro t waiters f ending inv r₁ o hi ho
      obtain ⟨plan, hplan⟩ := hstrict k f hi.function k
      exact .inr (justified_of_concludes hD hpop hi hplan ho)
  | broken hq hh hstop _ =>
      have htally := ht.resolve_left (by simp [hh])
      intro x
      by_cases hx : ∃ c ∈ r.heldUpBy s, x ∈ c.members
      · obtain ⟨c, hc, hmem⟩ := hx
        obtain ⟨t, htask⟩ := Table.mem_keys_iff.mp ((Cycle.sound_of_mem_find hc).inside x hmem)
        obtain ⟨⟨e, hshows, -⟩, -⟩ := failed_of_member (s := s) htally hc hmem htask
        intro _ o ho
        obtain rfl := Option.some.inj (hshows.2.symm.trans ho)
        exact .inl (hbroken hh hstop hq c hc x hmem _ e)
      · have hx' : ∀ c ∈ r.heldUpBy s, x ∉ c.members := fun c hc hmem => hx ⟨c, hc, hmem⟩
        exact (accounted_failMembers h hg htally _ hx').imp
          fun _ _ _ _ _ => hkeep (onlyBuilt_failMembers s r _) hx

end Round

namespace Session

/-- Outcomes stay justified throughout a round. -/
theorem justified_of_passes (hD : D.Exact) {session : Session D} (E : Exemption D)
    (hstrict : session.registry.BatchStrict) (hg : session.graph.Grounded session.version)
    (hopening : ∀ x, (session.injectedGraph (session.version + 1)).Accounted
      (justification session.registry (E.holds [])) x)
    {roots : List D.Key} {keepGoing : Bool} {observer : List (Event D) → Bool} {r : Round D}
    (hbroken : ∀ r, session.Passes (session.setting roots keepGoing observer) r →
      r.halted = false → r.stopping = false → r.queue = [] →
      ∀ c ∈ r.heldUpBy (session.setting roots keepGoing observer), ∀ k ∈ c.members,
        ∀ log deps e, E.holds log k deps (.failure e))
    (hr : session.Passes (session.setting roots keepGoing observer) r) :
    ∀ x, r.graph.Accounted (justification session.registry (E.holds r.log)) x := by
  obtain ⟨hgo, hbo⟩ := grounded_opening hg
  induction hr with
  | refl =>
      refine Round.start_induction (P := fun r => ∀ x,
        r.graph.Accounted (justification session.registry (E.holds r.log)) x) hopening ?_
      intro k _ r h x
      have hreads := Round.reads_demand (session.setting roots keepGoing observer) r k
      refine ((h x).of_node hreads.node).imp fun _ _ _ _ _ hh => ?_
      exact hh.imp (E.keep fun how hmem => .inl ((hreads.completed x how).mp hmem)) id
  | @tail r r' hr hstep ih =>
      refine Round.justified_step E hD hstrict ih (.of_reaches hgo hbo hr) (.of_reaches hr)
        (Round.asked_of_reaches hr) (Round.tally_of_reaches hr) hstep ?_
      intro hh hstop hq c hc k hk deps e
      exact hbroken r hr hh hstop hq c hc k hk r'.log deps e

/-! ## Histories -/

/-- A change of functions that is reported: functions stay batch strict, and do the same as before
for all keys but the named ones. -/
def ReportsChanges (session : Session D) : Operation D → Prop
  | .change registry keys => registry.BatchStrict ∧
      ∀ k, k ∉ keys → (registry.find? k).map (· k) = (session.registry.find? k).map (· k)
  | _ => True

/-- Some state of the round has a cycle to break. -/
def MeetsCycles (session : Session D) : Operation D → Prop
  | .evaluate _ roots keepGoing observer =>
      ∃ r, session.Passes (session.setting roots keepGoing observer) r ∧ r.halted = false ∧
        r.stopping = false ∧ r.queue = [] ∧
        r.heldUpBy (session.setting roots keepGoing observer) ≠ []
  | _ => False

/-- The last value injected under a key needs no justification while the key holds it, depending on
nothing; if `lenient`, neither do failures. -/
def Excused (lenient : Prop) (latest : Table D.Key D.Value) (supplied : D.Key → Prop) : Exempt D :=
  fun k deps o =>
    (supplied k ∧ deps = ∅ ∧ ∃ v, latest.get? k = some v ∧ o = .value v) ∨
      (lenient ∧ ∃ e, o = .failure e)

/-- What counts as an excused outcome is excused. -/
theorem Excused.same (hD : D.Exact) {lenient : Prop} {latest : Table D.Key D.Value}
    {supplied : D.Key → Prop} {k : D.Key} {deps : DepGroups D.Key} {o o' : Outcome D}
    (hsame : o'.same o = true) (h : Excused lenient latest supplied k deps o) :
    Excused lenient latest supplied k deps o' := by
  rcases h with ⟨hk, hdeps, v, hv, rfl⟩ | ⟨hlenient, e, rfl⟩
  · exact .inl ⟨hk, hdeps, v, hv, Outcome.eq_of_same_value hD hsame⟩
  · refine .inr ⟨hlenient, ?_⟩
    cases o' with
    | value v => cases hsame
    | failure e' => exact ⟨e', rfl⟩

/-- What is excused if one more key holds what it was given is excused then. -/
theorem Excused.imp {lenient : Prop} {latest : Table D.Key D.Value}
    {supplied supplied' : D.Key → Prop} {k : D.Key} {deps : DepGroups D.Key} {o : Outcome D}
    (hk : supplied k → supplied' k) (h : Excused lenient latest supplied k deps o) :
    Excused lenient latest supplied' k deps o :=
  Or.imp_left (And.imp_left hk) h

/-- What is excused in the middle of a round: a key that is built gives up what it was given. -/
def excuses (hD : D.Exact) (lenient : Prop) (session : Session D) (ledger : Ledger D) :
    Exemption D where
  holds log := Excused lenient ledger.latest fun k =>
    (k ∈ session.injections.keys ∨ ledger.supplied k) ∧
      ∀ how, .completed k how ∈ log → how = .clean
  same hsame h := h.same hD hsame
  keep hlog h := h.imp fun ⟨hgiven, hold⟩ =>
    ⟨hgiven, fun how hmem => (hlog how hmem).elim (hold how) id⟩

/-- What is to be injected was the last to be given. -/
def Noted (session : Session D) (ledger : Ledger D) : Prop :=
  ∀ k v, session.injections.get? k = some v → ledger.latest.get? k = some v

/-- Every operation keeps this. -/
theorem Performs.noted {session session' : Session D} {ledger : Ledger D} {op : Operation D}
    {events : List (Event D)} (h : session.Performs op session' events)
    (hr : session.Noted ledger) : session'.Noted (ledger.enter session op events) := by
  intro k v hv
  cases h with
  | evaluate _ _ => cases hv
  | invalidate keys => exact hr k v hv
  | inject values => exact Table.get?_foldl_insert_of_agree (fun v hv => hr k v hv) hv
  | delete p =>
      have hv' : (session.injections.filterKeys fun k => !p k).get? k = some v := hv
      rw [Table.get?_filterKeys] at hv'
      split at hv'
      · exact hr k v hv'
      · cases hv'
  | change registry keys => exact hr k v hv
  | interrupt => exact hr k v hv

theorem noted_of_history {permitted : Session D → Operation D → Prop} {registry : Registry D}
    {session : Session D} {ledger : Ledger D}
    (h : History permitted (Session.new registry) session ledger) : session.Noted ledger := by
  induction h with
  | start =>
      intro k v hv
      cases hv
  | step _ _ hop ih => exact (performs_of_perform hop).noted ih

/-- A key that keeps its outcome over an injection holds what was injected. -/
theorem Excused.inject (hD : D.Exact) {lenient : Prop} {latest : Table D.Key D.Value}
    {supplied : D.Key → Prop} {session : Session D} {values : List (D.Key × D.Value)} {k : D.Key}
    (hkept : ((session.inject values).1.graph.node k).IsKept) {deps : DepGroups D.Key}
    {o : Outcome D} (ho : ((session.inject values).1.graph.node k).outcome = some o)
    (h : Excused lenient latest supplied k deps o) :
    Excused lenient (values.foldl (fun t e => t.insert e.1 e.2) latest) supplied k deps o := by
  refine Or.imp_left (fun ⟨hk, hdeps, v, hv, hout⟩ => ⟨hk, hdeps, v, ?_, hout⟩) h
  apply Table.get?_foldl_insert_of_forall _ hv
  intro w hw
  have hnot : k ∉ (values.filter fun e => !session.hasValue e.1 e.2).map Prod.fst :=
    fun hmem => Graph.not_isKept_invalidate hmem hkept
  have hstored : (session.graph.node k).outcome = some (.value v) := by
    have hsame : ((session.inject values).1.graph.node k).outcome =
        (session.graph.node k).outcome := by
      show ((session.graph.invalidate _).1.node k).outcome = _
      rw [Graph.node_invalidate_eq]
    rw [← hsame, ho, hout]
  cases hhas : session.hasValue k w with
  | true =>
      have hholds := holds_of_hasValue hhas
      rw [Node.holds, hstored] at hholds
      exact ((hD.value v w).mp hholds).symm
  | false =>
      refine absurd (List.mem_map.mpr ⟨(k, w), ?_, rfl⟩) hnot
      exact List.mem_filter.mpr ⟨hw, by simp [hhas]⟩

/-- Outcomes are justified when the injections of a round have taken effect: what was injected is
excused, and what was excused before stays so. -/
theorem excused_opening (hD : D.Exact) {lenient : Prop} {session : Session D} {ledger : Ledger D}
    (hg : session.graph.Grounded session.version) (hp : session.Pending)
    (hl : session.Noted ledger) (hall : ∀ x, session.graph.Accounted
      (justification session.registry (Excused lenient ledger.latest ledger.supplied)) x)
    {given : D.Key → Prop}
    (hgiven : ∀ k, k ∈ session.injections.keys ∨ ledger.supplied k → given k) :
    ∀ x, (session.injectedGraph (session.version + 1)).Accounted
      (justification session.registry (Excused lenient ledger.latest given)) x := by
  apply accounted_opening hg hp hall
  · intro x _ deps o relies hh
    exact hh.imp (Excused.imp fun hk => hgiven x (.inr hk)) id
  · intro k v hv o relies ho
    have hk : given k := hgiven k (.inl (Table.mem_keys_iff.mpr ⟨v, hv⟩))
    have hexcused : Excused lenient ledger.latest given k ∅ (.value v) :=
      .inl ⟨hk, rfl, v, hl k v hv, rfl⟩
    rcases ho with rfl | ho
    · exact .inl hexcused
    · exact .inl (hexcused.same hD ho)

/-- Outcomes are justified throughout a round. -/
theorem excused_of_passes (hD : D.Exact) {lenient : Prop} {session : Session D}
    {ledger : Ledger D} (hg : session.graph.Grounded session.version) (hp : session.Pending)
    (hl : session.Noted ledger) (hstrict : session.registry.BatchStrict)
    (hall : ∀ x, session.graph.Accounted
      (justification session.registry (Excused lenient ledger.latest ledger.supplied)) x)
    {budget : Nat} {roots : List D.Key} {keepGoing : Bool} {observer : List (Event D) → Bool}
    (hcycles : lenient ∨ ¬ session.MeetsCycles (.evaluate budget roots keepGoing observer))
    {r : Round D} (hr : session.Passes (session.setting roots keepGoing observer) r) :
    ∀ x, r.graph.Accounted
      (justification session.registry ((excuses hD lenient session ledger).holds r.log)) x := by
  have hopening : ∀ x, (session.injectedGraph (session.version + 1)).Accounted
      (justification session.registry ((excuses hD lenient session ledger).holds [])) x :=
    excused_opening hD hg hp hl hall fun k hk => ⟨hk, fun how hmem => absurd hmem List.not_mem_nil⟩
  refine justified_of_passes hD (excuses hD lenient session ledger) hstrict hg hopening ?_ hr
  intro r' hr' hh hstop hq c hc k _ log deps e
  rcases hcycles with hlenient | hnone
  · exact .inr ⟨hlenient, e, rfl⟩
  · exact absurd ⟨r', hr', hh, hstop, hq, List.ne_nil_of_mem hc⟩ hnone

/-- Every reported operation leaves outcomes justified; if failures are not excused, it may not meet
cycles. -/
theorem Performs.justified (hD : D.Exact) {lenient : Prop} {session session' : Session D}
    {ledger : Ledger D} {op : Operation D} {events : List (Event D)}
    (h : session.Performs op session' events) (hg : session.graph.Grounded session.version)
    (hp : session.Pending) (hl : session.Noted ledger) (hreports : session.ReportsChanges op)
    (hcycles : lenient ∨ ¬ session.MeetsCycles op) (hstrict : session.registry.BatchStrict)
    (hall : ∀ x, session.graph.Accounted
      (justification session.registry (Excused lenient ledger.latest ledger.supplied)) x) :
    session'.registry.BatchStrict ∧ ∀ x, session'.graph.Accounted
      (justification session'.registry (Excused lenient (ledger.enter session op events).latest
        (ledger.enter session op events).supplied)) x := by
  have hm := hg.mirrored
  cases h with
  | evaluate hr _ =>
      refine ⟨hstrict, fun x => ?_⟩
      have hround := excused_of_passes hD hg hp hl hstrict hall hcycles hr x
      refine hround.imp fun _ _ _ _ _ hh => hh.imp (fun hex => ?_) id
      refine Or.imp_left (fun ⟨⟨hgiven, hbuilt⟩, hrest⟩ => ⟨⟨hgiven, ?_⟩, hrest⟩) hex
      exact fun how hmem => hbuilt how (List.mem_reverse.mp hmem)
  | invalidate keys => exact ⟨hstrict, fun x => (hall x).invalidate hm keys⟩
  | inject values =>
      refine ⟨hstrict, fun x => ?_⟩
      exact ((hall x).invalidate hm _).imp fun hk _ _ _ ho hh =>
        hh.imp (Excused.inject hD hk ho) id
  | delete p => exact ⟨hstrict, fun x => (hall x).delete hm p⟩
  | change registry keys =>
      refine ⟨hreports.1, fun x => ((hall x).invalidate hm keys).imp fun hk _ _ _ _ hh => ?_⟩
      refine hh.imp id (Justified.program (hreports.2 x fun hx => ?_))
      exact Graph.not_isKept_invalidate hx hk
  | interrupt => exact ⟨hstrict, hall⟩

/-- Outcomes are justified in every state of a session whose functions are batch strict and whose
changes of functions are reported; if failures are not excused, no cycles may be met. -/
theorem justified_of_history (hD : D.Exact) (lenient : Prop)
    {permitted : Session D → Operation D → Prop}
    (hpermitted : ∀ session op, permitted session op →
      session.ReportsChanges op ∧ (lenient ∨ ¬ session.MeetsCycles op))
    {registry : Registry D} (hstrict : registry.BatchStrict) {session : Session D}
    {ledger : Ledger D} (h : History permitted (Session.new registry) session ledger) :
    session.registry.BatchStrict ∧ ∀ x, session.graph.Accounted
      (justification session.registry (Excused lenient ledger.latest ledger.supplied)) x := by
  induction h with
  | start =>
      refine ⟨hstrict, fun x _ o ho => ?_⟩
      cases ho
  | @step session session' ledger op events hprev hop' hop ih =>
      obtain ⟨hreports, hcycles⟩ := hpermitted session op hop'
      exact (performs_of_perform hop).justified hD (grounded_of_history hprev)
        (pending_of_history hprev) (noted_of_history hprev) hreports hcycles ih.1 ih.2

end Session

end MemoGraph
