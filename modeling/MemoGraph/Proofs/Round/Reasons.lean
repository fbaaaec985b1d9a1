import MemoGraph.Proofs.Cycle.Breaking
import MemoGraph.Proofs.Round.Commits
import MemoGraph.Proofs.Round.Descent

/-!
# Failures that say why

A failure says why if it carries a declared fault or a cycle.  A key that cannot complete because
its dependencies failed takes over their cycles, but not those that it is on itself, so it could be
left with nothing to say.  That cannot happen while the graph is *intact*: the members of every
cycle that can be read are complete, and a key that is being evaluated is not.

Rounds keep the graph intact even where edges of a cycle were forgotten.  A key without dependencies
is never dirty, so what such a member holds is not confirmed again by a check.
-/

set_option autoImplicit false

namespace MemoGraph

variable {D : Domain}

namespace Failure

variable {K E : Type}

/-- The failure carries a declared fault or a cycle. -/
def HasReason (e : Failure K E) : Prop := e.fault.isSome = true ∨ e.cycles ≠ []

instance (e : Failure K E) : Decidable e.HasReason :=
  decidable_of_iff (e.fault.isSome = true ∨ e.cycles.isEmpty = false) (by simp [HasReason])

/-- A key is left with a reason if its dependencies have one and it is on none of their cycles. -/
theorem hasReason_ofChildren [DecidableEq K] {k : K} {children : List (Failure K E)}
    (hne : children ≠ []) (h : ∀ child ∈ children, child.HasReason)
    (hk : ∀ child ∈ children, ∀ c ∈ child.cycles, k ∉ c.members) :
    (ofChildren k children).HasReason := by
  obtain ⟨child, hchild⟩ := List.exists_mem_of_ne_nil _ hne
  rcases h child hchild with hfault | hcycles
  · exact .inl (List.findSome?_isSome_iff.mpr ⟨child, hchild, hfault⟩)
  · obtain ⟨c, hc⟩ := List.exists_mem_of_ne_nil _ hcycles
    refine .inr (List.ne_nil_of_mem (a := c.seenFrom k) ?_)
    exact mem_cyclesBelow.mpr ⟨child, hchild, c, hc, hk child hchild c hc, rfl⟩

/-- Seen from above, a failure has the reason it has. -/
theorem HasReason.seenAlong {child : Failure K E} (h : child.HasReason) (chain : List K) :
    (Failure.seenAlong chain child).HasReason := by
  refine h.imp id fun hcycles => ?_
  have hfold : (chain.foldr (fun k cycles => cycles.map (Cycle.seenFrom k)) child.cycles) ≠ [] := by
    induction chain with
    | nil => exact hcycles
    | cons k chain ih => exact fun hnil => ih (List.map_eq_nil_iff.mp hnil)
  exact hfold

end Failure

/-- A failure has a reason. -/
def reasonAccount : Account D where
  holds _ _ o _ := ∀ e, o = .failure e → e.HasReason
  mono _ h := h

theorem stable_reasonAccount : (reasonAccount (D := D)).Stable := by
  intro k deps o o' relies hsame h e' he'
  subst he'
  cases o with
  | value v => exact Bool.noConfusion hsame
  | failure e =>
      refine (h e rfl).imp (Failure.isSome_fault_of_same hsame).trans fun hcycles => ?_
      simp only [Outcome.same, Failure.same, Bool.and_eq_true, decide_eq_true_eq] at hsame
      exact hsame.1.2 ▸ hcycles

theorem exemptsValues_reasonAccount : (reasonAccount (D := D)).ExemptsValues := by
  intro k deps v relies e he
  cases he

/-- A failure answers for the cycles it names, unless it has no dependencies. -/
def frailAccount : Account D where
  holds k deps o relies := deps.keys = [] ∨ cycleAccount.holds k deps o relies
  mono hmore h := h.imp id (cycleAccount.mono hmore)

theorem stable_frailAccount : (frailAccount (D := D)).Stable :=
  fun hsame h => h.imp id (stable_cycleAccount hsame)

theorem exemptsValues_frailAccount : (frailAccount (D := D)).ExemptsValues :=
  fun v => .inr (exemptsValues_cycleAccount v)

namespace Graph

/-- The members of every cycle behind a failure that can be read are complete. -/
def Intact (g : Graph D) : Prop :=
  ∀ k e, g.Shows k (.failure e) → ∀ c ∈ e.cycles, ∀ m ∈ c.members, g.isComplete m = true

/-- Every key that is to be checked has dependencies. -/
def Checkable (g : Graph D) : Prop :=
  ∀ k, (g.node k).status = .dirty → (g.node k).deps.keys ≠ []

/-- Every failure that can be read and names cycles has dependencies. -/
def Anchored (g : Graph D) : Prop :=
  ∀ k e, (g.node k).failure? = some e → e.cycles ≠ [] → (g.node k).deps.keys ≠ []

variable {g g' : Graph D}

theorem Accounted.of_frail {k : D.Key} (h : g.Accounted frailAccount k)
    (hk : (g.node k).deps.keys ≠ []) : g.Accounted cycleAccount k :=
  fun hkept o ho => (h hkept o ho).resolve_left hk

/-- Where all failures are anchored, all of them answer for their cycles. -/
theorem Anchored.accounted (h : g.Anchored) (hfrail : ∀ x, g.Accounted frailAccount x)
    (hcheck : g.Checkable) (x : D.Key) : g.Accounted cycleAccount x := by
  intro hkept o ho e he c hc
  refine (hfrail x).of_frail ?_ hkept o ho e he c hc
  rcases hkept with hcurrent | hdirty
  · subst he
    exact h x e (failure?_of_shows ⟨Node.isComplete_iff.mpr hcurrent, ho⟩) (List.ne_nil_of_mem hc)
  · exact hcheck x hdirty

/-- If every key answers for its part, what loses its trust takes it from all that names it. -/
theorem Retains.intact (hr : g.Retains g') (h : ∀ x, g.Accounted cycleAccount x) : g'.Intact := by
  intro k e ⟨hk, ho⟩ c hc m hm
  have hshows : g.Shows k (.failure e) := ⟨hr.complete hk, (hr.outcome hk).symm.trans ho⟩
  exact (ties_of_accounted h hshows hc).2 (fun y => g'.isComplete y = true)
    (fun y d hd hdc hy => hr.dep hy hd hdc) hk m (List.mem_append_right _ hm)

theorem Checkable.invalidate (h : g.Checkable) (hm : g.Mirrored) (keys : List D.Key) :
    (g.invalidate keys).1.Checkable := by
  intro k hk
  have hdeps : ((g.invalidate keys).1.node k).deps = (g.node k).deps := by rw [node_invalidate_eq]
  rw [hdeps]
  rcases status_invalidate g keys k with hs | ⟨hs, -⟩ | ⟨-, hs⟩
  · exact h k (hs.symm.trans hk)
  · obtain ⟨d, hd⟩ := hm.exists_dep_of_dirtied (Node.isComplete_iff.mpr hs) hk
    exact List.ne_nil_of_mem hd
  · rw [hs] at hk
    cases hk

theorem Checkable.delete (h : g.Checkable) (p : D.Key → Bool) : (g.delete p).1.Checkable := by
  intro k hk
  have hmemo := memo_delete g p k
  split at hmemo
  · rw [(Node.memo_eq_iff.mp hmemo).1] at hk
    cases hk
  · obtain ⟨hs, -, hdeps, -⟩ := Node.memo_eq_iff.mp hmemo
    rw [hdeps]
    exact h k (hs.symm.trans hk)

end Graph

namespace Round

variable {s : Setting D} {r r' : Round D}

/-- A key that is still dirty stores what it stored before the round. -/
theorem Atomic.checkable {g : Graph D} (h : Atomic g r) (hg : g.Checkable) : r.graph.Checkable := by
  intro k hk
  have hinc : r.graph.isComplete k = false := by simp [Graph.isComplete, Node.isComplete, hk]
  obtain ⟨hs, -, hdeps, -⟩ := Node.memo_eq_iff.mp (h.memo_of_incomplete hinc)
  rw [hdeps]
  exact hg k (hs.symm.trans hk)

/-- One step: a member that forgets its edges has no dependencies, any other answers for its
cycles. -/
theorem frailAccount_step (h : ∀ x, r.graph.Accounted frailAccount x) (hg : Grounded s r)
    (hc : Checks r) (hrec : Recorded r) (ht : r.halted = true ∨ Tally r none 0 [])
    (hstep : r.step s = some r') : ∀ x, r'.graph.Accounted frailAccount x := by
  refine accounted_step stable_frailAccount h hg hc ht hstep
    (fun _ _ _ _ _ _ _ _ _ _ hq hi ho => .inr (pays_cycleAccount hg hq hi ho)) ?_
  intro hh _ _ c hfound k hk
  have htally := ht.resolve_left (by simp [hh])
  by_cases hforgets : r.Forgets k
  · obtain ⟨t, htask, hm, hreq⟩ := hforgets
    obtain ⟨-, hdeps⟩ := failed_of_member (s := s) htally hfound hk htask
    refine fun _ o _ => .inl ?_
    rw [hdeps, depsOfMember, if_pos hm, hreq]
    rfl
  · exact fun hkept o ho => .inr (cycleAccount_member htally hrec hfound hk hforgets hkept o ho)

/-- One step keeps the graph intact: what is new names cycles that could be read before, or those
that are broken in the step. -/
theorem intact_step (h : r.graph.Intact) (hfrail : ∀ x, r.graph.Accounted frailAccount x)
    (hcheck : r.graph.Checkable) (hg : Grounded s r) (hc : Checks r)
    (ht : r.halted = true ∨ Tally r none 0 []) (hstep : r.step s = some r') : r'.graph.Intact := by
  have hkeep {x : D.Key} (hx : r.graph.isComplete x = true) :
      (r'.graph.node x).memo = (r.graph.node x).memo := Tally.memo_step ht hstep hx
  have hmono {x : D.Key} (hx : r.graph.isComplete x = true) : r'.graph.isComplete x = true :=
    (Node.isComplete_of_memo_eq (hkeep hx)).trans hx
  intro x e hshows c hcycle m hm
  cases hx : r.graph.isComplete x with
  | true => exact hmono (h x e ((Graph.shows_of_memo_eq (hkeep hx)).mp hshows) c hcycle m hm)
  | false =>
      rcases paid_of_step stable_cycleAccount
        (fun y hy => (hfrail y).of_frail (hcheck y hy)) hg hc ht hstep (pays_cycleAccount hg) hx
        hshows with hpaid | ⟨⟨hh, rfl⟩, e', he', halike⟩
      · rcases hpaid e rfl c hcycle with ⟨-, hmem, hnext⟩ | ⟨d, -, e', hd, c', hc', rfl⟩
        · obtain ⟨d, hedge⟩ := Cycle.exists_edge_of_mem hmem
          obtain ⟨-, e', hd, hc'⟩ := hnext d hedge
          exact hmono (h d e' hd c hc' m hm)
        · exact hmono (h d e' hd c' hc' m hm)
      · obtain rfl := Outcome.failure.inj he'
        obtain ⟨c₀, hfound, -, rfl⟩ := mem_cyclesOf.mp (halike.cycles ▸ hcycle)
        obtain ⟨e', hshows', -⟩ := shows_of_member (ht.resolve_left (by simp [hh])) hfound hm
        exact hshows'.1

/-- In an intact graph the failures that an invocation saw leave its key with a reason: none of them
names a cycle through a key that is being evaluated. -/
theorem hasReason_of_invoked (h : ∀ x, r.graph.Accounted reasonAccount x)
    (hintact : r.graph.Intact) (hg : Grounded s r) (ht : Tally r none 0 []) {k : D.Key}
    {rest : List D.Key} {t : Task D} {waiters : OrderedSet D.Key} {f : Function D}
    {ending : Ending D} {inv : Invocation D} {r₁ : Round D}
    (hi : Invoked s { r with queue := rest } k t waiters f ending inv r₁)
    (hne : inv.failedReads ≠ []) : (Failure.ofChildren k inv.failedReads).HasReason := by
  have hpop : Grounded s { r with queue := rest } := { hg with }
  have hk : r.graph.isComplete k = false := ht.unfinished k t hi.task
  have hchild (child) (hmem : child ∈ inv.failedReads) : ∃ d, r.graph.Shows d (.failure child) := by
    obtain ⟨d, -, hshows⟩ := hi.child hpop child (List.mem_append_right _ hmem)
    exact ⟨d, (Graph.shows_congr hi.reads.node).mp hshows⟩
  refine Failure.hasReason_ofChildren hne (fun child hmem => ?_) fun child hmem c hc hmember => ?_
  · obtain ⟨d, hshows⟩ := hchild child hmem
    exact (h d).of_complete hshows.1 hshows.2 child rfl
  · obtain ⟨d, hshows⟩ := hchild child hmem
    exact Bool.noConfusion ((hintact d child hshows c hc k hmember).symm.trans hk)

/-- In an intact graph every failure that a function leads to has a reason. -/
theorem pays_reasonAccount (h : ∀ x, r.graph.Accounted reasonAccount x) (hintact : r.graph.Intact)
    (hg : Grounded s r) (ht : Tally r none 0 []) : Pays s r reasonAccount := by
  intro k rest t waiters f ending inv r₁ o _ hi ho e he
  cases ho with
  | value _ => cases he
  | @fault fault =>
      obtain rfl := Outcome.failure.inj he
      rcases declaredFailure_cases k fault inv with ⟨child, -, heq⟩ | heq
      · exact .inl (heq ▸ rfl)
      · exact .inl (heq ▸ rfl)
  | blocked _ _ hne =>
      obtain rfl := Outcome.failure.inj he
      exact hasReason_of_invoked h hintact hg ht hi hne

/-- One step from an intact graph leaves no failure without a reason. -/
theorem reasonAccount_step (h : ∀ x, r.graph.Accounted reasonAccount x) (hintact : r.graph.Intact)
    (hg : Grounded s r) (hc : Checks r) (ht : r.halted = true ∨ Tally r none 0 [])
    (hstep : r.step s = some r') : ∀ x, r'.graph.Accounted reasonAccount x := by
  have htally (hh : r.halted = false) : Tally r none 0 [] := ht.resolve_left (by simp [hh])
  refine accounted_step stable_reasonAccount h hg hc ht hstep
    (fun hh => pays_reasonAccount h hintact hg (htally hh)) ?_
  intro hh _ _ c hfound k hk
  obtain ⟨e, hshows, hnames, -⟩ := shows_of_member (s := s) (htally hh) hfound hk
  refine hshows.accounted fun e' he' => ?_
  obtain rfl := Outcome.failure.inj he'
  exact .inr (List.ne_nil_of_mem hnames)

/-- A root that was not completed shows a failure that some key holds, as it is seen from the
root. -/
theorem hasReason_failureBelow (h : ∀ x, r.graph.Accounted reasonAccount x) {root : D.Key}
    {e : Failure D.Key D.Fault} (he : r.failureBelow root = some e) : e.HasReason := by
  obtain ⟨⟨chain, child⟩, hfound, rfl⟩ := Option.map_eq_some_iff.mp he
  obtain ⟨-, d, -, -, -, hd⟩ := way_of_descend root (fun _ hk => hk)
    (fun entry hentry => List.mem_singleton.mp hentry ▸ .refl) hfound
  have hshows := Graph.shows_of_failure? hd
  exact ((h d).of_complete hshows.1 hshows.2 child rfl).seenAlong chain

/-- Every failure in a report has a reason. -/
theorem hasReason_report (h : ∀ x, r.graph.Accounted reasonAccount x) {root : D.Key}
    {e : Failure D.Key D.Fault} (he : (r.report s).failures.get? root = some e) : e.HasReason := by
  rcases (shows_of_failure he).2 with hshows | hbelow
  · exact (h root).of_complete hshows.1 hshows.2 e rfl
  · exact hasReason_failureBelow h hbelow

end Round

end MemoGraph
