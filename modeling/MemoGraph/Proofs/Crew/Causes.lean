import MemoGraph.Proofs.Crew.Accounts
import MemoGraph.Proofs.Round.Causes

/-!
# What failures are blamed on when several workers read

An invocation may be shown the failure of a key that it found missing a moment before.  Still every
failure it was shown is held by a key that it requested, and stays so.  That is enough to pay for
the root causes of its outcome, and to trace them, as with one worker.
-/

set_option autoImplicit false

namespace MemoGraph

variable {D : Domain} {s : Setting D} {l l' : Live D} {st st' : Stage D}
  {others : Multiset (Stage D)} {k : D.Key}

/-- Every failure that an invocation met is held by a key that it requested. -/
def Graph.Witnesses (g : Graph D) (inv : Invocation D) : Prop :=
  ∀ e ∈ inv.shown ++ inv.failedReads, ∃ d, (∃ batch ∈ inv.batches, d ∈ batch) ∧
    g.Shows d (.failure e)

namespace Graph.Witnesses

variable {g g' : Graph D} {inv : Invocation D}

theorem start (g : Graph D) (scratch : Option (Scratch D)) : g.Witnesses (.start scratch) :=
  fun _ he => absurd he List.not_mem_nil

theorem mono (h : g.Witnesses inv) (hshows : ∀ d o, g.Shows d o → g'.Shows d o) :
    g'.Witnesses inv := by
  intro e he
  obtain ⟨d, hd, hd'⟩ := h e he
  exact ⟨d, hd, hshows d _ hd'⟩

theorem request (h : g.Witnesses inv) (batch : List D.Key) :
    g.Witnesses { inv with batches := inv.batches ++ [batch] } := by
  intro e he
  obtain ⟨d, ⟨keys, hkeys, hd⟩, hshows⟩ := h e he
  exact ⟨d, ⟨keys, List.mem_append_left _ hkeys, hd⟩, hshows⟩

/-- Noting the reply to a read of a requested key. -/
theorem note (h : g.Witnesses inv) (accepts : D.Fault → Bool) {dep : D.Key}
    (hdep : ∃ batch ∈ inv.batches, dep ∈ batch) {reply : Reply D}
    (hreply : ∀ e changedAt, reply = .failed e changedAt → g.Shows dep (.failure e)) :
    g.Witnesses (inv.note accepts dep reply).2 := by
  cases reply with
  | value _ _ | pending _ | interrupted => exact h
  | failed e changedAt =>
      have hshows := hreply e changedAt rfl
      have hmore (e' : Failure D.Key D.Fault)
          (he' : e' ∈ inv.shown ∨ e' ∈ inv.failedReads ∨ e' = e) :
          ∃ d, (∃ batch ∈ inv.batches, d ∈ batch) ∧ g.Shows d (.failure e') := by
        rcases he' with he' | he' | rfl
        · exact h e' (List.mem_append_left _ he')
        · exact h e' (List.mem_append_right _ he')
        · exact ⟨dep, hdep, hshows⟩
      simp only [Invocation.note]
      split
      · intro e' he'
        refine hmore e' ?_
        simp only [List.mem_append, List.mem_singleton] at he'
        tauto
      · intro e' he'
        refine hmore e' ?_
        simp only [List.mem_append, List.mem_singleton] at he'
        tauto

end Graph.Witnesses

/-- What is known of root causes in the middle of a key. -/
def causeRule : Rule D where
  task _ _ _ := True
  read l _ _ reader rest :=
    match reader with
    | .group _ _ _ => True
    | .batch inv _ _ _ =>
        l.graph.Witnesses inv ∧ ∃ batch ∈ inv.batches, ∀ d ∈ rest, d ∈ batch
  other l k _ st :=
    match st with
    | .running _ inv _ | .returned _ inv _ | .concluding _ inv _ => l.graph.Witnesses inv
    | .recording _ deps o _ => causeAccount.holds k deps o l.graph.Shows
    | .relinking _ _ _ o _ | .publishing _ o _ =>
        causeAccount.holds k (l.graph.node k).deps o l.graph.Shows
    | _ => True

theorem lawful_causeRule (s : Setting D) : (causeRule (D := D)).Lawful s where
  task _ _ _ _ := trivial
  read {l l' k t t' reader rest} h _ hr := by
    cases reader with
    | group i since seen => trivial
    | batch inv accepts answers next => exact ⟨hr.1.mono fun _ _ => h.shows, hr.2⟩
  other {l l' k t t' st} h _ hst := by
    have hmono {deps : DepGroups D.Key} {o : Outcome D}
        (hpaid : causeAccount.holds k deps o l.graph.Shows) :
        causeAccount.holds k deps o l'.graph.Shows :=
      causeAccount.mono (fun _ _ _ => h.shows) hpaid
    cases st with
    | running _ inv _ | returned _ inv _ | concluding _ inv _ =>
        exact Graph.Witnesses.mono hst fun _ _ => h.shows
    | recording _ deps o _ => exact hmono hst
    | relinking _ _ _ o _ | publishing _ o _ =>
        show causeAccount.holds k (l'.graph.node k).deps o l'.graph.Shows
        rw [h.deps]
        exact hmono hst
    | _ => trivial
  begun _ _ := trivial
  checks _ _ := trivial
  rebuilds _ _ := trivial
  passes _ _ := trivial
  regroups _ _ := trivial
  shown {l k t reader dep rest o} hr ho := by
    cases reader with
    | group i since seen => trivial
    | batch inv accepts answers next =>
        obtain ⟨hw, batch, hbatch, hrest⟩ := hr
        refine ⟨hw.note accepts ⟨batch, hbatch, hrest dep List.mem_cons_self⟩ ?_, ?_⟩
        · intro e changedAt he
          cases o with
          | value v => cases he
          | failure e' =>
              obtain rfl := (Reply.failed.inj he).1
              exact Graph.shows_of_settled ho
        · refine ⟨batch, ?_, fun d hd => hrest d (List.mem_cons_of_mem dep hd)⟩
          show batch ∈ (inv.note accepts dep (o.reply (l.graph.node dep).changedAt)).2.batches
          rwa [Round.batches_note]
  pending {l k t reader dep rest} enlisted hr := by
    cases reader with
    | group i since seen => trivial
    | batch inv accepts answers next =>
        obtain ⟨hw, batch, hbatch, hrest⟩ := hr
        exact ⟨hw, batch, hbatch, fun d hd => hrest d (List.mem_cons_of_mem dep hd)⟩
  cut {l k t inv accepts answers next dep rest} _ hr := by
    obtain ⟨hw, batch, hbatch, hrest⟩ := hr
    exact ⟨hw, batch, hbatch, fun d hd => hrest d (List.mem_cons_of_mem dep hd)⟩
  grouped _ := trivial
  answered hr := hr.1
  parked _ _ _ _ := trivial
  passed _ _ _ := trivial
  again _ := trivial
  calls _ _ := trivial
  invokes _ := .start _ _
  runs {l l' k t inv recipe st} hst h hk := by
    have hw : l.graph.Witnesses inv := hst
    cases recipe with
    | read batch accepts next =>
        obtain ⟨rfl, rfl⟩ := Prod.mk.inj h
        exact ⟨hw.request batch, batch, List.mem_append_right _ List.mem_cons_self,
          fun d hd => hd⟩
    | crash payload =>
        obtain ⟨rfl, rfl⟩ := Prod.mk.inj h
        cases hk
    | _ =>
        obtain ⟨rfl, rfl⟩ := Prod.mk.inj h
        exact hw
  heeds _ hst := hst
  absorbs _ _ _ _ _ := trivial
  repeats _ := trivial
  completes {l k t inv ending o} _ hst ho := by
    have hshown (child : Failure D.Key D.Fault) (hchild : child ∈ inv.shown ++ inv.failedReads) :
        ∃ d ∈ (t.requested.pushAll inv.batches).keys, l.graph.Shows d (.failure child) := by
      obtain ⟨d, hd, hshows⟩ := hst child hchild
      exact ⟨d, DepGroups.mem_keys_pushAll.mpr (.inr hd), hshows⟩
    cases ho with
    | value _ => exact exemptsValues_causeAccount _
    | @fault fault =>
        exact causeAccount_declared fault fun child hmem =>
          hshown child (List.mem_append_left _ hmem)
    | blocked =>
        exact causeAccount_ofChildren fun child hmem =>
          hshown child (List.mem_append_right _ hmem)
  rebuilt _ _ := causeAccount_ofCycles _
  checked _ := causeAccount_ofCycles _
  records {l l' k t deps o after dropped added} _ hst hothers hk _ := by
    refine ⟨trivial, ?_⟩
    have hshows (d : D.Key) (o : Outcome D) (hd : l.graph.Shows d o) : l'.graph.Shows d o := by
      by_cases hdk : d = k
      · obtain ⟨hstatus, hout, -⟩ := Node.memo_eq_iff.mp hk
        subst hdk
        exact ⟨Node.isComplete_iff.mpr (hstatus.trans (Node.isComplete_iff.mp hd.1)),
          hout.trans hd.2⟩
      · exact (Graph.shows_of_memo_eq (hothers d hdk)).mpr hd
    have hdeps : (l'.graph.node k).deps = deps := (Node.memo_eq_iff.mp hk).2.2.1
    show causeAccount.holds k (l'.graph.node k).deps o l'.graph.Shows
    rw [hdeps]
    exact causeAccount.mono (fun d _ o => hshows d o) hst
  relinks hst := hst
  linked hst := hst

/-- Root causes are an account that nothing can end. -/
def causeLedger : Ledgered D where
  account _ := causeAccount
  price := causeAccount
  stable _ := stable_causeAccount
  pays _ _ _ _ _ h := h
  keep _ h := h

/-! ## Traces -/

/-- What a worker stores is paid for out of what could be read before. -/
theorem paid_of_completion {A : Account D} (hA : A.Stable)
    (hall : ∀ k, st = .confirming k → l.graph.Accounted A k)
    (hconfirm : ∀ k, st = .confirming k → l.graph.Confirmable k)
    (hpaid : ∀ k o after, st = .publishing k o after →
      A.holds k (l.graph.node k).deps o l.graph.Shows)
    (hshifts : Shifts s l st l') {x : D.Key} (hx : l.graph.isComplete x = false) {o : Outcome D}
    (hshows : l'.graph.Shows x o) : A.holds x (l'.graph.node x).deps o l.graph.Shows := by
  have hnot (hmemo : (l'.graph.node x).memo = (l.graph.node x).memo) : False := by
    have hx' := ((Graph.shows_of_memo_eq hmemo).mp hshows).1
    rw [hx] at hx'
    cases hx'
  cases hshifts with
  | nothing _ hmemo => exact (hnot (hmemo x)).elim
  | @recorded k deps _ _ _ hk hmemo hmemo' =>
      by_cases hxk : x = k
      · subst hxk
        have hstatus := (Node.memo_eq_iff.mp hmemo').1
        have hx' : (l.graph.node x).status = .current :=
          hstatus.symm.trans (Node.isComplete_iff.mp hshows.1)
        rw [Graph.isComplete, Node.isComplete_iff.mpr hx'] at hx
        cases hx
      · exact (hnot (hmemo x hxk)).elim
  | @published k o' after hst hk hmemo =>
      by_cases hxk : x = k
      · subst hxk
        obtain ⟨-, hout, hdeps, -⟩ := Node.memo_eq_iff.mp (hmemo x)
        rw [Graph.node_publish, if_pos rfl] at hout hdeps
        have hstored := hout.symm.trans hshows.2
        rw [hdeps]
        rcases Node.outcome_publish _ hstored with rfl | hsame
        · exact hpaid x o after hst
        · exact hA hsame (hpaid x o' after hst)
      · refine (hnot ((hmemo x).trans ?_)).elim
        rw [Graph.node_publish, if_neg hxk]
  | @confirmed k hst hk hmemo =>
      by_cases hxk : x = k
      · subst hxk
        obtain ⟨hdirty, hdeps⟩ := hconfirm x hst
        obtain ⟨-, hout, hdeps', -⟩ := Node.memo_eq_iff.mp (hmemo x)
        rw [Graph.node_confirm, if_pos rfl] at hout hdeps'
        rw [hdeps']
        exact (hall x hst).of_unchanged hdirty (hout.symm.trans hshows.2) hdeps
      · refine (hnot ((hmemo x).trans ?_)).elim
        rw [Graph.node_confirm, if_neg hxk]

/-- One step keeps all root causes traceable: what is new blames what could be read before. -/
theorem causal_advance (h : l.graph.Causal) (hsparing : Sparing l st l')
    (hpaid : ∀ {x o}, l.graph.isComplete x = false → l'.graph.Shows x o →
      causeAccount.holds x (l'.graph.node x).deps o l.graph.Shows) : l'.graph.Causal := by
  have hmono {root x : D.Key} (hstems : l.graph.Stems root x) : l'.graph.Stems root x :=
    hstems.mono fun y _ hshows => hsparing.lasting y hshows.1
  intro x e hshows root hroot
  cases hx : l.graph.isComplete x with
  | true =>
      have hshows' := (Graph.shows_of_memo_eq (hsparing.lasting x hx)).mp hshows
      exact hmono (h x e hshows' root hroot)
  | false =>
      rcases hpaid hx hshows e rfl root hroot with ⟨rfl, hown⟩ | ⟨d, hd, e', hread, hroot'⟩
      · exact .own hshows hown
      · exact .taken hshows hroot hd (hmono (h d e' hread root hroot'))

/-- Up to the end of a round, all root causes can be traced, and keys that no worker is about to
publish are accounted for. -/
theorem causal_of_reaches {graph : Graph D} (hg : graph.Grounded s.version)
    (hb : graph.Before s.version) (haccount : ∀ x, graph.Accounted causeAccount x)
    (hcausal : graph.Causal) {calls : Table D.Key Nat} {workers : Nat} {c : Crew D}
    (h : Crew.Reaches s (.start s graph calls workers) c) (hnot : ¬ c.IsOver) :
    Accounts causeLedger c.live c.stages ∧ c.live.graph.Causal := by
  have hpays : (causeRule (D := D)).Pays causeAccount := fun h => h
  have hall {c : Crew D} (h : Crew.Reaches s (.start s graph calls workers) c)
      (hnot : ¬ c.IsOver) : Accounts causeLedger c.live c.stages :=
    accounts_of_reaches causeLedger (lawful_causeRule s) hpays hg hb haccount h hnot
  refine ⟨hall h hnot, ?_⟩
  refine Crew.course_induction (P := fun l _ => l.graph.Causal) ?_ ?_ ?_ ?_ h hnot
  · exact hcausal.of_node (Live.node_start s graph calls workers)
  · intro c st st' others l' hr hnot hstages ho hstep ih
    have howned := Owned.of_reaches hr hnot
    rw [hstages] at howned
    have hmem : st ∈ c.stages := by
      rw [hstages]
      exact Multiset.mem_cons_self _ _
    refine causal_advance ih (howned.sparing hstep) fun hx hshows =>
      paid_of_completion stable_causeAccount ?_ ?_ ?_ (howned.shifts hstep) hx hshows
    · rintro k rfl
      refine hall hr hnot k fun other hother => ?_
      rw [hstages] at hother
      rcases Multiset.mem_cons.mp hother with rfl | hother
      · exact fun e => by cases e
      · exact fun e => howned.unique ho rfl hother (Stage.subject_of_rewrites e)
    · rintro k rfl
      exact confirmable_of_reaches hr hnot hmem
    · rintro k o after rfl
      exact paid_of_reaches (lawful_causeRule s) hpays hr hnot hmem
  · exact fun _ ih => ih
  · exact fun _ ih => ih

end MemoGraph
