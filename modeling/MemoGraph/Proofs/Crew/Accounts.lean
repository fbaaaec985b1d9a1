import MemoGraph.Proofs.Crew.Commits

/-!
# Accounts through a round of several workers

While a worker records what a key read and publishes its outcome, the key owes more than it holds;
no one else looks, since the key is not complete.  All other keys are accounted for at any time.  An
account survives a round if every worker that is about to publish an outcome can pay for it out of
what can be read by then.
-/

set_option autoImplicit false

namespace MemoGraph

variable {D : Domain} {s : Setting D} {l l' : Live D} {st st' : Stage D}
  {others : Multiset (Stage D)} {k : D.Key}

namespace Graph

/-- An account depends on what keys store, and on the dependencies of the key itself. -/
theorem Accounted.of_stored {g g' : Graph D} {A : Account D} {k : D.Key} (h : g.Accounted A k)
    (hstored : ∀ x, (g'.node x).status = (g.node x).status ∧
      (g'.node x).outcome = (g.node x).outcome ∧ (g'.node x).changedAt = (g.node x).changedAt ∧
        (g'.node x).evaluatedAt = (g.node x).evaluatedAt)
    (hdeps : (g'.node k).deps = (g.node k).deps) : g'.Accounted A k := by
  have hcomplete (x : D.Key) : g'.isComplete x = g.isComplete x := by
    rw [isComplete, isComplete, Node.isComplete, Node.isComplete, (hstored x).1]
  refine h.transfer (fun hkept => ⟨?_, (hstored k).2.1, hdeps⟩) fun d _ o hr => ?_
  · rwa [Node.IsKept, (hstored k).1] at hkept
  · rw [Relies, hcomplete, hcomplete, (hstored d).2.1, (hstored d).2.2.1, (hstored k).2.2.2]
    exact hr

theorem Accounted.of_memo {g g' : Graph D} {A : Account D} {k : D.Key} (h : g.Accounted A k)
    (hmemo : ∀ x, (g'.node x).memo = (g.node x).memo) : g'.Accounted A k :=
  h.of_stored (fun x => by
    obtain ⟨hstatus, hout, -, hch, hev⟩ := Node.memo_eq_iff.mp (hmemo x)
    exact ⟨hstatus, hout, hch, hev⟩) (Node.memo_eq_iff.mp (hmemo k)).2.2.1

/-- Publishing an outcome that is paid for out of what can be read, with the dependencies that are
recorded already. -/
theorem accounted_publish_self {g : Graph D} {A : Account D} (hA : A.Stable) {k : D.Key}
    {o : Outcome D} {version : Version} (hk : g.isComplete k = false)
    (h : A.holds k (g.node k).deps o g.Shows) : (g.publish k o version).Accounted A k := by
  have hbuilt : ((g.setDeps k (g.node k).deps).publish k o version).Accounted A k :=
    accounted_publish hA hk h
  refine hbuilt.of_memo fun x => ?_
  by_cases hx : x = k
  · rw [hx, memo_setDeps_publish, node_publish, if_pos rfl]
    rfl
  · rw [memo_setDeps_publish_of_ne _ _ _ hx, memo_publish_of_ne _ hx]

end Graph

/-- An account that changes with what was told, and what is enough to pay it. -/
structure Ledgered (D : Domain) where
  /-- The account, given what was told. -/
  account : Multiset (Event D) → Account D
  /-- What outcomes are paid by when they are published. -/
  price : Account D
  /-- Outcomes that count as an accounted one are accounted as well. -/
  stable : ∀ told, (account told).Stable
  /-- The price pays. -/
  pays : ∀ told {k deps o relies}, price.holds k deps o relies →
    (account told).holds k deps o relies
  /-- Only completions of the key other than by a confirmation can end an account. -/
  keep : ∀ {told told' k deps o relies},
    (∀ how, .completed k how ∈ told' → .completed k how ∈ told ∨ how = .clean) →
      (account told).holds k deps o relies → (account told').holds k deps o relies

/-- Every key that no worker is about to publish is accounted for. -/
def Accounts (A : Ledgered D) (l : Live D) (ts : Multiset (Stage D)) : Prop :=
  ∀ x, (∀ st ∈ ts, st.rewrites ≠ some x) → l.graph.Accounted (A.account (l.told ts)) x

/-- Only the key of the worker is told to have completed. -/
theorem Advances.told_of_ne (h : Advances s l st l' st') {x : D.Key}
    (hx : ¬ st.Completes x) {how : Completion}
    (hmem : .completed x how ∈ l'.told (st' ::ₘ others)) :
    .completed x how ∈ l.told (st ::ₘ others) := by
  obtain ⟨events, hnews, htold⟩ := h.told others
  rw [htold, Multiset.mem_add] at hmem
  exact hmem.resolve_left fun hmem => hx (hnews.completes hmem)

/-- A key that is confirmed is told to be clean. -/
theorem Advances.told_of_confirming (h : Advances s l (.confirming k) l' st') {how : Completion}
    (hmem : .completed k how ∈ l'.told (st' ::ₘ others)) :
    .completed k how ∈ l.told (.confirming k ::ₘ others) ∨ how = .clean := by
  obtain ⟨events, hnews, htold⟩ := h.told others
  rw [htold, Multiset.mem_add] at hmem
  refine hmem.symm.imp id fun hmem => ?_
  cases hnews with
  | nothing => exact absurd hmem (Multiset.notMem_zero _)
  | enqueued _ | called _ =>
      rw [Multiset.mem_singleton] at hmem
      cases hmem
  | built hst _ => cases hst
  | clean _ =>
      rw [Multiset.mem_singleton] at hmem
      exact (Event.completed.inj hmem).2

theorem Stage.writes_of_completes (h : st.Completes k) : st.writes = some k := by
  rcases h with ⟨o, after, rfl⟩ | rfl
  · rfl
  · rfl

theorem Accounts.step {A : Ledgered D} (h : Accounts A l (st ::ₘ others))
    (howned : Owned l (st ::ₘ others)) (ho : Orderly st others) (hdated : l.Dated s)
    (hconfirm : ∀ k, st = .confirming k → l.graph.Confirmable k)
    (hpaid : ∀ k o after, st = .publishing k o after →
      A.price.holds k (l.graph.node k).deps o l.graph.Shows)
    (hstep : Advances s l st l' st') : Accounts A l' (st' ::ₘ others) := by
  intro x hx
  have hself := Multiset.mem_cons_self st others
  have hothers : ∀ other ∈ others, other.rewrites ≠ some x :=
    fun other hmem => hx other (Multiset.mem_cons_of_mem hmem)
  have hold (hr : st.rewrites ≠ some x) :
      l.graph.Accounted (A.account (l.told (st ::ₘ others))) x :=
    h x fun other hmem => (Multiset.mem_cons.mp hmem).elim (fun e => e ▸ hr) (hothers other)
  -- A worker that does not complete the key is not about to publish it.
  have hquiet (hw : st.writes = some x ∨ st.rewrites = some x) : st.Completes x :=
    (hstep.rewrites hw).resolve_left (hx st' (Multiset.mem_cons_self _ _))
  have hkeep {g : Graph D} (hc : ¬ st.Completes x)
      (ha : g.Accounted (A.account (l.told (st ::ₘ others))) x) :
      g.Accounted (A.account (l'.told (st' ::ₘ others))) x :=
    ha.imp fun _ _ _ _ _ => A.keep fun how hmem => .inl (hstep.told_of_ne hc hmem)
  cases howned.shifts hstep with
  | nothing hw hmemo =>
      have hc : ¬ st.Completes x := fun hc => by
        rw [Stage.writes_of_completes hc] at hw
        cases hw
      exact hkeep hc ((hold fun hr => hc (hquiet (.inr hr))).of_memo hmemo)
  | @recorded k deps o after hst _ hmemo hk =>
      have hc : ¬ st.Completes x := by
        rintro (⟨o', after', hst'⟩ | hst')
        · rw [hst] at hst'
          cases hst'
        · rw [hst] at hst'
          cases hst'
      have hxk : x ≠ k := by
        rintro rfl
        exact hc (hquiet (.inl (by rw [hst]; rfl)))
      refine hkeep hc ((hold fun hr => hc (hquiet (.inr hr))).of_stored (fun y => ?_)
        (Node.memo_eq_iff.mp (hmemo x hxk)).2.2.1)
      by_cases hy : y = k
      · obtain ⟨hstatus, hout, -, hch, hev⟩ := Node.memo_eq_iff.mp hk
        exact hy ▸ ⟨hstatus, hout, hch, hev⟩
      · obtain ⟨hstatus, hout, -, hch, hev⟩ := Node.memo_eq_iff.mp (hmemo y hy)
        exact ⟨hstatus, hout, hch, hev⟩
  | @published k o after hst hk hmemo =>
      refine Graph.Accounted.of_memo ?_ hmemo
      by_cases hxk : x = k
      · subst hxk
        exact Graph.accounted_publish_self (A.stable _) hk (A.pays _ (hpaid x o after hst))
      · have hc : ¬ st.Completes x := by
          intro hc
          have hw := Stage.writes_of_completes hc
          rw [hst] at hw
          exact hxk (Option.some.inj hw).symm
        exact (Graph.settles_publish o hk).accounted hdated.before hxk
          (hkeep hc (hold fun hr => hc (hquiet (.inr hr))))
  | @confirmed k hst hk hmemo =>
      refine Graph.Accounted.of_memo ?_ hmemo
      by_cases hxk : x = k
      · subst hxk
        subst hst
        obtain ⟨hdirty, hdeps⟩ := hconfirm x rfl
        refine Graph.Accounted.confirm ?_ hdirty hdeps
        exact (hold fun hr => by cases hr).imp fun _ _ _ _ _ =>
          A.keep fun how hmem => hstep.told_of_confirming hmem
      · have hc : ¬ st.Completes x := by
          intro hc
          have hw := Stage.writes_of_completes hc
          rw [hst] at hw
          exact hxk (Option.some.inj hw).symm
        exact Graph.settles_confirm.accounted hdated.before hxk
          (hkeep hc (hold fun hr => hc (hquiet (.inr hr))))

section Course

variable {graph : Graph D} {calls : Table D.Key Nat} {workers : Nat} {c : Crew D}

/-- A rule pays the price where workers publish. -/
def Rule.Pays (R : Rule D) (A : Account D) : Prop :=
  ∀ {l k t o after}, R.other l k t (.publishing k o after) →
    A.holds k (l.graph.node k).deps o l.graph.Shows

theorem paid_of_reaches {R : Rule D} (hR : R.Lawful s) {A : Account D} (hpays : R.Pays A)
    (h : Crew.Reaches s (.start s graph calls workers) c) (hnot : ¬ c.IsOver) {o : Outcome D}
    {after : After D} (hst : Stage.publishing k o after ∈ c.stages) :
    A.holds k (c.live.graph.node k).deps o c.live.graph.Shows := by
  obtain ⟨b, hb⟩ := (Owned.of_reaches h hnot).building _ hst k rfl
  exact hpays ((Rule.Obeyed.of_reaches hR h hnot).stages _ hst k b rfl hb)

/-- Up to the end of a round, every key that no worker is about to publish is accounted for. -/
theorem accounts_of_reaches (A : Ledgered D) {R : Rule D} (hR : R.Lawful s)
    (hpays : R.Pays A.price) (hg : graph.Grounded s.version) (hb : graph.Before s.version)
    (hbegin : ∀ x, graph.Accounted (A.account 0) x)
    (h : Crew.Reaches s (.start s graph calls workers) c) (hnot : ¬ c.IsOver) :
    Accounts A c.live c.stages := by
  refine Crew.course_induction (P := Accounts A) ?_ ?_ ?_ ?_ h hnot
  · intro x _
    rw [told_start]
    exact (hbegin x).of_node (Live.node_start s graph calls workers)
  · intro c st st' others l' hr hnot hstages ho hstep ih
    have howned := Owned.of_reaches hr hnot
    rw [hstages] at howned
    have hmem : st ∈ c.stages := by
      rw [hstages]
      exact Multiset.mem_cons_self _ _
    refine ih.step howned ho (dated_of_reaches hg hb hr hnot) ?_ ?_ hstep
    · rintro k rfl
      exact confirmable_of_reaches hr hnot hmem
    · rintro k o after rfl
      exact paid_of_reaches hR hpays hr hnot hmem
  · exact fun _ ih => ih
  · intro l others found members _ ih x hx
    rw [Live.told_breaking]
    refine ih x fun other hmem => ?_
    rcases Multiset.mem_cons.mp hmem with rfl | hmem
    · exact fun e => by cases e
    · exact hx other (Multiset.mem_cons_of_mem hmem)

end Course

end MemoGraph
