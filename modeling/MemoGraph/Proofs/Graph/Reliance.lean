import MemoGraph.Proofs.Graph.Sweep

/-!
# What a memoized outcome relies on

A node that is complete, or dirty and still to be checked, holds an outcome that was drawn from
outcomes of its dependencies.  It *relies* on such an outcome as long as the dependency can be seen
not to have changed since the node was evaluated; a complete node moreover relies on it as it
stands.  An `Account` says what an outcome owes to what it relies on.  Accounts are monotone in the
reliance, so they survive every operation that keeps the reliance, and this is proved here once for
all accounts: invalidation, deletion and the completion of another key keep it.
-/

set_option autoImplicit false

namespace MemoGraph

variable {D : Domain}

/-- What an outcome of a key with given dependencies owes to the outcomes it relies on.  Relying on
more is never worse. -/
structure Account (D : Domain) where
  /-- The debt is paid by the given reliance. -/
  holds : D.Key → DepGroups D.Key → Outcome D → (D.Key → Outcome D → Prop) → Prop
  /-- Only reliance on dependencies counts, and more reliance pays as well. -/
  mono : ∀ {k : D.Key} {deps : DepGroups D.Key} {o : Outcome D}
    {relies relies' : D.Key → Outcome D → Prop},
    (∀ d ∈ deps.keys, ∀ o', relies d o' → relies' d o') →
      holds k deps o relies → holds k deps o relies'

namespace Node

/-- Whether the outcome is current or may be found current by a check. -/
def IsKept (n : Node D) : Prop := n.status = .current ∨ n.status = .dirty

theorem isKept_of_isComplete {n : Node D} (h : n.isComplete = true) : n.IsKept :=
  .inl (of_decide_eq_true h)

theorem isComplete_iff {n : Node D} : n.isComplete = true ↔ n.status = .current :=
  decide_eq_true_iff

/-- The second node stores an outcome dated at the version, and what the first one stores does not
count as that outcome. -/
structure Replaced (version : Version) (n n' : Node D) : Prop where
  /-- The date is the version. -/
  dated : n'.changedAt = version
  /-- The outcome is a new one. -/
  stored : ∃ o, n'.outcome = some o ∧ n.holds o = false

theorem Replaced.congr {version : Version} {n m n' : Node D} (h : n.Replaced version m)
    (hout : n'.outcome = m.outcome) (hch : n'.changedAt = m.changedAt) :
    n.Replaced version n' := by
  obtain ⟨o, ho, hholds⟩ := h.stored
  exact ⟨hch.trans h.dated, o, hout.trans ho, hholds⟩

/-- Publishing keeps the outcome with its date, or replaces it. -/
theorem dated_publish (n : Node D) (o : Outcome D) (version : Version) :
    ((n.publish o version).outcome = n.outcome ∧ (n.publish o version).changedAt = n.changedAt) ∨
      n.Replaced version (n.publish o version) := by
  simp only [publish]
  cases hh : n.holds o with
  | true => exact .inl ⟨rfl, rfl⟩
  | false => exact .inr ⟨rfl, o, rfl, hh⟩

/-- What is stored is the new outcome, or an older one that counts as it. -/
theorem outcome_publish {n : Node D} {o stored : Outcome D} (version : Version)
    (h : (n.publish o version).outcome = some stored) : stored = o ∨ stored.same o = true := by
  simp only [publish] at h
  cases hh : n.holds o with
  | true =>
      rw [hh, if_pos rfl] at h
      rw [holds, h] at hh
      exact .inr hh
  | false =>
      rw [hh, if_neg Bool.false_ne_true] at h
      exact .inl (Option.some.inj h).symm

end Node

namespace Graph

/-- `k` relies on the outcome `o` of `d`: it is what `d` holds unless `d` changed after `k` was
evaluated, and while `k` is complete, `d` is complete and holds it. -/
def Relies (g : Graph D) (k d : D.Key) (o : Outcome D) : Prop :=
  ((g.node d).changedAt ≤ (g.node k).evaluatedAt → (g.node d).outcome = some o) ∧
    (g.isComplete k = true → g.isComplete d = true ∧ (g.node d).outcome = some o)

/-- The outcome that a key keeps pays its debt. -/
def Accounted (g : Graph D) (A : Account D) (k : D.Key) : Prop :=
  (g.node k).IsKept → ∀ o, (g.node k).outcome = some o →
    A.holds k (g.node k).deps o (g.Relies k)

/-- What a complete key holds pays its debt out of what its complete dependencies hold. -/
theorem Accounted.of_complete {g : Graph D} {A : Account D} {k : D.Key} {o : Outcome D}
    (h : g.Accounted A k) (hk : g.isComplete k = true) (ho : (g.node k).outcome = some o) :
    A.holds k (g.node k).deps o fun d o' =>
      g.isComplete d = true ∧ (g.node d).outcome = some o' :=
  A.mono (fun _ _ _ hr => hr.2 hk) (h (Node.isKept_of_isComplete hk) o ho)

/-- A key relies on what a complete dependency holds. -/
theorem relies_of_complete {g : Graph D} {k d : D.Key} {o : Outcome D}
    (hd : g.isComplete d = true) (ho : (g.node d).outcome = some o) : g.Relies k d o :=
  ⟨fun _ => ho, fun _ => ⟨hd, ho⟩⟩

/-- An account survives if the key stays as it is and its reliance on dependencies is kept. -/
theorem Accounted.transfer {g g' : Graph D} {A : Account D} {k : D.Key} (h : g.Accounted A k)
    (hkept : (g'.node k).IsKept → (g.node k).IsKept ∧ (g'.node k).outcome = (g.node k).outcome ∧
      (g'.node k).deps = (g.node k).deps)
    (hrelies : ∀ d ∈ (g.node k).deps.keys, ∀ o, g.Relies k d o → g'.Relies k d o) :
    g'.Accounted A k := by
  intro hk o ho
  obtain ⟨hk', houtcome, hdeps⟩ := hkept hk
  rw [houtcome] at ho
  rw [hdeps]
  exact A.mono hrelies (h hk' o ho)

/-- What pays one account may pay another one as well. -/
theorem Accounted.imp {g : Graph D} {A A' : Account D} {k : D.Key} (h : g.Accounted A k)
    (hA : (g.node k).IsKept → ∀ {deps o relies}, (g.node k).outcome = some o →
      A.holds k deps o relies → A'.holds k deps o relies) : g.Accounted A' k :=
  fun hk o ho => hA hk ho (h hk o ho)

/-- Accounts are about what nodes store. -/
theorem Accounted.of_node {g g' : Graph D} {A : Account D} {k : D.Key} (h : g.Accounted A k)
    (hnode : ∀ x, g'.node x = g.node x) : g'.Accounted A k := by
  refine h.transfer (fun hk => ?_) (fun d _ o hr => ?_)
  · rw [hnode] at hk ⊢
    exact ⟨hk, rfl, rfl⟩
  · rw [Relies, isComplete, isComplete, hnode, hnode]
    exact hr

/-! ## Operations between rounds -/

theorem Relies.invalidate {g : Graph D} (h : g.Mirrored) {keys : List D.Key} {k d : D.Key}
    {o : Outcome D} (hd : d ∈ (g.node k).deps.keys) (hr : g.Relies k d o) :
    (g.invalidate keys).1.Relies k d o := by
  constructor
  · intro hle
    rw [node_invalidate_eq g keys d, node_invalidate_eq g keys k] at hle
    rw [node_invalidate_eq g keys d]
    exact hr.1 hle
  · intro hk
    obtain ⟨hc, ho⟩ := hr.2 (isComplete_invalidate.mp hk).1
    refine ⟨h.isComplete_dep_invalidate hd hk hc, ?_⟩
    rw [node_invalidate_eq]
    exact ho

/-- Accounts survive invalidation. -/
theorem Accounted.invalidate {g : Graph D} {A : Account D} {k : D.Key} (h : g.Accounted A k)
    (hm : g.Mirrored) (keys : List D.Key) : (g.invalidate keys).1.Accounted A k := by
  refine h.transfer (fun hk => ⟨?_, ?_, ?_⟩) (fun d hd o hr => hr.invalidate hm hd)
  · rcases status_invalidate g keys k with hs | ⟨hs, -⟩ | ⟨-, hs⟩
    · rw [Node.IsKept, hs] at hk
      exact hk
    · exact .inl hs
    · simp [Node.IsKept, hs] at hk
  · rw [node_invalidate_eq]
  · rw [node_invalidate_eq]

/-- The named keys of an invalidation keep nothing. -/
theorem not_isKept_invalidate {g : Graph D} {keys : List D.Key} {k : D.Key} (hk : k ∈ keys) :
    ¬ ((g.invalidate keys).1.node k).IsKept := by
  intro hkept
  rcases status_invalidate_of_mem (g := g) hk with hs | hs
  · simp [Node.IsKept, hs] at hkept
  · simp [Node.IsKept, hs] at hkept

theorem Accounted.delete {g : Graph D} {A : Account D} {k : D.Key} (h : g.Accounted A k)
    (hm : g.Mirrored) (p : D.Key → Bool) : (g.delete p).1.Accounted A k := by
  by_cases hk : k ∈ g.closure p
  · -- A removed key holds nothing.
    intro hkept
    have hmemo := memo_delete g p k
    rw [if_pos hk] at hmemo
    rw [Node.IsKept, (Node.memo_eq_iff.mp hmemo).1] at hkept
    simp [Node.fresh] at hkept
  · have hmemo (x : D.Key) (hx : x ∉ g.closure p) :
        ((g.delete p).1.node x).memo = (g.node x).memo := by
      rw [memo_delete, if_neg hx]
    obtain ⟨hstatus, houtcome, hdeps, -, hev⟩ := Node.memo_eq_iff.mp (hmemo k hk)
    refine h.transfer (fun hkept => ⟨by rwa [Node.IsKept, hstatus] at hkept, houtcome, hdeps⟩)
      (fun d hd o hr => ?_)
    have hdmemo := hmemo d (hm.dep_not_mem_closure hk hd)
    obtain ⟨-, hdout, -, hdch, -⟩ := Node.memo_eq_iff.mp hdmemo
    rw [Relies, isComplete, isComplete, Node.isComplete_of_memo_eq hdmemo,
      Node.isComplete_of_memo_eq (hmemo k hk), hdout, hdch, hev]
    exact hr

/-! ## Completions -/

/-- Between the two graphs, `c` was completed at `version` and nothing else was stored, reverse
dependencies apart.  Either `c` keeps outcome and date, or it was not complete and its outcome is
replaced. -/
structure Settles (version : Version) (c : D.Key) (g g' : Graph D) : Prop where
  /-- Other keys store what they stored. -/
  others : ∀ k, k ≠ c → (g'.node k).memo = (g.node k).memo
  /-- The key is complete. -/
  complete : g'.isComplete c = true
  /-- It was evaluated at the version. -/
  evaluated : (g'.node c).evaluatedAt = version
  /-- Its outcome and date are the old ones, or the outcome is replaced. -/
  dated : ((g'.node c).outcome = (g.node c).outcome ∧
      (g'.node c).changedAt = (g.node c).changedAt) ∨
    ((g.node c).Replaced version (g'.node c) ∧ g.isComplete c = false)

/-- Every key that needs work was evaluated before the version. -/
def Before (g : Graph D) (version : Version) : Prop :=
  ∀ k, g.isComplete k = false → (g.node k).evaluatedAt < version

namespace Settles

variable {version : Version} {c : D.Key} {g g' : Graph D}

/-- A completion is about what nodes store. -/
theorem of_node {g₀ : Graph D} (h : Settles version c g g') (hg : ∀ x, g.node x = g₀.node x) :
    Settles version c g₀ g' where
  others k hk := (h.others k hk).trans (congrArg Node.memo (hg k))
  complete := h.complete
  evaluated := h.evaluated
  dated := by
    have hdated := h.dated
    rwa [isComplete, hg] at hdated

theorem isComplete_of_ne (h : Settles version c g g') {k : D.Key} (hk : k ≠ c) :
    g'.isComplete k = g.isComplete k := by
  rw [isComplete, isComplete, Node.isComplete_of_memo_eq (h.others k hk)]

/-- A complete key stays complete. -/
theorem isComplete_mono (h : Settles version c g g') {k : D.Key} (hk : g.isComplete k = true) :
    g'.isComplete k = true := by
  by_cases hc : k = c
  · exact hc ▸ h.complete
  · rw [h.isComplete_of_ne hc]
    exact hk

theorem before (h : Settles version c g g') (hb : g.Before version) : g'.Before version := by
  intro k hk
  have hne : k ≠ c := by
    intro e
    rw [e, h.complete] at hk
    exact Bool.noConfusion hk
  rw [h.isComplete_of_ne hne] at hk
  rw [(Node.memo_eq_iff.mp (h.others k hne)).2.2.2.2]
  exact hb k hk

/-- The completion of one key keeps the reliance of all others: a change is dated at the version,
which is later than any incomplete reader was evaluated, and a complete reader does not rely on an
incomplete key. -/
theorem relies (h : Settles version c g g') (hb : g.Before version) {k d : D.Key}
    {o : Outcome D} (hk : k ≠ c) (hr : g.Relies k d o) : g'.Relies k d o := by
  have hev := (Node.memo_eq_iff.mp (h.others k hk)).2.2.2.2
  by_cases hd : d = c
  · subst hd
    rcases h.dated with ⟨hout, hch⟩ | ⟨⟨hch, -⟩, hinc⟩
    · rw [Relies, hout, hch, hev, h.isComplete_of_ne hk]
      exact ⟨hr.1, fun hkc => ⟨h.complete, (hr.2 hkc).2⟩⟩
    · have hkc : g.isComplete k = false := by
        cases hc : g.isComplete k with
        | false => rfl
        | true =>
            rw [(hr.2 hc).1] at hinc
            exact Bool.noConfusion hinc
      rw [Relies, hch, hev, h.isComplete_of_ne hk, hkc]
      exact ⟨fun hle => absurd hle (Nat.not_le.mpr (hb k hkc)), fun hf => Bool.noConfusion hf⟩
  · obtain ⟨-, hdout, -, hdch, -⟩ := Node.memo_eq_iff.mp (h.others d hd)
    rw [Relies, hdout, hdch, hev, h.isComplete_of_ne hk, h.isComplete_of_ne hd]
    exact hr

/-- The completion of one key keeps the accounts of all others. -/
theorem accounted (h : Settles version c g g') (hb : g.Before version) {A : Account D}
    {k : D.Key} (hk : k ≠ c) (ha : g.Accounted A k) : g'.Accounted A k := by
  obtain ⟨hstatus, houtcome, hdeps, -, -⟩ := Node.memo_eq_iff.mp (h.others k hk)
  refine ha.transfer (fun hkept => ⟨by rwa [Node.IsKept, hstatus] at hkept, houtcome, hdeps⟩)
    (fun d _ o hr => h.relies hb hk hr)

end Settles

/-! ## The completions of the store -/

variable {version : Version} {c : D.Key} {g : Graph D}

theorem memo_setDeps_publish_of_ne (version : Version) (deps : DepGroups D.Key) (o : Outcome D)
    {k : D.Key} (hk : k ≠ c) :
    (((g.setDeps c deps).publish c o version).node k).memo = (g.node k).memo := by
  rw [node_publish, if_neg hk, memo_setDeps, if_neg hk]

/-- A key that is published with new dependencies. -/
theorem memo_setDeps_publish (version : Version) (deps : DepGroups D.Key) (o : Outcome D) :
    (((g.setDeps c deps).publish c o version).node c).memo =
      ({ (g.node c).publish o version with deps := deps } : Node D).memo := by
  have hmemo := memo_setDeps g c c deps
  rw [if_pos rfl] at hmemo
  obtain ⟨-, hout, hdeps, hch, -⟩ := Node.memo_eq_iff.mp hmemo
  rw [node_publish, if_pos rfl]
  simp only [Node.publish, Node.memo, Node.holds, hdeps, hout, hch]
  rfl

theorem deps_setDeps_publish (version : Version) (deps : DepGroups D.Key) (o : Outcome D) :
    (((g.setDeps c deps).publish c o version).node c).deps = deps :=
  (Node.memo_eq_iff.mp (memo_setDeps_publish version deps o)).2.2.1

theorem outcome_setDeps_publish {deps : DepGroups D.Key} {o stored : Outcome D}
    (h : (((g.setDeps c deps).publish c o version).node c).outcome = some stored) :
    stored = o ∨ stored.same o = true := by
  rw [(Node.memo_eq_iff.mp (memo_setDeps_publish version deps o)).2.1] at h
  exact Node.outcome_publish version h

/-- A key without an outcome holds just what is published. -/
theorem outcome_setDeps_publish_of_none (deps : DepGroups D.Key) (o : Outcome D)
    (h : (g.node c).outcome = none) :
    (((g.setDeps c deps).publish c o version).node c).outcome = some o := by
  rw [(Node.memo_eq_iff.mp (memo_setDeps_publish version deps o)).2.1]
  simp only [Node.publish, Node.holds, h, Bool.false_eq_true, if_false]

theorem memo_publish_of_ne (o : Outcome D) {k : D.Key} (hk : k ≠ c) :
    ((g.publish c o version).node k).memo = (g.node k).memo := by
  rw [node_publish, if_neg hk]

/-- Publishing dates a change at the version and leaves everything else. -/
theorem settles_publish (o : Outcome D) (h : g.isComplete c = false) :
    Settles version c g (g.publish c o version) where
  others _ hk := memo_publish_of_ne o hk
  complete := by simp [isComplete, node_publish, Node.publish, Node.isComplete]
  evaluated := by simp [node_publish, Node.publish]
  dated := by
    rw [node_publish, if_pos rfl]
    exact (Node.dated_publish _ o version).imp id fun hnew => ⟨hnew, h⟩

theorem settles_setDeps_publish (version : Version) (deps : DepGroups D.Key) (o : Outcome D)
    (h : g.isComplete c = false) :
    Settles version c g ((g.setDeps c deps).publish c o version) := by
  obtain ⟨hstatus, hout, -, hch, hev⟩ := Node.memo_eq_iff.mp
    (memo_setDeps_publish (g := g) (c := c) version deps o)
  refine ⟨fun k hk => memo_setDeps_publish_of_ne version deps o hk, ?_, hev, ?_⟩
  · exact Node.isComplete_iff.mpr hstatus
  · rw [hout, hch]
    refine (Node.dated_publish _ o version).imp id fun hnew => ⟨?_, h⟩
    exact hnew.congr hout hch

theorem settles_confirm : Settles version c g (g.confirm c version) where
  others k hk := by rw [node_confirm, if_neg hk]
  complete := by simp [isComplete, node_confirm, Node.confirm, Node.isComplete]
  evaluated := by simp [node_confirm, Node.confirm]
  dated := by
    left
    simp [node_confirm, Node.confirm]

/-- Injecting into a key that is complete only if it holds the value already. -/
theorem settles_inject (v : D.Value)
    (h : g.isComplete c = true → (g.node c).holds (.value v) = true) :
    Settles version c g (g.inject c v version) := by
  cases hc : g.isComplete c with
  | false => exact settles_setDeps_publish version ∅ (.value v) hc
  | true =>
      obtain ⟨hstatus, hout, -, hch, hev⟩ := Node.memo_eq_iff.mp
        (memo_setDeps_publish (g := g) (c := c) version ∅ (.value v))
      refine ⟨fun k hk => memo_setDeps_publish_of_ne version ∅ _ hk,
        Node.isComplete_iff.mpr hstatus, hev, .inl ?_⟩
      rw [inject, clearDeps, hout, hch]
      simp [Node.publish, h hc]

end Graph

end MemoGraph
