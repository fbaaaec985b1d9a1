import MemoGraph.Proofs.Graph.Sweep
import MemoGraph.Proofs.Recipe.Alike
import MemoGraph.Proofs.Round.Accounts

/-!
# What a failure is blamed on

A failure lists the keys that are to blame for it.  Such a *root cause* was taken over from a
dependency, which lists it as well, or it is the key itself.  That is an account, but it does not
say that going on from dependency to dependency ends: a circle of keys could blame it on one
another.  It does end because nothing can be read before it is paid for out of what could be read
already.
-/

set_option autoImplicit false

namespace MemoGraph

variable {D : Domain}

/-- The failure of a key that failed by itself with a declared fault, and blames only itself. -/
structure Failure.IsOwnOf {K E : Type} (e : Failure K E) (k : K) : Prop where
  /-- The key failed by itself. -/
  origin : e.origin = .own
  /-- There is a fault. -/
  fault : e.fault.isSome = true
  /-- Nothing else is to blame. -/
  rootCauses : e.rootCauses = .singleton k

theorem OrderedSet.eq_singleton_iff {α : Type} {s : OrderedSet α} {a : α} :
    s = .singleton a ↔ ∀ b, b ∈ s ↔ b = a := by
  constructor
  · rintro rfl b
    exact OrderedSet.mem_singleton
  · intro h
    apply OrderedSet.ext
    exact List.perm_singleton.mp ((List.perm_ext_iff_of_nodup s.nodup (by simp)).mpr fun b => by
      rw [← OrderedSet.mem_def, h b, List.mem_singleton])

/-- A failure is to blame on its key alone, or each root cause was taken over from a dependency. -/
def causeAccount : Account D where
  holds k deps o relies := ∀ e, o = .failure e → ∀ root ∈ e.rootCauses,
    (root = k ∧ e.IsOwnOf k) ∨
      ∃ d ∈ deps.keys, ∃ e', relies d (.failure e') ∧ root ∈ e'.rootCauses
  mono := by
    intro k deps o relies relies' hmore h e ho root hroot
    refine (h e ho root hroot).imp id ?_
    rintro ⟨d, hd, e', hr, hroot⟩
    exact ⟨d, hd, e', hmore d hd _ hr, hroot⟩

theorem stable_causeAccount : (causeAccount (D := D)).Stable := by
  intro k deps o o' relies hsame h e' he' root hroot
  subst he'
  cases o with
  | value v => exact Bool.noConfusion hsame
  | failure e =>
      have hfault := Failure.isSome_fault_of_same hsame
      simp only [Outcome.same, Failure.same, Bool.and_eq_true, decide_eq_true_eq,
        OrderedSet.sameMembers_iff] at hsame
      obtain ⟨⟨⟨-, hcauses⟩, -⟩, horigin⟩ := hsame
      refine (h e rfl root ((hcauses root).mp hroot)).imp (And.imp_right fun hown => ?_) id
      refine ⟨horigin.trans hown.origin, hfault.trans hown.fault, ?_⟩
      refine OrderedSet.eq_singleton_iff.mpr fun x => (hcauses x).trans ?_
      exact OrderedSet.eq_singleton_iff.mp hown.rootCauses x

theorem exemptsValues_causeAccount : (causeAccount (D := D)).ExemptsValues := by
  intro k deps v relies e he
  cases he

section Shown

variable {k : D.Key} {deps : DepGroups D.Key} {relies : D.Key → Outcome D → Prop}

/-- A declared fault is to blame on its key, or on a dependency that showed it. -/
theorem causeAccount_declared (fault : D.Fault) {inv : Invocation D}
    (h : ∀ child ∈ inv.shown, ∃ d ∈ deps.keys, relies d (.failure child)) :
    causeAccount.holds k deps (.failure (Round.declaredFailure k fault inv)) relies := by
  intro e he root hroot
  obtain rfl := Outcome.failure.inj he
  rcases Round.declaredFailure_cases k fault inv with ⟨child, hmem, heq⟩ | heq
  · rw [heq] at hroot
    obtain ⟨d, hd, hshows⟩ := h child hmem
    exact .inr ⟨d, hd, child, hshows, hroot⟩
  · rw [heq] at hroot ⊢
    exact .inl ⟨OrderedSet.mem_singleton.mp hroot, rfl, rfl, rfl⟩

/-- The failures of dependencies are to blame on these. -/
theorem causeAccount_ofChildren {children : List (Failure D.Key D.Fault)}
    (h : ∀ child ∈ children, ∃ d ∈ deps.keys, relies d (.failure child)) :
    causeAccount.holds k deps (.failure (.ofChildren k children)) relies := by
  intro e he root hroot
  obtain rfl := Outcome.failure.inj he
  obtain ⟨child, hmem, hroot⟩ := List.mem_flatMap.mp (OrderedSet.mem_ofList.mp hroot)
  obtain ⟨d, hd, hshows⟩ := h child hmem
  exact .inr ⟨d, hd, child, hshows, hroot⟩

/-- The members of a cycle blame nobody. -/
theorem causeAccount_ofCycles (cycles : List (Cycle D.Key)) :
    causeAccount.holds k deps (.failure (.ofCycles cycles)) relies := by
  intro e he root hroot
  obtain rfl := Outcome.failure.inj he
  exact absurd hroot (OrderedSet.not_mem_empty root)

end Shown

namespace Graph

/-- The failure of a key can be traced to the own failure of `root`, through dependencies that list
`root` among their root causes. -/
inductive Stems (g : Graph D) (root : D.Key) : D.Key → Prop where
  /-- it is the own failure of `root` -/
  | own {e : Failure D.Key D.Fault} : g.Shows root (.failure e) → e.IsOwnOf root → Stems g root root
  /-- it was taken over from a dependency -/
  | taken {k d : D.Key} {e : Failure D.Key D.Fault} : g.Shows k (.failure e) →
      root ∈ e.rootCauses → d ∈ (g.node k).deps.keys → Stems g root d → Stems g root k

/-- Every root cause of a failure that can be read is one it can be traced to. -/
def Causal (g : Graph D) : Prop :=
  ∀ k e, g.Shows k (.failure e) → ∀ root ∈ e.rootCauses, g.Stems root k

variable {g g' : Graph D} {root k : D.Key}

theorem Stems.complete (h : g.Stems root k) : g.isComplete k = true := by
  cases h with
  | own hshows _ => exact hshows.1
  | taken hshows _ _ _ => exact hshows.1

/-- The trace survives where failures that can be read stay as they are. -/
theorem Stems.mono (h : g.Stems root k)
    (hkeep : ∀ x e, g.Shows x (.failure e) → (g'.node x).memo = (g.node x).memo) :
    g'.Stems root k := by
  induction h with
  | own hshows hown => exact .own ((shows_of_memo_eq (hkeep _ _ hshows)).mpr hshows) hown
  | taken hshows hroot hd _ ih =>
      have hmemo := hkeep _ _ hshows
      refine .taken ((shows_of_memo_eq hmemo).mpr hshows) hroot ?_ ih
      rw [(Node.memo_eq_iff.mp hmemo).2.2.1]
      exact hd

/-- A key that is still trusted can still be traced. -/
theorem Stems.retain (h : g.Stems root k) (hr : g.Retains g') (hk : g'.isComplete k = true) :
    g'.Stems root k := by
  induction h with
  | own hshows hown => exact .own ⟨hk, (hr.outcome hk).trans hshows.2⟩ hown
  | taken hshows hroot hd hstems ih =>
      refine .taken ⟨hk, (hr.outcome hk).trans hshows.2⟩ hroot ?_
        (ih (hr.dep hk hd hstems.complete))
      rw [hr.deps hk]
      exact hd

theorem Causal.retain (h : g.Causal) (hr : g.Retains g') : g'.Causal := by
  intro k e ⟨hk, ho⟩ root hroot
  exact (h k e ⟨hr.complete hk, (hr.outcome hk).symm.trans ho⟩ root hroot).retain hr hk

/-- Where the trace leads. -/
theorem Causal.of_node (h : g.Causal) (hnode : ∀ x, g'.node x = g.node x) : g'.Causal := by
  intro k e hshows root hroot
  refine (h k e ((shows_congr hnode).mp hshows) root hroot).mono fun x _ _ => ?_
  rw [hnode]

theorem Stems.exists_own (h : g.Stems root k) :
    (∃ e, (g.node root).failure? = some e ∧ e.IsOwnOf root) ∧
      Relation.ReflTransGen (fun x d => d ∈ (g.node x).deps.keys) k root := by
  induction h with
  | own hshows hown => exact ⟨⟨_, failure?_of_shows hshows, hown⟩, .refl⟩
  | taken _ _ hd _ ih => exact ⟨ih.1, .head hd ih.2⟩

end Graph

end MemoGraph
