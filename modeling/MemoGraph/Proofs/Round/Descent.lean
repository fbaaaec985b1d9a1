import MemoGraph.Proofs.Round.FailFast
import MemoGraph.Proofs.Round.Report

/-!
# The search below a root

A root that was not completed shows the first failed key that a search below it comes to.  The
search is complete: it finds a hit whenever a way through the keys under evaluation leads to one.
So a round that stopped at a failure shows a failure for one of its roots.  And it is sound: a way
leads to what it finds.
-/

set_option autoImplicit false

namespace MemoGraph

variable {D : Domain}

section Descent

variable {K E : Type} [DecidableEq K] {next : K → List K} {hit : K → Option E}

/-- A search that found nothing has seen all that can be reached from its stack, if that held so
far: the children of a key that is not fresh any more are no hits, and they are on the stack or not
fresh either. -/
theorem seen_of_descend_eq_none {domain fresh : List K} {stack : List (K × List K)}
    (hclosed : ∀ k ∈ domain, k ∉ fresh → ∀ c ∈ next k, hit c = none ∧
      (c ∈ domain → c ∉ fresh ∨ c ∈ stack.map Prod.fst))
    (h : descend next hit fresh stack = none) :
    ∃ seen : K → Prop, (∀ k ∈ domain, k ∉ fresh ∨ k ∈ stack.map Prod.fst → seen k) ∧
      ∀ k ∈ domain, seen k → ∀ c ∈ next k, hit c = none ∧ (c ∈ domain → seen c) := by
  fun_induction descend next hit fresh stack with
  | case1 fresh =>
      refine ⟨fun k => k ∉ fresh, fun k _ hk => hk.resolve_right List.not_mem_nil,
        fun k hk hseen c hc => (hclosed k hk hseen c hc).imp_right fun hin hc =>
          (hin hc).resolve_right List.not_mem_nil⟩
  | case2 => cases h
  | case3 fresh k above below hfresh hnone ih =>
      have hchild (c : K) (hc : c ∈ next k) : c ∈ ((next k).reverse.map
          (fun child => (child, k :: above)) ++ below).map Prod.fst := by
        rw [List.map_append, List.map_map, List.mem_append]
        exact .inl (List.mem_map.mpr ⟨c, List.mem_reverse.mpr hc, rfl⟩)
      have hopen (c : K) (hc : c ∉ fresh ∨ c ∈ ((k, above) :: below).map Prod.fst) :
          c ∉ without fresh k ∨ c ∈ ((next k).reverse.map
            (fun child => (child, k :: above)) ++ below).map Prod.fst := by
        rcases hc with hc | hc
        · exact .inl fun hmem => hc (mem_without.mp hmem).1
        · rcases List.mem_cons.mp hc with rfl | hc
          · exact .inl fun hmem => (mem_without.mp hmem).2 rfl
          · rw [List.map_append]
            exact .inr (List.mem_append_right _ hc)
      have hclosed' : ∀ x ∈ domain, x ∉ without fresh k → ∀ c ∈ next x, hit c = none ∧
          (c ∈ domain → c ∉ without fresh k ∨ c ∈ ((next k).reverse.map
            (fun child => (child, k :: above)) ++ below).map Prod.fst) := by
        intro x hx hxf c hc
        by_cases hxk : x = k
        · subst hxk
          exact ⟨List.findSome?_eq_none_iff.mp hnone c hc, fun _ => .inr (hchild c hc)⟩
        · have hxf' : x ∉ fresh := fun hmem => hxf (mem_without.mpr ⟨hmem, hxk⟩)
          exact (hclosed x hx hxf' c hc).imp_right fun hin hcd => hopen c (hin hcd)
      obtain ⟨seen, hseen, hnext⟩ := ih hclosed' h
      exact ⟨seen, fun x hx hxo => hseen x hx (hopen x hxo), hnext⟩
  | case4 fresh k above below hfresh ih =>
      have hopen (c : K) (hc : c ∉ fresh ∨ c ∈ ((k, above) :: below).map Prod.fst) :
          c ∉ fresh ∨ c ∈ below.map Prod.fst := by
        refine hc.elim .inl fun hc => ?_
        rcases List.mem_cons.mp hc with rfl | hc
        · exact .inl hfresh
        · exact .inr hc
      obtain ⟨seen, hseen, hnext⟩ := ih (fun x hx hxf c hc =>
        (hclosed x hx hxf c hc).imp_right fun hin hcd => hopen c (hin hcd)) h
      exact ⟨seen, fun x hx hxo => hseen x hx (hopen x hxo), hnext⟩

/-- A way from the root through keys of the domain to a parent of a hit lets the search find
one. -/
theorem descend_ne_none {domain : List K} {root parent child : K}
    (hway : Relation.ReflTransGen (fun a b => a ∈ domain ∧ b ∈ next a) root parent)
    (hparent : parent ∈ domain) (hchild : child ∈ next parent) (hhit : (hit child).isSome = true) :
    descend next hit domain [(root, [])] ≠ none := by
  intro h
  obtain ⟨seen, hseen, hnext⟩ :=
    seen_of_descend_eq_none (fun k hk hkf => absurd hk hkf) h
  have hreached : seen parent := by
    clear hchild
    induction hway with
    | refl => exact hseen root hparent (.inr (by simp))
    | tail _ hab ih => exact (hnext _ hab.1 (ih hab.1) _ hab.2).2 hparent
  rw [(hnext parent hparent hreached child hchild).1] at hhit
  cases hhit

/-- What the search finds is a hit below a key of the domain that a way leads to. -/
theorem way_of_descend {domain fresh : List K} {stack : List (K × List K)} (root : K)
    (hfresh : ∀ k ∈ fresh, k ∈ domain)
    (hstack : ∀ entry ∈ stack,
      Relation.ReflTransGen (fun a b => a ∈ domain ∧ b ∈ next a) root entry.1)
    {chain : List K} {e : E} (h : descend next hit fresh stack = some (chain, e)) :
    ∃ parent child, Relation.ReflTransGen (fun a b => a ∈ domain ∧ b ∈ next a) root parent ∧
      parent ∈ domain ∧ child ∈ next parent ∧ hit child = some e := by
  fun_induction descend next hit fresh stack with
  | case1 => cases h
  | case2 fresh k above below hk e' hfound =>
      obtain ⟨-, rfl⟩ := Prod.mk.inj (Option.some.inj h)
      obtain ⟨child, hchild, hhit⟩ := List.exists_of_findSome?_eq_some hfound
      exact ⟨k, child, hstack _ List.mem_cons_self, hfresh k hk, hchild, hhit⟩
  | case3 fresh k above below hk hnone ih =>
      refine ih (fun x hx => hfresh x (mem_without.mp hx).1) (fun entry hentry => ?_) h
      rcases List.mem_append.mp hentry with hentry | hentry
      · obtain ⟨child, hchild, rfl⟩ := List.mem_map.mp hentry
        exact (hstack _ List.mem_cons_self).tail ⟨hfresh k hk, List.mem_reverse.mp hchild⟩
      · exact hstack entry (List.mem_cons_of_mem _ hentry)
  | case4 fresh k above below _ ih =>
      exact ih hfresh (fun entry hentry => hstack entry (List.mem_cons_of_mem _ hentry)) h

end Descent

namespace Round

variable {s : Setting D} {r : Round D}

/-- Waiting for a key is demanding it. -/
theorem Seeks.demanded {k d : D.Key} (h : r.Seeks k d) : k ∈ r.tasks.keys ∧ d ∈ r.demanded k := by
  obtain ⟨t, ht, hd⟩ := h
  refine ⟨Table.mem_keys_iff.mpr ⟨t, ht⟩, ?_⟩
  simp only [Round.demanded, ht]
  exact OrderedSet.mem_insertAll.mpr (.inr hd)

/-- A root above a failed key shows a failure. -/
theorem outcome?_of_way {root parent child : D.Key} (hroot : r.graph.isComplete root = false)
    (hway : Relation.ReflTransGen (fun a b => a ∈ r.tasks.keys ∧ b ∈ r.demanded a) root parent)
    (hparent : parent ∈ r.tasks.keys) (hchild : child ∈ r.demanded parent)
    (hhit : ((r.graph.node child).failure?).isSome = true) :
    ∃ e, r.outcome? root = some (.failure e) := by
  have hinc : (r.graph.node root).isComplete = false := hroot
  have hsettled : (r.graph.node root).settled? = none := by
    rw [Node.settled?, hinc]
    rfl
  have hfound : descend r.demanded (fun dep => (r.graph.node dep).failure?) r.tasks.keys
      [(root, [])] ≠ none := descend_ne_none hway hparent hchild hhit
  obtain ⟨⟨chain, e⟩, hdescend⟩ := Option.ne_none_iff_exists'.mp hfound
  refine ⟨.seenAlong chain e, ?_⟩
  simp only [outcome?, hsettled, failureBelow, hdescend, Option.map_some]

/-- Once a key has failed in a round that stops at failures, some root shows a failure. -/
theorem Doomed.shown (h : Doomed s r) (ht : Tally r none 0 []) :
    ∃ root ∈ s.roots, ∃ e, r.outcome? root = some (.failure e) := by
  obtain ⟨root, hroot, k, e, hway, hshows⟩ := h
  refine ⟨root, hroot, ?_⟩
  rcases Relation.ReflTransGen.cases_tail hway with rfl | ⟨parent, hway, hedge⟩
  · refine ⟨e, ?_⟩
    simp only [outcome?, Graph.settled_of_shows hshows]
  · -- The root has a task of its own.
    have htask : r.tasks.contains root = true := by
      rcases Relation.ReflTransGen.cases_head hway with rfl | ⟨d, hd, -⟩
      · exact hedge.1.task
      · exact hd.1.task
    obtain ⟨t, htask⟩ := Option.isSome_iff_exists.mp htask
    have hhit : ((r.graph.node k).failure?).isSome = true := by
      rw [Graph.failure?_of_shows hshows]
      rfl
    have hdown : Relation.ReflTransGen (fun a b => a ∈ r.tasks.keys ∧ b ∈ r.demanded a)
        root parent := hway.lift id fun a b hab => hab.1.demanded
    obtain ⟨hparent, hchild⟩ := hedge.1.demanded
    exact outcome?_of_way (ht.unfinished root t htask) hdown hparent hchild hhit

end Round

end MemoGraph
