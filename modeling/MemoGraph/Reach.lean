/-!
# Reachability in a finite graph

`reach next domain seeds` lists the keys of a finite `domain` that can be reached from `seeds`
along `next` without leaving the domain, breadth first.  Each step takes one key out of the domain,
so cycles need no allowance.  Main statement: the list holds exactly the reachable keys.
-/

set_option autoImplicit false

namespace MemoGraph

/-- A key reached from a seed by edges that stay inside the domain. -/
inductive Reached {K : Type} (next : K → List K) (domain seeds : List K) : K → Prop where
  /-- a seed that lies in the domain -/
  | seed {k : K} : k ∈ domain → k ∈ seeds → Reached next domain seeds k
  /-- an edge from a reached key to a key of the domain -/
  | edge {k k' : K} : Reached next domain seeds k → k' ∈ next k → k' ∈ domain →
      Reached next domain seeds k'

variable {K : Type}

theorem Reached.inside {next : K → List K} {domain seeds : List K} {k : K}
    (h : Reached next domain seeds k) : k ∈ domain := by
  cases h with
  | seed hk _ => exact hk
  | edge _ _ hk => exact hk

theorem length_filter_lt {p : K → Bool} {items : List K} {k : K} (hk : k ∈ items)
    (hp : p k = false) : (items.filter p).length < items.length := by
  refine List.length_filter_lt_length_iff_exists.mpr ⟨k, hk, ?_⟩
  simp [hp]

variable [DecidableEq K]

/-- A list without any occurrence of one element. -/
def without (items : List K) (k : K) : List K := items.filter fun k' => decide (k' ≠ k)

@[simp] theorem mem_without {items : List K} {k k' : K} :
    k' ∈ without items k ↔ k' ∈ items ∧ k' ≠ k := by
  simp [without]

theorem length_without_lt {items : List K} {k : K} (hk : k ∈ items) :
    (without items k).length < items.length :=
  length_filter_lt hk (by simp)

/-- The keys of `domain` reached from `pending`, breadth first; each expanded key leaves the
domain. -/
def reach (next : K → List K) (domain pending : List K) : List K :=
  match _h : pending.find? (fun k => decide (k ∈ domain)) with
  | none => []
  | some k => k :: reach next (without domain k) (pending ++ next k)
termination_by domain.length
decreasing_by
  exact length_without_lt (by simpa using List.find?_some _h)

/-- Everything listed is reached, provided that all pending keys of the domain are. -/
theorem reached_of_mem_reach {next : K → List K} {whole seeds domain pending : List K}
    (hdomain : ∀ k ∈ domain, k ∈ whole)
    (hpending : ∀ k ∈ pending, k ∈ whole → Reached next whole seeds k) {k : K}
    (h : k ∈ reach next domain pending) : Reached next whole seeds k := by
  fun_induction reach next domain pending with
  | case1 => exact absurd h List.not_mem_nil
  | case2 domain pending m hfind ih =>
      have hm : m ∈ whole := hdomain m (by simpa using List.find?_some hfind)
      have hreached : Reached next whole seeds m :=
        hpending m (List.mem_of_find?_eq_some hfind) hm
      rcases List.mem_cons.mp h with rfl | h
      · exact hreached
      · refine ih (fun k hk => hdomain k (mem_without.mp hk).1) (fun k hk hw => ?_) h
        rcases List.mem_append.mp hk with hk | hk
        · exact hpending k hk hw
        · exact .edge hreached hk hw

/-- Every pending key of the domain is listed. -/
theorem mem_reach_of_pending {next : K → List K} {domain pending : List K} {k : K}
    (hd : k ∈ domain) (hp : k ∈ pending) : k ∈ reach next domain pending := by
  fun_induction reach next domain pending with
  | case1 domain pending hfind =>
      exact absurd hd (by simpa using List.find?_eq_none.mp hfind k hp)
  | case2 domain pending m _ ih =>
      by_cases hm : k = m
      · exact hm ▸ List.mem_cons_self
      · exact List.mem_cons_of_mem _
          (ih (mem_without.mpr ⟨hd, hm⟩) (List.mem_append_left _ hp))

/-- With a key, every key of the domain that it leads to is listed. -/
theorem mem_reach_of_edge {next : K → List K} {domain pending : List K} {k k' : K}
    (h : k ∈ reach next domain pending) (hedge : k' ∈ next k) (hd : k' ∈ domain) :
    k' ∈ reach next domain pending := by
  fun_induction reach next domain pending with
  | case1 => exact absurd h List.not_mem_nil
  | case2 domain pending m _ ih =>
      by_cases hm : k' = m
      · exact hm ▸ List.mem_cons_self
      · have hd' : k' ∈ without domain m := mem_without.mpr ⟨hd, hm⟩
        refine List.mem_cons_of_mem _ ?_
        rcases List.mem_cons.mp h with rfl | h
        · exact mem_reach_of_pending hd' (List.mem_append_right _ hedge)
        · exact ih h hd'

/-- The search lists exactly the reachable keys of the domain. -/
theorem mem_reach_iff {next : K → List K} {domain seeds : List K} {k : K} :
    k ∈ reach next domain seeds ↔ Reached next domain seeds k := by
  constructor
  · exact reached_of_mem_reach (fun _ hk => hk) fun _ hs hd => .seed hd hs
  · intro h
    induction h with
    | seed hd hs => exact mem_reach_of_pending hd hs
    | edge _ hedge hd ih => exact mem_reach_of_edge ih hedge hd

/-- No key is listed twice. -/
theorem nodup_reach (next : K → List K) (domain seeds : List K) :
    (reach next domain seeds).Nodup := by
  fun_induction reach next domain seeds with
  | case1 => exact List.nodup_nil
  | case2 domain seeds m _ ih =>
      refine List.nodup_cons.mpr ⟨fun h => ?_, ih⟩
      exact (mem_without.mp (mem_reach_iff.mp h).inside).2 rfl

end MemoGraph
