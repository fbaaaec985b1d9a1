import Mathlib.Data.List.Chain
import MemoGraph.Cycle.Search

/-!
# What the search for cycles finds

Every cycle it reports is one: its members lie in the domain, and each has an edge to the next and
the last to the first.  And it reports one whenever there is no way out: if every key of the domain
has an edge into the domain, a walk from any of them comes back to itself.  The order in which the
keys of the domain are listed makes no difference.
-/

set_option autoImplicit false

namespace MemoGraph

namespace Cycle

variable {K : Type}

/-- The pairs of a member and the one it depends on, the last depending on the first. -/
def edges (c : Cycle K) : List (K × K) := c.members.zip (c.members.tail ++ c.members.take 1)

@[simp] theorem edges_bare (c : Cycle K) : c.bare.edges = c.edges := rfl

theorem mem_members_of_edge {c : Cycle K} {e : K × K} (h : e ∈ c.edges) :
    e.1 ∈ c.members ∧ e.2 ∈ c.members := by
  obtain ⟨hl, hr⟩ := List.of_mem_zip h
  refine ⟨hl, ?_⟩
  rcases List.mem_append.mp hr with hr | hr
  · exact List.mem_of_mem_tail hr
  · exact List.mem_of_mem_take hr

/-- Every member depends on some member. -/
theorem exists_edge_of_mem {c : Cycle K} {k : K} (h : k ∈ c.members) :
    ∃ d, (k, d) ∈ c.edges := by
  have hlength : c.members.length ≤ (c.members.tail ++ c.members.take 1).length := by
    cases hm : c.members with
    | nil => simp [hm] at h
    | cons a rest => simp
  have hfst : c.edges.map Prod.fst = c.members := List.map_fst_zip hlength
  rw [← hfst] at h
  obtain ⟨⟨k', d⟩, he, rfl⟩ := List.mem_map.mp h
  exact ⟨d, he⟩

/-- A chain whose end leads to `z` relates each element to the next, `z` after the last. -/
theorem rel_of_mem_zip {R : K → K → Prop} {z : K} {l : List K} {a : K}
    (h : (a :: l).IsChain R) (hz : R ((a :: l).getLast (List.cons_ne_nil a l)) z) {e : K × K}
    (he : e ∈ (a :: l).zip (l ++ [z])) : R e.1 e.2 := by
  induction l generalizing a with
  | nil =>
      obtain rfl : e = (a, z) := by simpa using he
      simpa using hz
  | cons b l ih =>
      rw [List.isChain_cons_cons] at h
      rw [List.cons_append, List.zip_cons_cons, List.mem_cons] at he
      rcases he with rfl | he
      · exact h.1
      · exact ih h.2 (by simpa using hz) he

/-! ## Soundness -/

/-- The open keys form a chain of edges inside the domain, and the edges still to be followed are
edges. -/
structure Opened (next : K → List K) (domain : List K) (frames : List (K × List K)) : Prop where
  /-- Each open key was entered from the one above it. -/
  chain : (frames.map Prod.fst).IsChain fun a b => a ∈ next b
  /-- What is left to follow are edges. -/
  left : ∀ frame ∈ frames, ∀ d ∈ frame.2, d ∈ next frame.1
  /-- Open keys lie in the domain. -/
  inside : ∀ frame ∈ frames, frame.1 ∈ domain

theorem Opened.mono {next : K → List K} {domain domain' : List K} {frames : List (K × List K)}
    (h : Opened next domain frames) (hsub : domain ⊆ domain') : Opened next domain' frames :=
  ⟨h.chain, h.left, fun frame hframe => hsub (h.inside frame hframe)⟩

/-- Following an edge leaves fewer to follow. -/
theorem Opened.skip {next : K → List K} {domain : List K} {k child : K} {rest : List K}
    {below : List (K × List K)} (h : Opened next domain ((k, child :: rest) :: below)) :
    child ∈ next k ∧ Opened next domain ((k, rest) :: below) := by
  obtain ⟨chain, left, inside⟩ := h
  rw [List.forall_mem_cons] at left inside
  refine ⟨left.1 child List.mem_cons_self, chain, List.forall_mem_cons.mpr ⟨fun d hd => ?_, left.2⟩,
    List.forall_mem_cons.mpr inside⟩
  exact left.1 d (List.mem_cons_of_mem _ hd)

/-- The end of an edge may be opened. -/
theorem Opened.push {next : K → List K} {domain : List K} {k child : K} {rest : List K}
    {below : List (K × List K)} (h : Opened next domain ((k, rest) :: below))
    (hedge : child ∈ next k) (hchild : child ∈ domain) :
    Opened next domain ((child, next child) :: (k, rest) :: below) where
  chain := List.isChain_cons_cons.mpr ⟨hedge, h.chain⟩
  left := List.forall_mem_cons.mpr ⟨fun _ hd => hd, h.left⟩
  inside := List.forall_mem_cons.mpr ⟨hchild, h.inside⟩

/-- A cycle inside the domain. -/
structure Sound (next : K → List K) (domain : List K) (c : Cycle K) : Prop where
  /-- Each member has an edge to the next one. -/
  edge : ∀ e ∈ c.edges, e.2 ∈ next e.1
  /-- Members lie in the domain. -/
  inside : ∀ k ∈ c.members, k ∈ domain
  /-- There are members. -/
  nonempty : c.members ≠ []

variable [DecidableEq K]

theorem dropWhile_ne_eq_cons {l : List K} {x : K} (h : x ∈ l) :
    ∃ rest, l.dropWhile (fun y => decide (y ≠ x)) = x :: rest := by
  induction l with
  | nil => exact absurd h List.not_mem_nil
  | cons y l ih =>
      by_cases hy : y = x
      · exact ⟨l, by simp [hy]⟩
      · obtain ⟨rest, hrest⟩ := ih (by simpa [Ne.symm hy] using h)
        exact ⟨rest, by simpa [hy] using hrest⟩

/-- Path and members of a closed cycle are the open keys, the root first. -/
theorem path_append_members_close (frames : List (K × List K)) (k : K) :
    (close frames k).path ++ (close frames k).members = (frames.map Prod.fst).reverse :=
  List.takeWhile_append_dropWhile

/-- The members of a closed cycle begin with the key that was met and end with the deepest one. -/
theorem members_close {frames : List (K × List K)} {k : K} (h : k ∈ frames.map Prod.fst) :
    ∃ tail, (close frames k).members = k :: tail ∧
      (k :: tail).getLast? = (frames.map Prod.fst).head? := by
  obtain ⟨tail, htail⟩ := dropWhile_ne_eq_cons (List.mem_reverse.mpr h)
  refine ⟨tail, htail, ?_⟩
  have hall := path_append_members_close frames k
  rw [show (close frames k).members = k :: tail from htail] at hall
  rw [← List.getLast?_reverse, ← hall,
    List.getLast?_append_of_ne_nil _ (List.cons_ne_nil k tail)]

/-- Meeting an open key closes a cycle. -/
theorem sound_close {next : K → List K} {domain : List K} {k child : K} {rest : List K}
    {below : List (K × List K)} (h : Opened next domain ((k, rest) :: below))
    (hopen : child ∈ ((k, rest) :: below).map Prod.fst) (hedge : child ∈ next k) :
    Sound next domain (close ((k, rest) :: below) child) := by
  obtain ⟨tail, hmembers, hlast⟩ := members_close hopen
  have hall := path_append_members_close ((k, rest) :: below) child
  have hsuffix : (child :: tail) <:+ (((k, rest) :: below).map Prod.fst).reverse :=
    ⟨_, by rw [← hmembers, hall]⟩
  have hchain : (child :: tail).IsChain fun a b => b ∈ next a :=
    (List.isChain_reverse.mpr h.chain).suffix hsuffix
  have hlast : (child :: tail).getLast (List.cons_ne_nil child tail) = k := by
    rw [List.getLast?_eq_some_getLast (List.cons_ne_nil child tail)] at hlast
    simpa using hlast
  refine ⟨fun e he => ?_, fun x hx => ?_, by simp [hmembers]⟩
  · rw [edges, hmembers] at he
    exact rel_of_mem_zip hchain (hlast ▸ hedge) he
  · rw [hmembers] at hx
    obtain ⟨frame, hframe, rfl⟩ := List.mem_map.mp (List.mem_reverse.mp (hsuffix.subset hx))
    exact h.inside frame hframe

theorem sound_of_mem_walk {next : K → List K} {domain fresh : List K}
    {frames : List (K × List K)} (hfresh : ∀ k ∈ fresh, k ∈ domain)
    (h : Opened next domain frames) {c : Cycle K} (hc : c ∈ (walk next fresh frames).1) :
    Sound next domain c := by
  fun_induction walk next fresh frames with
  | case1 => exact absurd hc List.not_mem_nil
  | case2 fresh k below ih =>
      exact ih hfresh ⟨h.chain.tail, fun f hf => h.left f (.tail _ hf),
        fun f hf => h.inside f (.tail _ hf)⟩ hc
  | case3 fresh k child rest below hopen found left hwalk ih =>
      obtain ⟨hedge, hskip⟩ := h.skip
      rcases List.mem_cons.mp hc with rfl | hc
      · exact sound_close hskip hopen hedge
      · exact ih hfresh hskip (by rw [hwalk]; exact hc)
  | case4 fresh k child rest below hopen hchild ih =>
      obtain ⟨hedge, hskip⟩ := h.skip
      exact ih (fun x hx => hfresh x (mem_without.mp hx).1)
        (hskip.push hedge (hfresh child hchild)) hc
  | case5 fresh k child rest below hopen hchild ih => exact ih hfresh h.skip.2 hc

/-- A walk makes no key fresh. -/
theorem left_subset_fresh (next : K → List K) (fresh : List K) (frames : List (K × List K)) :
    ∀ k ∈ (walk next fresh frames).2, k ∈ fresh := by
  fun_induction walk next fresh frames with
  | case1 => exact fun _ hk => hk
  | case2 _ _ _ ih => exact ih
  | case3 _ _ _ _ _ _ found left hwalk ih => simpa [hwalk] using ih
  | case4 _ _ _ _ _ _ _ ih => exact fun k hk => (mem_without.mp (ih k hk)).1
  | case5 _ _ _ _ _ _ _ ih => exact ih

/-- Walks over what the ones before left fresh report cycles of the domain only. -/
theorem sound_of_mem_findFrom {next : K → List K} {domain fresh roots : List K}
    (hfresh : ∀ k ∈ fresh, k ∈ domain) {c : Cycle K} (hc : c ∈ findFrom next fresh roots) :
    Sound next domain c := by
  induction roots generalizing fresh with
  | nil => exact absurd hc List.not_mem_nil
  | cons root rest ih =>
      unfold findFrom at hc
      split at hc
      · rename_i hroot
        have hsub := left_subset_fresh next (without fresh root) [(root, next root)]
        have hwithout (k : K) (hk : k ∈ without fresh root) : k ∈ domain :=
          hfresh k (mem_without.mp hk).1
        rcases List.mem_append.mp hc with hc | hc
        · refine sound_of_mem_walk hwithout ⟨List.isChain_singleton _, ?_, ?_⟩ hc
          · simp
          · simpa using hfresh root hroot
        · exact ih (fun k hk => hwithout k (hsub k hk)) hc
      · exact ih hfresh hc

/-- Whatever the search reports is a cycle of the domain. -/
theorem sound_of_mem_find {next : K → List K} {domain roots : List K} {c : Cycle K}
    (hc : c ∈ find next domain roots) : Sound next domain c :=
  sound_of_mem_findFrom (fun _ hk => hk) hc

/-! ## Completeness -/

/-- As long as no key of the domain was closed and the deepest open key has an edge into the domain
left, the walk ends in a cycle. -/
theorem walk_ne_nil {next : K → List K} {domain fresh : List K} {frames : List (K × List K)}
    (hout : ∀ k ∈ domain, ∃ d ∈ next k, d ∈ domain) (hfresh : ∀ k ∈ fresh, k ∈ domain)
    (hdomain : ∀ k ∈ domain, k ∈ fresh ∨ k ∈ frames.map Prod.fst)
    (htop : ∃ frame ∈ frames.head?, ∃ d ∈ frame.2, d ∈ domain) :
    (walk next fresh frames).1 ≠ [] := by
  fun_induction walk next fresh frames with
  | case1 => simp at htop
  | case2 => simp at htop
  | case3 => exact List.cons_ne_nil _ _
  | case4 fresh k child rest below hopen hchild ih =>
      refine ih (fun x hx => hfresh x (mem_without.mp hx).1) (fun x hx => ?_) ?_
      · rcases hdomain x hx with hx | hx
        · by_cases hxc : x = child
          · exact .inr (by simp [hxc])
          · exact .inl (mem_without.mpr ⟨hx, hxc⟩)
        · exact .inr (List.mem_cons_of_mem _ hx)
      · exact ⟨_, rfl, hout child (hfresh child hchild)⟩
  | case5 fresh k child rest below hopen hchild ih =>
      -- The edge just skipped leaves the domain, so another one stays in it.
      refine ih hfresh hdomain ⟨_, rfl, ?_⟩
      obtain ⟨frame, hframe, d, hd, hin⟩ := htop
      obtain rfl : (k, child :: rest) = frame := by simpa using hframe
      rcases List.mem_cons.mp hd with rfl | hd
      · exact absurd (hdomain d hin) (not_or.mpr ⟨hchild, hopen⟩)
      · exact ⟨d, hd, hin⟩

/-- If every key of the domain has an edge into the domain, the search from a key of it reports a
cycle. -/
theorem find_ne_nil {next : K → List K} {domain roots : List K}
    (hout : ∀ k ∈ domain, ∃ d ∈ next k, d ∈ domain) (hroot : ∃ root ∈ roots, root ∈ domain) :
    find next domain roots ≠ [] := by
  unfold find
  induction roots with
  | nil =>
      obtain ⟨root, hroot, -⟩ := hroot
      exact absurd hroot List.not_mem_nil
  | cons root rest ih =>
      unfold findFrom
      split
      · rename_i hmem
        refine List.append_ne_nil_of_left_ne_nil (walk_ne_nil hout (fun k hk => ?_)
          (fun k hk => ?_) ⟨_, rfl, hout root hmem⟩) _
        · exact (mem_without.mp hk).1
        · by_cases hk' : k = root
          · exact .inr (by simp [hk'])
          · exact .inl (mem_without.mpr ⟨hk, hk'⟩)
      · rename_i hmem
        obtain ⟨root', hroot', hin⟩ := hroot
        rcases List.mem_cons.mp hroot' with rfl | hroot'
        · exact absurd hin hmem
        · exact ih ⟨root', hroot', hin⟩

/-! ## What the search looks at -/

/-- Only which keys are fresh matters for a walk. -/
theorem walk_congr (next : K → List K) {fresh fresh' : List K} (frames : List (K × List K))
    (h : ∀ x, x ∈ fresh ↔ x ∈ fresh') :
    (walk next fresh frames).1 = (walk next fresh' frames).1 ∧
      ∀ x, x ∈ (walk next fresh frames).2 ↔ x ∈ (walk next fresh' frames).2 := by
  fun_induction walk next fresh frames generalizing fresh' with
  | case1 fresh =>
      rw [walk]
      exact ⟨rfl, h⟩
  | case2 fresh k below ih =>
      rw [walk]
      exact ih h
  | case3 fresh k child rest below hopen found left hwalk ih =>
      rw [walk, if_pos hopen]
      have hih := ih h
      rw [hwalk] at hih
      exact ⟨congrArg (close ((k, rest) :: below) child :: ·) hih.1, hih.2⟩
  | case4 fresh k child rest below hopen hfresh ih =>
      rw [walk, if_neg hopen, dif_pos ((h child).mp hfresh)]
      exact ih fun x => by rw [mem_without, mem_without, h]
  | case5 fresh k child rest below hopen hfresh ih =>
      rw [walk, if_neg hopen, dif_neg (mt (h child).mpr hfresh)]
      exact ih h

/-- Only which keys are in the domain matters for a search. -/
theorem find_congr (next : K → List K) {domain domain' : List K} (roots : List K)
    (h : ∀ x, x ∈ domain ↔ x ∈ domain') : find next domain roots = find next domain' roots := by
  unfold find
  induction roots generalizing domain domain' with
  | nil => rfl
  | cons root rest ih =>
      rw [findFrom, findFrom]
      by_cases hroot : root ∈ domain
      · rw [if_pos hroot, if_pos ((h root).mp hroot)]
        have hfresh (x : K) : x ∈ without domain root ↔ x ∈ without domain' root := by
          rw [mem_without, mem_without, h]
        obtain ⟨hfound, hleft⟩ := walk_congr next [(root, next root)] hfresh
        simp only [hfound, ih hleft]
      · rw [if_neg hroot, if_neg (mt (h root).mpr hroot)]
        exact ih h

end Cycle

end MemoGraph
