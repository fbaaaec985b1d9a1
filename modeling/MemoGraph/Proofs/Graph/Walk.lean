import MemoGraph.Proofs.Graph.Sweep
import MemoGraph.Proofs.Sample
import Mathlib.Data.List.Basic
import Mathlib.Data.Set.Card
import Mathlib.Logic.Relation

/-!
# Which keys an invalidation touches

The walk of an invalidation goes from the changed keys to their readers and stops at keys that are
not complete.  It meets exactly the keys that a path of complete readers leads to.  One invalidation
cuts off only paths that it has followed itself, so two of them in a row leave what one of all their
keys leaves.
-/

set_option autoImplicit false

namespace MemoGraph

variable {D : Domain}

theorem Node.state_eq_dirty_iff {n : Node D} : n.state = .dirty ↔ n.status = .dirty := by
  unfold state
  cases n.status with
  | current => cases n.lastFailure?.isSome <;> simp
  | new => simp
  | dirty => simp
  | changed => simp

theorem ncard_setOf_mem {α : Type} {items : List α} (h : items.Nodup) :
    {a | a ∈ items}.ncard = items.length := by
  classical
  rw [← List.toFinset_card_of_nodup h, ← Set.ncard_coe_finset]
  simp

namespace Graph

@[simp] theorem keys_adjust (g : Graph D) (k : D.Key) (f : Node D → Node D) :
    (g.adjust k f).keys = g.keys := by
  unfold adjust
  split
  · rename_i hk
    exact (Table.keys_insert ..).trans (if_pos (mem_keys_iff_contains.mpr hk))
  · rfl

theorem keys_foldl_adjust (f : Node D → Node D) (keys : List D.Key) (g : Graph D) :
    (keys.foldl (fun g k => g.adjust k f) g).keys = g.keys := by
  induction keys generalizing g with
  | nil => rfl
  | cons k rest ih => rw [List.foldl_cons, ih, keys_adjust]

@[simp] theorem keys_invalidate (g : Graph D) (keys : List D.Key) :
    (g.invalidate keys).1.keys = g.keys :=
  (keys_foldl_adjust Node.soil _ _).trans (keys_foldl_adjust Node.strike _ _)

/-! ## The walk -/

/-- An edge that a walk can follow: from a complete key to a complete reader. -/
def Conducts (g : Graph D) (d k : D.Key) : Prop :=
  g.isComplete d = true ∧ k ∈ (g.node d).rdeps ∧ g.isComplete k = true

instance (g : Graph D) (d k : D.Key) : Decidable (g.Conducts d k) :=
  inferInstanceAs (Decidable (_ ∧ _ ∧ _))

/-- A path of reverse edges over complete keys leads to the key from one of the given keys. -/
def Exposed (g : Graph D) (keys : List D.Key) (k : D.Key) : Prop :=
  ∃ x ∈ keys, g.isComplete x = true ∧ Relation.ReflTransGen g.Conducts x k

variable {g : Graph D} {keys : List D.Key} {k d : D.Key}

theorem Exposed.of_mem (hk : k ∈ keys) (hc : g.isComplete k = true) : g.Exposed keys k :=
  ⟨k, hk, hc, .refl⟩

theorem Exposed.step (h : g.Exposed keys d) (hedge : g.Conducts d k) : g.Exposed keys k := by
  obtain ⟨x, hx, hc, hpath⟩ := h
  exact ⟨x, hx, hc, hpath.tail hedge⟩

theorem Exposed.complete (h : g.Exposed keys k) : g.isComplete k = true := by
  obtain ⟨x, -, hc, hpath⟩ := h
  cases hpath with
  | refl => exact hc
  | tail _ hedge => exact hedge.2.2

theorem mem_changed_iff :
    k ∈ (g.invalidate keys).2.changed ↔ k ∈ keys ∧ g.isComplete k = true :=
  OrderedSet.mem_ofList.trans List.mem_filter

/-- The walk goes over the complete keys that were not named. -/
theorem mem_trusted_foldl_strike :
    k ∈ (keys.foldl strike g).trusted ↔ g.isComplete k = true ∧ k ∉ keys := by
  have hcomplete : (keys.foldl strike g).isComplete k = true ↔
      g.isComplete k = true ∧ k ∉ keys := by
    rw [isComplete, node_foldl_strike]
    by_cases hk : k ∈ keys
    · rcases (g.node k).status_strike with hs | hs
      · simp [hk, Node.isComplete, hs]
      · simp [hk, Node.isComplete, hs]
    · simp [hk, isComplete]
  rw [trusted, List.mem_filter, hcomplete]
  refine and_iff_right_of_imp fun h => ?_
  exact mem_keys_iff_contains.mpr (contains_of_isComplete (hcomplete.mpr h))

/-- The walk meets exactly the exposed keys that were not named. -/
theorem mem_dirtied_iff :
    k ∈ (g.invalidate keys).2.dirtied ↔ k ∉ keys ∧ g.Exposed keys k := by
  have hmet {x : D.Key} : x ∈ (g.invalidate keys).2.dirtied ↔
      Reached (keys.foldl strike g).readers (keys.foldl strike g).trusted
        ((g.invalidate keys).2.changed.flatMap (keys.foldl strike g).readers) x := mem_reach_iff
  constructor
  · intro hk
    have hreached := hmet.mp hk
    clear hk
    induction hreached with
    | seed hdomain hseed =>
        obtain ⟨x, hx, hread⟩ := List.mem_flatMap.mp hseed
        rw [readers_foldl_strike] at hread
        obtain ⟨hx, hxc⟩ := mem_changed_iff.mp hx
        obtain ⟨hc, hnamed⟩ := mem_trusted_foldl_strike.mp hdomain
        exact ⟨hnamed, (Exposed.of_mem hx hxc).step ⟨hxc, hread, hc⟩⟩
    | edge _ hread hdomain ih =>
        rw [readers_foldl_strike] at hread
        obtain ⟨hc, hnamed⟩ := mem_trusted_foldl_strike.mp hdomain
        exact ⟨hnamed, ih.2.step ⟨ih.2.complete, hread, hc⟩⟩
  · rintro ⟨hnamed, x, hx, hxc, hpath⟩
    -- Along the path, every key was named or is met; the readers of both kinds are followed.
    induction hpath with
    | refl => exact absurd hx hnamed
    | @tail y z _ hedge ih =>
        obtain ⟨hyc, hread, hzc⟩ := hedge
        have hdomain := mem_trusted_foldl_strike.mpr ⟨hzc, hnamed⟩
        have hread : z ∈ (keys.foldl strike g).readers y := by
          rw [readers_foldl_strike]
          exact hread
        by_cases hy : y ∈ keys
        · have hseed := List.mem_flatMap.mpr ⟨y, mem_changed_iff.mpr ⟨hy, hyc⟩, hread⟩
          exact hmet.mpr (.seed hdomain hseed)
        · exact hmet.mpr (.edge (hmet.mp (ih hy)) hread hdomain)

theorem nodup_changed (g : Graph D) (keys : List D.Key) : (g.invalidate keys).2.changed.Nodup :=
  OrderedSet.nodup _

theorem nodup_dirtied (g : Graph D) (keys : List D.Key) : (g.invalidate keys).2.dirtied.Nodup :=
  nodup_reach _ _ _

/-- The numbers count the named keys that were complete and the exposed ones that were not named. -/
theorem stats_invalidate (g : Graph D) (keys : List D.Key) :
    (g.invalidate keys).2.stats =
      { changed := {k | k ∈ keys ∧ g.isComplete k = true}.ncard
        dirtied := {k | k ∉ keys ∧ g.Exposed keys k}.ncard
        deleted := 0 } := by
  have hchanged := ncard_setOf_mem (nodup_changed g keys)
  have hdirtied := ncard_setOf_mem (nodup_dirtied g keys)
  simp only [mem_changed_iff] at hchanged
  simp only [mem_dirtied_iff] at hdirtied
  rw [Sweep.stats, hchanged, hdirtied]

theorem mem_notices_true_iff :
    (k, true) ∈ (g.invalidate keys).2.notices ↔ k ∈ keys ∧ g.isComplete k = true := by
  rw [← mem_changed_iff]
  simp [Sweep.notices]

theorem mem_notices_false_iff :
    (k, false) ∈ (g.invalidate keys).2.notices ↔ k ∉ keys ∧ g.Exposed keys k := by
  rw [← mem_dirtied_iff]
  simp [Sweep.notices]

/-- No key is told of twice. -/
theorem nodup_notices : ((g.invalidate keys).2.notices.map Prod.fst).Nodup := by
  have hmap : (g.invalidate keys).2.notices.map Prod.fst =
      (g.invalidate keys).2.changed ++ (g.invalidate keys).2.dirtied := by
    simp [Sweep.notices, Function.comp_def]
  rw [hmap]
  refine List.nodup_append.mpr ⟨nodup_changed g keys, nodup_dirtied g keys, ?_⟩
  rintro x hx y hy rfl
  exact (mem_dirtied_iff.mp hy).1 (mem_changed_iff.mp hx).1

/-! ## The state of every node -/

/-- Exposed keys lose their trust, and no others. -/
theorem isComplete_invalidate_iff_not_exposed :
    (g.invalidate keys).1.isComplete k = true ↔ g.isComplete k = true ∧ ¬ g.Exposed keys k := by
  rw [isComplete_invalidate, mem_dirtied_iff]
  constructor
  · rintro ⟨hc, hnamed, hmet⟩
    exact ⟨hc, fun h => hmet ⟨hnamed, h⟩⟩
  · rintro ⟨hc, hexposed⟩
    exact ⟨hc, fun hk => hexposed (.of_mem hk hc), fun h => hexposed h.2⟩

/-- A named key that was completed at some time has to be rebuilt. -/
theorem status_invalidate_of_named (hk : k ∈ keys) :
    ((g.invalidate keys).1.node k).status =
      if (g.node k).status = .new then .new else .changed := by
  rw [node_invalidate]
  simp only [mem_dirtied_iff, hk, not_true_eq_false, false_and, if_false]
  unfold Node.strike Node.isComplete Node.isDirty
  cases hs : (g.node k).status with
  | new => simp [hs]
  | dirty => simp
  | changed => simp
  | current => simp

/-- A key that was not named is dirtied if it is exposed, and else keeps its status. -/
theorem status_invalidate_of_not_named (hk : k ∉ keys) [Decidable (g.Exposed keys k)] :
    ((g.invalidate keys).1.node k).status =
      if g.Exposed keys k then .dirty else (g.node k).status := by
  rw [node_invalidate]
  simp only [mem_dirtied_iff, hk, not_false_eq_true, true_and]
  split
  · rename_i hexposed
    rw [Node.status_soil, if_pos]
    exact of_decide_eq_true hexposed.complete
  · rfl

/-- A named key that was complete or dirty is changed. -/
theorem state_invalidate_of_named (hk : k ∈ keys)
    (hstate : g.isComplete k = true ∨ (g.node k).state = .dirty) :
    ((g.invalidate keys).1.node k).state = .changed := by
  have hnew : (g.node k).status ≠ .new := by
    rcases hstate with hc | hs
    · rw [of_decide_eq_true hc]
      decide
    · rw [Node.state_eq_dirty_iff.mp hs]
      decide
  rw [Node.state, status_invalidate_of_named hk, if_neg hnew]

/-- An exposed key that was not named is dirty. -/
theorem state_invalidate_of_exposed (hk : k ∉ keys) (hexposed : g.Exposed keys k) :
    ((g.invalidate keys).1.node k).state = .dirty := by
  classical
  rw [Node.state_eq_dirty_iff, status_invalidate_of_not_named hk, if_pos hexposed]

/-- All other nodes are left alone. -/
theorem node_invalidate_of_neither
    (hnamed : k ∈ keys → ¬ (g.isComplete k = true ∨ (g.node k).state = .dirty))
    (hexposed : k ∉ keys → ¬ g.Exposed keys k) :
    (g.invalidate keys).1.node k = g.node k := by
  classical
  have hstatus : ((g.invalidate keys).1.node k).status = (g.node k).status := by
    by_cases hk : k ∈ keys
    · obtain ⟨hc, hdirty⟩ := not_or.mp (hnamed hk)
      rw [Node.state_eq_dirty_iff] at hdirty
      rw [status_invalidate_of_named hk]
      cases hs : (g.node k).status with
      | new => rfl
      | dirty => exact absurd hs hdirty
      | changed => rfl
      | current => exact absurd (decide_eq_true hs) hc
    · rw [status_invalidate_of_not_named hk, if_neg (hexposed hk)]
  rw [node_invalidate_eq, hstatus]

/-! ## Two invalidations -/

variable {xs ys zs : List D.Key}

theorem conducts_invalidate :
    (g.invalidate xs).1.Conducts d k ↔
      g.Conducts d k ∧ ¬ g.Exposed xs d ∧ ¬ g.Exposed xs k := by
  unfold Conducts
  rw [isComplete_invalidate_iff_not_exposed, isComplete_invalidate_iff_not_exposed,
    node_invalidate_eq]
  tauto

/-- What two lists expose together is exposed by the first one, or by the second one after the
first one has taken its part. -/
theorem exposed_iff_or (hz : ∀ k, k ∈ zs ↔ k ∈ xs ∨ k ∈ ys) :
    g.Exposed zs k ↔ g.Exposed xs k ∨ (g.invalidate xs).1.Exposed ys k := by
  constructor
  · rintro ⟨z, hmem, hc, hpath⟩
    induction hpath with
    | refl =>
        by_cases hx : g.Exposed xs z
        · exact .inl hx
        · refine .inr (.of_mem (((hz z).mp hmem).resolve_left fun h => hx (.of_mem h hc)) ?_)
          exact isComplete_invalidate_iff_not_exposed.mpr ⟨hc, hx⟩
    | @tail y k _ hedge ih =>
        -- A path that goes on from what the first list does not expose is left as it was.
        by_cases hx : g.Exposed xs k
        · exact .inl hx
        · have hy : ¬ g.Exposed xs y := fun h => hx (h.step hedge)
          exact .inr ((ih.resolve_left hy).step (conducts_invalidate.mpr ⟨hedge, hy, hx⟩))
  · rintro (⟨x, hx, hc, hpath⟩ | ⟨y, hy, hc, hpath⟩)
    · exact ⟨x, (hz x).mpr (.inl hx), hc, hpath⟩
    · refine ⟨y, (hz y).mpr (.inr hy), (isComplete_invalidate_iff_not_exposed.mp hc).1, ?_⟩
      exact Relation.ReflTransGen.mono (fun _ _ hedge => (conducts_invalidate.mp hedge).1) _ _ hpath

/-- After two invalidations every status is the one that an invalidation of all keys leaves. -/
theorem status_invalidate_invalidate (hz : ∀ k, k ∈ zs ↔ k ∈ xs ∨ k ∈ ys) (k : D.Key) :
    (((g.invalidate xs).1.invalidate ys).1.node k).status =
      ((g.invalidate zs).1.node k).status := by
  classical
  have hnew : ((g.invalidate xs).1.node k).status = .new ↔ (g.node k).status = .new := by
    rcases status_invalidate g xs k with h | ⟨hold, h⟩ | ⟨hold, h⟩
    · rw [h]
    · simp [hold, h]
    · simp [hold, h]
  by_cases hy : k ∈ ys
  · rw [status_invalidate_of_named hy, status_invalidate_of_named ((hz k).mpr (.inr hy))]
    simp only [hnew]
  · rw [status_invalidate_of_not_named hy]
    by_cases hx : k ∈ xs
    · -- What was struck is not complete any more, so the second walk does not meet it.
      have hmet : ¬ (g.invalidate xs).1.Exposed ys k := fun h =>
        (isComplete_invalidate.mp h.complete).2.1 hx
      rw [if_neg hmet, status_invalidate_of_named hx,
        status_invalidate_of_named ((hz k).mpr (.inl hx))]
    · have hk : k ∉ zs := fun h => ((hz k).mp h).elim hx hy
      rw [status_invalidate_of_not_named hx, status_invalidate_of_not_named hk]
      simp only [exposed_iff_or hz]
      by_cases hexposed : g.Exposed xs k
      · simp [hexposed]
      · simp [hexposed]

/-- Two invalidations in a row leave what one invalidation of all their keys leaves. -/
theorem invalidate_invalidate_eq (hz : ∀ k, k ∈ zs ↔ k ∈ xs ∨ k ∈ ys) :
    ((g.invalidate xs).1.invalidate ys).1 = (g.invalidate zs).1 := by
  refine ext_node (by simp only [keys_invalidate]) fun k => ?_
  rw [node_invalidate_eq (g.invalidate xs).1 ys k, node_invalidate_eq g zs k,
    status_invalidate_invalidate hz, node_invalidate_eq g xs k]

/-- An invalidation is exact: named keys that were complete or dirty are changed, keys that a path
of complete readers leads to from a named one are dirty, and nothing else is different.  Its numbers
and notices are those of the complete keys among them, and the order in which keys are named, at
once or one call after the other, is without effect. -/
theorem invalidate_exact (g : Graph D) (keys : List D.Key) :
    ((g.invalidate keys).1.keys = g.keys ∧
      ∀ k, (g.invalidate keys).1.node k =
        { g.node k with status := ((g.invalidate keys).1.node k).status }) ∧
    ((∀ k ∈ keys, g.isComplete k = true ∨ (g.node k).state = .dirty →
        ((g.invalidate keys).1.node k).state = .changed) ∧
      (∀ k ∉ keys, g.Exposed keys k →
        g.isComplete k = true ∧ ((g.invalidate keys).1.node k).state = .dirty) ∧
      ∀ k, (k ∈ keys → ¬ (g.isComplete k = true ∨ (g.node k).state = .dirty)) →
        (k ∉ keys → ¬ g.Exposed keys k) → (g.invalidate keys).1.node k = g.node k) ∧
    ((g.invalidate keys).2.stats =
        { changed := {k | k ∈ keys ∧ g.isComplete k = true}.ncard
          dirtied := {k | k ∉ keys ∧ g.Exposed keys k}.ncard
          deleted := 0 } ∧
      ((g.invalidate keys).2.notices.map Prod.fst).Nodup ∧
      (∀ k, (k, true) ∈ (g.invalidate keys).2.notices ↔ k ∈ keys ∧ g.isComplete k = true) ∧
      ∀ k, (k, false) ∈ (g.invalidate keys).2.notices ↔ k ∉ keys ∧ g.Exposed keys k) ∧
    ∀ more all : List D.Key, (∀ k, k ∈ all ↔ k ∈ keys ∨ k ∈ more) →
      ((g.invalidate keys).1.invalidate more).1 = (g.invalidate all).1 := by
  refine ⟨⟨keys_invalidate g keys, node_invalidate_eq g keys⟩, ⟨?_, ?_, ?_⟩, ⟨?_, ?_, ?_, ?_⟩, ?_⟩
  · exact fun k hk hstate => state_invalidate_of_named hk hstate
  · exact fun k hk hexposed => ⟨hexposed.complete, state_invalidate_of_exposed hk hexposed⟩
  · exact fun k hnamed hexposed => node_invalidate_of_neither hnamed hexposed
  · exact stats_invalidate g keys
  · exact nodup_notices
  · exact fun k => mem_notices_true_iff
  · exact fun k => mem_notices_false_iff
  · exact fun more all hall => invalidate_invalidate_eq hall

/-- Keys 0 and 1 read each other, and key 2 reads key 1 but is not complete.  Naming key 0 dirties
key 1 and goes no further, and naming key 1 as well afterwards leaves what naming both at once
leaves. -/
theorem invalidate_exact_pair : ∃ g : Graph Sample.domain,
    (g.Conducts (0 : Nat) (1 : Nat) ∧ g.Conducts (1 : Nat) (0 : Nat)) ∧
    ((g.invalidate [(0 : Nat)]).1.node (0 : Nat)).state = .changed ∧
    ((g.invalidate [(0 : Nat)]).1.node (1 : Nat)).state = .dirty ∧
    (g.invalidate [(0 : Nat)]).1.node (2 : Nat) = g.node (2 : Nat) ∧
    ((g.invalidate [(0 : Nat)]).1.invalidate [(1 : Nat), (1 : Nat)]).1 =
      (g.invalidate [(1 : Nat), (0 : Nat)]).1 := by
  let g : Graph Sample.domain :=
    (((((∅ : Graph Sample.domain).publish (0 : Nat) (.value (5 : Nat)) .initial).publish (1 : Nat)
      (.value (6 : Nat)) .initial).link (1 : Nat) (0 : Nat)).link (0 : Nat) (1 : Nat)).link
        (2 : Nat) (1 : Nat)
  have hforth : g.Conducts (0 : Nat) (1 : Nat) := by decide
  have hback : g.Conducts (1 : Nat) (0 : Nat) := by decide
  obtain ⟨-, ⟨hchanged, hdirty, hkept⟩, -, htwice⟩ := invalidate_exact g [(0 : Nat)]
  refine ⟨g, ⟨hforth, hback⟩, hchanged 0 (by simp) (.inl hforth.1), ?_, hkept 2 (by simp) ?_, ?_⟩
  · exact (hdirty 1 (by simp) ((Exposed.of_mem (by simp) hforth.1).step hforth)).2
  · intro _ hexposed
    have hincomplete : g.isComplete (2 : Nat) = false := by decide
    exact Bool.noConfusion (hexposed.complete.symm.trans hincomplete)
  · exact htwice [1, 1] [1, 0] (by simp [or_comm])

end Graph

end MemoGraph
