import Mathlib.Data.List.Nodup
import Mathlib.Data.List.Perm.Basic
import MemoGraph.Failure

/-!
# Failures seen from afar

A root that was not completed shows a failure from deep below as if every key on the way had failed
because of the next one.  Nobody made those keys fail: the way is put before the path of every cycle
in one sweep, without a look at what a key on it would have left out.  The outcome is the failure
that would have reached the root key by key exactly if no key on the way is on one of the cycles and
no cycle is listed twice.
-/

set_option autoImplicit false

namespace MemoGraph

/-- The same cycle seen from the start of a chain that leads to the current entry point. -/
def Cycle.seenPast {K : Type} (chain : List K) (c : Cycle K) : Cycle K :=
  { c with path := chain ++ c.path }

theorem Cycle.seenPast_injective {K : Type} (chain : List K) :
    Function.Injective (Cycle.seenPast chain) := by
  intro c c' h
  obtain ⟨hpath, hmembers⟩ := Cycle.mk.inj h
  cases c
  cases c'
  exact congrArg₂ Cycle.mk (List.append_cancel_left hpath) hmembers

namespace OrderedSet

variable {α : Type} [DecidableEq α]

theorem subperm_ofList (items : List α) : (ofList items).toList.Subperm items :=
  List.subperm_of_subset (ofList items).nodup fun _ ha => mem_ofList.mp (mem_def.mpr ha)

/-- Only different elements are all listed. -/
theorem nodup_of_length_le {items : List α} (h : items.length ≤ (ofList items).toList.length) :
    items.Nodup :=
  ((subperm_ofList items).perm_of_length_le h).nodup_iff.mp (ofList items).nodup

end OrderedSet

namespace Failure

variable {K E : Type}

/-- The whole chain is put before the path of each cycle. -/
theorem cycles_seenAlong (chain : List K) (child : Failure K E) :
    (child.seenAlong chain).cycles = child.cycles.map (Cycle.seenPast chain) := by
  induction chain with
  | nil => exact (List.map_id _).symm
  | cons k chain ih =>
      show (child.seenAlong chain).cycles.map (Cycle.seenPast [k]) = _
      rw [ih, List.map_map]
      rfl

variable [DecidableEq K]

/-- The failure that reaches the start of a chain if every key of it fails because of the next one,
and the last one because of `child`. -/
def propagate (chain : List K) (child : Failure K E) : Failure K E :=
  chain.foldr (fun k below => ofChildren k [below]) child

/-- Seen from the start of a chain, the same keys are on the cycles. -/
theorem isMember_cycles_seenAlong {chain : List K} {child : Failure K E} {k : K} :
    (∀ c ∈ (child.seenAlong chain).cycles, c.isMember k = false) ↔
      ∀ c ∈ child.cycles, c.isMember k = false := by
  rw [cycles_seenAlong, List.forall_mem_map]
  exact Iff.rfl

/-- The cycles that `k` takes over from its only failed dependency, repeated ones included. -/
def takenOver (k : K) (child : Failure K E) : List (Cycle K) :=
  (child.cycles.filter fun c => !c.isMember k).map (Cycle.seenFrom k)

theorem cycles_ofChildren_singleton (k : K) (child : Failure K E) :
    (ofChildren k [child]).cycles = (OrderedSet.ofList (child.takenOver k)).toList := by
  simp only [ofChildren, cyclesBelow, takenOver, List.flatMap_cons, List.flatMap_nil,
    List.append_nil]

/-! ## What passes one key -/

/-- A failure passes a key unchanged, but for the paths, if the key is on none of its cycles and
these are different. -/
theorem ofChildren_singleton {k : K} {child : Failure K E} (hdistinct : child.cycles.Nodup)
    (hforeign : ∀ c ∈ child.cycles, c.isMember k = false) :
    ofChildren k [child] = child.seenAlong [k] := by
  have hall : child.takenOver k = child.cycles.map (Cycle.seenFrom k) := by
    rw [takenOver, List.filter_eq_self.mpr fun c hc => by rw [hforeign c hc]; rfl]
  have hfault : [child].findSome? fault = child.fault := by simp
  have hcauses : [child].flatMap (fun child => child.rootCauses.toList) =
      child.rootCauses.toList := by simp
  have hcycles : cyclesBelow k [child] = child.cycles.map (Cycle.seenFrom k) := by
    show (ofChildren k [child]).cycles = _
    rw [cycles_ofChildren_singleton, hall]
    exact OrderedSet.toList_ofList_of_nodup (hdistinct.map (Cycle.seenPast_injective [k]))
  rw [ofChildren, hfault, hcauses, hcycles, OrderedSet.ofList_toList]
  rfl

theorem length_takenOver_le (k : K) (child : Failure K E) :
    (child.takenOver k).length ≤ child.cycles.length := by
  rw [takenOver, List.length_map]
  exact List.length_filter_le _ _

/-- No key adds a cycle. -/
theorem length_cycles_ofChildren_le (k : K) (child : Failure K E) :
    (ofChildren k [child]).cycles.length ≤ child.cycles.length := by
  rw [cycles_ofChildren_singleton]
  exact Nat.le_trans (OrderedSet.subperm_ofList _).length_le (length_takenOver_le k child)

/-- A key that loses no cycle is on none of them, and they are different. -/
theorem distinct_of_length_le {k : K} {child : Failure K E}
    (h : child.cycles.length ≤ (ofChildren k [child]).cycles.length) :
    child.cycles.Nodup ∧ ∀ c ∈ child.cycles, c.isMember k = false := by
  rw [cycles_ofChildren_singleton] at h
  have hlisted := (OrderedSet.subperm_ofList (child.takenOver k)).length_le
  have htaken := length_takenOver_le k child
  have hforeign : ∀ c ∈ child.cycles, (!c.isMember k) = true := by
    refine List.length_filter_eq_length_iff.mp (Nat.le_antisymm (List.length_filter_le _ _) ?_)
    have hfiltered : (child.takenOver k).length = _ := List.length_map _
    exact hfiltered ▸ Nat.le_trans h hlisted
  have hnodup : (child.takenOver k).Nodup := OrderedSet.nodup_of_length_le (Nat.le_trans htaken h)
  rw [takenOver, List.filter_eq_self.mpr hforeign] at hnodup
  exact ⟨hnodup.of_map _, fun c hc => by simpa using hforeign c hc⟩

/-! ## What passes a chain -/

theorem propagate_cons (k : K) (chain : List K) (child : Failure K E) :
    child.propagate (k :: chain) = ofChildren k [child.propagate chain] := rfl

theorem length_cycles_propagate_le (chain : List K) (child : Failure K E) :
    (child.propagate chain).cycles.length ≤ child.cycles.length := by
  induction chain with
  | nil => exact Nat.le_refl _
  | cons k chain ih => exact Nat.le_trans (length_cycles_ofChildren_le k _) ih

/-- A failure passes a chain unchanged, but for the paths, if no key of the chain is on one of its
cycles and these are different. -/
theorem propagate_eq_seenAlong {chain : List K} (hchain : chain ≠ []) {child : Failure K E}
    (hdistinct : child.cycles.Nodup)
    (hforeign : ∀ c ∈ child.cycles, ∀ k ∈ chain, c.isMember k = false) :
    child.propagate chain = child.seenAlong chain := by
  -- The base is one key: seen along no key at all, a failure would still count as propagated.
  induction chain with
  | nil => exact absurd rfl hchain
  | cons k chain ih =>
      have hk (c : Cycle K) (hc : c ∈ child.cycles) : c.isMember k = false :=
        hforeign c hc k List.mem_cons_self
      cases chain with
      | nil => exact ofChildren_singleton hdistinct hk
      | cons k' chain =>
          have hbelow := ih (List.cons_ne_nil k' chain) fun c hc x hx =>
            hforeign c hc x (List.mem_cons_of_mem k hx)
          rw [propagate_cons, hbelow]
          refine ofChildren_singleton ?_ (isMember_cycles_seenAlong.mpr hk)
          rw [cycles_seenAlong]
          exact hdistinct.map (Cycle.seenPast_injective _)

/-- If no cycle is lost on the way, no key of the chain is on one of them and they are different. -/
theorem distinct_of_length_propagate {chain : List K} (hchain : chain ≠ []) {child : Failure K E}
    (h : child.cycles.length ≤ (child.propagate chain).cycles.length) :
    child.cycles.Nodup ∧ ∀ c ∈ child.cycles, ∀ k ∈ chain, c.isMember k = false := by
  induction chain with
  | nil => exact absurd rfl hchain
  | cons k chain ih =>
      -- `k` receives at most as many cycles as there were and passes on at least as many, so it
      -- loses none, and neither do the keys below it.
      have hbelow := length_cycles_propagate_le chain child
      obtain ⟨hdistinct, hk⟩ := distinct_of_length_le (Nat.le_trans hbelow h)
      cases chain with
      | nil => exact ⟨hdistinct, fun c hc => List.forall_mem_singleton.mpr (hk c hc)⟩
      | cons k' chain =>
          obtain ⟨hdistinct, hforeign⟩ := ih (List.cons_ne_nil k' chain)
            (Nat.le_trans h (length_cycles_ofChildren_le k _))
          rw [propagate_eq_seenAlong (List.cons_ne_nil k' chain) hdistinct hforeign] at hk
          have hk := isMember_cycles_seenAlong.mp hk
          exact ⟨hdistinct, fun c hc => List.forall_mem_cons.mpr ⟨hk c hc, hforeign c hc⟩⟩

/-- A failure seen from the start of a chain is the one that would have been propagated along it,
exactly if its cycles are different and contain no key of the chain.  It counts as propagated in any
case. -/
theorem seenAlong_eq_propagate_iff {chain : List K} (hchain : chain ≠ []) (child : Failure K E) :
    (child.seenAlong chain = child.propagate chain ↔
      child.cycles.Nodup ∧ ∀ c ∈ child.cycles, ∀ k ∈ chain, c.isMember k = false) ∧
    (child.seenAlong chain).origin = .propagated ∧
    (child.propagate chain).origin = .propagated := by
  refine ⟨⟨fun h => ?_, fun ⟨hdistinct, hforeign⟩ => ?_⟩, rfl, ?_⟩
  · have hlength : (child.seenAlong chain).cycles.length = child.cycles.length := by
      rw [cycles_seenAlong, List.length_map]
    exact distinct_of_length_propagate hchain (h ▸ Nat.le_of_eq hlength.symm)
  · exact (propagate_eq_seenAlong hchain hdistinct hforeign).symm
  · obtain ⟨k, chain, rfl⟩ := List.exists_cons_of_ne_nil hchain
    rfl

/-- A failure with a fault, two causes and two cycles, seen past two keys that are on neither. -/
theorem seenAlong_eq_propagate_past_two :
    let child : Failure Nat String :=
      { fault := some "broken", rootCauses := .ofList [9, 8], cycles := [⟨[], [3, 4]⟩, ⟨[5], [6]⟩],
        origin := .own }
    child.seenAlong [1, 2] = child.propagate [1, 2] ∧
      (child.propagate [1, 2]).rootCauses.toList = [9, 8] ∧
      (child.propagate [1, 2]).cycles = [⟨[1, 2], [3, 4]⟩, ⟨[1, 2, 5], [6]⟩] ∧
      (child.propagate [1, 2]).origin = .propagated := by
  intro child
  obtain ⟨hiff, -, horigin⟩ := seenAlong_eq_propagate_iff (List.cons_ne_nil 1 [2]) child
  have hsame : child.seenAlong [1, 2] = child.propagate [1, 2] := hiff.mpr ⟨by decide, by decide⟩
  exact ⟨hsame, hsame ▸ rfl, hsame ▸ rfl, horigin⟩

end Failure

end MemoGraph
