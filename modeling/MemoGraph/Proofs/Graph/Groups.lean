import MemoGraph.DepGroups
import Mathlib.Data.List.Basic
import Mathlib.Data.List.Induction

/-!
# What the groups of a sequence of batches are

`DepGroups` takes batches one at a time.  Seen as a whole, the groups of a sequence of batches are
the batches themselves, every key kept only where it was requested first, without those that become
empty; and their keys in order are the keys of all batches in the order of their first request.
-/

set_option autoImplicit false

namespace MemoGraph

variable {K : Type} [DecidableEq K]

/-- The keys of the batch at a position that no earlier batch contains, each at its first place. -/
def firstRequested (batches : List (List K)) (i : Nat) : List K :=
  (batches.getD i []).eraseDups.filter fun k => decide (k ∉ (batches.take i).flatten)

/-- The keys that each batch was the first to request, without the batches that add none. -/
def firstRequests (batches : List (List K)) : List (List K) :=
  ((List.range batches.length).map (firstRequested batches)).filter fun group => decide (group ≠ [])

theorem firstRequests_append_singleton (batches : List (List K)) (batch : List K) :
    firstRequests (batches ++ [batch]) = firstRequests batches ++
      [batch.eraseDups.filter fun k => decide (k ∉ batches.flatten)].filter
        fun group => decide (group ≠ []) := by
  have hlast : firstRequested (batches ++ [batch]) batches.length =
      batch.eraseDups.filter fun k => decide (k ∉ batches.flatten) := by
    simp [firstRequested]
  have hearlier : ∀ i ∈ List.range batches.length,
      firstRequested (batches ++ [batch]) i = firstRequested batches i := by
    intro i hi
    have hlt := List.mem_range.mp hi
    simp [firstRequested, List.take_append_of_le_length (Nat.le_of_lt hlt),
      List.getElem?_append_left hlt]
  rw [firstRequests, List.length_append, List.length_singleton, List.range_succ, List.map_append,
    List.filter_append, List.map_congr_left hearlier, List.map_singleton, hlast, firstRequests]

/-! ## First occurrences -/

/-- A last element counts if it did not occur before. -/
theorem eraseDups_append_singleton (items : List K) (a : K) :
    (items ++ [a]).eraseDups = if a ∈ items then items.eraseDups else items.eraseDups ++ [a] := by
  rw [List.eraseDups_append]
  by_cases ha : a ∈ items
  · simp [List.removeAll, ha]
  · simp [List.removeAll, ha, List.eraseDups_cons]

/-- First occurrences among the elements that pass a test. -/
theorem eraseDups_filter (p : K → Bool) (items : List K) :
    (items.filter p).eraseDups = items.eraseDups.filter p := by
  induction items using List.reverseRecOn with
  | nil => rfl
  | append_singleton items a ih =>
      rw [List.filter_append, eraseDups_append_singleton]
      cases hp : p a with
      | false =>
          have hnone : [a].filter p = [] := by simp [hp]
          rw [hnone, List.append_nil, ih]
          split
          · rfl
          · rw [List.filter_append, hnone, List.append_nil]
      | true =>
          have hone : [a].filter p = [a] := by simp [hp]
          rw [hone, eraseDups_append_singleton, ih]
          by_cases ha : a ∈ items
          · rw [if_pos ha, if_pos (List.mem_filter.mpr ⟨ha, hp⟩)]
          · rw [if_neg ha, if_neg fun h => ha (List.mem_filter.mp h).1, List.filter_append, hone]

theorem OrderedSet.toList_ofList (items : List K) :
    (OrderedSet.ofList items).toList = items.eraseDups := by
  induction items using List.reverseRecOn with
  | nil => rfl
  | append_singleton items a ih =>
      have hinsert : OrderedSet.ofList (items ++ [a]) = (OrderedSet.ofList items).insert a :=
        List.foldl_append
      rw [hinsert, OrderedSet.toList_insert, eraseDups_append_singleton, ih]
      simp only [OrderedSet.mem_ofList]

namespace DepGroups

theorem pushAll_append (s : DepGroups K) (batches more : List (List K)) :
    s.pushAll (batches ++ more) = (s.pushAll batches).pushAll more :=
  List.foldl_append

theorem ofBatches_append (batches more : List (List K)) :
    ofBatches (batches ++ more) = (ofBatches batches).pushAll more :=
  pushAll_append ∅ batches more

theorem mem_keys_ofBatches {batches : List (List K)} {k : K} :
    k ∈ (ofBatches batches).keys ↔ k ∈ batches.flatten := by
  rw [ofBatches, mem_keys_pushAll, List.mem_flatten]
  simp

theorem toList_unseen (s : DepGroups K) (batch : List K) :
    (s.unseen batch).toList = batch.eraseDups.filter fun k => decide (k ∉ s.keys) := by
  show (OrderedSet.ofList batch).toList.filter _ = _
  rw [OrderedSet.toList_ofList]
  refine List.filter_congr fun k _ => ?_
  rw [← Bool.not_inj_iff, Bool.not_not, Bool.eq_iff_iff, contains_iff]
  simp

/-- The groups of a sequence of batches are those of its first requests. -/
theorem groups_ofBatches (batches : List (List K)) :
    (ofBatches batches).groups = firstRequests batches := by
  induction batches using List.reverseRecOn with
  | nil => rfl
  | append_singleton batches batch ih =>
      have hunseen : ((ofBatches batches).unseen batch).toList =
          batch.eraseDups.filter fun k => decide (k ∉ batches.flatten) := by
        simp only [toList_unseen, mem_keys_ofBatches]
      rw [ofBatches_append, firstRequests_append_singleton, ← hunseen, ← ih]
      show ((ofBatches batches).push batch).groups = _
      unfold push
      split
      · rename_i hnil
        simp [hnil]
      · rename_i hnew
        simp [hnew]

/-- The keys of a sequence of batches in the order of their first request. -/
theorem keys_ofBatches (batches : List (List K)) :
    (ofBatches batches).keys = batches.flatten.eraseDups := by
  induction batches using List.reverseRecOn with
  | nil => rfl
  | append_singleton batches batch ih =>
      rw [ofBatches_append]
      show ((ofBatches batches).push batch).keys = _
      rw [keys_push, toList_unseen, ih, List.flatten_append, List.flatten_singleton,
        List.eraseDups_append]
      refine congrArg _ ?_
      rw [← eraseDups_filter, List.removeAll]
      refine congrArg List.eraseDups (List.filter_congr fun k _ => ?_)
      rw [List.elem_eq_mem, decide_not]
      simp only [List.mem_eraseDups]

end DepGroups

end MemoGraph
