import MemoGraph.OrderedSet

/-!
# Dependencies grouped by request

A computation requests its dependencies in batches.  `DepGroups` keeps every key at its first
request only, in the group of the batch that first asked for it, and keeps no empty group.  The
order of groups matters: whether a later batch is requested at all may hang on the answers to an
earlier one, so groups are re-checked one at a time.  Beside the groups stands the set of all
requested keys, which answers whether a key was requested and how many were.
-/

set_option autoImplicit false

namespace MemoGraph

/-- Requested keys in request order, grouped by the batch that first asked for them. -/
structure DepGroups (K : Type) where
  /-- The groups, earliest first. -/
  groups : List (List K)
  /-- All requested keys. -/
  seen : OrderedSet K
  /-- The groups list the requested keys in their order. -/
  listed : seen.toList = groups.flatten
  /-- No group is empty. -/
  nonempty : ∀ group ∈ groups, group ≠ []

namespace DepGroups

variable {K : Type}

/-- The groups determine the set of requested keys. -/
@[ext] theorem ext {s t : DepGroups K} (h : s.groups = t.groups) : s = t := by
  have hseen : s.seen = t.seen := OrderedSet.ext (by rw [s.listed, t.listed, h])
  cases s; cases t; cases h; cases hseen; rfl

/-- No key is listed twice. -/
theorem nodup (s : DepGroups K) : s.groups.flatten.Nodup := s.listed ▸ s.seen.nodup

instance [DecidableEq K] : DecidableEq (DepGroups K) := fun s t =>
  decidable_of_iff (s.groups = t.groups) ⟨ext, fun h => h ▸ rfl⟩

/-- No dependencies. -/
def empty : DepGroups K := ⟨[], ∅, rfl, by simp⟩

instance : EmptyCollection (DepGroups K) := ⟨empty⟩

instance : Inhabited (DepGroups K) := ⟨empty⟩

/-- All keys in request order. -/
def keys (s : DepGroups K) : List K := s.groups.flatten

@[simp] theorem keys_empty : (∅ : DepGroups K).keys = [] := rfl

theorem mem_seen_iff {s : DepGroups K} {k : K} : k ∈ s.seen ↔ k ∈ s.keys := by
  rw [OrderedSet.mem_def, s.listed, keys]

/-- Number of keys. -/
def size (s : DepGroups K) : Nat := s.seen.size

theorem size_eq_length (s : DepGroups K) : s.size = s.keys.length :=
  congrArg List.length s.listed

/-- Whether there are no keys. -/
def isEmpty (s : DepGroups K) : Bool := decide (s.size = 0)

/-- The group at a position. -/
def group? (s : DepGroups K) (i : Nat) : Option (List K) := s.groups[i]?

variable [DecidableEq K]

/-- Whether a key has been requested. -/
def contains (s : DepGroups K) (k : K) : Bool := decide (k ∈ s.seen)

@[simp] theorem contains_iff {s : DepGroups K} {k : K} : s.contains k = true ↔ k ∈ s.keys := by
  rw [contains, decide_eq_true_eq, mem_seen_iff]

/-- The keys of a batch that were not requested before, each once. -/
def unseen (s : DepGroups K) (batch : List K) : OrderedSet K :=
  (OrderedSet.ofList batch).filter fun k => !s.contains k

@[simp] theorem mem_unseen {s : DepGroups K} {batch : List K} {k : K} :
    k ∈ s.unseen batch ↔ k ∈ batch ∧ k ∉ s.keys := by
  simp [unseen, Bool.eq_false_iff]

/-- Append the unseen keys of a batch as one group, or nothing if there are none. -/
def push (s : DepGroups K) (batch : List K) : DepGroups K :=
  if h : (s.unseen batch).toList = [] then s
  else
    { groups := s.groups ++ [(s.unseen batch).toList]
      seen := s.seen.insertAll (s.unseen batch).toList
      listed := by
        rw [List.flatten_append, List.flatten_singleton, ← s.listed]
        refine OrderedSet.toList_insertAll_of_new (s.unseen batch).nodup fun k hk hseen => ?_
        exact (mem_unseen.mp (OrderedSet.mem_def.mpr hk)).2 (mem_seen_iff.mp hseen)
      nonempty := by
        intro group hg
        rcases List.mem_append.mp hg with hg | hg
        · exact s.nonempty group hg
        · exact List.mem_singleton.mp hg ▸ h }

theorem keys_push (s : DepGroups K) (batch : List K) :
    (s.push batch).keys = s.keys ++ (s.unseen batch).toList := by
  unfold push
  by_cases h : (s.unseen batch).toList = []
  · simp [h, keys]
  · simp [h, keys]

@[simp] theorem mem_keys_push {s : DepGroups K} {batch : List K} {k : K} :
    k ∈ (s.push batch).keys ↔ k ∈ s.keys ∨ k ∈ batch := by
  rw [keys_push, List.mem_append, ← OrderedSet.mem_def, mem_unseen]
  by_cases h : k ∈ s.keys
  · simp [h]
  · simp [h]

/-- Append several batches in order. -/
def pushAll (s : DepGroups K) (batches : List (List K)) : DepGroups K :=
  batches.foldl push s

@[simp] theorem mem_keys_pushAll {s : DepGroups K} {batches : List (List K)} {k : K} :
    k ∈ (s.pushAll batches).keys ↔ k ∈ s.keys ∨ ∃ batch ∈ batches, k ∈ batch := by
  induction batches generalizing s with
  | nil => simp [pushAll]
  | cons batch rest ih =>
      have h := @ih (s.push batch)
      simp only [pushAll, List.foldl_cons] at h ⊢
      rw [h, mem_keys_push]
      simp [or_assoc]

/-- The groups of a sequence of batches. -/
def ofBatches (batches : List (List K)) : DepGroups K := (∅ : DepGroups K).pushAll batches

end DepGroups

end MemoGraph
