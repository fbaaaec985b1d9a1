/-!
# Sets that remember insertion order

An `OrderedSet` is a list without repetitions.  Inserting a member changes nothing, inserting a
new element appends it, so the list shows the elements in the order of their first insertion.
Membership after each operation is stated beside it.
-/

set_option autoImplicit false

namespace MemoGraph

/-- A finite set with its elements in the order of their first insertion. -/
structure OrderedSet (α : Type) where
  /-- The elements, oldest first. -/
  toList : List α
  /-- No element occurs twice. -/
  nodup : toList.Nodup

namespace OrderedSet

variable {α : Type}

@[ext] theorem ext {s t : OrderedSet α} (h : s.toList = t.toList) : s = t := by
  cases s; cases t; cases h; rfl

instance [DecidableEq α] : DecidableEq (OrderedSet α) := fun s t =>
  decidable_of_iff (s.toList = t.toList) ⟨ext, fun h => h ▸ rfl⟩

/-- The set without elements. -/
def empty : OrderedSet α := ⟨[], List.nodup_nil⟩

instance : EmptyCollection (OrderedSet α) := ⟨empty⟩

instance : Inhabited (OrderedSet α) := ⟨empty⟩

instance : Membership α (OrderedSet α) := ⟨fun s a => a ∈ s.toList⟩

theorem mem_def {s : OrderedSet α} {a : α} : a ∈ s ↔ a ∈ s.toList := Iff.rfl

@[simp] theorem not_mem_empty (a : α) : a ∉ (∅ : OrderedSet α) := List.not_mem_nil

/-- The set with one element. -/
def singleton (a : α) : OrderedSet α := ⟨[a], by simp⟩

@[simp] theorem mem_singleton {a b : α} : b ∈ singleton a ↔ b = a := List.mem_singleton

/-- Number of elements. -/
def size (s : OrderedSet α) : Nat := s.toList.length

/-- The elements that pass a test, in the same order. -/
def filter (p : α → Bool) (s : OrderedSet α) : OrderedSet α :=
  ⟨s.toList.filter p, s.nodup.filter p⟩

@[simp] theorem mem_filter {p : α → Bool} {s : OrderedSet α} {a : α} :
    a ∈ s.filter p ↔ a ∈ s ∧ p a = true := List.mem_filter

variable [DecidableEq α]

instance (a : α) (s : OrderedSet α) : Decidable (a ∈ s) :=
  inferInstanceAs (Decidable (a ∈ s.toList))

/-- Append an element unless it is a member already. -/
def insert (s : OrderedSet α) (a : α) : OrderedSet α :=
  if h : a ∈ s.toList then s
  else ⟨s.toList ++ [a], by
    refine List.nodup_append.mpr ⟨s.nodup, by simp, ?_⟩
    intro x hx y hy
    obtain rfl : y = a := by simpa using hy
    exact fun e => h (e ▸ hx)⟩

theorem toList_insert (s : OrderedSet α) (a : α) :
    (s.insert a).toList = if a ∈ s then s.toList else s.toList ++ [a] := by
  unfold insert
  by_cases h : a ∈ s.toList
  · simp [h, mem_def]
  · simp [h, mem_def]

@[simp] theorem mem_insert {s : OrderedSet α} {a b : α} : b ∈ s.insert a ↔ b ∈ s ∨ b = a := by
  rw [mem_def, toList_insert]
  by_cases h : a ∈ s
  · simp only [h, if_true]
    exact ⟨.inl, fun hb => hb.elim id fun e => e ▸ h⟩
  · simp [h, mem_def]

/-- Insert every element of a list, in order. -/
def insertAll (s : OrderedSet α) (items : List α) : OrderedSet α :=
  items.foldl insert s

@[simp] theorem mem_insertAll {s : OrderedSet α} {items : List α} {a : α} :
    a ∈ s.insertAll items ↔ a ∈ s ∨ a ∈ items := by
  induction items generalizing s with
  | nil => simp [insertAll]
  | cons b rest ih =>
      have h := @ih (s.insert b)
      simp only [insertAll, List.foldl_cons] at h ⊢
      rw [h, mem_insert, List.mem_cons, or_assoc]

/-- Different elements that are not members are appended in their order. -/
theorem toList_insertAll_of_new {s : OrderedSet α} {items : List α} (hnodup : items.Nodup)
    (hnew : ∀ a ∈ items, a ∉ s) : (s.insertAll items).toList = s.toList ++ items := by
  induction items generalizing s with
  | nil => simp [insertAll]
  | cons b rest ih =>
      obtain ⟨hb, hrest⟩ := List.nodup_cons.mp hnodup
      have hinsert : (s.insert b).toList = s.toList ++ [b] := by
        rw [toList_insert, if_neg (hnew b List.mem_cons_self)]
      have hmore := @ih (s.insert b) hrest fun a ha hmem => by
        rcases mem_insert.mp hmem with hmem | rfl
        · exact hnew a (List.mem_cons_of_mem b ha) hmem
        · exact hb ha
      simp only [insertAll, List.foldl_cons] at hmore ⊢
      rw [hmore, hinsert, List.append_assoc, List.singleton_append]

/-- The distinct elements of a list in the order of their first occurrence. -/
def ofList (items : List α) : OrderedSet α := (∅ : OrderedSet α).insertAll items

@[simp] theorem mem_ofList {items : List α} {a : α} : a ∈ ofList items ↔ a ∈ items := by
  simp [ofList]

/-- Different elements are listed as they come. -/
theorem toList_ofList_of_nodup {items : List α} (h : items.Nodup) : (ofList items).toList = items :=
  toList_insertAll_of_new h fun a _ => not_mem_empty a

theorem ofList_toList (s : OrderedSet α) : ofList s.toList = s :=
  ext (toList_ofList_of_nodup s.nodup)

/-- Remove an element. -/
def erase (s : OrderedSet α) (a : α) : OrderedSet α := s.filter fun b => decide (b ≠ a)

@[simp] theorem mem_erase {s : OrderedSet α} {a b : α} : b ∈ s.erase a ↔ b ∈ s ∧ b ≠ a := by
  simp [erase]

/-- Equality as sets, whatever the order. -/
def sameMembers (s t : OrderedSet α) : Bool :=
  s.toList.all (fun a => decide (a ∈ t)) && t.toList.all (fun a => decide (a ∈ s))

theorem sameMembers_iff {s t : OrderedSet α} :
    s.sameMembers t = true ↔ ∀ a, a ∈ s ↔ a ∈ t := by
  simp only [sameMembers, Bool.and_eq_true, List.all_eq_true, decide_eq_true_eq]
  exact ⟨fun h a => ⟨h.1 a, h.2 a⟩, fun h => ⟨fun a => (h a).1, fun a => (h a).2⟩⟩

end OrderedSet

end MemoGraph
