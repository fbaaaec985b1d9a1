/-!
# Tables that remember insertion order

A `Table K V` is a finite map from keys to values.  Storing under a present key replaces the value
where it stands, storing under a new key appends a row, so rows stay in the order in which their
keys first arrived.  The view of a table is `get?`; every operation is described through it.
-/

set_option autoImplicit false

namespace MemoGraph

/-- A finite map whose rows stay in the order in which their keys first arrived. -/
structure Table (K V : Type) where
  /-- The rows, oldest key first. -/
  entries : List (K × V)
  /-- No key has two rows. -/
  nodup : (entries.map Prod.fst).Nodup

namespace Table

variable {K V W : Type}

/-- The table without rows. -/
def empty : Table K V := ⟨[], List.nodup_nil⟩

instance : EmptyCollection (Table K V) := ⟨empty⟩

instance : Inhabited (Table K V) := ⟨empty⟩

/-- The keys, oldest first. -/
def keys (t : Table K V) : List K := t.entries.map Prod.fst

theorem keys_nodup (t : Table K V) : t.keys.Nodup := t.nodup

@[simp] theorem keys_empty : (∅ : Table K V).keys = [] := rfl

/-- Number of rows. -/
def size (t : Table K V) : Nat := t.entries.length

/-- Whether there is no row. -/
def isEmpty (t : Table K V) : Bool := t.entries.isEmpty

/-- Apply a function to every value. -/
def map (f : V → W) (t : Table K V) : Table K W :=
  ⟨t.entries.map fun e => (e.1, f e.2), by
    have h : (t.entries.map fun e => (e.1, f e.2)).map Prod.fst = t.entries.map Prod.fst := by
      simp [Function.comp_def]
    rw [h]
    exact t.nodup⟩

/-- The rows whose key passes a test. -/
def filterKeys (p : K → Bool) (t : Table K V) : Table K V :=
  ⟨t.entries.filter fun e => p e.1, by
    refine List.Nodup.sublist ?_ t.nodup
    exact List.filter_sublist.map _⟩

@[simp] theorem mem_keys_filterKeys {p : K → Bool} {t : Table K V} {k : K} :
    k ∈ (t.filterKeys p).keys ↔ k ∈ t.keys ∧ p k = true := by
  simp only [keys, filterKeys, List.mem_map, List.mem_filter]
  constructor
  · rintro ⟨e, ⟨he, hp⟩, rfl⟩
    exact ⟨⟨e, he, rfl⟩, hp⟩
  · rintro ⟨⟨e, he, rfl⟩, hp⟩
    exact ⟨e, ⟨he, hp⟩, rfl⟩

variable [DecidableEq K]

/-- The value stored under a key. -/
def get? (t : Table K V) (k : K) : Option V :=
  (t.entries.find? fun e => decide (e.1 = k)).map Prod.snd

/-- Whether a key has a row. -/
def contains (t : Table K V) (k : K) : Bool := (t.get? k).isSome

@[simp] theorem get?_empty (k : K) : (∅ : Table K V).get? k = none := rfl

/-- Rows are found by their keys. -/
theorem get?_eq_some_iff {t : Table K V} {k : K} {v : V} :
    t.get? k = some v ↔ (k, v) ∈ t.entries := by
  obtain ⟨entries, nodup⟩ := t
  simp only [get?]
  induction entries with
  | nil => simp
  | cons e rest ih =>
      obtain ⟨k', v'⟩ := e
      simp only [List.map_cons, List.nodup_cons] at nodup
      by_cases h : k' = k
      · subst h
        have hrest : (k', v) ∉ rest := fun hm => nodup.1 (List.mem_map_of_mem (f := Prod.fst) hm)
        simp only [List.find?_cons, decide_true, Option.map_some, Option.some.injEq,
          List.mem_cons, Prod.mk.injEq, true_and, hrest, or_false]
        exact ⟨Eq.symm, Eq.symm⟩
      · have hne : ¬ (k, v) = (k', v') := fun e => h (congrArg Prod.fst e).symm
        simpa [List.find?_cons, h, hne] using ih nodup.2

theorem mem_keys_iff {t : Table K V} {k : K} : k ∈ t.keys ↔ ∃ v, t.get? k = some v := by
  simp only [keys, List.mem_map]
  constructor
  · rintro ⟨⟨k', v⟩, h, rfl⟩
    exact ⟨v, get?_eq_some_iff.mpr h⟩
  · rintro ⟨v, h⟩
    exact ⟨(k, v), get?_eq_some_iff.mp h, rfl⟩

theorem contains_iff_mem_keys {t : Table K V} {k : K} : t.contains k = true ↔ k ∈ t.keys := by
  rw [mem_keys_iff, contains, Option.isSome_iff_exists]

/-- Store a value: in place if the key has a row, else in a new last row. -/
def insert (t : Table K V) (k : K) (v : V) : Table K V :=
  if h : k ∈ t.entries.map Prod.fst then
    ⟨t.entries.map fun e => if e.1 = k then (k, v) else e, by
      have hkeys : (t.entries.map fun e => if e.1 = k then (k, v) else e).map Prod.fst =
          t.entries.map Prod.fst := by
        rw [List.map_map]
        refine List.map_congr_left fun e _ => ?_
        by_cases he : e.1 = k
        · simp [he]
        · simp [he]
      rw [hkeys]
      exact t.nodup⟩
  else
    ⟨t.entries ++ [(k, v)], by
      rw [List.map_append]
      refine List.nodup_append.mpr ⟨t.nodup, by simp, ?_⟩
      intro x hx y hy
      obtain rfl : y = k := by simpa using hy
      exact fun e => h (e ▸ hx)⟩

theorem keys_insert (t : Table K V) (k : K) (v : V) :
    (t.insert k v).keys = if k ∈ t.keys then t.keys else t.keys ++ [k] := by
  unfold insert keys
  by_cases h : k ∈ t.entries.map Prod.fst
  · simp only [h, dite_true, if_true, List.map_map]
    refine List.map_congr_left fun e _ => ?_
    by_cases he : e.1 = k
    · simp [he]
    · simp [he]
  · simp [h]

@[simp] theorem mem_keys_insert {t : Table K V} {k k' : K} {v : V} :
    k' ∈ (t.insert k v).keys ↔ k' ∈ t.keys ∨ k' = k := by
  rw [keys_insert]
  by_cases h : k ∈ t.keys
  · simp only [h, if_true]
    exact ⟨.inl, fun hk => hk.elim id fun e => e ▸ h⟩
  · simp [h]

theorem get?_insert (t : Table K V) (k k' : K) (v : V) :
    (t.insert k v).get? k' = if k' = k then some v else t.get? k' := by
  refine Option.ext fun w => ?_
  rw [get?_eq_some_iff]
  by_cases hk : k ∈ t.entries.map Prod.fst
  · simp only [insert, hk, dite_true, List.mem_map]
    by_cases h : k' = k
    · subst h
      obtain ⟨e, he, hek⟩ := List.mem_map.mp hk
      simp only [if_true, Option.some.injEq]
      constructor
      · rintro ⟨e', _, hw⟩
        by_cases he' : e'.1 = k'
        · rw [if_pos he'] at hw
          exact congrArg Prod.snd hw
        · rw [if_neg he'] at hw
          exact absurd (congrArg Prod.fst hw) he'
      · rintro rfl
        exact ⟨e, he, by rw [if_pos hek]⟩
    · simp only [h, if_false]
      rw [get?_eq_some_iff]
      constructor
      · rintro ⟨e', he', hw⟩
        by_cases hek : e'.1 = k
        · rw [if_pos hek] at hw
          exact absurd (congrArg Prod.fst hw).symm h
        · rw [if_neg hek] at hw
          exact hw ▸ he'
      · intro hw
        exact ⟨(k', w), hw, by rw [if_neg h]⟩
  · simp only [insert, hk, dite_false, List.mem_append, List.mem_singleton, Prod.mk.injEq]
    by_cases h : k' = k
    · subst h
      have hnot : (k', w) ∉ t.entries := fun hm => hk (List.mem_map_of_mem (f := Prod.fst) hm)
      simp only [hnot, false_or, true_and, if_true, Option.some.injEq]
      exact ⟨Eq.symm, Eq.symm⟩
    · simp only [h, false_and, or_false, if_false]
      exact get?_eq_some_iff.symm

@[simp] theorem get?_insert_self (t : Table K V) (k : K) (v : V) :
    (t.insert k v).get? k = some v := by
  simp [get?_insert]

theorem get?_insert_eq_some_iff {t : Table K V} {k k' : K} {v w : V} :
    (t.insert k v).get? k' = some w ↔ k' = k ∧ v = w ∨ k' ≠ k ∧ t.get? k' = some w := by
  rw [get?_insert]
  by_cases h : k' = k
  · simp [h]
  · simp [h]

theorem contains_insert {t : Table K V} {k k' : K} {v : V} :
    (t.insert k v).contains k' = true ↔ k' = k ∨ t.contains k' = true := by
  rw [contains_iff_mem_keys, contains_iff_mem_keys, mem_keys_insert, or_comm]

/-- Storing a new value for a key that has a row adds no row. -/
theorem contains_insert_of_contains {t : Table K V} {k : K} (h : t.contains k = true) (k' : K)
    (v : V) : (t.insert k v).contains k' = t.contains k' := by
  refine Bool.eq_iff_iff.mpr (contains_insert.trans (or_iff_right_iff_imp.mpr ?_))
  rintro rfl
  exact h

/-- Remove the row of a key. -/
def erase (t : Table K V) (k : K) : Table K V := t.filterKeys fun k' => decide (k' ≠ k)

@[simp] theorem get?_filterKeys {p : K → Bool} {t : Table K V} {k : K} :
    (t.filterKeys p).get? k = if p k then t.get? k else none := by
  refine Option.ext fun v => ?_
  rw [get?_eq_some_iff]
  by_cases h : p k = true
  · simp [filterKeys, h, get?_eq_some_iff]
  · simp [filterKeys, h]

theorem get?_erase (t : Table K V) (k k' : K) :
    (t.erase k).get? k' = if k' = k then none else t.get? k' := by
  by_cases h : k' = k
  · simp [erase, h]
  · simp [erase, h]

/-- The table of a list of rows; a repeated key keeps its first place and its last value. -/
def ofList (rows : List (K × V)) : Table K V :=
  rows.foldl (fun t e => t.insert e.1 e.2) ∅

/-- Of several rows for a key the last one counts. -/
theorem get?_foldl_insert {rows : List (K × V)} {t : Table K V} {k : K} {v : V}
    (h : (rows.foldl (fun t e => t.insert e.1 e.2) t).get? k = some v) :
    (k, v) ∈ rows ∨ ((∀ v', (k, v') ∉ rows) ∧ t.get? k = some v) := by
  induction rows generalizing t with
  | nil => exact .inr ⟨fun _ => List.not_mem_nil, h⟩
  | cons e rest ih =>
      rcases ih h with hmem | ⟨hnone, hget⟩
      · exact .inl (List.mem_cons_of_mem e hmem)
      · rw [Table.get?_insert] at hget
        split at hget
        · rename_i hk
          obtain rfl := Option.some.inj hget
          exact .inl (by simp [hk])
        · rename_i hk
          refine .inr ⟨fun v' hv' => ?_, hget⟩
          rcases List.mem_cons.mp hv' with hv' | hv'
          · exact hk (congrArg Prod.fst hv')
          · exact hnone v' hv'

/-- Inserting the value that a key has changes nothing for the key. -/
theorem get?_foldl_insert_of_forall {rows : List (K × V)} {t : Table K V} {k : K} {v : V}
    (hrows : ∀ w, (k, w) ∈ rows → w = v) (h : t.get? k = some v) :
    (rows.foldl (fun t e => t.insert e.1 e.2) t).get? k = some v := by
  induction rows generalizing t with
  | nil => exact h
  | cons e rest ih =>
      refine ih (fun w hw => hrows w (List.mem_cons_of_mem e hw)) ?_
      rw [Table.get?_insert]
      split
      · rename_i hk
        rw [hrows e.2 (List.mem_cons.mpr (.inl (by rw [hk])))]
      · exact h

/-- The same insertions keep what two tables agree on. -/
theorem get?_foldl_insert_of_agree {rows : List (K × V)} {t t' : Table K V} {k : K}
    (h : ∀ v, t.get? k = some v → t'.get? k = some v) {v : V}
    (hv : (rows.foldl (fun t e => t.insert e.1 e.2) t).get? k = some v) :
    (rows.foldl (fun t e => t.insert e.1 e.2) t').get? k = some v := by
  induction rows generalizing t t' with
  | nil => exact h v hv
  | cons e rest ih =>
      refine ih (fun v hv => ?_) hv
      rw [Table.get?_insert] at hv ⊢
      split at hv
      · rename_i hk
        rw [if_pos hk]
        exact hv
      · rename_i hk
        rw [if_neg hk]
        exact h v hv

/-- Tables with the same keys in the same order and the same values are equal. -/
theorem eq_of_get? {t t' : Table K V} (hkeys : t.keys = t'.keys)
    (h : ∀ k, t.get? k = t'.get? k) : t = t' := by
  have hlength : t.entries.length = t'.entries.length := by
    simpa [keys] using congrArg List.length hkeys
  have hentries : t.entries = t'.entries := by
    refine List.ext_getElem hlength fun i hi hi' => ?_
    have hfst : t.entries[i].1 = t'.entries[i].1 := by
      have hget : t.keys[i]? = t'.keys[i]? := by rw [hkeys]
      simpa [keys, List.getElem?_eq_getElem hi, List.getElem?_eq_getElem hi'] using hget
    have hrow : t.get? t.entries[i].1 = some t.entries[i].2 :=
      get?_eq_some_iff.mpr (List.getElem_mem hi)
    have hrow' : t'.get? t'.entries[i].1 = some t'.entries[i].2 :=
      get?_eq_some_iff.mpr (List.getElem_mem hi')
    rw [h, hfst, hrow'] at hrow
    exact Prod.ext hfst (Option.some.inj hrow).symm
  cases t
  cases t'
  congr

theorem keys_foldl_insert {rows rows' : List (K × V)} (h : rows.map Prod.fst = rows'.map Prod.fst)
    {t t' : Table K V} (ht : t.keys = t'.keys) :
    (rows.foldl (fun t e => t.insert e.1 e.2) t).keys =
      (rows'.foldl (fun t e => t.insert e.1 e.2) t').keys := by
  induction rows generalizing rows' t t' with
  | nil =>
      obtain rfl := List.map_eq_nil_iff.mp h.symm
      exact ht
  | cons e rest ih =>
      obtain ⟨e', rest', rfl, hfst, hrest⟩ := List.map_eq_cons_iff.mp h.symm
      refine ih hrest.symm ?_
      rw [keys_insert, keys_insert, ht, hfst]

theorem mem_keys_foldl_insert {rows : List (K × V)} {t : Table K V} {k : K} :
    k ∈ (rows.foldl (fun t e => t.insert e.1 e.2) t).keys ↔
      k ∈ t.keys ∨ k ∈ rows.map Prod.fst := by
  induction rows generalizing t with
  | nil => simp
  | cons e rest ih =>
      rw [List.foldl_cons, ih, mem_keys_insert, List.map_cons, List.mem_cons, or_assoc]

@[simp] theorem mem_keys_ofList {rows : List (K × V)} {k : K} :
    k ∈ (ofList rows).keys ↔ k ∈ rows.map Prod.fst := by
  rw [ofList, mem_keys_foldl_insert, keys_empty, or_iff_right List.not_mem_nil]

/-- What a list of rows stores is one of its rows. -/
theorem mem_of_get?_ofList {rows : List (K × V)} {k : K} {v : V}
    (h : (ofList rows).get? k = some v) : (k, v) ∈ rows := by
  rcases get?_foldl_insert h with hmem | ⟨-, hnone⟩
  · exact hmem
  · cases hnone

theorem exists_get?_ofList {rows : List (K × V)} {k : K} (h : k ∈ rows.map Prod.fst) :
    ∃ v, (ofList rows).get? k = some v :=
  mem_keys_iff.mp (mem_keys_ofList.mpr h)

/-- If no key is repeated, all rows are stored. -/
theorem get?_ofList_of_nodup {rows : List (K × V)} (h : (rows.map Prod.fst).Nodup) {k : K} {v : V}
    (hmem : (k, v) ∈ rows) : (ofList rows).get? k = some v := by
  obtain ⟨v', hv'⟩ := exists_get?_ofList (List.mem_map_of_mem (f := Prod.fst) hmem)
  have hrow : (⟨rows, h⟩ : Table K V).get? k = some v := get?_eq_some_iff.mpr hmem
  have hrow' : (⟨rows, h⟩ : Table K V).get? k = some v' :=
    get?_eq_some_iff.mpr (mem_of_get?_ofList hv')
  rw [hv', ← hrow', hrow]

/-- A list of rows may as well give every key the value that is stored. -/
theorem ofList_map {rows : List (K × V)} {f : K → V}
    (h : ∀ k v, (ofList rows).get? k = some v → f k = v) :
    ofList (rows.map fun e => (e.1, f e.1)) = ofList rows := by
  have hfst : (rows.map fun e => (e.1, f e.1)).map Prod.fst = rows.map Prod.fst := by
    simp [Function.comp_def]
  have hkeys : (ofList (rows.map fun e => (e.1, f e.1))).keys = (ofList rows).keys :=
    keys_foldl_insert hfst rfl
  refine eq_of_get? hkeys fun k => ?_
  cases hk : (ofList rows).get? k with
  | none =>
      refine Option.eq_none_iff_forall_ne_some.mpr fun v hv => ?_
      have hmem := mem_keys_iff.mpr ⟨v, hv⟩
      rw [mem_keys_ofList, hfst, ← mem_keys_ofList, mem_keys_iff] at hmem
      obtain ⟨v', hv'⟩ := hmem
      rw [hk] at hv'
      cases hv'
  | some v =>
      have hmem := mem_keys_iff.mpr ⟨v, hk⟩
      rw [mem_keys_ofList, ← hfst] at hmem
      obtain ⟨v', hv'⟩ := exists_get?_ofList hmem
      obtain ⟨e, he, heq⟩ := List.mem_map.mp (mem_of_get?_ofList hv')
      obtain ⟨rfl, rfl⟩ := Prod.mk.inj heq
      rw [hv', h _ v hk]

end Table

end MemoGraph
