import Mathlib
import MemoGraph.Proofs.Recipe.Derivation
import MemoGraph.Proofs.Recipe.Heeding
import MemoGraph.Proofs.Round.Justified
import MemoGraph.Session

/-!
# A small family of computations

Numbers computed from numbers: every key is a kind of its own, values count as the same if they are
equal, and no state is kept between invocations.  Instances of the theorems about sessions are drawn
from this family, those about state from the same family with two slots.
-/

set_option autoImplicit false

namespace MemoGraph.Sample

/-- Numbers named by numbers. -/
abbrev domain : Domain where
  Key := Nat
  Value := Nat
  Fault := Nat
  Kind := Nat
  Slot := Empty
  Cell := fun slot => slot.elim
  kindOf := id
  blank := fun slot => slot.elim
  sameValue a b := decide (a = b)
  sameFault a b := decide (a = b)
  decKey := inferInstance
  decKind := inferInstance
  decSlot := inferInstance

/-- The value of an answer, 0 if it has none. -/
def amount : Answer domain → Nat
  | .value v => v
  | _ => 0

/-- Add up the values of some answers, and 1. -/
def sum (answers : Table Nat (Answer domain)) : Nat :=
  answers.entries.foldl (fun n e => n + amount e.2) 1

/-- Add up the values of some keys, and 1. -/
def total (deps : List Nat) : Function domain := fun _ _ =>
  .read deps (fun _ => false) fun answers => .valuesMissing fun missing =>
    if missing then .needsDeps else .value (sum answers)

/-- Two keys: key 2 is the total of key 1, key 1 the total of nothing. -/
def chain : Registry domain :=
  ((∅ : Registry domain).register (1 : Nat) (total [])).register (2 : Nat) (total [1])

/-- An input, key 0, the total of it, key 1, and the total of both, key 2. -/
def tower : Registry domain :=
  ((∅ : Registry domain).register (1 : Nat) (total [0])).register (2 : Nat) (total [0, 1])

/-- An input, key 0, and key 1, which is the total of the input and of itself. -/
def loop : Registry domain := (∅ : Registry domain).register (1 : Nat) (total [0, 1])

/-- An input, key 0, key 1, the total of the input and of key 2, and key 2, the total of key 1. -/
def ring : Registry domain :=
  ((∅ : Registry domain).register (1 : Nat) (total [0, 2])).register (2 : Nat) (total [1])

/-- Key 1 is the total of the input; key 2 reads key 1 and gives up with a fault if the value is
missing. -/
def impatient : Registry domain :=
  ((∅ : Registry domain).register (1 : Nat) (total [0])).register (2 : Nat) fun _ _ =>
    .read [1] (fun _ => false) fun answers => .valuesMissing fun missing =>
      if missing then .fault 0 else .value (sum answers)

/-- Key 1 fails, key 2 is the total of it, and key 3 the total of key 2. -/
def fragile : Registry domain :=
  (((∅ : Registry domain).register (1 : Nat) fun _ _ => .fault 7).register (2 : Nat)
    (total [1])).register (3 : Nat) (total [2])

/-- Keys 1 and 2 are the totals of one another, key 3 is the total of key 1, and key 4 of
nothing. -/
def knot : Registry domain :=
  ((((∅ : Registry domain).register (1 : Nat) (total [2])).register (2 : Nat) (total [1])).register
    (3 : Nat) (total [1])).register (4 : Nat) (total [])

/-- Keys 1 and 2 are totals of nothing; key 3 reads key 1, and then both of them, key 1 twice. -/
def repeating : Registry domain :=
  (((∅ : Registry domain).register (1 : Nat) (total [])).register (2 : Nat) (total [])).register
    (3 : Nat) fun _ _ => .read [1] (fun _ => false) fun _ => .read [1, 2, 1] (fun _ => false)
      fun answers => .valuesMissing fun missing =>
        if missing then .needsDeps else .value (sum answers)

/-- Key 1 wants to be run again although it has read nothing, and key 2, which reads key 1, gives a
value although there is none. -/
def careless : Registry domain :=
  ((∅ : Registry domain).register (1 : Nat) fun _ _ => .needsDeps).register (2 : Nat) fun _ _ =>
    .read [1] (fun _ => false) fun answers => .value (sum answers)

/-- Key 1 asks the round to stop and gives a value all the same, key 2 asks for it and crashes. -/
def quitting : Registry domain :=
  ((∅ : Registry domain).register (1 : Nat) fun _ _ => .interrupt (.value 3)).register (2 : Nat)
    fun _ _ => .interrupt (.crash (.code 7))

/-- The same numbers, with two slots that contain numbers, 0 at first. -/
abbrev counting : Domain :=
  { domain with
    Slot := Bool
    Cell := fun _ => Nat
    blank := fun _ => 0
    decSlot := inferInstance }

/-- Key 1 counts up to 5 at once and gives the value 7; key 2 counts its invocations, reads key 1
and gives the number of its invocations once the value is there, plus what the other slot
contains. -/
def counters : Registry counting :=
  ((∅ : Registry counting).register (1 : Nat) fun _ _ => .load true fun (n : Nat) =>
    .store true (n + 5 : Nat) (.value (7 : Nat))).register (2 : Nat) fun _ _ =>
      .load true fun (n : Nat) => .store true (n + 1 : Nat) <|
        .read [(1 : Nat)] (fun _ => false) fun _ => .valuesMissing fun missing =>
          if missing then .needsDeps
          else .load true fun (n : Nat) => .load false fun (m : Nat) => .value (n + m : Nat)

/-- Values and faults are compared by equality. -/
theorem exact_domain : domain.Exact where
  value _ _ := decide_eq_true_iff
  fault _ _ := decide_eq_true_iff

/-- What a total does: there is one batch, and its answers decide the value. -/
def totalPlan (deps : List Nat) : Plan domain :=
  .read deps (fun _ => false) fun answers => .value (sum answers)

theorem follows_total (deps : List Nat) (k : Nat) :
    Function.Follows (total deps) k (totalPlan deps) := by
  intro n
  apply Recipe.Follows.read
  · intro look _
    exact .valuesMissing (.value _)
  · intro look _
    exact .valuesMissing .needsDeps

theorem batchStrict_total (deps : List Nat) : Function.BatchStrict (total deps) :=
  fun k => ⟨totalPlan deps, follows_total deps k⟩

theorem find?_register (registry : Registry domain) (a : Nat) (f : Function domain) (k : Nat) :
    (registry.register a f).find? k = if k = a then some f else registry.find? k :=
  Table.get?_insert _ _ _ _

/-- One more function of a kind keeps a property of all functions. -/
theorem forall_register {P : Nat → Function domain → Prop} {registry : Registry domain}
    (h : ∀ k f, registry.find? k = some f → P k f) {a : Nat} {f : Function domain} (hf : P a f)
    (k : Nat) (g : Function domain) (hg : (registry.register a f).find? k = some g) : P k g := by
  rw [find?_register] at hg
  split at hg
  · rename_i hk
    obtain rfl := Option.some.inj hg
    exact hk ▸ hf
  · exact h k g hg

theorem batchStrict_empty : (∅ : Registry domain).BatchStrict := fun _ _ h => by cases h

theorem batchStrict_chain : chain.BatchStrict :=
  forall_register (forall_register batchStrict_empty (batchStrict_total [])) (batchStrict_total [1])

theorem heeds_chain : chain.Heeds := by
  have htotal {deps : List Nat} (hdeps : deps.Nodup) (k : Nat) : Function.Heeds (total deps) k :=
    fun n => (follows_total deps k n).heeds ⟨hdeps, fun _ _ => trivial⟩
  exact forall_register (forall_register (fun _ _ h => by cases h) (htotal (by decide)))
    (htotal (by decide))

theorem batchStrict_tower : tower.BatchStrict :=
  forall_register (forall_register batchStrict_empty (batchStrict_total [0]))
    (batchStrict_total [0, 1])

theorem batchStrict_fragile : fragile.BatchStrict :=
  forall_register (forall_register (forall_register batchStrict_empty
    fun _ => ⟨.fault _, fun _ => .fault _⟩) (batchStrict_total [1])) (batchStrict_total [2])

theorem acceptsNone_total (deps : List Nat) (k : Nat) :
    ∃ plan, Function.Follows (total deps) k plan ∧ plan.AcceptsNone :=
  ⟨totalPlan deps, follows_total deps k, .read (fun _ => rfl) fun _ _ => .value _⟩

theorem acceptsNone_fragile : fragile.AcceptsNone :=
  forall_register (forall_register (forall_register (fun _ _ h => by cases h)
    ⟨.fault _, fun _ => .fault _, .fault _⟩) (acceptsNone_total [1] 2)) (acceptsNone_total [2] 3)

theorem sure_total (deps : List Nat) (k : Nat) :
    ∃ plan, Function.Follows (total deps) k plan ∧ plan.AcceptsNone ∧ plan.Faultless := by
  refine ⟨totalPlan deps, follows_total deps k, .read (fun _ => rfl) fun _ _ => .value _,
    fun look e => ?_⟩
  cases hl : look.lacks (fun _ => false) deps with
  | true =>
      rw [totalPlan, Plan.consult_of_lacks hl]
      exact fun h => by cases h
  | false =>
      rw [totalPlan, Plan.consult_of_not_lacks hl]
      exact fun h => by cases h

theorem sure_knot : knot.Sure :=
  forall_register (forall_register (forall_register (forall_register (fun _ _ h => by cases h)
    (sure_total [2] 1)) (sure_total [1] 2)) (sure_total [1] 3)) (sure_total [] 4)

end MemoGraph.Sample
