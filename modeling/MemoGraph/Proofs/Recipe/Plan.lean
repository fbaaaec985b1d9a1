import Mathlib.Data.List.Basic
import MemoGraph.Proofs.Graph.Groups
import MemoGraph.Recipe
import MemoGraph.Round.Process

/-!
# Plans of batch strict functions

A function is batch strict if it reads its dependencies batch by batch, asks to be run again as soon
as a batch leaves something missing, and depends on nothing but the values and accepted faults that
it read.  Then there is a `Plan` behind all its invocations: a tree of batches whose branches are
chosen by complete answers.  To consult a plan is to follow it as far as the outcomes in sight go.
-/

set_option autoImplicit false

namespace MemoGraph

variable {D : Domain}

/-- What a function does as long as every batch is answered in full. -/
inductive Plan (D : Domain) where
  /-- end with a value -/
  | value (v : D.Value)
  /-- end with a declared fault -/
  | fault (e : D.Fault)
  /-- end without an outcome, although nothing is missing -/
  | broken
  /-- read a batch and go on with the answers -/
  | read (batch : List D.Key) (accepts : D.Fault → Bool)
      (next : Table D.Key (Answer D) → Plan D)

/-- Whether a read found no value. -/
def Answer.isMissing : Answer D → Bool
  | .missing => true
  | _ => false

/-- The outcomes that can be read. -/
abbrev Sight (D : Domain) : Type := D.Key → Option (Outcome D)

namespace Sight

variable (look : Sight D) (accepts : D.Fault → Bool)

/-- What a read of a key answers. -/
def answer (d : D.Key) : Answer D :=
  match look d with
  | some (.value v) => .value v
  | some (.failure e) =>
      match e.fault.filter accepts with
      | some fault => .fault fault
      | none => .missing
  | none => .missing

/-- The failure that a read of a key shows. -/
def shown (d : D.Key) : Option (Failure D.Key D.Fault) :=
  match look d with
  | some (.failure e) => if (e.fault.filter accepts).isSome then some e else none
  | _ => none

/-- The failure by which a read of a key finds no value. -/
def failed (d : D.Key) : Option (Failure D.Key D.Fault) :=
  match look d with
  | some (.failure e) => if (e.fault.filter accepts).isSome then none else some e
  | _ => none

/-- The answers to a batch. -/
def answers (batch : List D.Key) : Table D.Key (Answer D) :=
  .ofList (batch.map fun d => (d, look.answer accepts d))

/-- The keys of a batch without an outcome. -/
def pending (batch : List D.Key) : List D.Key := batch.filter fun d => (look d).isNone

/-- Whether a batch leaves something missing. -/
def lacks (batch : List D.Key) : Bool := batch.any fun d => (look.answer accepts d).isMissing

end Sight

/-- How a plan ends. -/
inductive Upshot (D : Domain) where
  /-- with a value -/
  | value (v : D.Value)
  /-- with a declared fault -/
  | fault (e : D.Fault)
  /-- without an outcome, although nothing is missing -/
  | broken
  /-- at a batch that leaves something missing -/
  | lacking

/-- What a plan comes to. -/
structure Consultation (D : Domain) where
  /-- The batches that are read. -/
  batches : List (List D.Key)
  /-- The failures that are shown. -/
  shown : List (Failure D.Key D.Fault)
  /-- The failures for want of which a value is missing. -/
  failed : List (Failure D.Key D.Fault)
  /-- The keys without an outcome. -/
  pending : List D.Key
  /-- The end. -/
  upshot : Upshot D

namespace Consultation

/-- A consultation that reads nothing. -/
def silent (upshot : Upshot D) : Consultation D :=
  { batches := [], shown := [], failed := [], pending := [], upshot := upshot }

/-- The outcome that a consultation gives a key, if it gives one. -/
def outcome? (c : Consultation D) (k : D.Key) : Option (Outcome D) :=
  match c.upshot with
  | .value v => some (.value v)
  | .fault e =>
      some (.failure (Round.declaredFailure k e { Invocation.start none with shown := c.shown }))
  | .broken => none
  | .lacking => if c.pending = [] then some (.failure (.ofChildren k c.failed)) else none

/-- Only a plan that ends with a value gives one. -/
theorem upshot_of_value {c : Consultation D} {k : D.Key} {v : D.Value}
    (h : c.outcome? k = some (.value v)) : c.upshot = .value v := by
  unfold outcome? at h
  split at h
  · rename_i v' hu
    obtain rfl := Outcome.value.inj (Option.some.inj h)
    exact hu
  · cases h
  · cases h
  · split at h
    · cases h
    · cases h

end Consultation

namespace Plan

/-- Follow a plan as far as the outcomes in sight go. -/
def consult (look : Sight D) : Plan D → Consultation D
  | .value v => .silent (.value v)
  | .fault e => .silent (.fault e)
  | .broken => .silent .broken
  | .read batch accepts next =>
      if look.lacks accepts batch then
        { batches := [batch]
          shown := batch.filterMap (look.shown accepts)
          failed := batch.filterMap (look.failed accepts)
          pending := look.pending batch
          upshot := .lacking }
      else
        let rest := (next (look.answers accepts batch)).consult look
        { rest with
          batches := batch :: rest.batches
          shown := batch.filterMap (look.shown accepts) ++ rest.shown }

end Plan

/-! ## Functions that follow plans -/

namespace Recipe

/-- Once something is missing, the recipe asks to be run again, without another read.  What it would
do in a round that is to stop does not count. -/
inductive GivesUp : Recipe D → Prop where
  /-- at once -/
  | needsDeps : GivesUp .needsDeps
  /-- after asking whether something is missing -/
  | valuesMissing {next : Bool → Recipe D} : GivesUp (next true) → GivesUp (.valuesMissing next)
  /-- after asking whether the round is to stop -/
  | isInterrupted {next : Bool → Recipe D} : GivesUp (next false) → GivesUp (.isInterrupted next)
  /-- after asking for the version -/
  | version {next : Version → Recipe D} : (∀ version, GivesUp (next version)) →
      GivesUp (.version next)
  /-- after looking into a slot -/
  | load {slot : D.Slot} {next : D.Cell slot → Recipe D} : (∀ content, GivesUp (next content)) →
      GivesUp (.load slot next)
  /-- after storing state -/
  | store {slot : D.Slot} {content : D.Cell slot} {next : Recipe D} : GivesUp next →
      GivesUp (.store slot content next)

/-- The recipe does what the plan says, whatever version, state and round it runs in, as long as the
round is not to stop. -/
inductive Follows : Recipe D → Plan D → Prop where
  /-- a value -/
  | value (v : D.Value) : Follows (.value v) (.value v)
  /-- a declared fault -/
  | fault (e : D.Fault) : Follows (.fault e) (.fault e)
  /-- breaking off -/
  | crash (payload : Payload) : Follows (.crash payload) .broken
  /-- waiting for nothing -/
  | needsDeps : Follows .needsDeps .broken
  /-- stopping the round -/
  | interrupt (next : Recipe D) : Follows (.interrupt next) .broken
  /-- a batch: either all of it is answered, or the recipe gives up -/
  | read {batch : List D.Key} {accepts : D.Fault → Bool}
      {next : Table D.Key (Answer D) → Recipe D} {plan : Table D.Key (Answer D) → Plan D} :
      (∀ look : Sight D, look.lacks accepts batch = false →
        Follows (next (look.answers accepts batch)) (plan (look.answers accepts batch))) →
      (∀ look : Sight D, look.lacks accepts batch = true →
        GivesUp (next (look.answers accepts batch))) →
      Follows (.read batch accepts next) (.read batch accepts plan)
  /-- asking whether something is missing -/
  | valuesMissing {next : Bool → Recipe D} {plan : Plan D} : Follows (next false) plan →
      Follows (.valuesMissing next) plan
  /-- asking whether the round is to stop -/
  | isInterrupted {next : Bool → Recipe D} {plan : Plan D} : Follows (next false) plan →
      Follows (.isInterrupted next) plan
  /-- asking for the version -/
  | version {next : Version → Recipe D} {plan : Plan D} :
      (∀ version, Follows (next version) plan) → Follows (.version next) plan
  /-- looking into a slot -/
  | load {slot : D.Slot} {next : D.Cell slot → Recipe D} {plan : Plan D} :
      (∀ content, Follows (next content) plan) → Follows (.load slot next) plan
  /-- storing state -/
  | store {slot : D.Slot} {content : D.Cell slot} {next : Recipe D} {plan : Plan D} :
      Follows next plan → Follows (.store slot content next) plan

end Recipe

/-- Every invocation for the key follows the plan. -/
def Function.Follows (f : Function D) (k : D.Key) (plan : Plan D) : Prop :=
  ∀ n, (f k n).Follows plan

/-- For every key there is a plan behind all invocations. -/
def Function.BatchStrict (f : Function D) : Prop := ∀ k, ∃ plan, f.Follows k plan

/-- All functions are batch strict. -/
def Registry.BatchStrict (registry : Registry D) : Prop :=
  ∀ k f, registry.find? k = some f → f.BatchStrict

/-! ## What consultations depend on -/

namespace Sight

variable {look look' : Sight D} {accepts : D.Fault → Bool}

theorem isMissing_answer {d : D.Key} : (look.answer accepts d).isMissing = false ↔
    look d ≠ none ∧ look.failed accepts d = none := by
  cases ho : look d with
  | none => simp [answer, ho, Answer.isMissing]
  | some o =>
      cases o with
      | value v => simp [answer, failed, ho, Answer.isMissing]
      | failure e =>
          cases hf : e.fault.filter accepts with
          | none => simp [answer, failed, ho, hf, Answer.isMissing]
          | some fault => simp [answer, failed, ho, hf, Answer.isMissing]

theorem lacks_eq_false {batch : List D.Key} : look.lacks accepts batch = false ↔
    ∀ d ∈ batch, look d ≠ none ∧ look.failed accepts d = none := by
  simp only [lacks, List.any_eq_false, Bool.not_eq_true, isMissing_answer]

theorem pending_eq_nil {batch : List D.Key} :
    look.pending batch = [] ↔ ∀ d ∈ batch, look d ≠ none := by
  simp only [pending, List.filter_eq_nil_iff, Option.isNone_iff_eq_none, ne_eq]

theorem failed_eq_nil {batch : List D.Key} (h : look.lacks accepts batch = false) :
    batch.filterMap (look.failed accepts) = [] :=
  List.filterMap_eq_nil_iff.mpr fun d hd => (lacks_eq_false.mp h d hd).2

theorem lacks_append (look : Sight D) (accepts : D.Fault → Bool) (a b : List D.Key) :
    look.lacks accepts (a ++ b) = (look.lacks accepts a || look.lacks accepts b) :=
  List.any_append

/-- Reading a batch depends on the outcomes of its keys. -/
theorem batch_congr (accepts : D.Fault → Bool) {batch : List D.Key}
    (h : ∀ d ∈ batch, look' d = look d) :
    look'.answers accepts batch = look.answers accepts batch ∧
      batch.filterMap (look'.shown accepts) = batch.filterMap (look.shown accepts) ∧
      batch.filterMap (look'.failed accepts) = batch.filterMap (look.failed accepts) ∧
      look'.pending batch = look.pending batch := by
  refine ⟨?_, ?_, ?_, ?_⟩
  · unfold answers
    congr 1
    apply List.map_congr_left
    intro d hd
    simp only [answer, h d hd]
  · apply List.filterMap_congr
    intro d hd
    simp only [shown, h d hd]
  · apply List.filterMap_congr
    intro d hd
    simp only [failed, h d hd]
  · apply List.filter_congr
    intro d hd
    rw [h d hd]

theorem lacks_congr (accepts : D.Fault → Bool) {batch : List D.Key}
    (h : ∀ d ∈ batch, look' d = look d) :
    look'.lacks accepts batch = look.lacks accepts batch := by
  have hanswer : ∀ d ∈ batch, look'.answer accepts d = look.answer accepts d := by
    intro d hd
    simp only [answer, h d hd]
  rw [Bool.eq_iff_iff, lacks, lacks, List.any_eq_true, List.any_eq_true]
  constructor
  · rintro ⟨d, hd, hm⟩
    exact ⟨d, hd, hanswer d hd ▸ hm⟩
  · rintro ⟨d, hd, hm⟩
    exact ⟨d, hd, (hanswer d hd).symm ▸ hm⟩

/-- More can be read. -/
def Extends (look' look : Sight D) : Prop := ∀ d o, look d = some o → look' d = some o

theorem Extends.eq_of_ne_none (h : look'.Extends look) {d : D.Key} (hd : look d ≠ none) :
    look' d = look d := by
  obtain ⟨o, ho⟩ := Option.ne_none_iff_exists'.mp hd
  rw [ho, h d o ho]

end Sight

namespace Plan

variable {look look' : Sight D}

theorem consult_of_lacks {batch : List D.Key} {accepts : D.Fault → Bool}
    {next : Table D.Key (Answer D) → Plan D} (h : look.lacks accepts batch = true) :
    (Plan.read batch accepts next).consult look =
      { batches := [batch], shown := batch.filterMap (look.shown accepts),
        failed := batch.filterMap (look.failed accepts), pending := look.pending batch,
        upshot := .lacking } := by
  rw [consult, if_pos h]

theorem consult_of_not_lacks {batch : List D.Key} {accepts : D.Fault → Bool}
    {next : Table D.Key (Answer D) → Plan D} (h : look.lacks accepts batch = false) :
    (Plan.read batch accepts next).consult look =
      { (next (look.answers accepts batch)).consult look with
        batches := batch :: ((next (look.answers accepts batch)).consult look).batches
        shown := batch.filterMap (look.shown accepts) ++
          ((next (look.answers accepts batch)).consult look).shown } := by
  rw [consult, if_neg (by simp [h])]

/-- A plan whose consultation meets no key without an outcome meets none in its first batch. -/
theorem pending_batch_eq_nil {batch : List D.Key} {accepts : D.Fault → Bool}
    {next : Table D.Key (Answer D) → Plan D}
    (h : ((Plan.read batch accepts next).consult look).pending = []) :
    look.pending batch = [] := by
  cases hl : look.lacks accepts batch with
  | true => rwa [consult_of_lacks hl] at h
  | false => exact Sight.pending_eq_nil.mpr fun d hd => (Sight.lacks_eq_false.mp hl d hd).1

theorem mem_batches_read {batch : List D.Key} {accepts : D.Fault → Bool}
    {next : Table D.Key (Answer D) → Plan D} :
    batch ∈ ((Plan.read batch accepts next).consult look).batches := by
  cases hl : look.lacks accepts batch with
  | true => simp [consult_of_lacks hl]
  | false => simp [consult_of_not_lacks hl]

/-- A consultation depends on the outcomes of the keys that it reads. -/
theorem consult_congr (plan : Plan D)
    (h : ∀ batch ∈ (plan.consult look).batches, ∀ d ∈ batch, look' d = look d) :
    plan.consult look' = plan.consult look := by
  induction plan with
  | value v => rfl
  | fault e => rfl
  | broken => rfl
  | read batch accepts next ih =>
      obtain ⟨hanswers, hshown, hfailed, hpending⟩ :=
        Sight.batch_congr accepts (h batch mem_batches_read)
      have hlacks : look'.lacks accepts batch = look.lacks accepts batch :=
        Sight.lacks_congr accepts (h batch mem_batches_read)
      cases hl : look.lacks accepts batch with
      | true =>
          rw [consult_of_lacks hl, consult_of_lacks (hlacks.trans hl), hshown, hfailed, hpending]
      | false =>
          rw [consult_of_not_lacks hl] at h
          rw [consult_of_not_lacks hl, consult_of_not_lacks (hlacks.trans hl), hanswers, hshown,
            ih _ fun keys hkeys => h keys (List.mem_cons_of_mem batch hkeys)]

/-- A plan that goes no further than a batch reads a beginning of what it reads elsewhere. -/
theorem batches_prefix_of_lacks {batch : List D.Key} {accepts : D.Fault → Bool}
    {next : Table D.Key (Answer D) → Plan D} (hl : look.lacks accepts batch = true) :
    ((Plan.read batch accepts next).consult look).batches <+:
      ((Plan.read batch accepts next).consult look').batches := by
  rw [consult_of_lacks hl]
  cases hl' : look'.lacks accepts batch with
  | true => simp only [consult_of_lacks hl', List.prefix_rfl]
  | false =>
      rw [consult_of_not_lacks hl']
      exact ⟨_, rfl⟩

/-- If more can be read, at least the same batches are read. -/
theorem batches_consult_prefix (h : look'.Extends look) (plan : Plan D) :
    (plan.consult look).batches <+: (plan.consult look').batches := by
  induction plan with
  | value v => exact List.prefix_rfl
  | fault e => exact List.prefix_rfl
  | broken => exact List.prefix_rfl
  | read batch accepts next ih =>
      cases hl : look.lacks accepts batch with
      | true => exact batches_prefix_of_lacks hl
      | false =>
          have hsame : ∀ d ∈ batch, look' d = look d :=
            fun d hd => h.eq_of_ne_none (Sight.lacks_eq_false.mp hl d hd).1
          have hl' : look'.lacks accepts batch = false := (Sight.lacks_congr accepts hsame).trans hl
          rw [consult_of_not_lacks hl, consult_of_not_lacks hl',
            (Sight.batch_congr accepts hsame).1]
          exact List.cons_prefix_cons.mpr ⟨rfl, ih _⟩

/-- A key that is read without an outcome is pending. -/
theorem mem_pending_of_read (plan : Plan D) {batch : List D.Key}
    (hbatch : batch ∈ (plan.consult look).batches) {d : D.Key} (hd : d ∈ batch)
    (hnone : look d = none) : d ∈ (plan.consult look).pending := by
  induction plan with
  | value v => exact absurd hbatch List.not_mem_nil
  | fault e => exact absurd hbatch List.not_mem_nil
  | broken => exact absurd hbatch List.not_mem_nil
  | read keys accepts next ih =>
      cases hl : look.lacks accepts keys with
      | true =>
          rw [consult_of_lacks hl] at hbatch ⊢
          obtain rfl := List.mem_singleton.mp hbatch
          exact List.mem_filter.mpr ⟨hd, by simp [hnone]⟩
      | false =>
          rw [consult_of_not_lacks hl] at hbatch ⊢
          rcases List.mem_cons.mp hbatch with rfl | hbatch
          · exact absurd hnone (Sight.lacks_eq_false.mp hl d hd).1
          · exact ih _ hbatch

/-- Only a consultation that lacks something has pending keys. -/
theorem pending_eq_nil (plan : Plan D) (h : (plan.consult look).upshot ≠ .lacking) :
    (plan.consult look).pending = [] := by
  induction plan with
  | value v => rfl
  | fault e => rfl
  | broken => rfl
  | read batch accepts next ih =>
      cases hl : look.lacks accepts batch with
      | true =>
          rw [consult_of_lacks hl] at h
          exact absurd rfl h
      | false =>
          rw [consult_of_not_lacks hl] at h ⊢
          exact ih _ h

end Plan

/-- Plans that one recipe follows cannot be told apart by consulting them. -/
theorem Recipe.Follows.consult_eq {recipe : Recipe D} {plan plan' : Plan D}
    (h : recipe.Follows plan) (h' : recipe.Follows plan') (look : Sight D) :
    plan.consult look = plan'.consult look := by
  induction h generalizing plan' with
  | value v =>
      cases h'
      rfl
  | fault e =>
      cases h'
      rfl
  | crash payload =>
      cases h'
      rfl
  | needsDeps =>
      cases h'
      rfl
  | interrupt next =>
      cases h'
      rfl
  | @read batch accepts next plan _ _ ih =>
      cases h' with
      | read hfull' _ =>
          cases hl : look.lacks accepts batch with
          | true => rw [Plan.consult_of_lacks hl, Plan.consult_of_lacks hl]
          | false =>
              rw [Plan.consult_of_not_lacks hl, Plan.consult_of_not_lacks hl,
                ih look hl (hfull' look hl)]
  | valuesMissing _ ih =>
      cases h' with
      | valuesMissing h' => exact ih h'
  | isInterrupted _ ih =>
      cases h' with
      | isInterrupted h' => exact ih h'
  | version _ ih =>
      cases h' with
      | version h' => exact ih .initial (h' .initial)
  | @load slot _ _ _ ih =>
      cases h' with
      | load h' => exact ih (D.blank slot) (h' (D.blank slot))
  | store _ ih =>
      cases h' with
      | store h' => exact ih h'

/-! ## The groups of growing requests -/

namespace DepGroups

variable {K : Type} [DecidableEq K]

/-- Pushing what was requested before changes nothing. -/
theorem push_of_subset {groups : DepGroups K} {batch : List K}
    (h : ∀ k ∈ batch, k ∈ groups.keys) : groups.push batch = groups := by
  have hnil : (groups.unseen batch).toList = [] := by
    apply List.eq_nil_iff_forall_not_mem.mpr
    intro k hk
    obtain ⟨hmem, hnot⟩ := mem_unseen.mp (OrderedSet.mem_def.mpr hk)
    exact hnot (h k hmem)
  rw [push, dif_pos hnil]

theorem pushAll_of_subset {groups : DepGroups K} {batches : List (List K)}
    (h : ∀ batch ∈ batches, ∀ k ∈ batch, k ∈ groups.keys) : groups.pushAll batches = groups := by
  induction batches with
  | nil => rfl
  | cons batch rest ih =>
      have hpush := push_of_subset (h batch List.mem_cons_self)
      have hrest := ih fun batch' hbatch' => h batch' (List.mem_cons_of_mem batch hbatch')
      rw [pushAll, List.foldl_cons, hpush]
      exact hrest

/-- A function that starts over requests what it requested before, and then more. -/
theorem pushAll_of_prefix {b c : List (List K)} (h : b <+: c) :
    (ofBatches b).pushAll c = ofBatches c := by
  obtain ⟨rest, rfl⟩ := h
  have hsame : (ofBatches b).pushAll b = ofBatches b :=
    pushAll_of_subset fun batch hbatch k hk =>
      mem_keys_pushAll.mpr (.inr ⟨batch, hbatch, hk⟩)
  rw [pushAll_append, hsame, ← ofBatches_append]

theorem groups_push_prefix (s : DepGroups K) (batch : List K) :
    s.groups <+: (s.push batch).groups := by
  unfold push
  split
  · exact List.prefix_rfl
  · exact ⟨_, rfl⟩

/-- Pushing leaves the groups that are there in their places. -/
theorem groups_pushAll_prefix (s : DepGroups K) (batches : List (List K)) :
    s.groups <+: (s.pushAll batches).groups := by
  induction batches generalizing s with
  | nil => exact List.prefix_rfl
  | cons batch rest ih => exact (s.groups_push_prefix batch).trans (ih (s.push batch))

theorem group?_pushAll (s : DepGroups K) (batches : List (List K)) {i : Nat}
    (hi : i < s.groups.length) : (s.pushAll batches).group? i = s.group? i := by
  obtain ⟨rest, hrest⟩ := groups_pushAll_prefix s batches
  rw [group?, ← hrest, List.getElem?_append_left hi, group?]

/-- A group that a batch opens holds keys of the batch. -/
theorem mem_of_group?_push {s : DepGroups K} {batch group : List K} {i : Nat}
    (hi : s.groups.length ≤ i) (hgroup : (s.push batch).group? i = some group) {k : K}
    (hk : k ∈ group) : k ∈ batch := by
  unfold push at hgroup
  split at hgroup
  · rw [group?, List.getElem?_eq_none hi] at hgroup
    cases hgroup
  · rw [group?, List.getElem?_append_right hi] at hgroup
    obtain rfl := List.mem_singleton.mp (List.mem_of_getElem? hgroup)
    exact (mem_unseen.mp (OrderedSet.mem_def.mpr hk)).1

end DepGroups

namespace Plan

/-- A recorded group is requested again by a consultation that sees the same in all groups before
it. -/
theorem mem_batches_of_group {look look' : Sight D} (plan : Plan D) {s : DepGroups D.Key} {i : Nat}
    {group : List D.Key} (hi : s.groups.length ≤ i)
    (hgroup : (s.pushAll (plan.consult look).batches).group? i = some group)
    (hsame : ∀ j group', j < i → (s.pushAll (plan.consult look).batches).group? j = some group' →
      ∀ d ∈ group', look' d = look d) {d : D.Key} (hd : d ∈ group) :
    ∃ batch ∈ (plan.consult look').batches, d ∈ batch := by
  have hnone {s : DepGroups D.Key} (hi : s.groups.length ≤ i)
      (hgroup : s.group? i = some group) : False := by
    rw [DepGroups.group?, List.getElem?_eq_none hi] at hgroup
    cases hgroup
  induction plan generalizing s with
  | value v => exact (hnone hi hgroup).elim
  | fault e => exact (hnone hi hgroup).elim
  | broken => exact (hnone hi hgroup).elim
  | read batch accepts next ih =>
      cases hl : look.lacks accepts batch with
      | true =>
          rw [consult_of_lacks hl] at hgroup
          exact ⟨batch, mem_batches_read, DepGroups.mem_of_group?_push hi hgroup hd⟩
      | false =>
          rw [consult_of_not_lacks hl] at hgroup hsame
          rcases Nat.lt_or_ge i (s.push batch).groups.length with hlt | hge
          · have hopened := (DepGroups.group?_pushAll _ _ hlt).symm.trans hgroup
            exact ⟨batch, mem_batches_read, DepGroups.mem_of_group?_push hi hopened hd⟩
          · -- All keys of the batch are in earlier groups, so the answers are the same.
            have hbatch : ∀ x ∈ batch, look' x = look x := by
              intro x hx
              have hkey : x ∈ (s.push batch).keys := DepGroups.mem_keys_push.mpr (.inr hx)
              obtain ⟨group', hgroup', hmem⟩ := List.mem_flatten.mp hkey
              obtain ⟨j, hj, hget⟩ := List.mem_iff_getElem.mp hgroup'
              refine hsame j group' (Nat.lt_of_lt_of_le hj hge) ?_ x hmem
              refine (DepGroups.group?_pushAll _ _ hj).trans ?_
              rw [DepGroups.group?, List.getElem?_eq_getElem hj, hget]
            have hl' : look'.lacks accepts batch = false :=
              (Sight.lacks_congr accepts hbatch).trans hl
            rw [consult_of_not_lacks hl', (Sight.batch_congr accepts hbatch).1]
            obtain ⟨keys, hkeys, hmem⟩ := ih _ hge hgroup hsame
            exact ⟨keys, List.mem_cons_of_mem batch hkeys, hmem⟩

end Plan

end MemoGraph
