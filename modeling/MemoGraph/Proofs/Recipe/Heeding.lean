import MemoGraph.Proofs.Recipe.Plan

/-!
# Plans whose batches are read bit by bit

While several workers are at work, a key may complete between two reads of one batch.  The answers
are still those of one moment: of the moment in which the keys that were found missing have no
outcome yet.  There is one exception.  If a batch names a key twice, the key may be missing at the
first read and there at the second, and the second answer is the one that counts.  A batch strict
function gives up even then, since it was told that something was missing.
-/

set_option autoImplicit false

namespace MemoGraph

variable {D : Domain}

/-! ## Giving up when told so -/

/-- A recipe that asks whether something is missing gives up when it is told so, unless it cannot be
told so at that point: because it read nothing since it asked last, except for batches that were
answered in full and name no key twice.  While it can be told so the recipe is `wary`. -/
def Recipe.Heeds : Recipe D → Bool → Prop
  | .value _, _ | .needsDeps, _ | .fault _, _ | .crash _, _ | .interrupt _, _ => True
  | .read batch accepts next, wary => ∀ look : Sight D, look.lacks accepts batch = false →
      (next (look.answers accepts batch)).Heeds (wary || !decide batch.Nodup)
  | .valuesMissing next, wary => (wary = true → (next true).GivesUp) ∧ (next false).Heeds false
  | .isInterrupted next, wary => (next false).Heeds wary
  | .version next, wary => ∀ version, (next version).Heeds wary
  | .load _ next, wary => ∀ content, (next content).Heeds wary
  | .store _ _ next, wary => next.Heeds wary

/-- Every invocation for the key gives up when it is told that something is missing. -/
def Function.Heeds (f : Function D) (k : D.Key) : Prop := ∀ n, (f k n).Heeds false

/-- All functions give up when they are told that something is missing. -/
def Registry.Heeds (registry : Registry D) : Prop :=
  ∀ k f, registry.find? k = some f → ∀ k, f.Heeds k

/-- No batch of the plan names a key twice. -/
def Plan.Distinct : Plan D → Prop
  | .value _ | .fault _ | .broken => True
  | .read batch accepts next => batch.Nodup ∧ ∀ look : Sight D, look.lacks accepts batch = false →
      (next (look.answers accepts batch)).Distinct

/-- If no batch names a key twice, the answers tell what is missing, and there is nothing to
heed. -/
theorem Recipe.Follows.heeds {recipe : Recipe D} {plan : Plan D} (h : recipe.Follows plan)
    (hd : plan.Distinct) : recipe.Heeds false := by
  induction h with
  | value _ | fault _ | crash _ | needsDeps | interrupt _ => trivial
  | read _ _ ih =>
      obtain ⟨hnodup, hnext⟩ := hd
      intro look hl
      rw [decide_eq_true hnodup]
      exact ih look hl (hnext look hl)
  | valuesMissing _ ih => exact ⟨fun hwary => absurd hwary Bool.false_ne_true, ih hd⟩
  | isInterrupted _ ih => exact ih hd
  | version _ ih => exact fun version => ih version hd
  | load _ ih => exact fun content => ih content hd
  | store _ ih => exact ih hd

/-! ## The way through a plan -/

/-- Complete answers to some batches lead from the beginning of a plan to what remains of it. -/
inductive Plan.Leads (look : Sight D) (plan : Plan D) : List (List D.Key) → Plan D → Prop where
  /-- nothing was read -/
  | nil : Leads look plan [] plan
  /-- one more batch was answered in full -/
  | read {batches : List (List D.Key)} {batch : List D.Key} {accepts : D.Fault → Bool}
      {next : Table D.Key (Answer D) → Plan D} :
      Leads look plan batches (.read batch accepts next) → look.lacks accepts batch = false →
      Leads look plan (batches ++ [batch]) (next (look.answers accepts batch))

namespace Plan.Leads

variable {look look' : Sight D} {plan rest : Plan D} {batches : List (List D.Key)}

/-- If more can be read, the way is the same. -/
theorem mono (h : plan.Leads look batches rest) (hmore : look'.Extends look) :
    plan.Leads look' batches rest := by
  induction h with
  | nil => exact .nil
  | @read batches batch accepts next _ hl ih =>
      have hsame : ∀ d ∈ batch, look' d = look d :=
        fun d hd => hmore.eq_of_ne_none (Sight.lacks_eq_false.mp hl d hd).1
      rw [← (Sight.batch_congr accepts hsame).1]
      exact .read ih ((Sight.lacks_congr accepts hsame).trans hl)

/-- A consultation takes the same way. -/
theorem consult (h : plan.Leads look batches rest) :
    (plan.consult look).batches = batches ++ (rest.consult look).batches ∧
      (plan.consult look).upshot = (rest.consult look).upshot := by
  induction h with
  | nil => exact ⟨rfl, rfl⟩
  | @read batches batch accepts next _ hl ih =>
      rw [consult_of_not_lacks hl] at ih
      exact ⟨ih.1.trans (by rw [List.append_assoc]; rfl), ih.2⟩

theorem prefix_consult (h : plan.Leads look batches rest) :
    batches <+: (plan.consult look).batches :=
  ⟨_, h.consult.1.symm⟩

/-- The next batch is requested as well. -/
theorem request {batch : List D.Key} {accepts : D.Fault → Bool}
    {next : Table D.Key (Answer D) → Plan D}
    (h : plan.Leads look batches (.read batch accepts next)) :
    batches ++ [batch] <+: (plan.consult look).batches := by
  rw [h.consult.1]
  refine (List.prefix_append_right_inj batches).mpr ?_
  cases hl : look.lacks accepts batch with
  | true =>
      have hlast : ((Plan.read batch accepts next).consult look).batches = [batch] := by
        rw [consult_of_lacks hl]
      exact hlast ▸ List.prefix_rfl
  | false =>
      rw [consult_of_not_lacks hl]
      exact List.cons_prefix_cons.mpr ⟨rfl, List.nil_prefix⟩

end Plan.Leads

/-! ## Batches that are answered bit by bit -/

namespace Sight

variable {look look' : Sight D} {accepts : D.Fault → Bool} {rows : List (D.Key × Answer D)}

/-- Answers that were given one after the other: what is not missing is what is in sight. -/
def Backs (look : Sight D) (accepts : D.Fault → Bool) (rows : List (D.Key × Answer D)) : Prop :=
  ∀ row ∈ rows, row.2.isMissing = false → row.2 = look.answer accepts row.1

theorem Backs.mono (h : look.Backs accepts rows) (hmore : look'.Extends look) :
    look'.Backs accepts rows := by
  intro row hrow hm
  have hsame := h row hrow hm
  rw [hsame] at hm
  rw [hsame, answer, answer, hmore.eq_of_ne_none (isMissing_answer.mp hm).1]

theorem Backs.snoc (h : look.Backs accepts rows) {row : D.Key × Answer D}
    (hrow : row.2.isMissing = false → row.2 = look.answer accepts row.1) :
    look.Backs accepts (rows ++ [row]) := by
  intro row' hrow'
  rcases List.mem_append.mp hrow' with hmem | hmem
  · exact h row' hmem
  · exact List.mem_singleton.mp hmem ▸ hrow

/-- The outcomes in sight, without those of keys whose last answer found them missing. -/
def before (look : Sight D) (rows : List (D.Key × Answer D)) : Sight D := fun d =>
  match (Table.ofList rows).get? d with
  | some .missing => none
  | _ => look d

theorem answers_eq_ofList {look : Sight D}
    (h : ∀ d answer, (Table.ofList rows).get? d = some answer → look.answer accepts d = answer) :
    look.answers accepts (rows.map Prod.fst) = .ofList rows := by
  rw [answers, List.map_map]
  exact Table.ofList_map h

/-- Answers that were given one after the other are those of one moment. -/
theorem Backs.answers_before (h : look.Backs accepts rows) :
    (look.before rows).answers accepts (rows.map Prod.fst) = .ofList rows := by
  refine answers_eq_ofList fun d answer hd => ?_
  cases answer with
  | missing => simp [Sight.answer, before, hd]
  | value v => simpa [Sight.answer, before, hd] using (h _ (Table.mem_of_get?_ofList hd) rfl).symm
  | fault e => simpa [Sight.answer, before, hd] using (h _ (Table.mem_of_get?_ofList hd) rfl).symm

/-- If nothing is missing in the end, the answers are those in sight, and something was missing only
if a key was read twice. -/
theorem Backs.full (h : look.Backs accepts rows)
    (hfull : ∀ d, (Table.ofList rows).get? d ≠ some .missing) :
    look.lacks accepts (rows.map Prod.fst) = false ∧
      look.answers accepts (rows.map Prod.fst) = .ofList rows ∧
      ((rows.any fun row => row.2.isMissing) = true → ¬ (rows.map Prod.fst).Nodup) := by
  have hanswer (d : D.Key) (answer : Answer D) (hd : (Table.ofList rows).get? d = some answer) :
      answer.isMissing = false ∧ look.answer accepts d = answer := by
    have hm : answer.isMissing = false := by
      cases answer with
      | missing => exact absurd hd (hfull d)
      | value _ | fault _ => rfl
    exact ⟨hm, (h _ (Table.mem_of_get?_ofList hd) hm).symm⟩
  refine ⟨?_, answers_eq_ofList fun d answer hd => (hanswer d answer hd).2, fun hany hnodup => ?_⟩
  · simp only [lacks, List.any_eq_false, Bool.not_eq_true]
    intro d hd
    obtain ⟨answer, hget⟩ := Table.exists_get?_ofList hd
    obtain ⟨hm, hsame⟩ := hanswer d answer hget
    rw [hsame, hm]
  · obtain ⟨⟨d, answer⟩, hrow, hm⟩ := List.any_eq_true.mp hany
    rw [(hanswer d answer (Table.get?_ofList_of_nodup hnodup hrow)).1] at hm
    cases hm

/-- If something is missing in the end, the batch lacks something at the moment of its answers. -/
theorem lacks_before {d : D.Key} (hd : (Table.ofList rows).get? d = some .missing) :
    (look.before rows).lacks accepts (rows.map Prod.fst) = true ∧
      (rows.any fun row => row.2.isMissing) = true := by
  have hrow := Table.mem_of_get?_ofList hd
  refine ⟨List.any_eq_true.mpr ⟨d, List.mem_map_of_mem (f := Prod.fst) hrow, ?_⟩,
    List.any_eq_true.mpr ⟨_, hrow, rfl⟩⟩
  simp [Sight.answer, before, hd, Answer.isMissing]

end Sight

/-! ## Where an invocation is -/

/-- An invocation of a function that follows `plan` is on its way through the plan, or has found
something missing and gives up. -/
inductive Invocation.Under (look : Sight D) (plan : Plan D) (inv : Invocation D)
    (recipe : Recipe D) : Prop where
  /-- on its way; if something was missing, it is wary -/
  | led {rest : Plan D} {wary : Bool} : plan.Leads look inv.batches rest → recipe.Follows rest →
      recipe.Heeds wary → (inv.missing = true → wary = true) → Under look plan inv recipe
  /-- giving up -/
  | gives : inv.missing = true → recipe.GivesUp → inv.batches <+: (plan.consult look).batches →
      Under look plan inv recipe

/-- An invocation of a function that follows `plan` is in the middle of a batch, with the answers in
`rows`, and with the keys in `rest` still to be read. -/
inductive Invocation.Within (look : Sight D) (plan : Plan D) (inv : Invocation D)
    (accepts : D.Fault → Bool) (rows : List (D.Key × Answer D))
    (next : Table D.Key (Answer D) → Recipe D) (rest : List D.Key) : Prop where
  /-- on its way through the plan -/
  | intro {batches : List (List D.Key)} {batch : List D.Key}
      {planNext : Table D.Key (Answer D) → Plan D} {wary : Bool} :
      inv.batches = batches ++ [batch] → batch = rows.map Prod.fst ++ rest →
      plan.Leads look batches (.read batch accepts planNext) →
      (Recipe.read batch accepts next).Follows (.read batch accepts planNext) →
      (Recipe.read batch accepts next).Heeds wary →
      (inv.missing = true → wary = true ∨ (rows.any fun row => row.2.isMissing) = true) →
      ((rows.any fun row => row.2.isMissing) = true → inv.missing = true) →
      look.Backs accepts rows → Within look plan inv accepts rows next rest

/-- A missing answer is noted. -/
theorem Invocation.missing_note (inv : Invocation D) (accepts : D.Fault → Bool) (dep : D.Key)
    (reply : Reply D) : (inv.note accepts dep reply).2.missing =
      (inv.missing || (inv.note accepts dep reply).1.isMissing) := by
  cases reply with
  | failed e changedAt =>
      simp only [note]
      split
      · simp [Answer.isMissing]
      · simp [Answer.isMissing]
  | _ => simp [note, Answer.isMissing]

namespace Invocation

variable {look look' : Sight D} {plan : Plan D} {inv : Invocation D} {recipe : Recipe D}
  {accepts : D.Fault → Bool} {rows : List (D.Key × Answer D)}
  {next : Table D.Key (Answer D) → Recipe D} {rest : List D.Key}

/-- The state kept between invocations does not matter. -/
theorem Under.congr {inv' : Invocation D} (h : inv.Under look plan recipe)
    (hbatches : inv'.batches = inv.batches) (hmissing : inv'.missing = inv.missing) :
    inv'.Under look plan recipe := by
  cases h with
  | led hleads hfollows hheeds hwary =>
      exact .led (hbatches ▸ hleads) hfollows hheeds (hmissing ▸ hwary)
  | gives hm hgives hprefix => exact .gives (hmissing.trans hm) hgives (hbatches ▸ hprefix)

theorem Under.mono (h : inv.Under look plan recipe) (hmore : look'.Extends look) :
    inv.Under look' plan recipe := by
  cases h with
  | led hleads hfollows hheeds hwary => exact .led (hleads.mono hmore) hfollows hheeds hwary
  | gives hm hgives hbatches =>
      exact .gives hm hgives (hbatches.trans (Plan.batches_consult_prefix hmore plan))

theorem Within.mono (h : inv.Within look plan accepts rows next rest)
    (hmore : look'.Extends look) : inv.Within look' plan accepts rows next rest := by
  obtain ⟨hbatches, hbatch, hleads, hfollows, hheeds, hwary, hnoted, hbacks⟩ := h
  exact ⟨hbatches, hbatch, hleads.mono hmore, hfollows, hheeds, hwary, hnoted, hbacks.mono hmore⟩

/-- A value is the one that the plan leads to. -/
theorem Under.value {v : D.Value} (h : inv.Under look plan (.value v)) :
    plan.Leads look inv.batches (.value v) := by
  cases h with
  | led hleads hfollows _ _ =>
      cases hfollows
      exact hleads
  | gives _ hgives _ => cases hgives

/-- What was requested up to a wait is the beginning of what the plan requests. -/
theorem Under.needsDeps (h : inv.Under look plan .needsDeps) :
    inv.batches <+: (plan.consult look).batches := by
  cases h with
  | led hleads _ _ _ => exact hleads.prefix_consult
  | gives _ _ hprefix => exact hprefix

/-- Asking whether something is missing. -/
theorem Under.valuesMissing {next : Bool → Recipe D}
    (h : inv.Under look plan (.valuesMissing next)) : inv.Under look plan (next inv.missing) := by
  cases h with
  | led hleads hfollows hheeds hwary =>
      cases hfollows with
      | valuesMissing hfollows =>
          cases hm : inv.missing with
          | true => exact .gives hm (hheeds.1 (hwary hm)) hleads.prefix_consult
          | false => exact .led hleads hfollows hheeds.2 fun hm' => by rw [hm] at hm'; cases hm'
  | gives hm hgives hprefix =>
      cases hgives with
      | valuesMissing hgives => exact .gives hm (hm.symm ▸ hgives) hprefix

/-- Asking whether the round is to stop, if it is not. -/
theorem Under.isInterrupted {next : Bool → Recipe D}
    (h : inv.Under look plan (.isInterrupted next)) : inv.Under look plan (next false) := by
  cases h with
  | led hleads hfollows hheeds hwary =>
      cases hfollows with
      | isInterrupted hfollows => exact .led hleads hfollows hheeds hwary
  | gives hm hgives hprefix =>
      cases hgives with
      | isInterrupted hgives => exact .gives hm hgives hprefix

/-- Asking for the version. -/
theorem Under.version {next : Version → Recipe D} (h : inv.Under look plan (.version next))
    (version : Version) : inv.Under look plan (next version) := by
  cases h with
  | led hleads hfollows hheeds hwary =>
      cases hfollows with
      | version hfollows => exact .led hleads (hfollows version) (hheeds version) hwary
  | gives hm hgives hprefix =>
      cases hgives with
      | version hgives => exact .gives hm (hgives version) hprefix

/-- Looking into a slot. -/
theorem Under.load {slot : D.Slot} {next : D.Cell slot → Recipe D}
    (h : inv.Under look plan (.load slot next)) (content : D.Cell slot) :
    inv.Under look plan (next content) := by
  cases h with
  | led hleads hfollows hheeds hwary =>
      cases hfollows with
      | load hfollows => exact .led hleads (hfollows content) (hheeds content) hwary
  | gives hm hgives hprefix =>
      cases hgives with
      | load hgives => exact .gives hm (hgives content) hprefix

/-- Storing state. -/
theorem Under.store {slot : D.Slot} {content : D.Cell slot} {next : Recipe D}
    (h : inv.Under look plan (.store slot content next)) : inv.Under look plan next := by
  cases h with
  | led hleads hfollows hheeds hwary =>
      cases hfollows with
      | store hfollows => exact .led hleads hfollows hheeds hwary
  | gives hm hgives hprefix =>
      cases hgives with
      | store hgives => exact .gives hm hgives hprefix

/-- A batch is requested. -/
theorem Under.request {batch : List D.Key}
    (h : inv.Under look plan (.read batch accepts next)) :
    Within look plan { inv with batches := inv.batches ++ [batch] } accepts [] next batch := by
  cases h with
  | led hleads hfollows hheeds hwary =>
      cases hfollows with
      | read hfull hlacks =>
          exact ⟨rfl, rfl, hleads, .read hfull hlacks, hheeds, fun hm => .inl (hwary hm),
            fun hany => absurd hany Bool.false_ne_true, fun _ hrow => absurd hrow List.not_mem_nil⟩
  | gives _ hgives _ => cases hgives

/-- A key is read: what is not missing is what is in sight. -/
theorem Within.note {dep : D.Key} (h : inv.Within look plan accepts rows next (dep :: rest))
    (reply : Reply D)
    (hreply : (inv.note accepts dep reply).1.isMissing = false →
      (inv.note accepts dep reply).1 = look.answer accepts dep)
    (hsame : (inv.note accepts dep reply).2.batches = inv.batches) :
    (inv.note accepts dep reply).2.Within look plan accepts
      (rows ++ [(dep, (inv.note accepts dep reply).1)]) next rest := by
  obtain ⟨hbatches, hbatch, hleads, hfollows, hheeds, hwary, hnoted, hbacks⟩ := h
  have hany : ((rows ++ [(dep, (inv.note accepts dep reply).1)]).any fun row => row.2.isMissing) =
      ((rows.any fun row => row.2.isMissing) || (inv.note accepts dep reply).1.isMissing) := by
    simp
  refine ⟨hsame.trans hbatches, by simp [hbatch], hleads, hfollows, hheeds, ?_, ?_,
    hbacks.snoc hreply⟩
  · rw [missing_note, hany, Bool.or_eq_true, Bool.or_eq_true, ← or_assoc]
    exact Or.imp_left hwary
  · rw [missing_note, hany, Bool.or_eq_true, Bool.or_eq_true]
    exact Or.imp_left hnoted

/-- The batch is answered. -/
theorem Within.close (h : inv.Within look plan accepts rows next []) :
    inv.Under look plan (next (.ofList rows)) := by
  obtain ⟨hbatches, hbatch, hleads, hfollows, hheeds, hwary, hnoted, hbacks⟩ := h
  rw [List.append_nil] at hbatch
  subst hbatch
  cases hfollows with
  | read hfull hlacks =>
      by_cases hsome : ∃ d, (Table.ofList rows).get? d = some .missing
      · obtain ⟨d, hd⟩ := hsome
        obtain ⟨hl, hany⟩ : (look.before rows).lacks accepts (rows.map Prod.fst) = true ∧
            (rows.any fun row => row.2.isMissing) = true := Sight.lacks_before hd
        refine .gives (hnoted hany) ?_ ?_
        · rw [← hbacks.answers_before]
          exact hlacks _ hl
        · rw [hbatches]
          exact hleads.request
      · obtain ⟨hl, hanswers, htwice⟩ := hbacks.full fun d hd => hsome ⟨d, hd⟩
        have hleads' := hleads.read hl
        have hheeds' := hheeds look hl
        have hfollows' := hfull look hl
        rw [hanswers] at hleads' hheeds' hfollows'
        refine .led (hbatches ▸ hleads') hfollows' hheeds' fun hm => ?_
        rcases hwary hm with hw | hany
        · simp [hw]
        · simp [htwice hany]

end Invocation

end MemoGraph
