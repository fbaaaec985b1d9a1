import MemoGraph.Proofs.Graph.Sweep
import MemoGraph.Proofs.Recipe.Plan
import MemoGraph.Proofs.Round.Reading

/-!
# Invocations of functions that follow plans

Unless the round is to stop, an invocation that follows a plan does what consulting the plan says:
it reads the same batches, meets the same failures and the same keys without outcome, and ends as
the plan does.  If it meets no key without outcome it leaves the round as it was.
-/

set_option autoImplicit false

namespace MemoGraph

variable {D : Domain}

/-- What can be read in a round. -/
def Round.sight (r : Round D) : Sight D := fun d => (r.graph.node d).settled?

theorem Round.Reads.sight {r r' : Round D} (h : Reads r r') : r'.sight = r.sight := by
  funext d
  rw [Round.sight, Round.sight, h.node]

/-- An invocation that goes on to request a batch. -/
def Invocation.request (inv : Invocation D) (batch : List D.Key) : Invocation D :=
  { inv with batches := inv.batches ++ [batch] }

/-- What is noted in addition to what was noted before. -/
structure Invocation.Notes (inv inv' : Invocation D) (batches : List (List D.Key))
    (shown failed : List (Failure D.Key D.Fault)) (pending : List D.Key) (lacks : Bool) : Prop where
  /-- The batches. -/
  batches : inv'.batches = inv.batches ++ batches
  /-- The failures that were shown. -/
  shown : inv'.shown = inv.shown ++ shown
  /-- The failures for want of which a value was missing. -/
  failed : inv'.failedReads = inv.failedReads ++ failed
  /-- The keys without an outcome. -/
  pending : inv'.awaited = inv.awaited ++ pending
  /-- Whether a value was missing. -/
  lacks : inv'.missing = (inv.missing || lacks)

namespace Invocation.Notes

theorem nothing (inv : Invocation D) (scratch : Option (Scratch D)) :
    Notes inv { inv with scratch := scratch } [] [] [] [] false := by
  constructor <;> simp

theorem trans {inv inv' inv'' : Invocation D} {batches batches' : List (List D.Key)}
    {shown shown' failed failed' : List (Failure D.Key D.Fault)} {pending pending' : List D.Key}
    {lacks lacks' : Bool} (h : Notes inv inv' batches shown failed pending lacks)
    (h' : Notes inv' inv'' batches' shown' failed' pending' lacks') :
    Notes inv inv'' (batches ++ batches') (shown ++ shown') (failed ++ failed')
      (pending ++ pending') (lacks || lacks') where
  batches := by rw [h'.batches, h.batches, List.append_assoc]
  shown := by rw [h'.shown, h.shown, List.append_assoc]
  failed := by rw [h'.failed, h.failed, List.append_assoc]
  pending := by rw [h'.pending, h.pending, List.append_assoc]
  lacks := by rw [h'.lacks, h.lacks, Bool.or_assoc]

end Invocation.Notes

namespace Round

variable {s : Setting D} {k : D.Key}

/-- A read of a settled key leaves the round as it was. -/
theorem readOne_eq_self {r : Round D} {d : D.Key} (h : r.sight d ≠ none) :
    (r.readOne s k d).2 = r := by
  cases hi : r.interrupted with
  | true => rw [readOne_of_interrupted k d hi]
  | false =>
      obtain ⟨o, ho⟩ := Option.ne_none_iff_exists'.mp h
      rw [readOne_of_settled k d hi ho]
      have hcomplete : r.graph.isComplete d = true := by
        unfold sight Node.settled? at ho
        split at ho
        · assumption
        · cases ho
      have hcreate : r.graph.create d = r.graph := by
        rw [Graph.create, if_pos (Graph.contains_of_isComplete hcomplete)]
      show r.demand s d = r
      rcases demand_cases s r d with ⟨-, he⟩ | ⟨hinc, -, -⟩
      · rw [he, hcreate]
      · rw [hcomplete] at hinc
        exact Bool.noConfusion hinc

/-- What one read answers and notes. -/
theorem note_readOne {r : Round D} (hi : r.interrupted = false) (accepts : D.Fault → Bool)
    (inv : Invocation D) (d : D.Key) :
    (inv.note accepts d (r.readOne s k d).1).1 = r.sight.answer accepts d ∧
      inv.Notes (inv.note accepts d (r.readOne s k d).1).2 []
        ([d].filterMap (r.sight.shown accepts)) ([d].filterMap (r.sight.failed accepts))
        (r.sight.pending [d]) (r.sight.lacks accepts [d]) := by
  cases ho : r.sight d with
  | none =>
      rw [readOne_of_unsettled k d hi ho]
      refine ⟨?_, ?_⟩
      · simp [Invocation.note, Sight.answer, ho]
      · constructor <;>
          simp [Invocation.note, Sight.shown, Sight.failed, Sight.pending, Sight.lacks,
              Sight.answer, Answer.isMissing, ho]
  | some o =>
      rw [readOne_of_settled k d hi ho]
      cases o with
      | value v =>
          refine ⟨?_, ?_⟩
          · simp [Invocation.note, Sight.answer, ho]
          · constructor <;>
              simp [Invocation.note, Sight.shown, Sight.failed, Sight.pending, Sight.lacks,
              Sight.answer, Answer.isMissing, ho]
      | failure e =>
          cases hf : e.fault.filter accepts with
          | none =>
              refine ⟨?_, ?_⟩
              · simp [Invocation.note, Sight.answer, ho, hf]
              · constructor <;> simp [Invocation.note, Sight.shown, Sight.failed, Sight.pending,
                  Sight.lacks, Sight.answer, Answer.isMissing, ho, hf]
          | some fault =>
              refine ⟨?_, ?_⟩
              · simp [Invocation.note, Sight.answer, ho, hf]
              · constructor <;> simp [Invocation.note, Sight.shown, Sight.failed, Sight.pending,
                  Sight.lacks, Sight.answer, Answer.isMissing, ho, hf]

/-- Reading settled keys leaves the round as it was. -/
theorem readEach_eq_self (accepts : D.Fault → Bool) {batch : List D.Key} {inv : Invocation D}
    {r : Round D} (h : r.sight.pending batch = []) :
    (r.readEach s k accepts batch inv).2.2 = r := by
  induction batch generalizing inv with
  | nil => rfl
  | cons d rest ih =>
      rw [Sight.pending_eq_nil] at h
      have hrest : r.sight.pending rest = [] :=
        Sight.pending_eq_nil.mpr fun x hx => h x (List.mem_cons_of_mem d hx)
      simp only [readEach, readOne_eq_self (h d List.mem_cons_self)]
      exact ih hrest

/-- What reading a batch answers and notes. -/
theorem readEach_of_going (accepts : D.Fault → Bool) {batch : List D.Key} {inv : Invocation D}
    {r : Round D} (hgo : (r.readEach s k accepts batch inv).2.2.interrupted = false) :
    (r.readEach s k accepts batch inv).1 = batch.map (fun d => (d, r.sight.answer accepts d)) ∧
      inv.Notes (r.readEach s k accepts batch inv).2.1 [] (batch.filterMap (r.sight.shown accepts))
        (batch.filterMap (r.sight.failed accepts)) (r.sight.pending batch)
        (r.sight.lacks accepts batch) := by
  induction batch generalizing inv r with
  | nil => exact ⟨rfl, .nothing inv inv.scratch⟩
  | cons d rest ih =>
      simp only [readEach] at hgo ⊢
      have hreads := reads_readOne s r k d
      have hi := hreads.going ((reads_readEach accepts rest _ _).going hgo)
      obtain ⟨hanswer, hnote⟩ := note_readOne (s := s) (k := k) hi accepts inv d
      obtain ⟨hrows, hnotes⟩ := ih hgo
      rw [hreads.sight] at hrows hnotes
      refine ⟨?_, ?_⟩
      · rw [hrows, hanswer, List.map_cons]
      · have hall := hnote.trans hnotes
        rw [← List.filterMap_append, ← List.filterMap_append, Sight.pending, Sight.pending,
          ← List.filter_append, ← Sight.lacks_append] at hall
        exact hall

end Round

/-- Whether something is missing at the end. -/
def Upshot.isLacking : Upshot D → Bool
  | .lacking => true
  | _ => false

/-- The endings of invocations that a plan allows for. -/
def Upshot.Allows : Upshot D → Ending D → Prop
  | .value v, ending => ending = .value v
  | .fault e, ending => ending = .fault e
  | .lacking, ending => ending = .needsDeps
  | .broken, ending => ending = .needsDeps ∨ ∃ payload, ending = .crash payload

namespace Upshot

variable {u : Upshot D}

/-- A plan that is broken off lets its function end without an outcome only. -/
theorem not_allows_of_broken {ending : Ending D} (hu : u = .broken)
    (hneeds : ending ≠ .needsDeps) (hcrash : ∀ payload, ending ≠ .crash payload) :
    ¬ u.Allows ending := by
  rw [hu]
  rintro (h | ⟨payload, h⟩)
  · exact hneeds h
  · exact hcrash payload h

theorem eq_value_of_allows {v : D.Value} (h : u.Allows (.value v)) : u = .value v := by
  cases hu : u with
  | value v' =>
      rw [hu] at h
      rw [Ending.value.inj h]
  | broken => exact absurd h (not_allows_of_broken hu (by simp) (by simp))
  | fault _ | lacking =>
      rw [hu] at h
      cases h

theorem eq_fault_of_allows {e : D.Fault} (h : u.Allows (.fault e)) : u = .fault e := by
  cases hu : u with
  | fault e' =>
      rw [hu] at h
      rw [Ending.fault.inj h]
  | broken => exact absurd h (not_allows_of_broken hu (by simp) (by simp))
  | value _ | lacking =>
      rw [hu] at h
      cases h

theorem eq_lacking_of_allows (h : u.Allows .needsDeps) (hu : u ≠ .broken) : u = .lacking := by
  cases u with
  | lacking => rfl
  | broken => exact absurd rfl hu
  | value _ | fault _ => cases h

theorem eq_broken_of_allows {payload : Payload} (h : u.Allows (.crash payload)) :
    u = .broken := by
  cases u with
  | broken => rfl
  | value _ | fault _ | lacking => cases h

end Upshot

namespace Recipe

variable {s : Setting D} {k : D.Key} {recipe : Recipe D}

/-- A recipe that gives up asks to be run again and does nothing else. -/
theorem GivesUp.run (h : recipe.GivesUp) {inv : Invocation D} (hm : inv.missing = true)
    {r : Round D} (hi : r.interrupted = false) :
    ∃ scratch, recipe.run s k inv r = (.needsDeps, { inv with scratch := scratch }, r) := by
  induction h generalizing inv with
  | needsDeps => exact ⟨inv.scratch, rfl⟩
  | @valuesMissing next _ ih =>
      have hrun : (Recipe.valuesMissing next).run s k inv r = (next true).run s k inv r := by
        rw [Recipe.run, hm]
      rw [hrun]
      exact ih hm
  | isInterrupted _ ih =>
      rw [Recipe.run, hi]
      exact ih hm
  | version _ ih =>
      rw [Recipe.run]
      exact ih s.version hm
  | @load slot next _ ih =>
      rw [Recipe.run]
      have hm' : { inv with scratch := some ⟨slot, inv.content slot⟩ }.missing = true := hm
      exact ih (inv.content slot) hm'
  | @store slot content next _ ih =>
      rw [Recipe.run]
      have hm' : { inv with scratch := some ⟨slot, content⟩ }.missing = true := hm
      exact ih hm'

/-- A read carries on with the answers to its batch. -/
theorem run_read_eq (batch : List D.Key) (accepts : D.Fault → Bool)
    (next : Table D.Key (Answer D) → Recipe D) (inv : Invocation D) (r : Round D) :
    (Recipe.read batch accepts next).run s k inv r =
      (next (.ofList (r.readEach s k accepts batch (inv.request batch)).1)).run s k
        (r.readEach s k accepts batch (inv.request batch)).2.1
        (r.readEach s k accepts batch (inv.request batch)).2.2 := rfl

/-- Unless the round is to stop, a batch is answered by what can be read. -/
theorem run_read {batch : List D.Key} {accepts : D.Fault → Bool}
    (next : Table D.Key (Answer D) → Recipe D) {inv : Invocation D} {r : Round D}
    (hgo : (r.readEach s k accepts batch (inv.request batch)).2.2.interrupted = false) :
    ∃ inv' r', (Recipe.read batch accepts next).run s k inv r =
        (next (r.sight.answers accepts batch)).run s k inv' r' ∧
      inv.Notes inv' [batch] (batch.filterMap (r.sight.shown accepts))
        (batch.filterMap (r.sight.failed accepts)) (r.sight.pending batch)
        (r.sight.lacks accepts batch) ∧
      (r.sight.pending batch = [] → r' = r) ∧ r'.interrupted = false := by
  have hbegun : inv.Notes (inv.request batch) [batch] [] [] [] false := by
    constructor <;> simp [Invocation.request]
  obtain ⟨hrows, hnotes⟩ := Round.readEach_of_going accepts hgo
  refine ⟨_, _, ?_, hbegun.trans hnotes, Round.readEach_eq_self accepts, hgo⟩
  rw [run_read_eq, hrows, Sight.answers]

/-- A batch that lacks nothing is noted and leaves the round as it was. -/
theorem run_read_of_not_lacks {batch : List D.Key} {accepts : D.Fault → Bool}
    (next : Table D.Key (Answer D) → Recipe D) {inv : Invocation D} {r : Round D}
    (hgo : (r.readEach s k accepts batch (inv.request batch)).2.2.interrupted = false)
    (hl : r.sight.lacks accepts batch = false) :
    ∃ inv', (Recipe.read batch accepts next).run s k inv r =
        (next (r.sight.answers accepts batch)).run s k inv' r ∧
      inv.Notes inv' [batch] (batch.filterMap (r.sight.shown accepts)) [] [] false := by
  obtain ⟨inv', r', hrun, hnotes, hround, -⟩ := run_read next hgo
  have hpending : r.sight.pending batch = [] :=
    Sight.pending_eq_nil.mpr fun d hd => (Sight.lacks_eq_false.mp hl d hd).1
  obtain rfl := hround hpending
  rw [Sight.failed_eq_nil hl, hpending, hl] at hnotes
  exact ⟨inv', hrun, hnotes⟩

/-- A round that is not to stop after an invocation was not to stop after its first batch. -/
theorem going_of_run {batch : List D.Key} {accepts : D.Fault → Bool}
    {next : Table D.Key (Answer D) → Recipe D} {inv : Invocation D} {r : Round D}
    (hgo : ((Recipe.read batch accepts next).run s k inv r).2.2.interrupted = false) :
    (r.readEach s k accepts batch (inv.request batch)).2.2.interrupted = false :=
  (Round.reads_run _ _ _).going hgo

/-- The invocation did what the consultation says. -/
structure Consulted (c : Consultation D) (inv : Invocation D) (r : Round D)
    (out : Ending D × Invocation D × Round D) : Prop where
  /-- It read the same and noted the same. -/
  notes : inv.Notes out.2.1 c.batches c.shown c.failed c.pending c.upshot.isLacking
  /-- It ended as the plan does. -/
  ending : c.upshot.Allows out.1
  /-- If all keys had outcomes, the round is as it was. -/
  round : c.pending = [] → out.2.2 = r

/-- A recipe that follows a plan does what consulting the plan says. -/
theorem Follows.run {plan : Plan D} (h : recipe.Follows plan) {inv : Invocation D}
    (hm : inv.missing = false) {r : Round D}
    (hgo : (recipe.run s k inv r).2.2.interrupted = false) :
    Consulted (plan.consult r.sight) inv r (recipe.run s k inv r) := by
  have hi := (Round.reads_run recipe inv r).going hgo
  have hnothing (scratch : Option (Scratch D)) {inv' : Invocation D} {c : Consultation D}
      {out : Ending D × Invocation D × Round D}
      (h : Consulted c { inv' with scratch := scratch } r out) : Consulted c inv' r out :=
    ⟨(Invocation.Notes.nothing inv' scratch).trans h.notes, h.ending, h.round⟩
  have hsilent {inv' : Invocation D} {upshot : Upshot D} {ending : Ending D}
      (hl : upshot.isLacking = false) (he : upshot.Allows ending) :
      Consulted (.silent upshot) inv' r (ending, inv', r) :=
    ⟨hl ▸ Invocation.Notes.nothing inv' inv'.scratch, he, fun _ => rfl⟩
  induction h generalizing inv with
  | value v => exact hsilent rfl rfl
  | fault e => exact hsilent rfl rfl
  | crash payload => exact hsilent rfl (.inr ⟨payload, rfl⟩)
  | needsDeps => exact hsilent rfl (.inl rfl)
  | interrupt next =>
      rw [Recipe.run, (Round.reads_run next inv _).interrupted rfl] at hgo
      cases hgo
  | @read batch accepts next plan hfull hlacking ih =>
      cases hl : r.sight.lacks accepts batch with
      | true =>
          obtain ⟨inv', r', hrun, hnotes, hround, hi'⟩ := run_read next (going_of_run hgo)
          rw [hl] at hnotes
          obtain ⟨scratch, hgiven⟩ :=
            (hlacking r.sight hl).run (s := s) (k := k) (by rw [hnotes.lacks]; simp) hi'
          rw [hrun, hgiven, Plan.consult_of_lacks hl]
          refine ⟨?_, rfl, hround⟩
          have hdone := hnotes.trans (.nothing inv' scratch)
          simpa [Upshot.isLacking] using hdone
      | false =>
          obtain ⟨inv', hrun, hnotes⟩ := run_read_of_not_lacks next (going_of_run hgo) hl
          rw [hrun] at hgo ⊢
          have hrest := ih r.sight hl (by rw [hnotes.lacks, hm]; rfl) hgo
          rw [Plan.consult_of_not_lacks hl]
          refine ⟨?_, hrest.ending, hrest.round⟩
          have hdone := hnotes.trans hrest.notes
          simpa using hdone
  | @valuesMissing next plan _ ih =>
      have hrun : (Recipe.valuesMissing next).run s k inv r = (next false).run s k inv r := by
        rw [Recipe.run, hm]
      rw [hrun] at hgo ⊢
      exact ih hm hgo
  | @isInterrupted next plan _ ih =>
      have hrun : (Recipe.isInterrupted next).run s k inv r = (next false).run s k inv r := by
        rw [Recipe.run, hi]
      rw [hrun] at hgo ⊢
      exact ih hm hgo
  | version _ ih =>
      rw [Recipe.run] at hgo ⊢
      exact ih s.version hm hgo
  | @load slot next plan _ ih =>
      rw [Recipe.run] at hgo ⊢
      exact hnothing _ (ih (inv.content slot) hm hgo)
  | @store slot content next plan _ ih =>
      rw [Recipe.run] at hgo ⊢
      exact hnothing _ (ih hm hgo)

/-- An invocation that does not break off lets the round go on, unless the observer stops it when
a key without outcome is demanded. -/
theorem Follows.going {plan : Plan D} (h : recipe.Follows plan) {inv : Invocation D}
    (hm : inv.missing = false) {r : Round D} (hi : r.interrupted = false)
    (hcalm : Round.Quiet s ∨ (plan.consult r.sight).pending = [])
    (hbroken : (plan.consult r.sight).upshot ≠ .broken) :
    (recipe.run s k inv r).2.2.interrupted = false := by
  induction h generalizing inv with
  | value v => exact hi
  | fault e => exact hi
  | crash payload => exact hi
  | needsDeps => exact hi
  | interrupt next => exact absurd rfl hbroken
  | @read batch accepts next plan hfull hlacking ih =>
      have hgo : (r.readEach s k accepts batch (inv.request batch)).2.2.interrupted = false := by
        rcases hcalm with hquiet | hpending
        · rw [hquiet.readEach]
          exact hi
        · rw [Round.readEach_eq_self accepts (Plan.pending_batch_eq_nil hpending)]
          exact hi
      cases hl : r.sight.lacks accepts batch with
      | true =>
          obtain ⟨inv', r', hrun, hnotes, -, hi'⟩ := run_read next hgo
          obtain ⟨scratch, hgiven⟩ :=
            (hlacking r.sight hl).run (s := s) (k := k) (by rw [hnotes.lacks, hl]; simp) hi'
          rw [hrun, hgiven]
          exact hi'
      | false =>
          obtain ⟨inv', hrun, hnotes⟩ := run_read_of_not_lacks next hgo hl
          rw [Plan.consult_of_not_lacks hl] at hcalm hbroken
          rw [hrun]
          exact ih r.sight hl (by rw [hnotes.lacks, hm]; rfl) hcalm hbroken
  | @valuesMissing next plan _ ih =>
      have hrun : (Recipe.valuesMissing next).run s k inv r = (next false).run s k inv r := by
        rw [Recipe.run, hm]
      rw [hrun]
      exact ih hm hcalm hbroken
  | @isInterrupted next plan _ ih =>
      have hrun : (Recipe.isInterrupted next).run s k inv r = (next false).run s k inv r := by
        rw [Recipe.run, hi]
      rw [hrun]
      exact ih hm hcalm hbroken
  | version _ ih =>
      rw [Recipe.run]
      exact ih s.version hm hcalm hbroken
  | @load slot next plan _ ih =>
      rw [Recipe.run]
      have hm' : { inv with scratch := some ⟨slot, inv.content slot⟩ }.missing = false := hm
      exact ih (inv.content slot) hm' hcalm hbroken
  | @store slot content next plan _ ih =>
      rw [Recipe.run]
      have hm' : { inv with scratch := some ⟨slot, content⟩ }.missing = false := hm
      exact ih hm' hcalm hbroken

end Recipe

end MemoGraph
