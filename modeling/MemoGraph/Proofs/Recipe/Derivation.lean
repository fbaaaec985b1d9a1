import MemoGraph.Proofs.Recipe.Refusal

/-!
# Values by recursion

Which value a key ought to have is fixed without any round.  Its function is run once, by itself,
and every request is answered with the value of the requested key, which is found in the same way.
The key has the value that its function ends with, if this recursion comes to an end, that is if
there is a finite derivation.  A key that leads back to itself has none.
-/

set_option autoImplicit false

namespace MemoGraph

variable {D : Domain}

/-- Run a function by itself, with given values for the keys that it may request.  Yields the keys
that it requests and the value it ends with. -/
def Recipe.reckon (version : Version) (vals : D.Key → D.Value) :
    Recipe D → Option (Scratch D) → Option (List D.Key × D.Value)
  | .value v, _ => some ([], v)
  | .needsDeps, _ => none
  | .fault _, _ => none
  | .crash _, _ => none
  | .read batch _ next, scratch =>
      let answers := batch.map fun d => (d, Answer.value (vals d))
      ((next (.ofList answers)).reckon version vals scratch).map fun (keys, v) => (batch ++ keys, v)
  | .valuesMissing next, scratch => (next false).reckon version vals scratch
  | .isInterrupted next, scratch => (next false).reckon version vals scratch
  | .version next, scratch => (next version).reckon version vals scratch
  | .load slot next, scratch =>
      let content := (Invocation.start scratch : Invocation D).content slot
      (next content).reckon version vals (some ⟨slot, content⟩)
  | .store slot content next, _ => next.reckon version vals (some ⟨slot, content⟩)
  -- A round that is to stop drops whatever the function goes on to do.
  | .interrupt _, _ => none

/-- The key has the value: its function ends with it when it is run on values that the requested
keys have. -/
inductive Registry.Derives (registry : Registry D) (version : Version) :
    D.Key → D.Value → Prop where
  /-- by a run of the function -/
  | run {k : D.Key} {f : Function D} {vals : D.Key → D.Value} {keys : List D.Key} {v : D.Value} :
      registry.find? k = some f → (f k 1).reckon version vals none = some (keys, v) →
      (∀ d ∈ keys, Derives registry version d (vals d)) → Derives registry version k v

/-- The plan comes to no declared fault. -/
def Plan.Faultless (plan : Plan D) : Prop :=
  ∀ (look : Sight D) (e : D.Fault), (plan.consult look).upshot ≠ .fault e

/-- No function declares a fault, and none is shown a failure of a dependency. -/
def Registry.Sure (registry : Registry D) : Prop :=
  ∀ k f, registry.find? k = some f → ∃ plan, f.Follows k plan ∧ plan.AcceptsNone ∧ plan.Faultless

theorem Registry.Sure.acceptsNone {registry : Registry D} (h : registry.Sure) :
    registry.AcceptsNone := by
  intro k f hf
  obtain ⟨plan, hplan, hnone, -⟩ := h k f hf
  exact ⟨plan, hplan, hnone⟩

/-! ## Plans on given values -/

/-- Every key can be read, with the given value. -/
def Sight.ofValues (vals : D.Key → D.Value) : Sight D := fun d => some (.value (vals d))

theorem Sight.lacks_ofValues (vals : D.Key → D.Value) (accepts : D.Fault → Bool)
    (batch : List D.Key) : (Sight.ofValues vals).lacks accepts batch = false := by
  rw [lacks_eq_false]
  exact fun d _ => ⟨Option.some_ne_none _, rfl⟩

/-- The keys that are read. -/
def Consultation.requests (c : Consultation D) : List D.Key := c.batches.flatten

/-- The keys that are read, and the value at the end. -/
def Consultation.reckoning (c : Consultation D) : Option (List D.Key × D.Value) :=
  match c.upshot with
  | .value v => some (c.requests, v)
  | _ => none

theorem Consultation.reckoning_eq_some {c : Consultation D} {keys : List D.Key} {v : D.Value} :
    c.reckoning = some (keys, v) ↔ c.requests = keys ∧ c.upshot = .value v := by
  unfold reckoning
  cases c.upshot with
  | value u => simp
  | fault e => simp
  | broken => simp
  | lacking => simp

/-- A function that is run by itself does what its plan says. -/
theorem Recipe.Follows.reckon {recipe : Recipe D} {plan : Plan D} (h : recipe.Follows plan)
    (version : Version) (vals : D.Key → D.Value) (scratch : Option (Scratch D)) :
    recipe.reckon version vals scratch = (plan.consult (.ofValues vals)).reckoning := by
  induction h generalizing scratch with
  | value v => rfl
  | fault e => rfl
  | crash payload => rfl
  | needsDeps => rfl
  | interrupt next => rfl
  | @read batch accepts next plan _ _ ih =>
      have hlacks := Sight.lacks_ofValues vals accepts batch
      have hrest := ih (.ofValues vals) hlacks scratch
      rw [Plan.consult_of_not_lacks hlacks]
      simp only [Recipe.reckon]
      rw [show Table.ofList (batch.map fun d => (d, Answer.value (vals d))) =
        (Sight.ofValues vals).answers accepts batch from rfl, hrest]
      simp only [Consultation.reckoning]
      cases ((plan ((Sight.ofValues vals).answers accepts batch)).consult
        (.ofValues vals)).upshot with
      | value v => rfl
      | fault e => rfl
      | broken => rfl
      | lacking => rfl
  | valuesMissing _ ih => exact ih scratch
  | isInterrupted _ ih => exact ih scratch
  | version _ ih => exact ih version scratch
  | load _ ih => exact ih _ _
  | store _ ih => exact ih _

namespace Plan

variable {look : Sight D} {plan : Plan D}

/-- What is read by a plan that lacks nothing has a value. -/
theorem AcceptsNone.value_of_request (h : plan.AcceptsNone)
    (hfull : (plan.consult look).upshot ≠ .lacking) {d : D.Key}
    (hd : d ∈ (plan.consult look).requests) : ∃ v, look d = some (.value v) := by
  obtain ⟨batch, hbatch, hd⟩ := List.mem_flatten.mp hd
  cases ho : look d with
  | none =>
      have hmem := plan.mem_pending_of_read hbatch hd ho
      rw [plan.pending_eq_nil hfull] at hmem
      exact absurd hmem List.not_mem_nil
  | some o =>
      cases o with
      | value v => exact ⟨v, rfl⟩
      | failure e => exact absurd (h.failed hbatch hd ho).1 hfull

/-- A plan requests no more than it does on values that agree with what can be read. -/
theorem AcceptsNone.requests_subset (h : plan.AcceptsNone) {vals : D.Key → D.Value}
    (hagree : ∀ d ∈ (plan.consult look).requests, d ∈ (plan.consult (.ofValues vals)).requests →
      ∀ v, look d = some (.value v) → vals d = v) :
    ∀ d ∈ (plan.consult look).requests, d ∈ (plan.consult (.ofValues vals)).requests := by
  induction h with
  | value v => exact fun d hd => hd
  | fault e => exact fun d hd => hd
  | broken => exact fun d hd => hd
  | @read batch accepts next haccepts hnext ih =>
      have hlacks := Sight.lacks_ofValues vals accepts batch
      rw [consult_of_not_lacks hlacks] at hagree ⊢
      cases hl : look.lacks accepts batch with
      | true =>
          rw [consult_of_lacks hl]
          intro d hd
          obtain ⟨keys, hkeys, hmem⟩ := List.mem_flatten.mp hd
          obtain rfl := List.mem_singleton.mp hkeys
          exact List.mem_append_left _ hmem
      | false =>
          rw [consult_of_not_lacks hl] at hagree ⊢
          -- All keys of the batch have values, and they are those of `vals`.
          have hbatch : ∀ d ∈ batch, look d = Sight.ofValues vals d := by
            intro d hd
            obtain ⟨hsome, hfailed⟩ := Sight.lacks_eq_false.mp hl d hd
            obtain ⟨o, ho⟩ := Option.ne_none_iff_exists'.mp hsome
            cases o with
            | value v =>
                have hv := hagree d (List.mem_append_left _ hd) (List.mem_append_left _ hd) v ho
                rw [ho, Sight.ofValues, hv]
            | failure e =>
                have hnone : e.fault.filter accepts = none := by
                  rw [Option.filter_eq_none_iff]
                  exact fun fault _ => by simp [haccepts fault]
                simp [Sight.failed, ho, hnone] at hfailed
          rw [(Sight.batch_congr accepts hbatch).1] at hagree ⊢
          intro d hd
          rcases List.mem_append.mp hd with hd | hd
          · exact List.mem_append_left _ hd
          · refine List.mem_append_right _ (ih (.ofValues vals) hlacks (fun x hx hx' => ?_) d hd)
            exact hagree x (List.mem_append_right _ hx) (List.mem_append_right _ hx')

end Plan

/-! ## Derivations -/

namespace Registry

variable {registry : Registry D} {version : Version} {k : D.Key} {v : D.Value} {f : Function D}
  {plan : Plan D} {look : Sight D}

/-- Behind a derivation is a consultation on values that are derived. -/
theorem Derives.consult (h : registry.Derives version k v) (hf : registry.find? k = some f)
    (hplan : f.Follows k plan) : ∃ vals : D.Key → D.Value,
      (plan.consult (.ofValues vals)).upshot = .value v ∧
        ∀ d ∈ (plan.consult (.ofValues vals)).requests, registry.Derives version d (vals d) := by
  obtain @⟨_, f', vals, keys, _, hf', hreckon, hkeys⟩ := h
  obtain rfl := Option.some.inj (hf'.symm.trans hf)
  rw [(hplan 1).reckon] at hreckon
  obtain ⟨rfl, hv⟩ := Consultation.reckoning_eq_some.mp hreckon
  exact ⟨vals, hv, hkeys⟩

/-- There is at most one value for a key. -/
theorem AcceptsNone.derives_unique (hnone : registry.AcceptsNone)
    (h : registry.Derives version k v) {v' : D.Value} (h' : registry.Derives version k v') :
    v = v' := by
  induction h generalizing v' with
  | @run k f vals keys v hf hreckon hkeys ih =>
      obtain ⟨plan, hplan, hplannone⟩ := hnone k f hf
      obtain ⟨vals', hv', hkeys'⟩ := h'.consult hf hplan
      rw [(hplan 1).reckon] at hreckon
      obtain ⟨rfl, hv⟩ := Consultation.reckoning_eq_some.mp hreckon
      have hsubset : ∀ d ∈ (plan.consult (.ofValues vals')).requests,
          d ∈ (plan.consult (.ofValues vals)).requests := by
        refine hplannone.requests_subset fun d hd' hd u hu => ?_
        obtain rfl := Outcome.value.inj (Option.some.inj hu)
        exact ih d hd (hkeys' d hd')
      -- So one consultation sees nothing but what the other one sees.
      have hsame : plan.consult (.ofValues vals) = plan.consult (.ofValues vals') := by
        apply Plan.consult_congr
        intro batch hbatch d hd
        have hd' := List.mem_flatten.mpr ⟨batch, hbatch, hd⟩
        rw [Sight.ofValues, Sight.ofValues, ih d (hsubset d hd') (hkeys' d hd')]
      rw [hsame, hv'] at hv
      exact (Upshot.value.inj hv).symm

section Readable

variable (hlook : ∀ d u, look d = some (.value u) → registry.Derives version d u)

include hlook

/-- A function that comes to a value on values that are derived derives it. -/
theorem AcceptsNone.derives_of_consult (hnone : registry.AcceptsNone)
    (hf : registry.find? k = some f) (hplan : f.Follows k plan)
    (hv : (plan.consult look).upshot = .value v) : registry.Derives version k v := by
  obtain ⟨plan', hplan', hplannone⟩ := hnone k f hf
  rw [(hplan 0).consult_eq (hplan' 0)] at hv
  have hfull : (plan'.consult look).upshot ≠ .lacking := by simp [hv]
  let vals (d : D.Key) : D.Value := ((look d).bind Outcome.value?).getD v
  have hvals {d : D.Key} (hd : d ∈ (plan'.consult look).requests) :
      look d = some (.value (vals d)) := by
    obtain ⟨u, hu⟩ := hplannone.value_of_request hfull hd
    simp [vals, hu, Outcome.value?]
  have hsame : plan'.consult (.ofValues vals) = plan'.consult look := by
    apply Plan.consult_congr
    intro batch hbatch d hd
    exact (hvals (List.mem_flatten.mpr ⟨batch, hbatch, hd⟩)).symm
  have hreckon : (f k 1).reckon version vals none = some ((plan'.consult look).requests, v) := by
    rw [(hplan' 1).reckon, hsame]
    exact Consultation.reckoning_eq_some.mpr ⟨rfl, hv⟩
  exact .run hf hreckon fun d hd => hlook d (vals d) (hvals hd)

/-- What a function requests, as far as it can be followed on values that are derived, is requested
in every derivation. -/
theorem AcceptsNone.requests_subset (hnone : registry.AcceptsNone)
    (hf : registry.find? k = some f) (hplan : f.Follows k plan) {vals : D.Key → D.Value}
    (hvals : ∀ d ∈ (plan.consult (.ofValues vals)).requests,
      registry.Derives version d (vals d)) :
    ∀ d ∈ (plan.consult look).requests, d ∈ (plan.consult (.ofValues vals)).requests := by
  obtain ⟨plan', hplan', hplannone⟩ := hnone k f hf
  rw [(hplan 0).consult_eq (hplan' 0)] at hvals ⊢
  rw [(hplan 0).consult_eq (hplan' 0)]
  refine hplannone.requests_subset fun d _ hd u hu => ?_
  exact hnone.derives_unique (hvals d hd) (hlook d u hu)

/-- All that the function of a derived key comes to request is derived. -/
theorem AcceptsNone.derives_of_request (hnone : registry.AcceptsNone)
    (hf : registry.find? k = some f) (hplan : f.Follows k plan)
    (h : registry.Derives version k v) {d : D.Key} (hd : d ∈ (plan.consult look).requests) :
    ∃ u, registry.Derives version d u := by
  obtain ⟨vals, -, hvals⟩ := h.consult hf hplan
  exact ⟨vals d, hvals d (hnone.requests_subset hlook hf hplan hvals d hd)⟩

/-- Keys that come to request one another have no derivation. -/
theorem AcceptsNone.not_derives (hnone : registry.AcceptsNone) {P : D.Key → Prop}
    (hP : ∀ k, P k → ∀ f plan, registry.find? k = some f → f.Follows k plan →
      ∃ d ∈ (plan.consult look).requests, P d)
    (hk : P k) : ¬ registry.Derives version k v := by
  intro h
  induction h with
  | @run k f vals keys v hf hreckon hkeys ih =>
      obtain ⟨plan, hplan, -⟩ := hnone k f hf
      rw [(hplan 1).reckon] at hreckon
      obtain ⟨rfl, -⟩ := Consultation.reckoning_eq_some.mp hreckon
      obtain ⟨d, hd, hd'⟩ := hP k hk f plan hf hplan
      exact ih d (hnone.requests_subset hlook hf hplan hkeys d hd) hd'

end Readable

end Registry

end MemoGraph
