import MemoGraph.Proofs.Crew.Accounts
import MemoGraph.Proofs.Recipe.Heeding
import MemoGraph.Proofs.Round.Justified

/-!
# Justified values among several workers

An invocation of a batch strict function sees outcomes that do not change any more in the round, so
it goes the way through its plan that a consultation at the end of the invocation would go.  What
was missing for a moment makes it give up, and all requests of a key together stay the beginning of
what its function requests in the end.  So every value is justified when it is published.
-/

set_option autoImplicit false

namespace MemoGraph

variable {D : Domain} {s : Setting D} {l l' : Live D} {k : D.Key}

/-- In the middle of a key, more and more can be read. -/
theorem Spared.extends (h : Spared l l' k) : l'.graph.sight.Extends l.graph.sight := by
  intro d o ho
  have hshows : l.graph.Shows d o := Graph.shows_of_settled ho
  exact Graph.settled_of_shows ((Graph.shows_of_memo_eq (h.lasting d hshows.1)).mpr hshows)

/-- How an invocation of a function that follows `plan` may end. -/
def Invocation.Closes (inv : Invocation D) (look : Sight D) (plan : Plan D) : Ending D → Prop
  | .value v => plan.Leads look inv.batches (.value v)
  | .needsDeps => inv.batches <+: (plan.consult look).batches
  | .fault _ | .crash _ => True

theorem Invocation.Closes.mono {inv : Invocation D} {look look' : Sight D} {plan : Plan D}
    {ending : Ending D} (h : inv.Closes look plan ending) (hmore : look'.Extends look) :
    inv.Closes look' plan ending := by
  cases ending with
  | value v => exact Plan.Leads.mono h hmore
  | needsDeps => exact List.IsPrefix.trans h (Plan.batches_consult_prefix hmore plan)
  | fault _ | crash _ => trivial

/-- What was requested is the beginning of what the plan requests. -/
theorem Invocation.Closes.prefix_consult {inv : Invocation D} {look : Sight D} {plan : Plan D}
    {ending : Ending D} (h : inv.Closes look plan ending)
    (hending : ending = .needsDeps ∨ ∃ v, ending = .value v) :
    inv.batches <+: (plan.consult look).batches := by
  rcases hending with rfl | ⟨v, rfl⟩
  · exact h
  · exact Plan.Leads.prefix_consult h

/-- Requests of a function that starts over, each time a beginning of the same, are together such a
beginning. -/
theorem DepGroups.pushAll_of_prefixes {K : Type} [DecidableEq K] {b c all : List (List K)}
    (hb : b <+: all) (hc : c <+: all) :
    ∃ d, (ofBatches b).pushAll c = ofBatches d ∧ d <+: all := by
  rcases List.prefix_or_prefix_of_prefix hb hc with hbc | hcb
  · exact ⟨c, pushAll_of_prefix hbc, hc⟩
  · refine ⟨b, pushAll_of_subset fun batch hbatch k hk => ?_, hb⟩
    exact mem_keys_pushAll.mpr (.inr ⟨batch, hcb.subset hbatch, hk⟩)

/-- What values are paid by: they are justified.  Failures are free. -/
def valuePrice (registry : Registry D) : Account D :=
  justification registry fun _ _ o => ∃ e, o = .failure e

/-- What is known in the middle of keys whose functions follow `plans`. -/
def planRule (s : Setting D) (plans : D.Key → Plan D) : Rule D where
  task l k t := ∃ batches, t.requested = .ofBatches batches ∧
    batches <+: ((plans k).consult l.graph.sight).batches
  read l k _ reader rest :=
    match reader with
    | .group _ _ _ => True
    | .batch inv accepts rows next => (∃ f, s.registry.find? k = some f) ∧
        (l.interrupted = true ∨ inv.Within l.graph.sight (plans k) accepts rows next rest)
  other l k _ st :=
    match st with
    | .invoking _ f _ => s.registry.find? k = some f
    | .running _ inv recipe => (∃ f, s.registry.find? k = some f) ∧
        (l.interrupted = true ∨ inv.Under l.graph.sight (plans k) recipe)
    | .returned _ inv ending => (∃ f, s.registry.find? k = some f) ∧
        (l.interrupted = true ∨ inv.Closes l.graph.sight (plans k) ending)
    | .concluding _ inv ending => (∃ f, s.registry.find? k = some f) ∧
        inv.Closes l.graph.sight (plans k) ending
    | .recording _ deps o _ => (valuePrice s.registry).holds k deps o l.graph.Shows
    | .relinking _ _ _ o _ | .publishing _ o _ =>
        (valuePrice s.registry).holds k (l.graph.node k).deps o l.graph.Shows
    | _ => True

/-- A wish to stop is not taken back, and everything else lasts. -/
theorem Spared.stopped_or (h : Spared l l' k) {p q : Prop} (hpq : p → q)
    (hp : l.interrupted = true ∨ p) : l'.interrupted = true ∨ q := by
  refine hp.imp (fun hi => ?_) hpq
  cases hi' : l'.interrupted with
  | true => rfl
  | false => rw [h.going hi'] at hi; cases hi

/-- The outcomes that can be read are stored with the keys, apart from dependencies. -/
theorem sight_of_recorded {deps : DepGroups D.Key}
    (hothers : ∀ x, x ≠ k → (l'.graph.node x).memo = (l.graph.node x).memo)
    (hk : (l'.graph.node k).memo = ({ l.graph.node k with deps := deps } : Node D).memo) :
    l'.graph.sight = l.graph.sight := by
  funext d
  by_cases hd : d = k
  · rw [hd]
    have hsettled := Node.settled?_of_memo_eq hk
    exact hsettled
  · exact Node.settled?_of_memo_eq (hothers d hd)

/-- A value that an invocation comes to is justified. -/
theorem justified_of_closes (hD : D.Exact) {plan : Plan D} {f : Function D} {t : Task D}
    {inv : Invocation D} {v : D.Value} (hf : s.registry.find? k = some f)
    (hplan : f.Follows k plan) (hcloses : inv.Closes l.graph.sight plan (.value v))
    (hrequested : ∃ batches, t.requested = .ofBatches batches ∧
      batches <+: (plan.consult l.graph.sight).batches) :
    Justified s.registry k (t.requested.pushAll inv.batches) (.value v) l.graph.Shows := by
  obtain ⟨hbatches, hupshot⟩ := Plan.Leads.consult hcloses
  rw [Plan.consult, Consultation.silent, List.append_nil] at hbatches
  obtain ⟨batches, hreq, hprefix⟩ := hrequested
  have hvalue : (plan.consult l.graph.sight).upshot = .value v := hupshot
  refine .of_consult hD hf hplan
    (fun d o (ho : l.graph.sight d = some o) => Graph.shows_of_settled ho)
    (plan.pending_eq_nil (by simp [hvalue])) ?_ (by rw [Consultation.outcome?, hvalue])
  rw [hreq, hbatches]
  exact DepGroups.pushAll_of_prefix (hbatches ▸ hprefix)

theorem lawful_planRule (hD : D.Exact) {plans : D.Key → Plan D}
    (hplans : ∀ k f, s.registry.find? k = some f → f.Follows k (plans k) ∧ f.Heeds k) :
    (planRule s plans).Lawful s where
  task {l l' k t t'} h _ hrequested ht := by
    obtain ⟨batches, hreq, hprefix⟩ := ht
    rcases hrequested with hsame | hnone
    · exact ⟨batches, hsame.trans hreq,
        hprefix.trans (Plan.batches_consult_prefix h.extends (plans k))⟩
    · exact ⟨[], hnone, List.nil_prefix⟩
  read {l l' k t t' reader rest} h _ hr := by
    cases reader with
    | group i since seen => trivial
    | batch inv accepts rows next =>
        exact ⟨hr.1, h.stopped_or (fun hw => hw.mono h.extends) hr.2⟩
  other {l l' k t t' st} h _ hst := by
    have hmono {deps : DepGroups D.Key} {o : Outcome D}
        (hpaid : (valuePrice s.registry).holds k deps o l.graph.Shows) :
        (valuePrice s.registry).holds k deps o l'.graph.Shows :=
      (valuePrice s.registry).mono (fun _ _ _ => h.shows) hpaid
    cases st with
    | invoking _ f _ => exact hst
    | running _ inv recipe => exact ⟨hst.1, h.stopped_or (fun hu => hu.mono h.extends) hst.2⟩
    | returned _ inv ending => exact ⟨hst.1, h.stopped_or (fun hc => hc.mono h.extends) hst.2⟩
    | concluding _ inv ending => exact ⟨hst.1, hst.2.mono h.extends⟩
    | recording _ deps o _ => exact hmono hst
    | relinking _ _ _ o _ | publishing _ o _ =>
        show (valuePrice s.registry).holds k (l'.graph.node k).deps o l'.graph.Shows
        rw [h.deps]
        exact hmono hst
    | _ => trivial
  begun _ hrequested := ⟨[], hrequested, List.nil_prefix⟩
  checks _ _ := trivial
  rebuilds _ _ := trivial
  passes _ _ := trivial
  regroups _ _ := trivial
  shown {l k t reader dep rest o} hr ho := by
    cases reader with
    | group i since seen => trivial
    | batch inv accepts rows next =>
        refine ⟨hr.1, hr.2.imp id fun hw =>
          hw.note (o.reply (l.graph.node dep).changedAt) (fun _ => ?_) (Round.batches_note ..)⟩
        have hsight : l.graph.sight dep = some o := ho
        cases o with
        | value v => simp [Outcome.reply, Invocation.note, Sight.answer, hsight]
        | failure e =>
            cases hf : e.fault.filter accepts with
            | none => simp [Outcome.reply, Invocation.note, Sight.answer, hsight, hf]
            | some fault => simp [Outcome.reply, Invocation.note, Sight.answer, hsight, hf]
  pending {l k t reader dep rest} enlisted hr := by
    cases reader with
    | group i since seen => trivial
    | batch inv accepts rows next =>
        refine ⟨hr.1, hr.2.imp id fun hw =>
          hw.note (.pending enlisted) (fun hm => ?_) (Round.batches_note ..)⟩
        cases hm
  cut {l k t inv accepts rows next dep rest} hi hr := ⟨hr.1, .inl hi⟩
  grouped _ := trivial
  answered hr := ⟨hr.1, hr.2.imp id fun hw => hw.close⟩
  parked {l k t t' i seen} ht _ _ hrequested := by
    obtain ⟨batches, hreq, hprefix⟩ := ht
    exact ⟨batches, hrequested.trans hreq, hprefix⟩
  passed _ _ _ := trivial
  again _ := trivial
  calls _ hf := hf
  invokes {l k t f scratch n} hf := by
    obtain ⟨hfollows, hheeds⟩ := hplans k f hf
    exact ⟨⟨f, hf⟩, .inr (.led .nil (hfollows n) (hheeds n) fun hm => by cases hm)⟩
  runs {l l' k t inv recipe st} hst h hk := by
    obtain ⟨hf, hst⟩ := hst
    cases recipe with
    | value v =>
        obtain ⟨rfl, rfl⟩ := Prod.mk.inj h
        exact ⟨hf, hst.imp id fun hu => hu.value⟩
    | needsDeps =>
        obtain ⟨rfl, rfl⟩ := Prod.mk.inj h
        exact ⟨hf, hst.imp id fun hu => hu.needsDeps⟩
    | fault e =>
        obtain ⟨rfl, rfl⟩ := Prod.mk.inj h
        exact ⟨hf, .inr trivial⟩
    | crash payload =>
        obtain ⟨rfl, rfl⟩ := Prod.mk.inj h
        cases hk
    | read batch accepts next =>
        obtain ⟨rfl, rfl⟩ := Prod.mk.inj h
        exact ⟨hf, hst.imp id fun hu => hu.request⟩
    | valuesMissing next =>
        obtain ⟨rfl, rfl⟩ := Prod.mk.inj h
        exact ⟨hf, hst.imp id fun hu => hu.valuesMissing⟩
    | isInterrupted next =>
        obtain ⟨rfl, rfl⟩ := Prod.mk.inj h
        refine ⟨hf, ?_⟩
        cases hi : l.interrupted with
        | true => exact .inl rfl
        | false => exact .inr (hst.resolve_left (by simp [hi])).isInterrupted
    | version next =>
        obtain ⟨rfl, rfl⟩ := Prod.mk.inj h
        exact ⟨hf, hst.imp id fun hu => hu.version s.version⟩
    | load slot next =>
        obtain ⟨rfl, rfl⟩ := Prod.mk.inj h
        exact ⟨hf, hst.imp id fun hu => (hu.load _).congr rfl rfl⟩
    | store slot content next =>
        obtain ⟨rfl, rfl⟩ := Prod.mk.inj h
        exact ⟨hf, hst.imp id fun hu => hu.store.congr rfl rfl⟩
    | interrupt next =>
        obtain ⟨rfl, rfl⟩ := Prod.mk.inj h
        exact ⟨hf, .inl rfl⟩
  heeds {l k t inv ending} hi hst := ⟨hst.1, hst.2.resolve_left (by simp [hi])⟩
  absorbs {l k t t' inv ending} ht hst hending _ hrequested := by
    obtain ⟨batches, hreq, hprefix⟩ := ht
    obtain ⟨all, hall, hprefix'⟩ :=
      DepGroups.pushAll_of_prefixes hprefix (hst.2.prefix_consult hending)
    exact ⟨all, by rw [hrequested, hreq, hall], hprefix'⟩
  repeats _ := trivial
  completes {l k t inv ending o} ht hst ho := by
    obtain ⟨⟨f, hf⟩, hcloses⟩ := hst
    cases ho with
    | value _ => exact .inr (justified_of_closes hD hf (hplans k f hf).1 hcloses ht)
    | fault | blocked => exact .inl ⟨_, rfl⟩
  rebuilt _ _ := .inl ⟨_, rfl⟩
  checked _ := .inl ⟨_, rfl⟩
  records {l l' k t deps o after dropped added} ht hst hothers hk _ := by
    have hsight := sight_of_recorded hothers hk
    obtain ⟨batches, hreq, hprefix⟩ := ht
    refine ⟨⟨batches, hreq, hsight ▸ hprefix⟩, ?_⟩
    show (valuePrice s.registry).holds k (l'.graph.node k).deps o l'.graph.Shows
    rw [show (l'.graph.node k).deps = deps from (Node.memo_eq_iff.mp hk).2.2.1]
    refine (valuePrice s.registry).mono (fun d _ o hd => ?_) hst
    have hshows : l.graph.sight d = some o := Graph.settled_of_shows hd
    rw [← hsight] at hshows
    exact Graph.shows_of_settled hshows
  relinks hst := hst
  linked hst := hst

end MemoGraph
