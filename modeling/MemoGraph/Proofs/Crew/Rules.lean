import MemoGraph.Proofs.Crew.Turns

/-!
# Rules that all workers obey

What is known in the middle of a key, and of a key that waits, is written down as a `Rule`: what
holds of every task, and of every worker that is in the middle of a key.  A rule has to survive what
the others do, and that is always the same: what the key stores stays, what is complete stays, and a
wish to stop is not taken back.  So only the steps of the worker itself have to be looked at.
-/

set_option autoImplicit false

namespace MemoGraph

variable {D : Domain} {s : Setting D} {l l' : Live D} {st st' : Stage D} {k : D.Key}

/-- What one can reckon with in the middle of `k` while others take steps. -/
structure Spared (l l' : Live D) (k : D.Key) : Prop where
  /-- What the key stores stays, readers apart. -/
  own : (l'.graph.node k).memo = (l.graph.node k).memo
  /-- So does what is complete. -/
  lasting : ∀ x, l.graph.isComplete x = true → (l'.graph.node x).memo = (l.graph.node x).memo
  /-- A wish to stop is not taken back. -/
  going : l'.interrupted = false → l.interrupted = false

/-- A wish to stop is not taken back. -/
theorem Advances.going (h : Advances s l st l' st') (hi : l'.interrupted = false) :
    l.interrupted = false := by
  cases h with
  | invokes | reports | announces =>
      simp only [Live.record, Bool.or_eq_false_iff] at hi
      exact hi.1
  | looks h | judges h | concludes h | signals h | breaks h => cases h with | _ => exact hi
  | @runs k inv recipe l' st' h =>
      cases recipe with
      | interrupt next =>
          obtain ⟨rfl, -⟩ := Prod.mk.inj h
          cases hi
      | _ =>
          obtain ⟨rfl, -⟩ := Prod.mk.inj h
          exact hi
  | _ => exact hi

/-- What a step leaves alone. -/
structure Sparing (l : Live D) (st : Stage D) (l' : Live D) : Prop where
  /-- What is stored, except for the key that is written. -/
  memo : ∀ x, st.writes ≠ some x → (l'.graph.node x).memo = (l.graph.node x).memo
  /-- What is complete. -/
  lasting : ∀ x, l.graph.isComplete x = true → (l'.graph.node x).memo = (l.graph.node x).memo
  /-- A wish to stop. -/
  going : l'.interrupted = false → l.interrupted = false

theorem Sparing.spared (h : Sparing l st l') (hk : st.writes ≠ some k) : Spared l l' k :=
  ⟨h.memo k hk, h.lasting, h.going⟩

/-- A worker writes only keys under evaluation, which are not complete. -/
theorem Owned.sparing {others : Multiset (Stage D)} (h : Owned l (st ::ₘ others))
    (hstep : Advances s l st l' st') : Sparing l st l' where
  memo _ hx := memo_step h.sound hstep hx
  lasting x hc := by
    refine memo_step h.sound hstep fun hw => ?_
    obtain ⟨b, hb⟩ :=
      h.building st (Multiset.mem_cons_self _ _) x (Stage.subject_of_writes hw)
    rw [Live.isComplete_graph, (h.sound x).incomplete hb] at hc
    cases hc
  going := hstep.going

/-! ## The task of a key in hand -/

/-- Whether the worker draws the consequence of a reading or of an invocation. -/
def Stage.decides : Stage D → Bool
  | .judging _ _ _ | .concluding _ _ _ => true
  | _ => false

/-- Only where a worker draws a consequence does it change how its key goes on. -/
theorem Advances.steady (h : Advances s l st l' st') (hs : ∀ x, (l.entry x).Sound)
    (hd : st.decides = false) (hk : st.subject = some k) {b b' : Building D}
    (hb : (l.entry k).building = some b) (hb' : (l'.entry k).building = some b') :
    b'.task.mode = b.task.mode ∧ b'.task.requested = b.task.requested := by
  have hsame (he : (l'.entry k).building = (l.entry k).building) :
      b'.task.mode = b.task.mode ∧ b'.task.requested = b.task.requested := by
    obtain rfl := Option.some.inj (hb'.symm.trans (he.trans hb))
    exact ⟨rfl, rfl⟩
  cases h with
  | creates => exact hsame (congrArg Entry.building (Store.entry_create l.store _ k))
  | @looks k' dep rest reader l' st' h =>
      have hasked (he : l' = l.put dep ((l.entry dep).begin.await k').2) :
          b'.task.mode = b.task.mode ∧ b'.task.requested = b.task.requested := by
        rw [he, Live.entry_put] at hb'
        split at hb'
        · rename_i heq
          subst heq
          have hbegin : (l.entry k).begin = l.entry k := by
            rcases Entry.begin_cases (l.entry k) with ⟨-, he⟩ | ⟨status, -, -, hphase, -⟩
            · exact he
            · rcases (hs k).cases with ⟨-, -, hnone⟩ | ⟨-, hphase', -, -⟩
              · rw [hb] at hnone
                cases hnone
              · rw [hphase] at hphase'
                cases hphase'
          rw [hbegin] at hb'
          rcases Entry.await_cases (l.entry k) k' with he | he
          · rw [he, hb] at hb'
            obtain rfl := Option.some.inj hb'
            exact ⟨rfl, rfl⟩
          · rw [he, Entry.building_retask, hb] at hb'
            obtain rfl := Option.some.inj hb'
            exact ⟨rfl, rfl⟩
        · obtain rfl := Option.some.inj (hb'.symm.trans hb)
          exact ⟨rfl, rfl⟩
      cases h with
      | value _ | failed _ => exact hsame rfl
      | pending _ _ _ | begun _ _ _ => exact hasked rfl
  | calls _ =>
      obtain rfl := Option.some.inj hk
      rw [Live.entry_put_self, Entry.building_retask, hb] at hb'
      obtain rfl := Option.some.inj hb'
      exact ⟨rfl, rfl⟩
  | runs h =>
      rw [Recipe.live_turn h] at hsame
      exact hsame rfl
  | records =>
      obtain rfl := Option.some.inj hk
      exact hsame (by rw [Live.entry_put_self])
  | @unlinks _ dep _ _ _ _ =>
      refine hsame ?_
      rw [Live.entry, Store.entry_adjust]
      split
      · rename_i heq
        rw [heq.1]
        rfl
      · rfl
  | @links _ dep _ _ _ =>
      refine hsame ?_
      rw [Live.entry, Store.entry_update]
      split
      · rename_i heq
        rw [heq]
        rfl
      · rfl
  | publishes | fails | confirms =>
      obtain rfl := Option.some.inj hk
      rw [Live.entry_put_self] at hb'
      cases hb'
  | judges _ | concludes _ => cases hd
  | rests _ | fetches _ | skips _ | admits | halts _ | proceeds _ | drops _ | rebuilds _ _
  | checks _ _ | slows | reports | signalled | signals _ | dooms | spreads | opened | opens
  | begins _ | passesBy _ | broke | breaks _ => cases hk
  | _ => exact hsame rfl

/-! ## Rules -/

/-- What a read of an outcome replies. -/
def Outcome.reply (o : Outcome D) (changedAt : Version) : Reply D :=
  match o with
  | .value v => .value v changedAt
  | .failure e => .failed e changedAt

/-- What is known of tasks, and of workers in the middle of keys with tasks. -/
structure Rule (D : Domain) where
  /-- What is known of the task of a key. -/
  task : Live D → D.Key → Task D → Prop
  /-- What is known of a worker that has to read some keys. -/
  read : Live D → D.Key → Task D → Reader D → List D.Key → Prop
  /-- What is known of a worker that does something else. -/
  other : Live D → D.Key → Task D → Stage D → Prop

namespace Rule

/-- What is known of a worker that is to queue a key. -/
def next (R : Rule D) (l : Live D) (k : D.Key) (t : Task D) : Next D → Prop
  | .reading _ reader rest => R.read l k t reader rest
  | .signalling _ _ | .opening _ => True

/-- What is known of a worker. -/
def stage (R : Rule D) (l : Live D) (k : D.Key) (t : Task D) : Stage D → Prop
  | .reading _ reader rest => R.read l k t reader rest
  | .asking _ reader dep rest | .looking _ reader dep rest => R.read l k t reader (dep :: rest)
  | .touching _ next | .announcing _ next | .queueing _ next | .sending _ next => R.next l k t next
  | st => R.other l k t st

theorem stage_next {R : Rule D} {t : Task D} {next : Next D} (h : R.next l k t next)
    (hk : next.stage.subject = some k) : R.stage l k t next.stage := by
  cases next with
  | reading _ _ _ => exact h
  | signalling _ _ | opening _ => cases hk

/-- What has to be shown of a rule. -/
structure Lawful (s : Setting D) (R : Rule D) : Prop where
  /-- Tasks survive what others do.  What was requested may be forgotten. -/
  task : ∀ {l l' k t t'}, Spared l l' k → t'.mode = t.mode →
    t'.requested = t.requested ∨ t'.requested = ∅ → R.task l k t → R.task l' k t'
  /-- So do workers that read. -/
  read : ∀ {l l' k t t' reader rest}, Spared l l' k → t'.mode = t.mode →
    R.read l k t reader rest → R.read l' k t' reader rest
  /-- So do all other workers. -/
  other : ∀ {l l' k t t' st}, Spared l l' k → t'.mode = t.mode →
    R.other l k t st → R.other l' k t' st
  /-- Keys come under evaluation. -/
  begun : ∀ {l k t}, t.mode = (Task.start (l.graph.node k).status : Task D).mode →
    t.requested = ∅ → R.task l k t
  /-- A key is to be checked. -/
  checks : ∀ {l k t i}, R.task l k t → t.mode = .check i → R.other l k t (.checking k i)
  /-- A key is to be rebuilt. -/
  rebuilds : ∀ {l k t}, R.task l k t → t.mode = .rebuild → R.other l k t (.calling k)
  /-- All groups were read. -/
  passes : ∀ {l k t i}, R.other l k t (.checking k i) →
    (l.graph.node k).deps.group? i = none → R.other l k t (.confirming k)
  /-- A group is to be read. -/
  regroups : ∀ {l k t i group}, R.other l k t (.checking k i) →
    (l.graph.node k).deps.group? i = some group →
      R.read l k t (.group i (l.graph.node k).evaluatedAt .start) group
  /-- An outcome is read. -/
  shown : ∀ {l k t reader dep rest o}, R.read l k t reader (dep :: rest) →
    (l.graph.node dep).settled? = some o →
      R.read l k t (reader.note dep (o.reply (l.graph.node dep).changedAt)) rest
  /-- A key without an outcome is read. -/
  pending : ∀ {l k t reader dep rest} (enlisted : Bool), R.read l k t reader (dep :: rest) →
    R.read l k t (reader.note dep (.pending enlisted)) rest
  /-- An invocation reads no further. -/
  cut : ∀ {l k t inv accepts answers next dep rest}, l.interrupted = true →
    R.read l k t (.batch inv accepts answers next) (dep :: rest) →
      R.read l k t ((Reader.batch inv accepts answers next).note dep .interrupted) rest
  /-- A group was read. -/
  grouped : ∀ {l k t i since seen}, R.read l k t (.group i since seen) [] →
    R.other l k t (.judging k i seen)
  /-- A batch was read. -/
  answered : ∀ {l k t inv accepts answers next}, R.read l k t (.batch inv accepts answers next) [] →
    R.other l k t (.running k inv (next (.ofList answers)))
  /-- A key has to be rebuilt, or the group is read again later. -/
  parked : ∀ {l k t t' i seen}, R.task l k t → R.other l k t (.judging k i seen) →
    t'.mode = .rebuild ∨ t'.mode = .check i → t'.requested = t.requested → R.task l k t'
  /-- The next group is read. -/
  passed : ∀ {l k t i seen}, R.other l k t (.judging k i seen) → seen.changed = false →
    seen.waiting = [] → R.other l k t (.checking k (i + 1))
  /-- The group is read again. -/
  again : ∀ {l k t i seen}, R.other l k t (.judging k i seen) → R.other l k t (.checking k i)
  /-- A function is found. -/
  calls : ∀ {l k t f scratch}, R.other l k t (.calling k) → s.registry.find? k = some f →
    R.other l k t (.invoking k f scratch)
  /-- A function begins to run. -/
  invokes : ∀ {l k t f scratch n}, R.other l k t (.invoking k f scratch) →
    R.other l k t (.running k (.start scratch) (f k n))
  /-- A function goes on. -/
  runs : ∀ {l l' k t inv recipe st}, R.other l k t (.running k inv recipe) →
    recipe.turn s l k inv = (l', st) → st.subject = some k → R.stage l' k t st
  /-- The result of an invocation counts. -/
  heeds : ∀ {l k t inv ending}, l.interrupted = false → R.other l k t (.returned k inv ending) →
    R.other l k t (.concluding k inv ending)
  /-- What was requested is noted. -/
  absorbs : ∀ {l k t t' inv ending}, R.task l k t → R.other l k t (.concluding k inv ending) →
    ending = .needsDeps ∨ (∃ v, ending = .value v) → t'.mode = t.mode →
      t'.requested = t.requested.pushAll inv.batches → R.task l k t'
  /-- An invocation is repeated. -/
  repeats : ∀ {l k t inv ending}, R.other l k t (.concluding k inv ending) →
    R.other l k t (.calling k)
  /-- A key completes. -/
  completes : ∀ {l k t inv ending o}, R.task l k t → R.other l k t (.concluding k inv ending) →
    Outcome.OfEnding k inv ending o →
      R.other l k t (.recording k (t.requested.pushAll inv.batches) o .idle)
  /-- A member of a cycle fails that was running its function. -/
  rebuilt : ∀ {l k t found members}, R.task l k t → t.mode = .rebuild →
    R.other l k t (.recording k t.requested (.failure (.ofCycles (Round.cyclesOf found k)))
      (.breaking found members))
  /-- A member of a cycle fails that was being checked. -/
  checked : ∀ {l k t found members}, R.task l k t →
    R.other l k t (.publishing k (.failure (.ofCycles (Round.cyclesOf found k)))
      (.breaking found members))
  /-- Dependencies are recorded. -/
  records : ∀ {l l' k t deps o after dropped added}, R.task l k t →
    R.other l k t (.recording k deps o after) →
      (∀ x, x ≠ k → (l'.graph.node x).memo = (l.graph.node x).memo) →
        (l'.graph.node k).memo = ({ l.graph.node k with deps := deps } : Node D).memo →
          l'.interrupted = l.interrupted →
            R.task l' k t ∧ R.other l' k t (.relinking k dropped added o after)
  /-- Dependencies are told. -/
  relinks : ∀ {l k t dropped dropped' added added' o after},
    R.other l k t (.relinking k dropped added o after) →
      R.other l k t (.relinking k dropped' added' o after)
  /-- All dependencies were told. -/
  linked : ∀ {l k t o after}, R.other l k t (.relinking k [] [] o after) →
    R.other l k t (.publishing k o after)

namespace Lawful

variable {R : Rule D} (hR : R.Lawful s)

include hR

theorem stage {t t' : Task D} (h : Spared l l' k) (hmode : t'.mode = t.mode)
    (hst : R.stage l k t st) : R.stage l' k t' st := by
  cases st with
  | reading _ _ _ | asking _ _ _ _ | looking _ _ _ _ => exact hR.read h hmode hst
  | touching _ next | announcing _ next | queueing _ next | sending _ next =>
      cases next with
      | reading _ _ _ => exact hR.read h hmode hst
      | signalling _ _ | opening _ => trivial
  | _ => exact hR.other h hmode hst

/-- A worker that goes on keeps the rule. -/
theorem step (hs : ∀ x, (l.entry x).Sound) (hstep : Advances s l st l' st')
    (hsparing : Sparing l st l') (hk : st.subject = some k) {b b' : Building D}
    (hb : (l.entry k).building = some b) (hb' : (l'.entry k).building = some b')
    (ht : R.task l k b.task) (hst : R.stage l k b.task st) :
    R.task l' k b'.task ∧ (st'.subject = some k → R.stage l' k b'.task st') := by
  have hquiet (hw : st.writes = none) (hd : st.decides = false)
      (h : st'.subject = some k → R.stage l k b.task st') :
      R.task l' k b'.task ∧ (st'.subject = some k → R.stage l' k b'.task st') := by
    obtain ⟨hmode, hrequested⟩ := hstep.steady hs hd hk hb hb'
    have hspared := hsparing.spared (k := k) (by simp [hw])
    exact ⟨hR.task hspared hmode (.inl hrequested) ht, fun hk' => hR.stage hspared hmode (h hk')⟩
  have hkeep (hw : st.writes = none) {t : Task D} (hl : l' = l.retask k t)
      (htask : R.task l k t) (h : st'.subject = some k → R.stage l k t st') :
      R.task l' k b'.task ∧ (st'.subject = some k → R.stage l' k b'.task st') := by
    have hspared := hsparing.spared (k := k) (by simp [hw])
    rw [hl, building_retask_self hb] at hb'
    obtain rfl := Option.some.inj hb'
    exact ⟨hR.task hspared rfl (.inl rfl) htask, fun hk' => hR.stage hspared rfl (h hk')⟩
  cases hstep with
  | passes hgroup =>
      obtain rfl := Option.some.inj hk
      exact hquiet rfl rfl fun _ => hR.passes hst (by rwa [Live.deps_graph])
  | regroups hgroup =>
      obtain rfl := Option.some.inj hk
      rw [← Live.deps_graph] at hgroup
      exact hquiet rfl rfl fun _ => Live.evaluatedAt_graph l _ ▸ hR.regroups hst hgroup
  | grouped =>
      obtain rfl := Option.some.inj hk
      exact hquiet rfl rfl fun _ => hR.grouped hst
  | answered =>
      obtain rfl := Option.some.inj hk
      exact hquiet rfl rfl fun _ => hR.answered hst
  | cutBatch hi => exact hquiet rfl rfl fun _ => hR.cut hi hst
  | @looks _ dep _ _ _ _ h =>
      have hread {o : Outcome D} (ho : (l.entry dep).node.settled? = some o) :=
        hR.shown hst (o := o) (by rwa [Live.node_graph, ← (hs dep).settled])
      cases h with
      | value ho => exact hquiet rfl rfl fun _ => Live.changedAt_graph l dep ▸ hread ho
      | failed ho => exact hquiet rfl rfl fun _ => Live.changedAt_graph l dep ▸ hread ho
      | pending enlisted _ _ => exact hquiet rfl rfl fun _ => hR.pending enlisted hst
      | begun enlisted _ _ => exact hquiet rfl rfl fun _ => hR.pending enlisted hst
  | judges h =>
      obtain rfl := Option.some.inj hk
      cases h with
      | gone hnone =>
          rw [hb] at hnone
          cases hnone
      | changed hb₁ hmode hrequested _ =>
          obtain rfl := Option.some.inj (hb.symm.trans hb₁)
          exact hkeep rfl rfl (hR.parked ht hst (.inl hmode) hrequested) fun hk' => by cases hk'
      | parked hb₁ hmode hrequested =>
          obtain rfl := Option.some.inj (hb.symm.trans hb₁)
          exact hkeep rfl rfl (hR.parked ht hst hmode hrequested) fun hk' => by cases hk'
      | passed hb₁ hchanged hwaiting hmode hrequested _ =>
          obtain rfl := Option.some.inj (hb.symm.trans hb₁)
          exact hkeep rfl rfl (hR.task ⟨rfl, fun _ _ => rfl, id⟩ hmode (.inl hrequested) ht)
            fun _ => hR.other ⟨rfl, fun _ _ => rfl, id⟩ hmode (hR.passed hst hchanged hwaiting)
      | again hb₁ hmode hrequested _ =>
          obtain rfl := Option.some.inj (hb.symm.trans hb₁)
          exact hkeep rfl rfl (hR.task ⟨rfl, fun _ _ => rfl, id⟩ hmode (.inl hrequested) ht)
            fun _ => hR.other ⟨rfl, fun _ _ => rfl, id⟩ hmode (hR.again hst)
  | calls hf =>
      obtain rfl := Option.some.inj hk
      exact hquiet rfl rfl fun _ => hR.calls hst hf
  | invokes =>
      obtain rfl := Option.some.inj hk
      exact hquiet rfl rfl fun _ => hR.invokes hst
  | runs h =>
      obtain rfl := Option.some.inj hk
      have hlive := Recipe.live_turn h
      have hbb : b' = b := by
        rw [hlive] at hb'
        exact Option.some.inj (hb'.symm.trans hb)
      rw [hbb]
      exact ⟨hR.task (hsparing.spared (by simp [Stage.writes])) rfl (.inl rfl) ht,
        fun hk' => hR.runs hst h hk'⟩
  | heeds hi =>
      obtain rfl := Option.some.inj hk
      exact hquiet rfl rfl fun _ => hR.heeds hi hst
  | concludes h =>
      obtain rfl := Option.some.inj hk
      cases h with
      | gone hnone =>
          rw [hb] at hnone
          cases hnone
      | crashed _ =>
          obtain rfl := Option.some.inj (hb'.symm.trans hb)
          exact ⟨ht, fun hk' => by cases hk'⟩
      | doomed a hb₁ hending hmode hrequested _ =>
          obtain rfl := Option.some.inj (hb.symm.trans hb₁)
          exact hkeep rfl rfl (hR.absorbs ht hst hending hmode hrequested) fun hk' => by cases hk'
      | waits hb₁ hending hmode hrequested =>
          obtain rfl := Option.some.inj (hb.symm.trans hb₁)
          exact hkeep rfl rfl (hR.absorbs ht hst (.inl hending) hmode hrequested)
            fun hk' => by cases hk'
      | again hb₁ hending hmode hrequested _ =>
          obtain rfl := Option.some.inj (hb.symm.trans hb₁)
          exact hkeep rfl rfl (hR.absorbs ht hst (.inl hending) hmode hrequested)
            fun _ => hR.other ⟨rfl, fun _ _ => rfl, id⟩ hmode (hR.repeats hst)
      | completes hb₁ ho hmode hrequested _ =>
          obtain rfl := Option.some.inj (hb.symm.trans hb₁)
          exact hkeep rfl rfl (hR.task ⟨rfl, fun _ _ => rfl, id⟩ hmode (.inr hrequested) ht)
            fun _ => hR.other ⟨rfl, fun _ _ => rfl, id⟩ hmode (hR.completes ht hst ho)
  | @records k deps o after =>
      obtain rfl := Option.some.inj hk
      have hothers (x : D.Key) (hx : x ≠ k) :
          ((l.put k { l.entry k with deps := deps }).graph.node x).memo =
            (l.graph.node x).memo :=
        hsparing.memo x fun hw => hx (Option.some.inj hw).symm
      have hbb : b' = b := by
        rw [Live.entry_put_self] at hb'
        exact Option.some.inj (hb'.symm.trans hb)
      rw [hbb]
      obtain ⟨htask, hother⟩ := hR.records ht hst hothers
        (by rw [Live.node_graph, Live.node_graph, Live.entry_put_self, Entry.base_deps]) rfl
      exact ⟨htask, fun _ => hother⟩
  | unlinks | links =>
      obtain rfl := Option.some.inj hk
      exact hquiet rfl rfl fun _ => hR.relinks hst
  | linked =>
      obtain rfl := Option.some.inj hk
      exact hquiet rfl rfl fun _ => hR.linked hst
  | publishes | fails | confirms =>
      obtain rfl := Option.some.inj hk
      rw [Live.entry_put_self] at hb'
      cases hb'
  | declines | sends => exact hquiet rfl rfl fun hk' => stage_next hst hk'
  | lacks _ | cutGroup _ | forgets _ => exact hquiet rfl rfl fun hk' => by cases hk'
  | rests _ | fetches _ | skips _ | admits | halts _ | proceeds _ | drops _ | rebuilds _ _
  | checks _ _ | slows | reports | signalled | signals _ | dooms | spreads | opened | opens
  | begins _ | passesBy _ | broke | breaks _ => cases hk
  | _ => exact hquiet rfl rfl fun _ => hst

/-- A worker that turns to a key obeys the rule. -/
theorem take (hstep : Advances s l st l' st') (hk : st.subject ≠ some k)
    (hk' : st'.subject = some k) {b b' : Building D} (hb : (l.entry k).building = some b)
    (hb' : (l'.entry k).building = some b') (ht : R.task l k b.task) :
    R.stage l' k b'.task st' := by
  cases hstep with
  | rebuilds hb₁ hmode =>
      obtain rfl := Option.some.inj hk'
      obtain rfl := Option.some.inj (hb'.symm.trans hb₁)
      obtain rfl := Option.some.inj (hb'.symm.trans hb)
      exact hR.rebuilds ht hmode
  | checks hb₁ hmode =>
      obtain rfl := Option.some.inj hk'
      obtain rfl := Option.some.inj (hb'.symm.trans hb₁)
      obtain rfl := Option.some.inj (hb'.symm.trans hb)
      exact hR.checks ht hmode
  | breaks h =>
      cases h with
      | gone _ => cases hk'
      | rebuilt hb₁ hrebuild hmode _ _ =>
          obtain rfl := Option.some.inj hk'
          obtain rfl := Option.some.inj (hb.symm.trans hb₁)
          rw [building_retask_self hb] at hb'
          obtain rfl := Option.some.inj hb'
          refine hR.other (l := l) ⟨?_, fun x _ => ?_, id⟩ hmode (hR.rebuilt ht hrebuild)
          · rw [Live.node_graph, Live.node_graph, Live.retask, Live.entry_put_self,
              Entry.base_retask]
          · rw [Live.node_graph, Live.node_graph, Live.retask, Live.entry_put]
            split
            · rename_i heq
              rw [Entry.base_retask, heq]
            · rfl
      | checked hb₁ =>
          obtain rfl := Option.some.inj hk'
          obtain rfl := Option.some.inj (hb'.symm.trans hb)
          exact hR.checked ht
  | looks h => cases h with | _ => exact absurd hk' hk
  | judges h =>
      cases h with
      | gone _ | parked _ _ _ | changed _ _ _ _ => cases hk'
      | _ => exact absurd hk' hk
  | @runs _ _ recipe _ _ h =>
      cases recipe with
      | crash payload =>
          obtain ⟨-, rfl⟩ := Prod.mk.inj h
          cases hk'
      | _ =>
          obtain ⟨-, rfl⟩ := Prod.mk.inj h
          exact absurd hk' hk
  | concludes h =>
      cases h with
      | again _ _ _ _ _ | completes _ _ _ _ _ => exact absurd hk' hk
      | _ => cases hk'
  | signalled =>
      rw [Stage.subject_after] at hk'
      cases hk'
  | signals h => cases h with | _ => cases hk'
  | declines | sends =>
      rw [Stage.subject_next] at hk'
      exact absurd hk' hk
  | rests _ | fetches _ | skips _ | admits | halts _ | proceeds _ | drops _ | cutGroup _ | lacks _
  | forgets _ | publishes | fails | confirms | slows | reports | dooms | spreads | opened | opens
  | begins _ | passesBy _ | broke => cases hk'
  | _ => exact absurd hk' hk

end Lawful

/-- All tasks and all workers obey the rule. -/
structure Obeyed (R : Rule D) (l : Live D) (ts : Multiset (Stage D)) : Prop where
  /-- The tasks. -/
  tasks : ∀ k b, (l.entry k).building = some b → R.task l k b.task
  /-- The workers. -/
  stages : ∀ st ∈ ts, ∀ k b, st.subject = some k → (l.entry k).building = some b →
    R.stage l k b.task st

/-- A key that nobody is in the middle of keeps its task, or is begun with one. -/
theorem Obeyed.task_of_nudged {R : Rule D} (hR : R.Lawful s) {ts : Multiset (Stage D)}
    (h : R.Obeyed l ts) (hspared : Spared l l' k) (hn : (l.entry k).Nudged (l'.entry k))
    {b' : Building D} (hb' : (l'.entry k).building = some b') : R.task l' k b'.task := by
  cases hb : (l.entry k).building with
  | some b =>
      obtain ⟨b₁, hb₁, -, hmode, hrequested, -⟩ := hn.kept b hb
      obtain rfl := Option.some.inj (hb₁.symm.trans hb')
      exact hR.task hspared hmode hrequested (h.tasks k b hb)
  | none =>
      obtain ⟨-, -, hmode, hrequested, -⟩ := hn.begun hb b' hb'
      refine hR.begun ?_ hrequested
      have hstatus := (Node.memo_eq_iff.mp hspared.own).1
      rw [hstatus, Live.node_graph]
      exact hmode

theorem Obeyed.step {R : Rule D} (hR : R.Lawful s) {others : Multiset (Stage D)}
    (h : R.Obeyed l (st ::ₘ others)) (howned : Owned l (st ::ₘ others)) (ho : Orderly st others)
    (hstep : Advances s l st l' st') : R.Obeyed l' (st' ::ₘ others) := by
  have hsparing := howned.sparing hstep
  have hself := Multiset.mem_cons_self st others
  have hspared {k : D.Key} (hk : st.subject ≠ some k) : Spared l l' k :=
    hsparing.spared fun hw => hk (Stage.subject_of_writes hw)
  have hmine {k : D.Key} (hk : st.subject = some k) {b' : Building D}
      (hb' : (l'.entry k).building = some b') :
      R.task l' k b'.task ∧ (st'.subject = some k → R.stage l' k b'.task st') := by
    obtain ⟨b, hb⟩ := howned.building st hself k hk
    exact hR.step howned.sound hstep hsparing hk hb hb' (h.tasks k b hb)
      (h.stages st hself k b hk hb)
  refine ⟨fun k b' hb' => ?_, fun other hmem k b' hk hb' => ?_⟩
  · by_cases hk : st.subject = some k
    · exact (hmine hk hb').1
    · exact h.task_of_nudged hR (hspared hk) (nudged_step howned.sound hstep hk) hb'
  · rcases Multiset.mem_cons.mp hmem with rfl | hmem
    · by_cases hk' : st.subject = some k
      · exact (hmine hk' hb').2 hk
      · obtain ⟨b, hb, -⟩ := hstep.takes hk' hk
        exact hR.take hstep hk' hk hb hb' (h.tasks k b hb)
    · have hne : st.subject ≠ some k := fun hst => howned.unique ho hst hmem hk
      obtain ⟨b, hb⟩ := howned.building other (Multiset.mem_cons_of_mem hmem) k hk
      obtain ⟨b₁, hb₁, -, hmode, -⟩ := (nudged_step howned.sound hstep hne).kept b hb
      obtain rfl := Option.some.inj (hb₁.symm.trans hb')
      exact hR.stage (hspared hne) hmode
        (h.stages other (Multiset.mem_cons_of_mem hmem) k b hk hb)

/-- Up to its end a round obeys every lawful rule. -/
theorem Obeyed.of_reaches {R : Rule D} (hR : R.Lawful s) {graph : Graph D}
    {calls : Table D.Key Nat} {workers : Nat} {c : Crew D}
    (h : Crew.Reaches s (.start s graph calls workers) c) (hnot : ¬ c.IsOver) :
    R.Obeyed c.live c.stages := by
  refine Crew.course_induction (P := R.Obeyed) ?_ ?_ ?_ ?_ h hnot
  · refine ⟨fun k b hb => ?_, fun st hst k b hk _ => ?_⟩
    · rw [Live.entry, Crew.start, Store.entry_ofGraph] at hb
      cases hb
    · rcases Multiset.mem_cons.mp hst with rfl | hst
      · cases hk
      · rw [Multiset.eq_of_mem_replicate hst] at hk
        cases hk
  · intro c st st' others l' hr hnot hstages ho hstep ih
    have howned := Owned.of_reaches hr hnot
    rw [hstages] at howned
    exact ih.step hR howned ho hstep
  · intro l ts stop hstop ih
    have hspared (k : D.Key) : Spared l { l with interrupted := stop } k := by
      refine ⟨rfl, fun _ _ => rfl, fun hi => ?_⟩
      cases hold : l.interrupted with
      | false => rfl
      | true =>
          rw [hstop hold] at hi
          cases hi
    exact ⟨fun k b hb => hR.task (hspared k) rfl (.inl rfl) (ih.tasks k b hb),
      fun st hst k b hk hb => hR.stage (hspared k) rfl (ih.stages st hst k b hk hb)⟩
  · intro l others found members _ ih
    refine ⟨ih.tasks, fun st hst k b hk hb => ?_⟩
    rcases Multiset.mem_cons.mp hst with rfl | hst
    · cases hk
    · exact ih.stages st (Multiset.mem_cons_of_mem hst) k b hk hb

end Rule

end MemoGraph
