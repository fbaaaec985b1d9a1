import Mathlib.Data.List.Basic
import MemoGraph.Proofs.Crew.Entries

/-!
# What a step of a worker can do

A worker that is in the middle of a key is the only one that may complete it, record its
dependencies or decide how it is brought up to date: that key is the *subject* of the worker.  To
every other key a step does little: it may bring it under evaluation, enter a waiter, send a signal
or change a reader.  This little is called a nudge, and it is what a worker has to reckon with from
all the others.  The steps with several outcomes are taken apart here once, with named cases.
-/

set_option autoImplicit false

namespace MemoGraph

variable {D : Domain}

/-! ## The subject of a worker -/

/-- Whether a worker goes on breaking cycles, which only the lead does. -/
def After.leads : After D → Bool
  | .idle => false
  | .breaking _ _ => true

/-- The key that a worker is in the middle of while it queues another one. -/
def Next.subject : Next D → Option D.Key
  | .reading k _ _ => some k
  | .signalling _ _ | .opening _ => none

namespace Stage

/-- The key that a worker is in the middle of, up to its completion. -/
def subject : Stage D → Option D.Key
  | .checking k _ | .reading k _ _ | .asking k _ _ _ | .looking k _ _ _ | .judging k _ _
  | .calling k | .invoking k _ _ | .running k _ _ | .returned k _ _ | .concluding k _ _
  | .recording k _ _ _ | .relinking k _ _ _ _ | .publishing k _ _ | .confirming k => some k
  | .touching _ next | .announcing _ next | .queueing _ next | .sending _ next => next.subject
  | _ => none

/-- A key on its way into or out of the queue. -/
def carried : Stage D → Option D.Key
  | .fetched k | .admitted k | .processing k => some k
  | .touching k _ | .announcing k _ | .queueing k _ | .sending k _ => some k
  | _ => none

/-- Whether the worker is the lead, in the middle of a member of a cycle. -/
def leads : Stage D → Bool
  | .recording _ _ _ after | .relinking _ _ _ _ after | .publishing _ _ after => after.leads
  | _ => false

@[simp] theorem subject_after (after : After D) : after.stage.subject = none := by
  cases after with
  | idle => rfl
  | breaking found members => rfl

@[simp] theorem subject_next (next : Next D) : next.stage.subject = next.subject := by
  cases next with
  | reading k reader rest => rfl
  | signalling waiters after => rfl
  | opening roots => rfl

end Stage

/-! ## Nudges -/

namespace Entry

/-- What a worker does to a key that is not its subject. -/
structure Nudged (e e' : Entry D) : Prop where
  /-- What is stored stays, readers apart. -/
  memo : e'.base.memo = e.base.memo
  /-- A key under evaluation stays so, and nobody meddles with how. -/
  kept : ∀ b, e.building = some b → ∃ b', e'.building = some b' ∧ b'.prior = b.prior ∧
    b'.task.mode = b.task.mode ∧
    (b'.task.requested = b.task.requested ∨ b'.task.requested = ∅) ∧
    (b.task.active = true → b'.task.active = true)
  /-- A key that comes under evaluation was not complete. -/
  begun : e.building = none → ∀ b', e'.building = some b' → e.base.isComplete = false ∧
    b'.prior = e.base.status ∧ b'.task.mode = (Task.start e.base.status : Task D).mode ∧
    b'.task.requested = ∅ ∧ b'.task.active = true

namespace Nudged

variable {e : Entry D}

theorem refl (e : Entry D) : e.Nudged e where
  memo := rfl
  kept b hb := ⟨b, hb, rfl, rfl, .inl rfl, id⟩
  begun hnone b' hb' := by
    rw [hnone] at hb'
    cases hb'

/-- Changing a task in what others may change. -/
theorem retask {f : Task D → Task D}
    (hf : ∀ b, e.building = some b → (f b.task).mode = b.task.mode ∧
      ((f b.task).requested = b.task.requested ∨ (f b.task).requested = ∅) ∧
      (b.task.active = true → (f b.task).active = true)) : e.Nudged (e.retask f) where
  memo := by rw [base_retask]
  kept b hb := by
    obtain ⟨hmode, hrequested, hactive⟩ := hf b hb
    exact ⟨{ b with task := f b.task }, by rw [building_retask, hb]; rfl, rfl, hmode, hrequested,
      hactive⟩
  begun hnone b' hb' := by
    rw [building_retask, hnone] at hb'
    cases hb'

/-- Asking for a key: it may come under evaluation, and the reader waits for it. -/
theorem ask (hs : e.Sound) (reader : D.Key) : e.Nudged (e.begin.await reader).2 := by
  have hwait (e' : Entry D) : e'.Nudged (e'.await reader).2 := by
    rcases await_cases e' reader with h | h
    · rw [h]
      exact refl e'
    · rw [h]
      exact retask fun b _ => ⟨rfl, .inl rfl, id⟩
  rcases begin_cases e with ⟨-, hb⟩ | ⟨status, -, hstatus, hphase, hb⟩
  · rw [hb]
    exact hwait e
  · obtain ⟨hmemo, hkept, -⟩ := hwait e.begin
    have hnone : e.building = none := by
      rcases hs.cases with ⟨-, -, hnone⟩ | ⟨-, hphase', -, -⟩
      · exact hnone
      · rw [hphase] at hphase'
        cases hphase'
    have hbase : e.base.status = status := by
      rw [base_of_resting hnone, node, Entry.status, hphase]
    refine ⟨hmemo.trans (congrArg Node.memo hs.base_begin), fun b hbuilding => ?_,
      fun _ b' hb' => ?_⟩
    · rw [hnone] at hbuilding
      cases hbuilding
    · have hbegun : e.begin.building = some ⟨status, .start status⟩ := by rw [hb]
      obtain ⟨b'', hb'', hprior, hmode, hrequested, hactive⟩ := hkept _ hbegun
      obtain rfl := Option.some.inj (hb''.symm.trans hb')
      rw [hbase]
      refine ⟨?_, hprior, hmode, hrequested.elim id id, hactive rfl⟩
      rw [Node.isComplete, hbase, decide_eq_false hstatus]

/-- Bringing a key under evaluation without waiting for it. -/
theorem begin (hs : e.Sound) : e.Nudged e.begin := by
  rcases begin_cases e with ⟨-, hb⟩ | ⟨status, -, hstatus, hphase, hb⟩
  · rw [hb]
    exact refl e
  · have hnone : e.building = none := by
      rcases hs.cases with ⟨-, -, hnone⟩ | ⟨-, hphase', -, -⟩
      · exact hnone
      · rw [hphase] at hphase'
        cases hphase'
    have hbase : e.base.status = status := by
      rw [base_of_resting hnone, node, Entry.status, hphase]
    refine ⟨congrArg Node.memo hs.base_begin, fun b hbuilding => ?_, fun _ b' hb' => ?_⟩
    · rw [hnone] at hbuilding
      cases hbuilding
    · rw [hb] at hb'
      obtain rfl := Option.some.inj hb'
      rw [hbase]
      refine ⟨?_, rfl, rfl, rfl, rfl⟩
      rw [Node.isComplete, hbase, decide_eq_false hstatus]

/-- Changing the readers. -/
theorem relink (e : Entry D) (rdeps : OrderedSet D.Key) : e.Nudged { e with rdeps := rdeps } where
  memo := by
    unfold base abandon
    cases e.building with
    | none => rfl
    | some b => rfl
  kept b hb := ⟨b, hb, rfl, rfl, .inl rfl, id⟩
  begun hnone b' hb' := by
    have hb'' : e.building = some b' := hb'
    rw [hnone] at hb''
    cases hb''

/-- What is complete stays so, and does not come under evaluation. -/
theorem building_of_complete {e' : Entry D} (h : e.Nudged e') (hb : e.building = none)
    (hc : e.base.isComplete = true) : e'.building = none := by
  cases hb' : e'.building with
  | none => rfl
  | some b' =>
      rw [(h.begun hb b' hb').1] at hc
      cases hc

end Nudged

end Entry

/-! ## Steps with several outcomes -/

theorem Entry.task?_eq_none_iff {e : Entry D} : e.task? = none ↔ e.building = none := by
  rw [Entry.task?, Option.map_eq_none_iff]

theorem Entry.task?_eq_some_iff {e : Entry D} {t : Task D} :
    e.task? = some t ↔ ∃ b, e.building = some b ∧ b.task = t := by
  rw [Entry.task?, Option.map_eq_some_iff]

section Cases

variable {l : Live D} {k : D.Key}

/-- The entries after the round keeps something else for a key. -/
def Live.retask (l : Live D) (k : D.Key) (t : Task D) : Live D :=
  l.put k ((l.entry k).retask fun _ => t)

/-- How a worker goes on after it locked the entry of a dependency. -/
inductive Looked (l : Live D) (k : D.Key) (reader : Reader D) (dep : D.Key) (rest : List D.Key) :
    Live D × Stage D → Prop where
  /-- there is a value -/
  | value {v : D.Value} : (l.entry dep).node.settled? = some (.value v) →
      Looked l k reader dep rest
        (l, .reading k (reader.note dep (.value v (l.entry dep).changedAt)) rest)
  /-- there is a failure -/
  | failed {f : Failure D.Key D.Fault} : (l.entry dep).node.settled? = some (.failure f) →
      Looked l k reader dep rest
        (l, .reading k (reader.note dep (.failed f (l.entry dep).changedAt)) rest)
  /-- the key is under evaluation -/
  | pending (enlisted : Bool) : (l.entry dep).node.settled? = none →
      (l.entry dep).begins = false →
      Looked l k reader dep rest (l.put dep ((l.entry dep).begin.await k).2,
        .reading k (reader.note dep (.pending enlisted)) rest)
  /-- the key comes under evaluation -/
  | begun (enlisted : Bool) : (l.entry dep).node.settled? = none → (l.entry dep).begins = true →
      Looked l k reader dep rest (l.put dep ((l.entry dep).begin.await k).2,
        .touching dep (.reading k (reader.note dep (.pending enlisted)) rest))

theorem looked (l : Live D) (k : D.Key) (reader : Reader D) (dep : D.Key) (rest : List D.Key) :
    Looked l k reader dep rest (l.look k reader dep rest) := by
  simp only [Live.look]
  split
  · exact .value ‹_›
  · exact .failed ‹_›
  · cases hb : (l.entry dep).begins with
    | true => exact .begun _ ‹_› hb
    | false => exact .pending _ ‹_› hb

/-- How a worker goes on after it read a recorded group. -/
inductive Judged (l : Live D) (k : D.Key) (i : Nat) (seen : GroupReading D.Key) :
    Live D × Stage D → Prop where
  /-- the key is not under evaluation any more -/
  | gone : (l.entry k).building = none → Judged l k i seen (l, .idle)
  /-- something changed, and the key can go on at once -/
  | changed {b : Building D} {t : Task D} : (l.entry k).building = some b →
      t.mode = .rebuild → t.requested = b.task.requested → t.active = b.task.active →
      Judged l k i seen (l.retask k t, .processing k)
  /-- the key has to wait -/
  | parked {b : Building D} {t : Task D} : (l.entry k).building = some b →
      t.mode = .rebuild ∨ t.mode = .check i → t.requested = b.task.requested →
      Judged l k i seen (l.retask k t, .idle)
  /-- the group is complete and did not change -/
  | passed {b : Building D} {t : Task D} : (l.entry k).building = some b →
      seen.changed = false → seen.waiting = [] →
      t.mode = b.task.mode → t.requested = b.task.requested → t.active = b.task.active →
      Judged l k i seen (l.retask k t, .checking k (i + 1))
  /-- everything that was missing completed meanwhile -/
  | again {b : Building D} {t : Task D} : (l.entry k).building = some b →
      t.mode = b.task.mode → t.requested = b.task.requested → t.active = b.task.active →
      Judged l k i seen (l.retask k t, .checking k i)

theorem judged (l : Live D) (k : D.Key) (i : Nat) (seen : GroupReading D.Key) :
    Judged l k i seen (l.judge k i seen) := by
  cases ht : (l.entry k).task? with
  | none =>
      simp only [Live.judge, ht]
      exact .gone (Entry.task?_eq_none_iff.mp ht)
  | some t =>
      obtain ⟨b, hb, rfl⟩ := Entry.task?_eq_some_iff.mp ht
      simp only [Live.judge, ht]
      split
      · split
        · exact .changed hb rfl rfl rfl
        · exact .parked hb (.inl rfl) rfl
      · split
        · rename_i hchanged hwaiting
          exact .passed hb (by simpa using hchanged) (List.isEmpty_iff.mp hwaiting) rfl rfl rfl
        · split
          · exact .again hb rfl rfl rfl
          · exact .parked hb (.inr rfl) rfl

/-- The outcome of an invocation that ends its key. -/
inductive Outcome.OfEnding (k : D.Key) (inv : Invocation D) : Ending D → Outcome D → Prop where
  /-- a value, if nothing was missing -/
  | value {v : D.Value} : inv.missing = false → OfEnding k inv (.value v) (.value v)
  /-- a declared fault -/
  | fault {e : D.Fault} : OfEnding k inv (.fault e) (.failure (Round.declaredFailure k e inv))
  /-- the failures of dependencies -/
  | blocked : OfEnding k inv .needsDeps (.failure (.ofChildren k inv.failedReads))

/-- How a worker goes on after an invocation. -/
inductive Concluded (l : Live D) (k : D.Key) (inv : Invocation D) (ending : Ending D) :
    Live D × Stage D → Prop where
  /-- the key is not under evaluation any more -/
  | gone : (l.entry k).building = none → Concluded l k inv ending (l, .idle)
  /-- the function broke off -/
  | crashed {payload : Payload} : ending = .crash payload →
      Concluded l k inv ending (l, .dooming (.crashed k payload))
  /-- the function broke the rules -/
  | doomed {b : Building D} {t : Task D} (a : Abort D.Key) : (l.entry k).building = some b →
      ending = .needsDeps ∨ (∃ v, ending = .value v) →
      t.mode = b.task.mode → t.requested = b.task.requested.pushAll inv.batches →
      t.active = b.task.active → Concluded l k inv ending (l.retask k t, .dooming a)
  /-- the key has to wait -/
  | waits {b : Building D} {t : Task D} : (l.entry k).building = some b → ending = .needsDeps →
      t.mode = b.task.mode → t.requested = b.task.requested.pushAll inv.batches →
      Concluded l k inv ending (l.retask k t, .idle)
  /-- everything that was missing completed meanwhile -/
  | again {b : Building D} {t : Task D} : (l.entry k).building = some b → ending = .needsDeps →
      t.mode = b.task.mode → t.requested = b.task.requested.pushAll inv.batches →
      t.active = b.task.active → Concluded l k inv ending (l.retask k t, .calling k)
  /-- the key completes -/
  | completes {b : Building D} {t : Task D} {o : Outcome D} : (l.entry k).building = some b →
      Outcome.OfEnding k inv ending o → t.mode = b.task.mode → t.requested = ∅ →
      t.active = b.task.active →
      Concluded l k inv ending
        (l.retask k t, .recording k (b.task.requested.pushAll inv.batches) o .idle)

theorem concluded (l : Live D) (k : D.Key) (inv : Invocation D) (ending : Ending D) :
    Concluded l k inv ending (l.conclude k inv ending) := by
  cases ht : (l.entry k).task? with
  | none =>
      simp only [Live.conclude, ht]
      exact .gone (Entry.task?_eq_none_iff.mp ht)
  | some t =>
      obtain ⟨b, hb, rfl⟩ := Entry.task?_eq_some_iff.mp ht
      cases ending with
      | crash payload =>
          simp only [Live.conclude, ht]
          exact .crashed rfl
      | fault fault =>
          simp only [Live.conclude, ht]
          exact .completes hb .fault rfl rfl rfl
      | value v =>
          simp only [Live.conclude, ht]
          split
          · exact .doomed _ hb (.inr ⟨v, rfl⟩) rfl rfl rfl
          · rename_i hmissing
            exact .completes hb (.value (by simpa using hmissing)) rfl rfl rfl
      | needsDeps =>
          simp only [Live.conclude, ht]
          split
          · simp only [Live.concludeWaiting]
            split
            · exact .waits hb rfl rfl rfl
            · split
              · exact .again hb rfl rfl rfl rfl
              · split
                · exact .doomed _ hb (.inl rfl) rfl rfl rfl
                · exact .completes hb .blocked rfl rfl rfl
          · exact .doomed _ hb (.inl rfl) rfl rfl rfl

/-- How a worker goes on after it signalled a waiter. -/
inductive Signalled (l : Live D) (k : D.Key) (rest : List D.Key) (after : After D) :
    Live D × Stage D → Prop where
  /-- the key is not under evaluation any more -/
  | gone : (l.entry k).building = none → Signalled l k rest after (l, .signalling rest after)
  /-- more signals are to come, or the key is at work -/
  | counted {b : Building D} {t : Task D} : (l.entry k).building = some b →
      t.mode = b.task.mode → t.requested = b.task.requested → t.active = b.task.active →
      Signalled l k rest after (l.retask k t, .signalling rest after)
  /-- the key can go on -/
  | woken {b : Building D} {t : Task D} : (l.entry k).building = some b →
      t.mode = b.task.mode → t.requested = b.task.requested → b.task.active = false →
      t.active = true →
      Signalled l k rest after (l.retask k t, .queueing k (.signalling rest after))

theorem signalled (l : Live D) (k : D.Key) (rest : List D.Key) (after : After D) :
    Signalled l k rest after (l.signal k rest after) := by
  cases ht : (l.entry k).task? with
  | none =>
      simp only [Live.signal, ht]
      exact .gone (Entry.task?_eq_none_iff.mp ht)
  | some t =>
      obtain ⟨b, hb, rfl⟩ := Entry.task?_eq_some_iff.mp ht
      simp only [Live.signal, ht]
      split
      · rename_i h
        exact .woken hb rfl rfl h.2 rfl
      · exact .counted hb rfl rfl rfl

/-- How the lead goes on with a member of a cycle. -/
inductive MemberFailed (l : Live D) (found : List (Cycle D.Key)) (k : D.Key)
    (members : List D.Key) : Live D × Stage D → Prop where
  /-- the key is not under evaluation any more -/
  | gone : (l.entry k).building = none → MemberFailed l found k members (l, .breaking found members)
  /-- it was running its function -/
  | rebuilt {b : Building D} {t : Task D} : (l.entry k).building = some b →
      b.task.mode = .rebuild → t.mode = b.task.mode → t.requested = ∅ →
      t.active = b.task.active →
      MemberFailed l found k members (l.retask k t,
        .recording k b.task.requested (.failure (.ofCycles (Round.cyclesOf found k)))
          (.breaking found members))
  /-- it was being checked -/
  | checked {b : Building D} : (l.entry k).building = some b →
      MemberFailed l found k members (l,
        .publishing k (.failure (.ofCycles (Round.cyclesOf found k))) (.breaking found members))

theorem memberFailed (l : Live D) (found : List (Cycle D.Key)) (k : D.Key)
    (members : List D.Key) : MemberFailed l found k members (l.failMember found k members) := by
  cases ht : (l.entry k).task? with
  | none =>
      simp only [Live.failMember, ht]
      exact .gone (Entry.task?_eq_none_iff.mp ht)
  | some t =>
      obtain ⟨b, hb, rfl⟩ := Entry.task?_eq_some_iff.mp ht
      simp only [Live.failMember, ht]
      split
      · rename_i hmode
        have hretask : (l.entry k).retask (fun t => { t with requested := ∅ }) =
            (l.entry k).retask fun _ => { b.task with requested := ∅ } := by
          simp only [Entry.retask, hb, Option.map_some]
        rw [hretask]
        exact .rebuilt (t := { b.task with requested := ∅ }) hb hmode rfl rfl rfl
      · exact .checked hb

end Cases

/-! ## All steps -/

/-- What a worker can do next, from a stage to a stage. -/
inductive Advances (s : Setting D) (l : Live D) : Stage D → Live D → Stage D → Prop where
  /-- the queue is empty -/
  | rests : l.queue = [] → Advances s l .idle l .idle
  /-- a key is taken from the queue -/
  | fetches {k : D.Key} {rest : List D.Key} : l.queue = k :: rest →
      Advances s l .idle { l with queue := rest } (.fetched k)
  /-- the round was given up -/
  | skips {k : D.Key} : l.failed = true → Advances s l (.fetched k) l .idle
  /-- it was not -/
  | admits {k : D.Key} : Advances s l (.fetched k) l (.admitted k)
  /-- the round is to stop -/
  | halts {k : D.Key} : l.interrupted = true → Advances s l (.admitted k) l .idle
  /-- it is not -/
  | proceeds {k : D.Key} : l.interrupted = false → Advances s l (.admitted k) l (.processing k)
  /-- the key is not under evaluation any more -/
  | drops {k : D.Key} : (l.entry k).building = none → Advances s l (.processing k) l .idle
  /-- the function is to run -/
  | rebuilds {k : D.Key} {b : Building D} : (l.entry k).building = some b →
      b.task.mode = .rebuild → Advances s l (.processing k) l (.calling k)
  /-- the recorded groups are to be read -/
  | checks {k : D.Key} {b : Building D} {i : Nat} : (l.entry k).building = some b →
      b.task.mode = .check i → Advances s l (.processing k) l (.checking k i)
  /-- all groups were read -/
  | passes {k : D.Key} {i : Nat} : (l.entry k).deps.group? i = none →
      Advances s l (.checking k i) l (.confirming k)
  /-- a group is read -/
  | regroups {k : D.Key} {i : Nat} {group : List D.Key} :
      (l.entry k).deps.group? i = some group →
      Advances s l (.checking k i) l (.reading k (.group i (l.entry k).evaluatedAt .start) group)
  /-- the group is read -/
  | grouped {k : D.Key} {i : Nat} {since : Version} {seen : GroupReading D.Key} :
      Advances s l (.reading k (.group i since seen) []) l (.judging k i seen)
  /-- the batch is read -/
  | answered {k : D.Key} {inv : Invocation D} {accepts : D.Fault → Bool}
      {answers : List (D.Key × Answer D)} {next : Table D.Key (Answer D) → Recipe D} :
      Advances s l (.reading k (.batch inv accepts answers next) []) l
        (.running k inv (next (.ofList answers)))
  /-- a check is broken off -/
  | cutGroup {k dep : D.Key} {rest : List D.Key} {i : Nat} {since : Version}
      {seen : GroupReading D.Key} : l.interrupted = true →
      Advances s l (.reading k (.group i since seen) (dep :: rest)) l .idle
  /-- an invocation finds no value -/
  | cutBatch {k dep : D.Key} {rest : List D.Key} {inv : Invocation D} {accepts : D.Fault → Bool}
      {answers : List (D.Key × Answer D)} {next : Table D.Key (Answer D) → Recipe D} :
      l.interrupted = true →
      Advances s l (.reading k (.batch inv accepts answers next) (dep :: rest)) l
        (.reading k ((Reader.batch inv accepts answers next).note dep .interrupted) rest)
  /-- the next key is read -/
  | asks {k dep : D.Key} {rest : List D.Key} {reader : Reader D} : l.interrupted = false →
      Advances s l (.reading k reader (dep :: rest)) l (.asking k reader dep rest)
  /-- its entry is found or made -/
  | creates {k dep : D.Key} {rest : List D.Key} {reader : Reader D} :
      Advances s l (.asking k reader dep rest) { l with store := l.store.create dep }
        (.looking k reader dep rest)
  /-- its entry is locked -/
  | looks {k dep : D.Key} {rest : List D.Key} {reader : Reader D} {l' : Live D} {st : Stage D} :
      Looked l k reader dep rest (l', st) → Advances s l (.looking k reader dep rest) l' st
  /-- a group is judged -/
  | judges {k : D.Key} {i : Nat} {seen : GroupReading D.Key} {l' : Live D} {st : Stage D} :
      Judged l k i seen (l', st) → Advances s l (.judging k i seen) l' st
  /-- there is no function -/
  | lacks {k : D.Key} : s.registry.find? k = none →
      Advances s l (.calling k) l (.dooming (.missingFunction k))
  /-- the function is called -/
  | calls {k : D.Key} {f : Function D} : s.registry.find? k = some f →
      Advances s l (.calling k)
        (l.put k ((l.entry k).retask fun t => { t with scratch := none }))
        (.invoking k f ((l.entry k).task?.bind Task.scratch))
  /-- the function begins to run -/
  | invokes {k : D.Key} {f : Function D} {scratch : Option (Scratch D)} :
      Advances s l (.invoking k f scratch)
        (({ l with calls := l.calls.insert k ((l.calls.get? k).getD 0 + 1) } : Live D).record s
          (.called k))
        (.running k (.start scratch) (f k ((l.calls.get? k).getD 0 + 1)))
  /-- the function goes on -/
  | runs {k : D.Key} {inv : Invocation D} {recipe : Recipe D} {l' : Live D} {st : Stage D} :
      recipe.turn s l k inv = (l', st) → Advances s l (.running k inv recipe) l' st
  /-- the round is to stop after an invocation -/
  | forgets {k : D.Key} {inv : Invocation D} {ending : Ending D} : l.interrupted = true →
      Advances s l (.returned k inv ending) l .idle
  /-- it is not -/
  | heeds {k : D.Key} {inv : Invocation D} {ending : Ending D} : l.interrupted = false →
      Advances s l (.returned k inv ending) l (.concluding k inv ending)
  /-- an invocation has a consequence -/
  | concludes {k : D.Key} {inv : Invocation D} {ending : Ending D} {l' : Live D} {st : Stage D} :
      Concluded l k inv ending (l', st) → Advances s l (.concluding k inv ending) l' st
  /-- dependencies are recorded -/
  | records {k : D.Key} {deps : DepGroups D.Key} {o : Outcome D} {after : After D} :
      Advances s l (.recording k deps o after) (l.put k { l.entry k with deps := deps })
        (.relinking k ((l.entry k).deps.keys.filter fun dep => !deps.contains dep) deps.keys o
          after)
  /-- a reader is erased -/
  | unlinks {k dep : D.Key} {dropped added : List D.Key} {o : Outcome D} {after : After D} :
      Advances s l (.relinking k (dep :: dropped) added o after)
        { l with store := l.store.adjust dep fun e => { e with rdeps := e.rdeps.erase k } }
        (.relinking k dropped added o after)
  /-- a reader is entered -/
  | links {k dep : D.Key} {added : List D.Key} {o : Outcome D} {after : After D} :
      Advances s l (.relinking k [] (dep :: added) o after)
        { l with store := l.store.update dep fun e => { e with rdeps := e.rdeps.insert k } }
        (.relinking k [] added o after)
  /-- all dependencies were told -/
  | linked {k : D.Key} {o : Outcome D} {after : After D} :
      Advances s l (.relinking k [] [] o after) l (.publishing k o after)
  /-- an outcome is published -/
  | publishes {k : D.Key} {o : Outcome D} {after : After D} :
      Advances s l (.publishing k o after) (l.put k ((l.entry k).publish o s.version))
        (.reporting k (Live.completion (l.entry k) o) (l.entry k).waiters after)
  /-- the first failure is published -/
  | fails {k : D.Key} {e : Failure D.Key D.Fault} {after : After D} :
      Advances s l (.publishing k (.failure e) after)
        (l.put k ((l.entry k).publish (.failure e) s.version))
        (.slowing k (l.entry k).waiters after)
  /-- a key is confirmed -/
  | confirms {k : D.Key} :
      Advances s l (.confirming k) (l.put k ((l.entry k).confirm s.version))
        (.reporting k .clean (l.entry k).waiters .idle)
  /-- nothing more is queued -/
  | slows {k : D.Key} {waiters : List D.Key} {after : After D} :
      Advances s l (.slowing k waiters after) { l with stopping := true }
        (.reporting k .failed waiters after)
  /-- a completion is reported -/
  | reports {k : D.Key} {how : Completion} {waiters : List D.Key} {after : After D} :
      Advances s l (.reporting k how waiters after) (l.record s (.completed k how))
        (.signalling waiters after)
  /-- all waiters were signalled -/
  | signalled {after : After D} : Advances s l (.signalling [] after) l after.stage
  /-- a waiter is signalled -/
  | signals {waiter : D.Key} {rest : List D.Key} {after : After D} {l' : Live D} {st : Stage D} :
      Signalled l waiter rest after (l', st) →
      Advances s l (.signalling (waiter :: rest) after) l' st
  /-- a key is noted as touched -/
  | touches {k : D.Key} {next : Next D} :
      Advances s l (.touching k next) { l with touched := l.touched.insert k }
        (.announcing k next)
  /-- a key is announced -/
  | announces {k : D.Key} {next : Next D} :
      Advances s l (.announcing k next) (l.record s (.enqueued k)) (.queueing k next)
  /-- nothing is queued any more -/
  | declines {k : D.Key} {next : Next D} : Advances s l (.queueing k next) l next.stage
  /-- the key is to be queued -/
  | queues {k : D.Key} {next : Next D} : Advances s l (.queueing k next) l (.sending k next)
  /-- the key is queued -/
  | sends {k : D.Key} {next : Next D} :
      Advances s l (.sending k next) { l with queue := l.queue ++ [k] } next.stage
  /-- the round is given up -/
  | dooms {a : Abort D.Key} :
      Advances s l (.dooming a) { l with fatal := l.fatal <|> some a } .failing
  /-- the others are told -/
  | spreads : Advances s l .failing { l with failed := true } .idle
  /-- all roots are under way -/
  | opened : Advances s l (.opening []) l .idle
  /-- the entry of a root is found or made -/
  | opens {root : D.Key} {roots : List D.Key} :
      Advances s l (.opening (root :: roots)) { l with store := l.store.create root }
        (.rooting root roots)
  /-- a root comes under evaluation -/
  | begins {root : D.Key} {roots : List D.Key} : (l.entry root).begins = true →
      Advances s l (.rooting root roots) (l.put root (l.entry root).begin)
        (.touching root (.opening roots))
  /-- a root is complete or under evaluation -/
  | passesBy {root : D.Key} {roots : List D.Key} : (l.entry root).begins = false →
      Advances s l (.rooting root roots) (l.put root (l.entry root).begin) (.opening roots)
  /-- all members have failed -/
  | broke {found : List (Cycle D.Key)} : Advances s l (.breaking found []) l .idle
  /-- a member fails -/
  | breaks {found : List (Cycle D.Key)} {k : D.Key} {members : List D.Key} {l' : Live D}
      {st : Stage D} : MemberFailed l found k members (l', st) →
      Advances s l (.breaking found (k :: members)) l' st

theorem advances (s : Setting D) (l : Live D) (st : Stage D) :
    Advances s l st (st.step s l).1 (st.step s l).2 := by
  cases st with
  | idle =>
      cases hq : l.queue with
      | nil =>
          simp only [Stage.step, hq]
          exact .rests hq
      | cons k rest =>
          simp only [Stage.step, hq]
          exact .fetches hq
  | fetched k =>
      cases hf : l.failed with
      | true =>
          simp only [Stage.step, hf]
          exact .skips hf
      | false =>
          simp only [Stage.step, hf]
          exact .admits
  | admitted k =>
      cases hi : l.interrupted with
      | true =>
          simp only [Stage.step, hi]
          exact .halts hi
      | false =>
          simp only [Stage.step, hi]
          exact .proceeds hi
  | processing k =>
      cases ht : (l.entry k).task? with
      | none =>
          simp only [Stage.step, ht]
          exact .drops (Entry.task?_eq_none_iff.mp ht)
      | some t =>
          obtain ⟨b, hb, rfl⟩ := Entry.task?_eq_some_iff.mp ht
          cases hm : b.task.mode with
          | rebuild =>
              simp only [Stage.step, ht, hm]
              exact .rebuilds hb hm
          | check i =>
              simp only [Stage.step, ht, hm]
              exact .checks hb hm
  | checking k i =>
      cases hg : (l.entry k).deps.group? i with
      | none =>
          simp only [Stage.step, hg]
          exact .passes hg
      | some group =>
          simp only [Stage.step, hg]
          exact .regroups hg
  | reading k reader rest =>
      cases rest with
      | nil =>
          cases reader with
          | group i since seen => exact .grouped
          | batch inv accepts answers next => exact .answered
      | cons dep rest =>
          cases hi : l.interrupted with
          | false =>
              simp only [Stage.step, hi]
              exact .asks hi
          | true =>
              simp only [Stage.step, hi, if_true]
              cases reader with
              | group i since seen => exact .cutGroup hi
              | batch inv accepts answers next => exact .cutBatch hi
  | asking k reader dep rest => exact .creates
  | looking k reader dep rest => exact .looks (looked l k reader dep rest)
  | judging k i seen => exact .judges (judged l k i seen)
  | calling k =>
      cases hf : s.registry.find? k with
      | none =>
          simp only [Stage.step, hf]
          exact .lacks hf
      | some f =>
          simp only [Stage.step, hf]
          exact .calls hf
  | invoking k f scratch => exact .invokes
  | running k inv recipe => exact .runs rfl
  | returned k inv ending =>
      cases hi : l.interrupted with
      | true =>
          simp only [Stage.step, hi]
          exact .forgets hi
      | false =>
          simp only [Stage.step, hi]
          exact .heeds hi
  | concluding k inv ending => exact .concludes (concluded l k inv ending)
  | recording k deps o after => exact .records
  | relinking k dropped added o after =>
      cases dropped with
      | cons dep dropped => exact .unlinks
      | nil =>
          cases added with
          | cons dep added => exact .links
          | nil => exact .linked
  | publishing k o after =>
      simp only [Stage.step, Live.finish]
      cases o with
      | value v => exact .publishes
      | failure e =>
          cases s.keepGoing with
          | true => exact .publishes
          | false => exact .fails
  | confirming k => exact .confirms
  | slowing k waiters after => exact .slows
  | reporting k how waiters after => exact .reports
  | signalling waiters after =>
      cases waiters with
      | nil => exact .signalled
      | cons waiter rest => exact .signals (MemoGraph.signalled l waiter rest after)
  | touching k next => exact .touches
  | announcing k next => exact .announces
  | queueing k next =>
      cases hstop : l.stopping with
      | true =>
          simp only [Stage.step, hstop]
          exact .declines
      | false =>
          simp only [Stage.step, hstop]
          exact .queues
  | sending k next => exact .sends
  | dooming a => exact .dooms
  | failing => exact .spreads
  | opening roots =>
      cases roots with
      | nil => exact .opened
      | cons root roots => exact .opens
  | rooting root roots =>
      cases hb : (l.entry root).begins with
      | true =>
          simp only [Stage.step, hb]
          exact .begins hb
      | false =>
          simp only [Stage.step, hb]
          exact .passesBy hb
  | breaking found members =>
      cases members with
      | nil => exact .broke
      | cons k members => exact .breaks (memberFailed l found k members)

end MemoGraph
