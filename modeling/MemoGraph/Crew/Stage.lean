import MemoGraph.Crew.Entry
import MemoGraph.Round.Run

/-!
# What one worker does, step by step

A round can be worked on by several workers at once.  Everything they share is in a `Live` state:
the entries, the queue, the keys touched so far and a few flags.  A worker is at a `Stage`, its
place in the code together with what it has in hand.  From there it takes one step, which locks one
entry, or looks at or sets one flag, or sends or receives one key, and is at the next stage; the
steps of different workers may come in any order.  The stages follow the processing of one key:
checking its recorded groups, running its function, recording what it read, publishing the outcome
and telling the waiters.
-/

set_option autoImplicit false

namespace MemoGraph

variable {D : Domain}

/-- What the workers of a round share. -/
structure Live (D : Domain) where
  /-- The entries of all keys. -/
  store : Store D
  /-- Keys to process, first in first out. -/
  queue : List D.Key
  /-- Every key that came under evaluation in this round. -/
  touched : OrderedSet D.Key
  /-- Set after the first failure unless the round keeps going: nothing more is queued. -/
  stopping : Bool
  /-- Set when the round was given up: queued work is skipped. -/
  failed : Bool
  /-- Why the round was given up first. -/
  fatal : Option (Abort D.Key)
  /-- Whether the round was asked to stop. -/
  interrupted : Bool
  /-- Invocations of each function, counted over the whole session. -/
  calls : Table D.Key Nat
  /-- The events so far, newest first. -/
  log : List (Event D)

namespace Live

/-- The entry of a key. -/
def entry (l : Live D) (k : D.Key) : Entry D := l.store.entry k

/-- Replace the entry of a key. -/
def put (l : Live D) (k : D.Key) (e : Entry D) : Live D := { l with store := l.store.put k e }

/-- Tell the observer about an event. -/
def record (s : Setting D) (l : Live D) (e : Event D) : Live D :=
  { l with log := e :: l.log, interrupted := l.interrupted || s.observer (e :: l.log) }

end Live

/-- Who reads: the check of a recorded group, or an invocation in the middle of a batch. -/
inductive Reader (D : Domain) where
  /-- the check of the group at position `i` -/
  | group (i : Nat) (since : Version) (seen : GroupReading D.Key)
  /-- an invocation, with the answers to its batch so far -/
  | batch (inv : Invocation D) (accepts : D.Fault → Bool) (answers : List (D.Key × Answer D))
      (next : Table D.Key (Answer D) → Recipe D)

/-- What a worker does after it has completed a key. -/
inductive After (D : Domain) where
  /-- wait for the next key -/
  | idle
  /-- fail the next member of the cycles in `found` -/
  | breaking (found : List (Cycle D.Key)) (members : List D.Key)

/-- What a worker does after it has put a key into the queue. -/
inductive Next (D : Domain) where
  /-- read on for `k` -/
  | reading (k : D.Key) (reader : Reader D) (rest : List D.Key)
  /-- signal the other waiters -/
  | signalling (waiters : List D.Key) (after : After D)
  /-- go on with the roots -/
  | opening (roots : List D.Key)

/-- Where a worker is. -/
inductive Stage (D : Domain) where
  /-- waiting for a key from the queue -/
  | idle
  /-- has a key from the queue, to see whether the round was given up -/
  | fetched (k : D.Key)
  /-- to see whether the round is to stop -/
  | admitted (k : D.Key)
  /-- to look up how the key is being brought up to date -/
  | processing (k : D.Key)
  /-- to look up the recorded group at position `i` -/
  | checking (k : D.Key) (i : Nat)
  /-- to read the keys in `rest` for `k` -/
  | reading (k : D.Key) (reader : Reader D) (rest : List D.Key)
  /-- to find the entry of `dep` -/
  | asking (k : D.Key) (reader : Reader D) (dep : D.Key) (rest : List D.Key)
  /-- to lock the entry of `dep` -/
  | looking (k : D.Key) (reader : Reader D) (dep : D.Key) (rest : List D.Key)
  /-- to draw the consequence of a group that was read -/
  | judging (k : D.Key) (i : Nat) (seen : GroupReading D.Key)
  /-- to find the function, and the state that its last invocation left -/
  | calling (k : D.Key)
  /-- to invoke the function -/
  | invoking (k : D.Key) (f : Function D) (scratch : Option (Scratch D))
  /-- in the middle of an invocation -/
  | running (k : D.Key) (inv : Invocation D) (recipe : Recipe D)
  /-- to see whether the round is to stop after an invocation -/
  | returned (k : D.Key) (inv : Invocation D) (ending : Ending D)
  /-- to draw the consequence of an invocation -/
  | concluding (k : D.Key) (inv : Invocation D) (ending : Ending D)
  /-- to store the dependencies of a key that is about to complete -/
  | recording (k : D.Key) (deps : DepGroups D.Key) (o : Outcome D) (after : After D)
  /-- to tell the keys in `dropped`, and then those in `added` -/
  | relinking (k : D.Key) (dropped added : List D.Key) (o : Outcome D) (after : After D)
  /-- to complete a key with an outcome -/
  | publishing (k : D.Key) (o : Outcome D) (after : After D)
  /-- to complete a key with the outcome it has -/
  | confirming (k : D.Key)
  /-- to stop queueing after a failure -/
  | slowing (k : D.Key) (waiters : List D.Key) (after : After D)
  /-- to tell the observer about a completion -/
  | reporting (k : D.Key) (how : Completion) (waiters : List D.Key) (after : After D)
  /-- to signal the waiters of a key that completed -/
  | signalling (waiters : List D.Key) (after : After D)
  /-- to note a key that came under evaluation -/
  | touching (k : D.Key) (next : Next D)
  /-- to tell the observer about it -/
  | announcing (k : D.Key) (next : Next D)
  /-- to see whether keys are still queued -/
  | queueing (k : D.Key) (next : Next D)
  /-- to put a key into the queue -/
  | sending (k : D.Key) (next : Next D)
  /-- to give the round up, unless it was given up before -/
  | dooming (a : Abort D.Key)
  /-- to let the others know -/
  | failing
  /-- to find the entries of the roots, at the start of a round -/
  | opening (roots : List D.Key)
  /-- to bring a root under evaluation -/
  | rooting (root : D.Key) (roots : List D.Key)
  /-- to fail the keys in `members`, which are on cycles among `found` -/
  | breaking (found : List (Cycle D.Key)) (members : List D.Key)

/-- The stage after a completion. -/
def After.stage : After D → Stage D
  | .idle => .idle
  | .breaking found members => .breaking found members

/-- The stage after a key was queued. -/
def Next.stage : Next D → Stage D
  | .reading k reader rest => .reading k reader rest
  | .signalling waiters after => .signalling waiters after
  | .opening roots => .opening roots

namespace Reader

/-- Note the reply to a read. -/
def note (dep : D.Key) (reply : Reply D) : Reader D → Reader D
  | .group i since seen => .group i since (seen.note since dep reply)
  | .batch inv accepts answers next =>
      let (answer, inv) := inv.note accepts dep reply
      .batch inv accepts (answers ++ [(dep, answer)]) next

/-- The next stage if the round is to stop: a check is broken off, an invocation finds no value. -/
def cut (k dep : D.Key) (rest : List D.Key) : Reader D → Stage D
  | .group _ _ _ => .idle
  | .batch inv accepts answers next =>
      .reading k ((Reader.batch inv accepts answers next).note dep .interrupted) rest

/-- The next stage after the last reply. -/
def close (k : D.Key) : Reader D → Stage D
  | .group i _ seen => .judging k i seen
  | .batch inv _ answers next => .running k inv (next (.ofList answers))

end Reader

namespace Live

/-- Read the entry of a dependency: show its outcome, or bring it under evaluation if needed and
wait for it. -/
def look (l : Live D) (k : D.Key) (reader : Reader D) (dep : D.Key) (rest : List D.Key) :
    Live D × Stage D :=
  let e := l.entry dep
  match e.node.settled? with
  | some (.value v) => (l, .reading k (reader.note dep (.value v e.changedAt)) rest)
  | some (.failure f) => (l, .reading k (reader.note dep (.failed f e.changedAt)) rest)
  | none =>
      let (enlisted, e') := e.begin.await k
      let reader := reader.note dep (.pending enlisted)
      (l.put dep e',
        if e.begins then .touching dep (.reading k reader rest) else .reading k reader rest)

/-- Draw the consequence of re-reading the group at position `i`: a change means a rebuild, a
complete group means the next one, and otherwise the group has to be read again, at once if
everything that was missing completed meanwhile. -/
def judge (l : Live D) (k : D.Key) (i : Nat) (seen : GroupReading D.Key) : Live D × Stage D :=
  let e := l.entry k
  match e.task? with
  | none => (l, .idle)
  | some t =>
      let t := { t with
        awaited := t.awaited.insertAll seen.waiting
        expected := t.expected + seen.enlisted }
      let keep (t : Task D) : Live D := l.put k (e.retask fun _ => t)
      if seen.changed then
        if t.expected = 0 then (keep { t with mode := .rebuild }, .processing k)
        else (keep { t with mode := .rebuild, active := false }, .idle)
      else if seen.waiting.isEmpty then (keep t, .checking k (i + 1))
      else if t.expected = 0 then (keep t, .checking k i)
      else (keep { t with mode := .check i, active := false }, .idle)

/-- Draw the consequence of an invocation that wants to be run again: wait for the keys that
enlisted it, run again if they completed meanwhile, or fail if no key did enlist it. -/
def concludeWaiting (l : Live D) (k : D.Key) (t : Task D) (inv : Invocation D) :
    Live D × Stage D :=
  let e := l.entry k
  let t := { t with expected := t.expected + inv.enlisted }
  let keep (t : Task D) : Live D := l.put k (e.retask fun _ => t)
  if t.expected ≠ 0 then (keep { t with active := false }, .idle)
  else if inv.enlisted ≠ 0 then (keep t, .calling k)
  else if inv.failedReads.isEmpty then (keep t, .dooming (.noProgress k))
  else (keep { t with requested := ∅ },
    .recording k t.requested (.failure (.ofChildren k inv.failedReads)) .idle)

/-- Draw the consequence of an invocation. -/
def conclude (l : Live D) (k : D.Key) (inv : Invocation D) (ending : Ending D) :
    Live D × Stage D :=
  let e := l.entry k
  match e.task? with
  | none => (l, .idle)
  | some t =>
      let t := t.absorb inv
      let keep (t : Task D) : Live D := l.put k (e.retask fun _ => t)
      let finish (o : Outcome D) : Live D × Stage D :=
        (keep { t with requested := ∅ }, .recording k t.requested o .idle)
      match ending with
      | .crash payload => (l, .dooming (.crashed k payload))
      | .fault fault => finish (.failure (Round.declaredFailure k fault inv))
      | .value v =>
          if inv.missing then (keep t, .dooming (.valueWithMissingDeps k)) else finish (.value v)
      | .needsDeps =>
          if inv.missing then l.concludeWaiting k t inv else (keep t, .dooming (.noProgress k))

/-- How a key completes when it is given an outcome. -/
def completion (e : Entry D) : Outcome D → Completion
  | .value v => if e.node.holds (.value v) then .builtSame else .builtChanged
  | .failure _ => .failed

/-- Complete a key with an outcome.  The first failure may stop the queueing. -/
def finish (s : Setting D) (l : Live D) (k : D.Key) (o : Outcome D) (after : After D) :
    Live D × Stage D :=
  let e := l.entry k
  (l.put k (e.publish o s.version),
    if o.value?.isSome || s.keepGoing then .reporting k (completion e o) e.waiters after
    else .slowing k e.waiters after)

/-- Tell one waiter that a key it waits for completed; the last signal queues it. -/
def signal (l : Live D) (waiter : D.Key) (rest : List D.Key) (after : After D) :
    Live D × Stage D :=
  let e := l.entry waiter
  match e.task? with
  | none => (l, .signalling rest after)
  | some t =>
      let t := { t with expected := t.expected - 1 }
      if t.expected = 0 ∧ t.active = false then
        (l.put waiter (e.retask fun _ => { t with active := true }),
          .queueing waiter (.signalling rest after))
      else (l.put waiter (e.retask fun _ => t), .signalling rest after)

/-- Fail a key because of the cycles it is on.  A key that was running its function completes with
what it requested, one that was being checked keeps its recorded dependencies. -/
def failMember (l : Live D) (found : List (Cycle D.Key)) (k : D.Key) (members : List D.Key) :
    Live D × Stage D :=
  let e := l.entry k
  let o : Outcome D := .failure (.ofCycles (Round.cyclesOf found k))
  match e.task? with
  | none => (l, .breaking found members)
  | some t =>
      if t.mode = .rebuild then
        (l.put k (e.retask fun t => { t with requested := ∅ }),
          .recording k t.requested o (.breaking found members))
      else (l, .publishing k o (.breaking found members))

end Live

/-- One request of a function to the round, or the end of the function. -/
def Recipe.turn (s : Setting D) (l : Live D) (k : D.Key) (inv : Invocation D) :
    Recipe D → Live D × Stage D
  | .value v => (l, .returned k inv (.value v))
  | .needsDeps => (l, .returned k inv .needsDeps)
  | .fault e => (l, .returned k inv (.fault e))
  | .crash payload => (l, .dooming (.crashed k payload))
  | .read batch accepts next =>
      (l, .reading k
        (.batch { inv with batches := inv.batches ++ [batch] } accepts [] next) batch)
  | .valuesMissing next => (l, .running k inv (next inv.missing))
  | .isInterrupted next => (l, .running k inv (next l.interrupted))
  | .version next => (l, .running k inv (next s.version))
  | .load slot next =>
      let content := inv.content slot
      (l, .running k { inv with scratch := some ⟨slot, content⟩ } (next content))
  | .store slot content next =>
      (l, .running k { inv with scratch := some ⟨slot, content⟩ } next)
  | .interrupt next => ({ l with interrupted := true }, .running k inv next)

/-- One step of a worker. -/
def Stage.step (s : Setting D) (l : Live D) : Stage D → Live D × Stage D
  | .idle =>
      match l.queue with
      | [] => (l, .idle)
      | k :: rest => ({ l with queue := rest }, .fetched k)
  | .fetched k => (l, if l.failed then .idle else .admitted k)
  | .admitted k => (l, if l.interrupted then .idle else .processing k)
  | .processing k =>
      match (l.entry k).task? with
      | none => (l, .idle)
      | some t =>
          match t.mode with
          | .rebuild => (l, .calling k)
          | .check i => (l, .checking k i)
  | .checking k i =>
      let e := l.entry k
      match e.deps.group? i with
      | none => (l, .confirming k)
      | some group => (l, .reading k (.group i e.evaluatedAt .start) group)
  | .reading k reader [] => (l, reader.close k)
  | .reading k reader (dep :: rest) =>
      (l, if l.interrupted then reader.cut k dep rest else .asking k reader dep rest)
  | .asking k reader dep rest =>
      ({ l with store := l.store.create dep }, .looking k reader dep rest)
  | .looking k reader dep rest => l.look k reader dep rest
  | .judging k i seen => l.judge k i seen
  | .calling k =>
      match s.registry.find? k with
      | none => (l, .dooming (.missingFunction k))
      | some f =>
          let e := l.entry k
          (l.put k (e.retask fun t => { t with scratch := none }),
            .invoking k f (e.task?.bind Task.scratch))
  | .invoking k f scratch =>
      let n := (l.calls.get? k).getD 0 + 1
      (({ l with calls := l.calls.insert k n } : Live D).record s (.called k),
        .running k (.start scratch) (f k n))
  | .running k inv recipe => recipe.turn s l k inv
  | .returned k inv ending => (l, if l.interrupted then .idle else .concluding k inv ending)
  | .concluding k inv ending => l.conclude k inv ending
  | .recording k deps o after =>
      let e := l.entry k
      let dropped := e.deps.keys.filter fun dep => !deps.contains dep
      (l.put k { e with deps := deps }, .relinking k dropped deps.keys o after)
  | .relinking k (dep :: dropped) added o after =>
      ({ l with store := l.store.adjust dep fun e => { e with rdeps := e.rdeps.erase k } },
        .relinking k dropped added o after)
  | .relinking k [] (dep :: added) o after =>
      ({ l with store := l.store.update dep fun e => { e with rdeps := e.rdeps.insert k } },
        .relinking k [] added o after)
  | .relinking k [] [] o after => (l, .publishing k o after)
  | .publishing k o after => l.finish s k o after
  | .confirming k =>
      let e := l.entry k
      (l.put k (e.confirm s.version), .reporting k .clean e.waiters .idle)
  | .slowing k waiters after => ({ l with stopping := true }, .reporting k .failed waiters after)
  | .reporting k how waiters after =>
      (l.record s (.completed k how), .signalling waiters after)
  | .signalling [] after => (l, after.stage)
  | .signalling (waiter :: rest) after => l.signal waiter rest after
  | .touching k next => ({ l with touched := l.touched.insert k }, .announcing k next)
  | .announcing k next => (l.record s (.enqueued k), .queueing k next)
  | .queueing k next => (l, if l.stopping then next.stage else .sending k next)
  | .sending k next => ({ l with queue := l.queue ++ [k] }, next.stage)
  | .dooming a => ({ l with fatal := l.fatal <|> some a }, .failing)
  | .failing => ({ l with failed := true }, .idle)
  | .opening [] => (l, .idle)
  | .opening (root :: roots) => ({ l with store := l.store.create root }, .rooting root roots)
  | .rooting root roots =>
      let e := l.entry root
      (l.put root e.begin, if e.begins then .touching root (.opening roots) else .opening roots)
  | .breaking _ [] => (l, .idle)
  | .breaking found (k :: members) => l.failMember found k members

end MemoGraph
