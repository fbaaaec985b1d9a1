import MemoGraph.Recipe
import MemoGraph.Script.Domain
import MemoGraph.Text.Version

/-!
# Scripts

A script is a list of steps that build a value out of parts.  `exec` turns a script into a recipe:
each step transforms the parts so far and goes on, or ends the invocation.  A script that ends by
itself yields its parts joined with plus signs.
-/

set_option autoImplicit false

namespace MemoGraph.Script

/-- What to do about a fault that a read has shown. -/
inductive Action where
  /-- go on -/
  | ignore
  /-- append a text -/
  | push (part : String)
  /-- end with the same fault -/
  | rethrow
  /-- end with another fault -/
  | fail (text : String)
  /-- end with the fault after some text -/
  | wrap (before : String)
  deriving DecidableEq, Repr

/-- A step of a script. -/
inductive Step where
  /-- append a text -/
  | push (part : String)
  /-- append the key -/
  | key
  /-- append the version of the round -/
  | version
  /-- append whether a read found no value -/
  | missing
  /-- append whether the round is to stop -/
  | interrupted
  /-- append the number of the invocation -/
  | callCount
  /-- add to the kept number and append the sum -/
  | addNumber (n : Nat)
  /-- extend the kept text and append it -/
  | extendText (text : String)
  /-- read a key and append its value, if there is one -/
  | get (k : Key)
  /-- read a key and append its value, or wait for it -/
  | need (k : Key)
  /-- take the last part as the key to read, and append its value, or wait for it -/
  | needLast
  /-- read keys at once and append their values, as far as there are any -/
  | all (ks : List Key)
  /-- read keys at once and append their values, or wait if a read found none -/
  | needAll (ks : List Key)
  /-- read a key, with an action for faults that start with the accepted text -/
  | attempt (k : Key) (accepted : Option String) (action : Action)
  /-- read keys at once, with an action for faults that start with the accepted text -/
  | attemptAll (ks : List Key) (accepted : Option String) (action : Action)
  /-- wait if a read found no value -/
  | check
  /-- wait -/
  | wait
  /-- end with a value -/
  | finish (text : String)
  /-- end with a fault -/
  | fail (text : String)
  /-- break off -/
  | crash (payload : Payload)
  /-- ask the round to stop -/
  | interrupt
  /-- go on with the first steps if the last part is the given text, else with the second -/
  | ifLast (part : String) (yes no : List Step)
  /-- go on with the first steps at the given invocation, else with the second -/
  | onCall (n : Nat) (yes no : List Step)

/-- Whether a step accepts a fault. -/
def accepts (accepted : Option String) (e : Fault) : Bool :=
  match accepted with
  | some start => start.toList.isPrefixOf e.text.toList
  | none => false

/-- Read keys without accepting faults. -/
def readPlain (ks : List Key) (next : Table Key (Answer domain) → Recipe domain) :
    Recipe domain :=
  .read ks (fun _ => false) next

/-- The values among answers, in order. -/
def valuesOf (answers : Table Key (Answer domain)) : List String :=
  answers.entries.filterMap fun e =>
    match e.2 with
    | .value v => some v.text
    | _ => none

/-- Read one key; go on with its value appended, or wait for it. -/
def needKey (k : Key) (parts : List String) (next : List String → Recipe domain) :
    Recipe domain :=
  readPlain [k] fun answers =>
    match answers.get? k with
    | some (.value v) => next (parts ++ [v.text])
    | _ => .needsDeps

/-- Draw the consequence of one answer and go on. -/
def handle (action : Action) (answer : Answer domain) (parts : List String)
    (next : List String → Recipe domain) : Recipe domain :=
  match answer with
  | .value v => next (parts ++ [v.text])
  | .missing => next parts
  | .fault e =>
      match action with
      | .ignore => next parts
      | .push part => next (parts ++ [part])
      | .rethrow => .fault e
      | .fail text => .fault ⟨text⟩
      | .wrap before => .fault ⟨before ++ e.text⟩

/-- Draw the consequences of answers in order and go on. -/
def handleAll (action : Action) : List (Answer domain) → List String →
    (List String → Recipe domain) → Recipe domain
  | [], parts, next => next parts
  | answer :: rest, parts, next =>
      handle action answer parts fun parts => handleAll action rest parts next

/-- Read keys with an action for accepted faults and go on. -/
def attemptKeys (ks : List Key) (accepted : Option String) (action : Action)
    (parts : List String) (next : List String → Recipe domain) : Recipe domain :=
  .read ks (accepts accepted) fun answers =>
    handleAll action (answers.entries.map Prod.snd) parts next

mutual

/-- One step at the given invocation for a key, on the parts so far. -/
def Step.exec (key : Key) (call : Nat) :
    Step → List String → (List String → Recipe domain) → Recipe domain
  | .push part, parts, next => next (parts ++ [part])
  | .key, parts, next => next (parts ++ [key.text])
  | .version, parts, next => .version fun v => next (parts ++ [Version.text v])
  | .missing, parts, next => .valuesMissing fun b => next (parts ++ [toString b])
  | .interrupted, parts, next => .isInterrupted fun b => next (parts ++ [toString b])
  | .callCount, parts, next => next (parts ++ [toString call])
  | .addNumber n, parts, next =>
      .load Slot.number fun (kept : Nat) =>
        .store Slot.number (kept + n : Nat) (next (parts ++ [toString (kept + n)]))
  | .extendText text, parts, next =>
      .load Slot.text fun (kept : String) =>
        .store Slot.text (kept ++ text : String) (next (parts ++ [kept ++ text]))
  | .get k, parts, next => readPlain [k] fun answers => next (parts ++ valuesOf answers)
  | .need k, parts, next => needKey k parts next
  | .needLast, parts, next => needKey (Key.ofText (parts.getLast?.getD "")) parts.dropLast next
  | .all ks, parts, next => readPlain ks fun answers => next (parts ++ valuesOf answers)
  | .needAll ks, parts, next =>
      readPlain ks fun answers => .valuesMissing fun missing =>
        if missing then .needsDeps else next (parts ++ valuesOf answers)
  | .attempt k accepted action, parts, next => attemptKeys [k] accepted action parts next
  | .attemptAll ks accepted action, parts, next => attemptKeys ks accepted action parts next
  | .check, parts, next => .valuesMissing fun missing => if missing then .needsDeps else next parts
  | .wait, _, _ => .needsDeps
  | .finish text, _, _ => .value ⟨text⟩
  | .fail text, _, _ => .fault ⟨text⟩
  | .crash payload, _, _ => .crash payload
  | .interrupt, parts, next => .interrupt (next parts)
  | .ifLast part yes no, parts, next =>
      if parts.getLast? = some part then execAll key call yes parts next
      else execAll key call no parts next
  | .onCall n yes no, parts, next =>
      if call = n then execAll key call yes parts next else execAll key call no parts next

/-- Steps in order at the given invocation for a key, on the parts so far. -/
def execAll (key : Key) (call : Nat) :
    List Step → List String → (List String → Recipe domain) → Recipe domain
  | [], parts, next => next parts
  | step :: rest, parts, next =>
      step.exec key call parts fun parts => execAll key call rest parts next

end

/-- The recipe of a script: its parts joined with plus signs, unless a step ends it before. -/
def recipe (steps : List Step) (key : Key) (call : Nat) : Recipe domain :=
  execAll key call steps [] fun parts => .value ⟨String.intercalate "+" parts⟩

/-- The function that runs the script of each key; a key without a script crashes. -/
def function (scripts : Table Key (List Step)) : Function domain := fun key call =>
  match scripts.get? key with
  | some steps => recipe steps key call
  | none => .crash (.composed ("no script for " ++ inspect key))

/-- The registry in which the given kinds run scripts. -/
def registry (kinds : List Kind) (scripts : Table Key (List Step)) : Registry domain :=
  kinds.foldl (fun r kind => r.register kind (function scripts)) ∅

end MemoGraph.Script
