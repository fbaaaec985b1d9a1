import Mathlib.Data.Finset.Card
import Mathlib.Data.Prod.Lex
import Mathlib.Data.Set.Finite.Basic
import MemoGraph.Proofs.Cycle.Breaking
import MemoGraph.Proofs.Round.Commits
import MemoGraph.Proofs.Round.Wanted

/-!
# Rounds end

Every step of a round spends something that a finite set of keys limits.  It gives the round up, or
a key completes, or a key comes under evaluation, or the queue gets shorter, or the first key of the
queue has one recorded group less to read.  So a round ends if what its functions request lies in a
finite set.  In particular a key never acts again and again on its own: after an invocation that
waits it is parked, and a group that it reads once more holds a key that will signal it.
-/

set_option autoImplicit false

namespace MemoGraph

variable {D : Domain}

/-! ## What functions request -/

/-- Whatever it is told, the invocation reads only keys in `keys`. -/
def Recipe.Within (keys : Finset D.Key) : Recipe D → Prop
  | .value _ | .needsDeps | .fault _ | .crash _ => True
  | .read batch _ next => (∀ d ∈ batch, d ∈ keys) ∧ ∀ answers, (next answers).Within keys
  | .valuesMissing next => ∀ missing, (next missing).Within keys
  | .isInterrupted next => ∀ interrupted, (next interrupted).Within keys
  | .version next => ∀ version, (next version).Within keys
  | .load _ next => ∀ content, (next content).Within keys
  | .store _ _ next => next.Within keys
  | .interrupt next => next.Within keys

/-- All invocations of all functions read only keys in `keys`. -/
def Registry.Within (keys : Finset D.Key) (registry : Registry D) : Prop :=
  ∀ k f, registry.find? k = some f → ∀ n, (f k n).Within keys

namespace Round

variable {s : Setting D} {keys : Finset D.Key} {r r' : Round D}

/-- If the next action of the round is an invocation, this requests only keys in `keys`. -/
def RequestsWithin (s : Setting D) (keys : Finset D.Key) (r : Round D) : Prop :=
  ∀ k rest t f, r.halted = false → r.queue = k :: rest → r.tasks.get? k = some t →
    t.mode = .rebuild → s.registry.find? k = some f →
      ∀ batch ∈ (({ r with queue := rest } : Round D).invoke s k f t.scratch).2.1.batches,
        ∀ d ∈ batch, d ∈ keys

theorem mem_of_within {recipe : Recipe D} (h : recipe.Within keys) {k : D.Key}
    {inv : Invocation D} (hinv : ∀ batch ∈ inv.batches, ∀ d ∈ batch, d ∈ keys) :
    ∀ batch ∈ (recipe.run s k inv r).2.1.batches, ∀ d ∈ batch, d ∈ keys := by
  induction recipe generalizing inv r with
  | value v => exact hinv
  | needsDeps => exact hinv
  | fault e => exact hinv
  | crash payload => exact hinv
  | read batch accepts next ih =>
      refine ih _ (h.2 _) ?_
      rw [batches_readEach]
      intro batch' hbatch d hd
      rcases List.mem_append.mp hbatch with hbatch | hbatch
      · exact hinv batch' hbatch d hd
      · exact h.1 d (List.mem_singleton.mp hbatch ▸ hd)
  | valuesMissing next ih => exact ih _ (h _) hinv
  | isInterrupted next ih => exact ih _ (h _) hinv
  | version next ih => exact ih _ (h _) hinv
  | load slot next ih => exact ih _ (h _) hinv
  | store slot content next ih => exact ih h hinv
  | interrupt next ih => exact ih h hinv

/-- Functions that read only keys in `keys` do so in every round. -/
theorem RequestsWithin.of_registry (h : s.registry.Within keys) (r : Round D) :
    r.RequestsWithin s keys := by
  intro k rest t f _ _ _ _ hf
  exact mem_of_within (h k f hf _) fun batch hbatch => absurd hbatch List.not_mem_nil

/-! ## Measures -/

/-- A round ends if it ends after one step. -/
theorem runs_of_step {r₁ : Round D} (hstep : r.step s = some r₁)
    (hruns : ∃ enough r', ∀ budget, enough ≤ budget → Round.run s budget r₁ = some r') :
    ∃ enough r', ∀ budget, enough ≤ budget → Round.run s budget r = some r' := by
  obtain ⟨enough, r', hrun⟩ := hruns
  refine ⟨enough + 1, r', fun budget hbudget => ?_⟩
  obtain ⟨n, rfl⟩ := Nat.exists_eq_add_of_le' (Nat.le_of_add_left_le hbudget)
  rw [run, hstep]
  exact hrun n (by omega)

/-- A round all of whose steps lower some measure ends. -/
theorem runs_of_measure {α : Type} [LT α] [WellFoundedLT α] (measure : Round D → α)
    (hall : ∀ r', Reaches s r r' → ∀ r'', r'.step s = some r'' → measure r'' < measure r') :
    ∃ enough r', ∀ budget, enough ≤ budget → Round.run s budget r = some r' := by
  generalize hm : measure r = m
  induction m using WellFoundedLT.induction generalizing r with
  | _ m ih =>
      cases hstep : r.step s with
      | none =>
          refine ⟨1, r, fun budget hbudget => ?_⟩
          obtain ⟨n, rfl⟩ := Nat.exists_eq_succ_of_ne_zero (Nat.pos_iff_ne_zero.mp hbudget)
          rw [run, hstep]
      | some r₁ =>
          have hlt : measure r₁ < m := hm ▸ hall r .refl r₁ hstep
          exact runs_of_step hstep (ih _ hlt (fun r' hr' => hall r' (.head hstep hr')) rfl)

/-- A round that ends has finitely many states. -/
theorem finite_reaches {budget : Nat} (h : Round.run s budget r = some r') :
    {r₁ | Reaches s r r₁}.Finite := by
  induction budget generalizing r with
  | zero => cases h
  | succ budget ih =>
      have hhead {r₁ : Round D} (hr₁ : Reaches s r r₁) :
          r₁ = r ∨ ∃ r₂, r.step s = some r₂ ∧ Reaches s r₂ r₁ :=
        (Relation.ReflTransGen.cases_head hr₁).imp_left Eq.symm
      unfold Round.run at h
      cases hstep : r.step s with
      | none =>
          refine (Set.finite_singleton r).subset fun r₁ hr₁ => ?_
          rcases hhead hr₁ with rfl | ⟨r₂, hr₂, -⟩
          · rfl
          · rw [hstep] at hr₂
            cases hr₂
      | some r₂ =>
          rw [hstep] at h
          refine ((ih h).insert r).subset fun r₁ hr₁ => ?_
          rcases hhead hr₁ with rfl | ⟨r₃, hr₃, hrest⟩
          · exact Set.mem_insert _ _
          · obtain rfl := Option.some.inj (hstep.symm.trans hr₃)
            exact Set.mem_insert_of_mem _ hrest

/-- The members of a finite set that are not done yet. -/
def left (keys : Finset D.Key) (done : D.Key → Bool) : Finset D.Key :=
  keys.filter fun x => done x = false

section Left

variable {done done' : D.Key → Bool} (hmore : ∀ x, done x = true → done' x = true)

include hmore

theorem left_subset : left keys done' ⊆ left keys done := by
  intro x hx
  obtain ⟨hkey, hx⟩ := Finset.mem_filter.mp hx
  refine Finset.mem_filter.mpr ⟨hkey, eq_false_of_ne_true fun hold => ?_⟩
  rw [hmore x hold] at hx
  cases hx

/-- One more key that is done. -/
theorem card_left_lt {k : D.Key} (hk : k ∈ keys) (hbefore : done k = false)
    (hafter : done' k = true) : (left keys done').card < (left keys done).card := by
  apply Finset.card_lt_card
  refine (Finset.ssubset_iff_of_subset (left_subset hmore)).mpr
    ⟨k, Finset.mem_filter.mpr ⟨hk, hbefore⟩, fun hmem => ?_⟩
  rw [(Finset.mem_filter.mp hmem).2] at hafter
  cases hafter

end Left

theorem left_congr {done done' : D.Key → Bool} (h : ∀ x, done' x = done x) :
    left keys done' = left keys done := by rw [funext h]

/-- Reading leaves fewer keys without a task, or the queue as it was. -/
theorem Adds.card_left (h : Adds (· ∈ keys) r r') :
    (left keys r'.tasks.contains).card < (left keys r.tasks.contains).card ∨
      (left keys r'.tasks.contains).card = (left keys r.tasks.contains).card ∧
        r'.queue = r.queue := by
  rcases h.queue with hq | ⟨x, hx, hx'⟩
  · rcases (Finset.card_le_card (left_subset h.kept)).lt_or_eq with hlt | heq
    · exact .inl hlt
    · exact .inr ⟨heq, hq⟩
  · refine .inl (card_left_lt h.kept ((h.tasks x hx').resolve_left ?_) hx hx')
    simp [hx]

end Round

/-! ## What a round has left to do -/

/-- How many actions a task has ahead of it before it runs its function or completes. -/
def Mode.ahead (groups : Nat) : Mode → Nat
  | .check i => groups + 1 - i
  | .rebuild => 0

namespace Round

variable {s : Setting D} {keys : Finset D.Key} {r r' : Round D}

/-- How many actions the first key of the queue has ahead of it before it runs its function or
completes. -/
def ahead (r : Round D) : Nat :=
  match r.queue with
  | [] => 0
  | k :: _ => match r.tasks.get? k with
      | some t => t.mode.ahead (r.graph.node k).deps.groups.length
      | none => 0

theorem ahead_eq {k : D.Key} {rest : List D.Key} (hq : r.queue = k :: rest) {t : Task D}
    (ht : r.tasks.get? k = some t) :
    r.ahead = t.mode.ahead (r.graph.node k).deps.groups.length := by
  simp only [ahead, hq, ht]

/-- What a round over finitely many keys has left to do: to go on at all, to complete keys, to bring
keys under evaluation, to take keys from the queue, and to let the first of them act. -/
def effort (keys : Finset D.Key) (r : Round D) : Nat ×ₗ Nat ×ₗ Nat ×ₗ Nat ×ₗ Nat :=
  toLex ((!r.halted).toNat, toLex ((left keys r.graph.isComplete).card,
    toLex ((left keys r.tasks.contains).card, toLex (r.queue.length, r.ahead))))

theorem effort_lt_iff : effort keys r' < effort keys r ↔
    (!r'.halted).toNat < (!r.halted).toNat ∨ (!r'.halted).toNat = (!r.halted).toNat ∧
      ((left keys r'.graph.isComplete).card < (left keys r.graph.isComplete).card ∨
        (left keys r'.graph.isComplete).card = (left keys r.graph.isComplete).card ∧
          ((left keys r'.tasks.contains).card < (left keys r.tasks.contains).card ∨
            (left keys r'.tasks.contains).card = (left keys r.tasks.contains).card ∧
              (r'.queue.length < r.queue.length ∨
                r'.queue.length = r.queue.length ∧ r'.ahead < r.ahead))) := by
  simp only [effort, Prod.Lex.toLex_lt_toLex]

/-- What a step does to it. -/
inductive Spends (keys : Finset D.Key) (r : Round D) : Round D → Prop where
  /-- a key is taken from the queue -/
  | passed {k : D.Key} {rest : List D.Key} : r.queue = k :: rest →
      Spends keys r { r with queue := rest }
  /-- the round is given up or asked to stop -/
  | halted {r' : Round D} : r.halted = false → r'.halted = true → Spends keys r r'
  /-- a key completes -/
  | completed {k : D.Key} {r' : Round D} : r.halted = false → k ∈ keys →
      r.graph.isComplete k = false → r'.graph.isComplete k = true →
      (∀ x, r.graph.isComplete x = true → r'.graph.isComplete x = true) →
      (∀ x, r'.tasks.contains x = true → r.tasks.contains x = true ∨ x ∈ keys) →
      Spends keys r r'
  /-- the first key of the queue reads, and then waits or goes on with less ahead of it -/
  | acted {k : D.Key} {rest : List D.Key} {r₁ r' : Round D} : r.halted = false →
      r.queue = k :: rest → Adds (· ∈ keys) { r with queue := rest } r₁ →
      (∀ x, r'.graph.isComplete x = r.graph.isComplete x) →
      (∀ x, r'.tasks.contains x = r₁.tasks.contains x) →
      (r'.queue = r₁.queue ∨ r'.queue = k :: r₁.queue ∧ r'.ahead < r.ahead) → Spends keys r r'

namespace Spends

/-- Whatever a step spends, there is less left. -/
theorem effort_lt (h : Spends keys r r') : effort keys r' < effort keys r := by
  rw [effort_lt_iff]
  cases h with
  | @passed k rest hq =>
      refine .inr ⟨rfl, .inr ⟨rfl, .inr ⟨rfl, .inl ?_⟩⟩⟩
      rw [hq]
      exact Nat.lt_succ_self _
  | halted hgo hhalt => exact .inl (by simp [hgo, hhalt])
  | completed hgo hk hinc hdone hmore _ =>
      cases hhalt : r'.halted with
      | true => exact .inl (by simp [hgo])
      | false => exact .inr ⟨by simp [hgo], .inl (card_left_lt hmore hk hinc hdone)⟩
  | @acted k rest r₁ r' hgo hq hadds hcomplete htasks hqueue =>
      cases hhalt : r'.halted with
      | true => exact .inl (by simp [hgo])
      | false =>
          refine .inr ⟨by simp [hgo], .inr ⟨by rw [left_congr hcomplete], ?_⟩⟩
          rw [left_congr htasks]
          rcases hadds.card_left with hlt | ⟨heq, hsame⟩
          · exact .inl hlt
          · have hsame : r₁.queue = rest := hsame
            refine .inr ⟨heq, ?_⟩
            rcases hqueue with hparked | ⟨hfirst, hless⟩
            · exact .inl (by simp [hparked, hsame, hq])
            · exact .inr ⟨by simp [hfirst, hsame, hq], hless⟩

/-- A round that goes on keeps its tasks within `keys`. -/
theorem tasks (h : Spends keys r r') (hr : ∀ x, r.tasks.contains x = true → x ∈ keys) :
    r'.halted = true ∨ ∀ x, r'.tasks.contains x = true → x ∈ keys := by
  cases h with
  | passed _ => exact .inr hr
  | halted _ hhalt => exact .inl hhalt
  | completed _ _ _ _ _ htasks => exact .inr fun x hx => (htasks x hx).elim (hr x) id
  | acted _ _ hadds _ htasks _ =>
      exact .inr fun x hx => (hadds.tasks x ((htasks x).symm.trans hx)).elim (hr x) id

/-- The completion of a key after it read. -/
theorem of_completes {k : D.Key} {rest : List D.Key} {r₁ : Round D} {how : Completion}
    (hgo : r.halted = false) (hk : k ∈ keys) (hinc : r.graph.isComplete k = false)
    (hreads : Reads { r with queue := rest } r₁)
    (hadds : Adds (· ∈ keys) { r with queue := rest } r₁) (hc : Completes s k how r₁ r')
    (hs : Graph.Settles s.version k r₁.graph r'.graph) : Spends keys r r' := by
  refine .completed hgo hk hinc hs.complete (fun x hx => ?_) fun x hx => ?_
  · exact hs.isComplete_mono ((hreads.isComplete x).trans hx)
  · obtain ⟨t, ht⟩ := Option.isSome_iff_exists.mp hx
    obtain ⟨-, t₀, ht₀, -⟩ := hc.back ht
    exact hadds.tasks x (contains_of_get? ht₀)

/-- A key that read and whose task is replaced. -/
theorem of_retask {k : D.Key} {rest : List D.Key} {r₁ : Round D} (hgo : r.halted = false)
    (hq : r.queue = k :: rest) (hreads : Reads { r with queue := rest } r₁)
    (hadds : Adds (· ∈ keys) { r with queue := rest } r₁) (hk : r₁.tasks.contains k = true)
    {t : Task D} {queue : List D.Key}
    (hqueue : queue = r₁.queue ∨ queue = k :: r₁.queue ∧
      t.mode.ahead (r.graph.node k).deps.groups.length < r.ahead) :
    Spends keys r { r₁ with tasks := r₁.tasks.insert k t, queue := queue } := by
  refine .acted hgo hq hadds hreads.isComplete
    (fun x => Table.contains_insert_of_contains hk x t) (hqueue.imp_right ?_)
  rintro ⟨rfl, hless⟩
  refine ⟨rfl, ?_⟩
  rw [ahead_eq rfl (Table.get?_insert_self _ _ _)]
  simpa only [hreads.node] using hless

end Spends

/-! ## Steps -/

/-- All that is read lies in a finite set. -/
structure Confined (s : Setting D) (keys : Finset D.Key) (r : Round D) : Prop where
  /-- Keys under evaluation. -/
  tasks : ∀ x, r.tasks.contains x = true → x ∈ keys
  /-- What was recorded for them. -/
  recorded : ∀ x, r.tasks.contains x = true → ∀ d ∈ (r.graph.node x).deps.keys, d ∈ keys
  /-- What functions request. -/
  requested : r.RequestsWithin s keys

/-- A key that a read leaves without an outcome is incomplete. -/
theorem Grounded.incomplete_of_pending (h : Grounded s r) {k dep d : D.Key}
    (hd : d ∈ (r.readOne s k dep).1.unsettled dep) : r.graph.isComplete d = false := by
  obtain rfl := Reply.eq_of_mem_unsettled hd
  cases ho : (r.graph.node d).settled? with
  | none => exact h.graph.incomplete_of_unsettled ho
  | some o =>
      exfalso
      cases hi : r.interrupted with
      | true =>
          rw [readOne_of_interrupted k d hi] at hd
          exact List.not_mem_nil hd
      | false =>
          rw [readOne_of_settled k d hi ho] at hd
          cases o with
          | value v => exact List.not_mem_nil hd
          | failure e => exact List.not_mem_nil hd

/-- So are the keys that the reading of a group waits for. -/
theorem Grounded.incomplete_of_waiting (h : Grounded s r) (k : D.Key) (since : Version)
    (group : List D.Key) :
    ∀ d ∈ (readGroup s k since group .start r).1.waiting, r.graph.isComplete d = false := by
  refine (readGroup_induction (P := fun seen r₁ => Reads r r₁ ∧
    ∀ d ∈ seen.waiting, r.graph.isComplete d = false) ?_ group
    ⟨.refl r, fun d hd => absurd hd List.not_mem_nil⟩).2
  rintro dep seen r₁ ⟨hreads, hwaiting⟩
  refine ⟨hreads.trans (reads_readOne s r₁ k dep), fun d hd => ?_⟩
  rw [(seen.note_bookkeeping since dep _).2] at hd
  rcases List.mem_append.mp hd with hd | hd
  · exact hwaiting d hd
  · exact (hreads.isComplete d).symm.trans ((h.reads hreads).incomplete_of_pending hd)

/-- A key that reads a group and goes on at once has less ahead of it. -/
theorem Checked.ahead_lt (hg : Grounded s r) (ht : Tally r none 0 []) {k : D.Key}
    {rest : List D.Key} (hq : r.queue = k :: rest) {t : Task D} {i : Nat} {group : List D.Key}
    {waiters : OrderedSet D.Key} {seen : GroupReading D.Key} {r₁ : Round D}
    (hc : Checked s { r with queue := rest } k t i group waiters seen r₁)
    (hzero : t.expected + seen.enlisted = 0) :
    (seen.nextMode i).ahead (r.graph.node k).deps.groups.length < r.ahead := by
  have hpop : Grounded s { r with queue := rest } := { hg with }
  -- It waits for nothing, or it would expect a signal.
  have hnone : seen.waiting = [] := by
    have hread := (ht.pop hq hc.task).readGroup (s := s)
      (({ r with queue := rest } : Round D).graph.node k).evaluatedAt group
    have hwaiting := hpop.incomplete_of_waiting k
      (({ r with queue := rest } : Round D).graph.node k).evaluatedAt group
    rw [hc.read] at hread hwaiting
    exact hread.awaited_eq_nil hc.kept hzero fun d hd =>
      (hc.reads.isComplete d).trans (hwaiting d hd)
  have hlt : i < (r.graph.node k).deps.groups.length := (List.getElem?_eq_some_iff.mp hc.listed).1
  rw [ahead_eq hq hc.task, hc.mode, GroupReading.nextMode, hnone]
  cases seen.changed with
  | true =>
      simp only [if_true, Mode.ahead]
      omega
  | false =>
      simp only [Bool.false_eq_true, if_false, List.isEmpty_nil, if_true, Mode.ahead]
      omega

section Action

variable {k : D.Key} {rest : List D.Key}

/-- An invocation brings keys under evaluation that its function requests. -/
theorem Confined.adds_invoke (h : Confined s keys r) (hh : r.halted = false)
    (hq : r.queue = k :: rest) {t : Task D} {waiters : OrderedSet D.Key} {f : Function D}
    {ending : Ending D} {inv : Invocation D} {r₁ : Round D}
    (hi : Invoked s { r with queue := rest } k t waiters f ending inv r₁) :
    Adds (· ∈ keys) { r with queue := rest } r₁ := by
  have hadds := Adds.invoke s k f t.scratch { r with queue := rest }
  have hwithin := h.requested k rest t f hh hq hi.task hi.mode hi.function
  rw [hi.run] at hadds hwithin
  exact hadds.imp fun x ⟨batch, hbatch, hx⟩ => hwithin batch hbatch x hx

/-- The reading of a group brings recorded keys under evaluation. -/
theorem Confined.adds_readGroup (h : Confined s keys r) {t : Task D} {i : Nat}
    {group : List D.Key} {waiters : OrderedSet D.Key} {seen : GroupReading D.Key} {r₁ : Round D}
    (hc : Checked s { r with queue := rest } k t i group waiters seen r₁) :
    Adds (· ∈ keys) { r with queue := rest } r₁ := by
  have hread := Adds.readGroup s k (r.graph.node k).evaluatedAt group .start
    { r with queue := rest }
  rw [hc.read] at hread
  exact hread.imp fun x hx => h.recorded k (contains_of_get? hc.task) x
    (List.mem_flatten.mpr ⟨group, List.mem_of_getElem? hc.listed, hx⟩)

/-- An invocation after which its key completes. -/
theorem Confined.spends_of_completes (h : Confined s keys r) (ht : Tally r none 0 [])
    (hh : r.halted = false) (hq : r.queue = k :: rest) {t : Task D} {waiters : OrderedSet D.Key}
    {f : Function D} {ending : Ending D} {inv : Invocation D} {r₁ : Round D} {how : Completion}
    (hi : Invoked s { r with queue := rest } k t waiters f ending inv r₁)
    (hc : Completes s k how r₁ r')
    (hs : r₁.graph.isComplete k = false → Graph.Settles s.version k r₁.graph r'.graph) :
    Spends keys r r' := by
  have hinc := ht.unfinished k t hi.task
  exact .of_completes hh (h.tasks k (contains_of_get? hi.task)) hinc hi.reads
    (h.adds_invoke hh hq hi) hc (hs ((hi.reads.isComplete k).trans hinc))

/-- An invocation that waits: its key is parked. -/
theorem Confined.spends_of_waiting (h : Confined s keys r) (ht : Tally r none 0 [])
    (hh : r.halted = false) (hq : r.queue = k :: rest) {t : Task D} {waiters : OrderedSet D.Key}
    {f : Function D} {inv : Invocation D} {r₁ : Round D}
    (hi : Invoked s { r with queue := rest } k t waiters f .needsDeps inv r₁)
    (hwaits : t.expected + inv.enlisted ≠ 0 ∨ inv.enlisted ≠ 0) :
    Spends keys r
      (r₁.resumeOrPark k (Task.afterCall { t with waiters := waiters } inv)) := by
  have hexpected := (ht.pop hq hi.task).expected_eq_zero hi.task
  rw [resumeOrPark_afterCall hexpected hwaits]
  exact .of_retask hh hq hi.reads (h.adds_invoke hh hq hi) (contains_of_get? hi.kept) (.inl rfl)

/-- The reading of a group: its key is parked, or goes on with another group or its function. -/
theorem Confined.spends_of_checked (h : Confined s keys r) (hg : Grounded s r)
    (ht : Tally r none 0 []) (hh : r.halted = false) (hq : r.queue = k :: rest) {t : Task D}
    {i : Nat} {group : List D.Key} {waiters : OrderedSet D.Key} {seen : GroupReading D.Key}
    {r₁ : Round D} (hc : Checked s { r with queue := rest } k t i group waiters seen r₁) :
    Spends keys r (r₁.concludeGroup k { t with waiters := waiters } i seen) := by
  have hadds := h.adds_readGroup hc
  have hless := hc.ahead_lt hg ht hq
  have hexpected := (ht.pop hq hc.task).expected_eq_zero hc.task
  have hle := enlisted_readGroup s k (r.graph.node k).evaluatedAt group { r with queue := rest }
  rw [hc.read] at hle
  rw [concludeGroup_eq]
  · unfold resumeOrPark
    split
    · rename_i hzero
      exact .of_retask hh hq hc.reads hadds (contains_of_get? hc.kept) (.inr ⟨rfl, hless hzero⟩)
    · exact .of_retask hh hq hc.reads hadds (contains_of_get? hc.kept) (.inl rfl)
  · intro hw
    have hnone : seen.enlisted ≤ seen.waiting.length := hle
    simp only [hw, List.length_nil] at hnone
    simp only [hexpected]
    omega

/-- The action of a key spends something. -/
theorem Confined.spends_of_move (h : Confined s keys r) (hg : Grounded s r)
    (ht : Tally r none 0 []) (hh : r.halted = false) (hq : r.queue = k :: rest)
    (hm : Move s { r with queue := rest } k r') : Spends keys r r' := by
  cases hm with
  | idle _ => exact .passed hq
  | verified htask _ _ =>
      exact .of_completes hh (h.tasks k (contains_of_get? htask)) (ht.unfinished k _ htask)
        (.refl _) (.refl _ _) (completes_clean s _ k) (settles_completeClean s _ k)
  | checked hc => exact h.spends_of_checked hg ht hh hq hc
  | dropped hd => exact .halted hh (by simp [Round.halted, hd.interrupted])
  | lost _ => exact .halted hh (by simp [Round.halted, abort])
  | built hi _ =>
      obtain ⟨how, -, -, hbuilt⟩ := completes_built s _ k _ _
      exact h.spends_of_completes ht hh hq hi hbuilt (settles_completeBuilt _ _)
  | failed hi =>
      exact h.spends_of_completes ht hh hq hi (completes_failed s _ k _ _)
        (settles_completeFailed _ _)
  | blocked hi _ _ _ _ =>
      exact h.spends_of_completes ht hh hq hi (completes_failed s _ k _ _)
        (settles_completeFailed _ _)
  | waiting hi _ hwaits => exact h.spends_of_waiting ht hh hq hi hwaits

end Action

/-- Breaking cycles completes one of their members at least. -/
theorem Confined.spends_of_failMembers (h : Confined s keys r) (ht : Tally r none 0 [])
    (hh : r.halted = false) (hheld : r.heldUpBy s ≠ []) :
    Spends keys r (r.failMembers s (r.heldUpBy s)) := by
  obtain ⟨c, hc⟩ := List.exists_mem_of_ne_nil _ hheld
  obtain ⟨k, hk⟩ := List.exists_mem_of_ne_nil _ (Cycle.sound_of_mem_find hc).nonempty
  obtain ⟨t, htask⟩ := task_of_heldUpBy hc hk
  obtain ⟨⟨e, hshows, -⟩, -⟩ := failed_of_member ht hc hk htask
  have hkept := ht.failMembers_induction (s := s) (r.heldUpBy s)
    (P := fun r₁ => (∀ x, r.graph.isComplete x = true → r₁.graph.isComplete x = true) ∧
      ∀ x, r₁.tasks.contains x = true → r.tasks.contains x = true) ⟨fun _ => id, fun _ => id⟩ ?_
  · exact .completed hh (h.tasks k (contains_of_get? htask)) (ht.unfinished k t htask) hshows.1
      hkept.2.1 fun x hx => .inl (hkept.2.2 x hx)
  · rintro k t r₁ r₂ ⟨hcomplete, htasks⟩ _ hf
    refine ⟨fun x hx => hf.settles.isComplete_mono (hcomplete x hx), fun x hx => htasks x ?_⟩
    obtain ⟨t', ht'⟩ := Option.isSome_iff_exists.mp hx
    obtain ⟨-, t₀, ht₀, -⟩ := hf.completes.back ht'
    exact contains_of_get? ht₀

/-- Every step spends something. -/
theorem spends_of_step (h : r.halted = true ∨ Confined s keys r) (hg : Grounded s r)
    (ht : r.halted = true ∨ Tally r none 0 []) (hstep : r.step s = some r') :
    Spends keys r r' := by
  cases advance_of_step hstep with
  | skipped hq _ => exact .passed hq
  | acted hq hh hm =>
      have hgo {p : Prop} (hp : r.halted = true ∨ p) : p := hp.resolve_left (by simp [hh])
      exact (hgo h).spends_of_move hg (hgo ht) hh hq hm
  | broken _ hh _ hheld =>
      have hgo {p : Prop} (hp : r.halted = true ∨ p) : p := hp.resolve_left (by simp [hh])
      exact (hgo h).spends_of_failMembers (hgo ht) hh hheld

/-! ## Whole rounds -/

variable {graph : Graph D} {calls : Table D.Key Nat}

/-- The keys that a round over `graph` can come to, if its functions request only keys in
`requested`. -/
def scope (s : Setting D) (graph : Graph D) (requested : Finset D.Key) : Finset D.Key :=
  requested ∪ s.roots.toList.toFinset ∪ graph.keys.toFinset

theorem mem_scope {requested : Finset D.Key} {x : D.Key} :
    x ∈ scope s graph requested ↔
      x ∈ requested ∨ x ∈ s.roots ∨ graph.contains x = true := by
  simp only [scope, Finset.mem_union, List.mem_toFinset, OrderedSet.mem_def, or_assoc,
    Graph.mem_keys_iff_contains]

/-- All that a round reads lies in its scope. -/
theorem confined_of_reaches (hg : graph.Grounded s.version) (hb : graph.Before s.version)
    {requested : Finset D.Key}
    (hall : ∀ r, Reaches s (Round.start s graph calls) r → r.RequestsWithin s requested)
    (hr : Reaches s (Round.start s graph calls) r) :
    r.halted = true ∨ Confined s (scope s graph requested) r := by
  -- Requests and records are as they should be in every state, so only tasks take an induction.
  have hconfined {r : Round D} (hr : Reaches s (Round.start s graph calls) r)
      (htasks : ∀ x, r.tasks.contains x = true → x ∈ scope s graph requested) :
      Confined s (scope s graph requested) r := by
    refine ⟨htasks, fun x hx d hd => ?_, fun k rest t f hh hq ht hm hf batch hbatch d hd => ?_⟩
    · have hmemo := (Atomic.of_reaches hr).memo_of_task hx
      rw [(Node.memo_eq_iff.mp hmemo).2.2.1] at hd
      exact mem_scope.mpr (.inr (.inr (hg.mirrored.contains_of_dep hd).2))
    · exact mem_scope.mpr (.inl (hall r hr k rest t f hh hq ht hm hf batch hbatch d hd))
  induction hr with
  | refl =>
      exact .inr (hconfined .refl fun x hx => mem_scope.mpr (.inr (.inl (mem_roots_of_start hx))))
  | @tail r₁ r₂ hr₁ hstep ih =>
      cases hh : r₁.halted with
      | true => exact .inl (halted_step hh hstep)
      | false =>
          have hconfined₁ := ih.resolve_left (by simp [hh])
          have hspends := spends_of_step ih (.of_reaches hg hb hr₁) (tally_of_reaches hr₁) hstep
          exact (hspends.tasks hconfined₁.tasks).imp_right (hconfined (hr₁.tail hstep))

/-- A round whose functions request finitely many keys ends. -/
theorem runs_of_requests (hg : graph.Grounded s.version) (hb : graph.Before s.version)
    {requested : Finset D.Key}
    (hall : ∀ r, Reaches s (Round.start s graph calls) r → r.RequestsWithin s requested) :
    ∃ enough r', ∀ budget, enough ≤ budget →
      Round.run s budget (Round.start s graph calls) = some r' := by
  refine runs_of_measure (effort (scope s graph requested)) fun r hr r' hstep => ?_
  exact (spends_of_step (confined_of_reaches hg hb hall hr) (.of_reaches hg hb hr)
    (tally_of_reaches hr) hstep).effort_lt

end Round

end MemoGraph
