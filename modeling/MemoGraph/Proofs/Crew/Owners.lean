import Mathlib.Data.Multiset.Bind
import MemoGraph.Proofs.Crew.Effects

/-!
# Every key is in one pair of hands

A key that can go on is in the queue or in the hands of one worker, and nowhere twice.  It gets
there when it comes under evaluation or when the last signal wakes it, and both happen only to keys
that were not there.  It stays there until its worker has completed it or leaves it waiting.  The
lead, which fails members of cycles, does so only while all the others are idle.
-/

set_option autoImplicit false

namespace MemoGraph

variable {D : Domain} {s : Setting D} {l : Live D}

/-! ## Who leads -/

/-- Whether a worker goes on breaking cycles. -/
def Next.leads : Next D → Bool
  | .signalling _ after => after.leads
  | .reading _ _ _ | .opening _ => false

namespace Stage

/-- Whether the worker is the lead, breaking cycles. -/
def solo : Stage D → Bool
  | .breaking _ _ => true
  | .recording _ _ _ after | .relinking _ _ _ _ after | .publishing _ _ after
  | .slowing _ _ after | .reporting _ _ _ after | .signalling _ after => after.leads
  | .touching _ next | .announcing _ next | .queueing _ next | .sending _ next => next.leads
  | _ => false

theorem solo_of_leads {st : Stage D} (h : st.leads = true) : st.solo = true := by
  cases st with
  | recording _ _ _ _ | relinking _ _ _ _ _ | publishing _ _ _ => exact h
  | _ => cases h

theorem solo_next (next : Next D) : next.stage.solo = next.leads := by
  cases next with
  | reading _ _ _ | signalling _ _ | opening _ => rfl

theorem solo_after (after : After D) : after.stage.solo = after.leads := by
  cases after with
  | idle | breaking _ _ => rfl

/-- No worker begins to break cycles on its own. -/
theorem solo_step {st st' : Stage D} {l' : Live D} (hstep : Advances s l st l' st')
    (h : st.solo = false) : st'.solo = false := by
  cases hstep with
  | looks hstep | judges hstep | concludes hstep => cases hstep with | _ => rfl
  | @runs k inv recipe l' st hstep =>
      cases recipe with
      | _ =>
          obtain ⟨-, rfl⟩ := Prod.mk.inj hstep
          rfl
  | signalled =>
      rw [solo_after]
      exact h
  | signals hstep => cases hstep with | _ => exact h
  | declines | sends =>
      rw [solo_next]
      exact h
  | broke | breaks _ => cases h
  | _ => exact h

end Stage

/-- Who may take a step: either all others are idle, or nobody breaks cycles. -/
def Orderly (st : Stage D) (others : Multiset (Stage D)) : Prop :=
  (∀ other ∈ others, other = .idle) ∨ ∀ other ∈ st ::ₘ others, other.solo = false

/-! ## Keys in hand -/

/-- The keys in the hands of a worker. -/
def Stage.held (st : Stage D) : Multiset D.Key :=
  st.carried.toList ++ if st.leads then [] else st.subject.toList

/-- The keys in the queue and in the hands of workers. -/
def Live.tokens (l : Live D) (ts : Multiset (Stage D)) : Multiset D.Key :=
  l.queue + ts.bind Stage.held

/-- A key that can go on, or that was completed while it was queued. -/
def Entry.Ready (e : Entry D) : Prop :=
  (∃ b, e.building = some b ∧ b.task.active = true) ∨
    (e.building = none ∧ e.base.isComplete = true)

theorem Entry.Nudged.ready {e e' : Entry D} (h : e.Nudged e') (hr : e.Ready) : e'.Ready := by
  rcases hr with ⟨b, hb, hactive⟩ | ⟨hb, hc⟩
  · obtain ⟨b', hb', -, -, -, hmono⟩ := h.kept b hb
    exact .inl ⟨b', hb', hmono hactive⟩
  · exact .inr ⟨h.building_of_complete hb hc, (Node.isComplete_of_memo_eq h.memo).trans hc⟩

/-- A key that comes under evaluation could not go on before. -/
theorem Entry.Sound.not_ready {e : Entry D} (h : e.Sound) (hb : e.begins = true) : ¬ e.Ready := by
  rcases begin_cases e with ⟨hb', -⟩ | ⟨status, -, hstatus, hphase, -⟩
  · rw [hb'] at hb
    cases hb
  · rcases h.cases with ⟨-, -, hnone⟩ | ⟨-, hphase', -, -⟩
    · rintro (⟨b, hb, -⟩ | ⟨-, hc⟩)
      · rw [hnone] at hb
        cases hb
      · have hstatus' : e.base.status = .current := of_decide_eq_true hc
        rw [base_of_resting hnone, node, Entry.status, hphase] at hstatus'
        exact hstatus hstatus'
    · rw [hphase] at hphase'
      cases hphase'

/-- A key that comes under evaluation can go on. -/
theorem Entry.ready_begin {e : Entry D} (hb : e.begins = true) : e.begin.Ready := by
  rcases begin_cases e with ⟨hb', -⟩ | ⟨status, -, -, -, hbegin⟩
  · rw [hb'] at hb
    cases hb
  · rw [hbegin]
    exact .inl ⟨_, rfl, rfl⟩

theorem Entry.ready_await {e : Entry D} (h : e.Ready) (reader : D.Key) :
    (e.await reader).2.Ready := by
  rcases await_cases e reader with he | he
  · rw [he]
    exact h
  · rw [he]
    exact (Nudged.retask fun b _ => ⟨rfl, .inl rfl, id⟩).ready h

/-- What is in hand after a step was there before, but for one key that could not go on before. -/
def Live.HandsOn (l : Live D) (st : Stage D) (l' : Live D) (st' : Stage D) : Prop :=
  (l'.queue : Multiset D.Key) + st'.held ≤ l.queue + st.held ∨
    ∃ x, ¬ (l.entry x).Ready ∧ (l'.entry x).Ready ∧
      (l'.queue : Multiset D.Key) + st'.held ≤ x ::ₘ (l.queue + st.held)

section HandsOn

variable {l' : Live D} {st st' : Stage D}

theorem Live.HandsOn.of_le (hq : l'.queue = l.queue) (h : st'.held ≤ st.held) :
    l.HandsOn st l' st' := by
  refine .inl ?_
  rw [hq]
  exact add_le_add_right h _

theorem Live.HandsOn.gain {x : D.Key} (hq : l'.queue = l.queue) (hx : ¬ (l.entry x).Ready)
    (hx' : (l'.entry x).Ready) (h : st'.held ≤ x ::ₘ st.held) : l.HandsOn st l' st' := by
  refine .inr ⟨x, hx, hx', ?_⟩
  rw [hq, ← Multiset.add_cons]
  exact add_le_add_right h _

end HandsOn

@[simp] theorem Stage.held_after (after : After D) : after.stage.held = 0 := by
  cases after with
  | idle | breaking _ _ => rfl

theorem Stage.held_next (next : Next D) :
    next.stage.held = (next.subject.toList : Multiset D.Key) := by
  cases next with
  | reading _ _ _ | signalling _ _ | opening _ => rfl

theorem Advances.handsOn {l' : Live D} {st st' : Stage D} (h : Advances s l st l' st')
    (hs : ∀ x, (l.entry x).Sound) : l.HandsOn st l' st' := by
  cases h with
  | @fetches k rest hq =>
      refine .inl (le_of_eq ?_)
      rw [hq]
      exact Multiset.coe_eq_coe.mpr
        (by simp [Stage.carried, Stage.leads, Stage.subject])
  | @looks k dep rest reader l' st' h =>
      cases h with
      | begun enlisted _ hbegins =>
          refine .gain (x := dep) rfl ((hs dep).not_ready hbegins) ?_ le_rfl
          rw [Live.entry_put_self]
          exact Entry.ready_await (Entry.ready_begin hbegins) k
      | _ => exact .of_le rfl le_rfl
  | judges h =>
      cases h with
      | gone _ | parked _ _ _ => exact .of_le rfl (Multiset.zero_le _)
      | _ => exact .of_le rfl le_rfl
  | @runs k inv recipe l' st' h =>
      cases recipe with
      | crash payload =>
          obtain ⟨rfl, rfl⟩ := Prod.mk.inj h
          exact .of_le rfl (Multiset.zero_le _)
      | _ =>
          obtain ⟨rfl, rfl⟩ := Prod.mk.inj h
          exact .of_le rfl le_rfl
  | concludes h =>
      cases h with
      | again _ _ _ _ _ | completes _ _ _ _ _ => exact .of_le rfl le_rfl
      | _ => exact .of_le rfl (Multiset.zero_le _)
  | signalled => exact .of_le rfl (by rw [Stage.held_after]; exact Multiset.zero_le _)
  | @signals waiter rest after l' st' h =>
      cases h with
      | @woken b t hb hmode hrequested hinactive hactive =>
          refine .gain (x := waiter) rfl ?_ ?_ le_rfl
          · rintro (⟨b', hb', hactive'⟩ | ⟨hnone, -⟩)
            · obtain rfl := Option.some.inj (hb.symm.trans hb')
              rw [hinactive] at hactive'
              cases hactive'
            · rw [hb] at hnone
              cases hnone
          · rw [Live.retask, Live.entry_put_self]
            exact .inl ⟨{ b with task := t }, by rw [Entry.building_retask, hb]; rfl, hactive⟩
      | _ => exact .of_le rfl le_rfl
  | @declines k next =>
      refine .of_le rfl ?_
      rw [Stage.held_next]
      exact Multiset.le_cons_self _ k
  | @sends k next =>
      refine .inl (le_of_eq ?_)
      rw [Stage.held_next]
      exact Multiset.coe_eq_coe.mpr (by simp [Stage.carried, Stage.leads, Stage.subject])
  | @begins root roots hbegins =>
      refine .gain (x := root) rfl ((hs root).not_ready hbegins) ?_ le_rfl
      rw [Live.entry_put_self]
      exact Entry.ready_begin hbegins
  | breaks h =>
      cases h with
      | _ => exact .of_le rfl (Multiset.zero_le _)
  | skips _ | halts _ | drops _ | cutGroup _ | lacks _ | forgets _ | publishes | fails | confirms =>
      exact .of_le rfl (Multiset.zero_le _)
  | _ => exact .of_le rfl le_rfl

/-! ## The key that a worker is in the middle of -/

/-- What becomes of the key that a worker is in the middle of. -/
inductive Keeps (l : Live D) (k : D.Key) (st : Stage D) (l' : Live D) (st' : Stage D) : Prop where
  /-- it goes on -/
  | on {b' : Building D} : (l'.entry k).building = some b' →
      (∀ b, (l.entry k).building = some b → b.task.active = true → b'.task.active = true) →
      Keeps l k st l' st'
  /-- it completes -/
  | done : (l'.entry k).building = none → (l'.entry k).base.isComplete = true →
      st'.subject = none → Keeps l k st l' st'
  /-- it has to wait -/
  | left {b' : Building D} : (l'.entry k).building = some b' → st.held = {k} → st'.held = 0 →
      st'.subject = none → l'.queue = l.queue → Keeps l k st l' st'

theorem Keeps.of_building {l' : Live D} {st st' : Stage D} {k : D.Key} {b : Building D}
    (hb : (l.entry k).building = some b) (h : (l'.entry k).building = (l.entry k).building) :
    Keeps l k st l' st' :=
  .on (h.trans hb) fun b' hb' hactive => by rwa [Option.some.inj (hb.symm.trans hb')]

theorem building_retask_self {k : D.Key} {b : Building D} (hb : (l.entry k).building = some b)
    (t : Task D) : ((l.retask k t).entry k).building = some { b with task := t } := by
  rw [Live.retask, Live.entry_put_self, Entry.building_retask, hb]
  rfl

theorem Keeps.of_retask {st st' : Stage D} {k : D.Key} {b : Building D} {t : Task D}
    (hb : (l.entry k).building = some b) (h : t.active = b.task.active) :
    Keeps l k st (l.retask k t) st' :=
  .on (building_retask_self hb t) fun b' hb' hactive => by
    obtain rfl := Option.some.inj (hb.symm.trans hb')
    exact h.trans hactive

theorem Keeps.of_nudged {l' : Live D} {st st' : Stage D} {k : D.Key} {b : Building D}
    (hb : (l.entry k).building = some b) (h : (l.entry k).Nudged (l'.entry k)) :
    Keeps l k st l' st' := by
  obtain ⟨b', hb', -, -, -, hactive⟩ := h.kept b hb
  refine .on hb' fun b₁ hb₁ hactive₁ => hactive ?_
  rwa [Option.some.inj (hb.symm.trans hb₁)]

theorem Advances.keeps {l' : Live D} {st st' : Stage D} (h : Advances s l st l' st')
    (hs : ∀ x, (l.entry x).Sound) {k : D.Key} (hk : st.subject = some k) {b : Building D}
    (hb : (l.entry k).building = some b) : Keeps l k st l' st' := by
  cases h with
  | creates => exact .of_building hb (congrArg Entry.building (Store.entry_create l.store _ k))
  | @looks k' dep rest reader l' st' h =>
      have hasked : (l.entry k).Nudged ((l.put dep ((l.entry dep).begin.await k').2).entry k) := by
        rw [Live.entry_put]
        split
        · rename_i heq
          rw [heq]
          exact .ask (hs dep) k'
        · exact .refl _
      cases h with
      | value _ | failed _ => exact .of_building hb rfl
      | pending _ _ _ | begun _ _ _ => exact .of_nudged hb hasked
  | judges h =>
      obtain rfl := Option.some.inj hk
      cases h with
      | gone _ => exact .of_building hb rfl
      | parked hb' _ _ => exact .left (building_retask_self hb' _) rfl rfl rfl rfl
      | changed hb' _ _ hactive | passed hb' _ _ _ _ hactive | again hb' _ _ hactive =>
          exact .of_retask hb' hactive
  | calls _ =>
      obtain rfl := Option.some.inj hk
      refine .of_nudged hb ?_
      rw [Live.entry_put_self]
      exact .retask fun b _ => ⟨rfl, .inl rfl, id⟩
  | runs h =>
      rw [Recipe.live_turn h]
      exact .of_building hb rfl
  | concludes h =>
      obtain rfl := Option.some.inj hk
      cases h with
      | gone _ | crashed _ => exact .of_building hb rfl
      | waits hb' _ _ _ => exact .left (building_retask_self hb' _) rfl rfl rfl rfl
      | doomed _ hb' _ _ _ hactive | again hb' _ _ _ hactive | completes hb' _ _ _ hactive =>
          exact .of_retask hb' hactive
  | records =>
      obtain rfl := Option.some.inj hk
      exact .of_building hb (by rw [Live.entry_put_self])
  | @unlinks _ dep _ _ _ _ =>
      refine .of_building hb ?_
      rw [Live.entry, Store.entry_adjust]
      split
      · rename_i heq
        rw [heq.1]
        rfl
      · rfl
  | @links _ dep _ _ _ =>
      refine .of_building hb ?_
      rw [Live.entry, Store.entry_update]
      split
      · rename_i heq
        rw [heq]
        rfl
      · rfl
  | publishes | fails =>
      obtain rfl := Option.some.inj hk
      refine .done ?_ ?_ rfl
      · rw [Live.entry_put_self]
        rfl
      · rw [Live.entry_put_self, Entry.base_publish]
        rfl
  | confirms =>
      obtain rfl := Option.some.inj hk
      refine .done ?_ ?_ rfl
      · rw [Live.entry_put_self]
        rfl
      · rw [Live.entry_put_self, Entry.base_confirm]
        rfl
  | rests _ | fetches _ | skips _ | admits | halts _ | proceeds _ | drops _ | rebuilds _ _
  | checks _ _ | slows | reports | signalled | signals _ | dooms | spreads | opened | opens
  | begins _ | passesBy _ | broke | breaks _ => cases hk
  | _ => exact .of_building hb rfl

/-- Where the worker is in the middle of another key than before, that key is under evaluation. -/
theorem Advances.takes {l' : Live D} {st st' : Stage D} (h : Advances s l st l' st') {k : D.Key}
    (hk : st.subject ≠ some k) (hk' : st'.subject = some k) : ∃ b, (l.entry k).building = some b ∧
      (l'.entry k).building ≠ none := by
  cases h with
  | rebuilds hb _ | checks hb _ =>
      obtain rfl := Option.some.inj hk'
      exact ⟨_, hb, by rw [hb]; simp⟩
  | looks h => cases h with | _ => exact absurd hk' hk
  | judges h =>
      cases h with
      | gone _ | parked _ _ _ | changed _ _ _ _ => cases hk'
      | _ => exact absurd hk' hk
  | @runs _ _ recipe _ _ h =>
      cases recipe with
      | crash payload =>
          obtain ⟨-, rfl⟩ := Prod.mk.inj h
          cases hk'
      | _ =>
          obtain ⟨-, rfl⟩ := Prod.mk.inj h
          exact absurd hk' hk
  | concludes h =>
      cases h with
      | again _ _ _ _ _ | completes _ _ _ _ _ => exact absurd hk' hk
      | _ => cases hk'
  | signalled =>
      rw [Stage.subject_after] at hk'
      cases hk'
  | signals h => cases h with | _ => cases hk'
  | declines | sends =>
      rw [Stage.subject_next] at hk'
      exact absurd hk' hk
  | breaks h =>
      cases h with
      | gone _ => cases hk'
      | rebuilt hb _ _ _ _ =>
          obtain rfl := Option.some.inj hk'
          exact ⟨_, hb, by rw [building_retask_self hb]; simp⟩
      | checked hb =>
          obtain rfl := Option.some.inj hk'
          exact ⟨_, hb, by rw [hb]; simp⟩
  | rests _ | fetches _ | skips _ | admits | halts _ | proceeds _ | drops _ | cutGroup _ | lacks _
  | forgets _ | publishes | fails | confirms | slows | reports | dooms | spreads | opened | opens
  | begins _ | passesBy _ | broke => cases hk'
  | _ => exact absurd hk' hk

/-! ## Ownership -/

/-- Nothing is in two pairs of hands, only keys that can go on are in any, and a worker is in the
middle of keys under evaluation only. -/
structure Owned (l : Live D) (ts : Multiset (Stage D)) : Prop where
  /-- All entries are sound. -/
  sound : ∀ x, (l.entry x).Sound
  /-- No key is in hand twice. -/
  nodup : (l.tokens ts).Nodup
  /-- Keys in hand can go on. -/
  ready : ∀ x ∈ l.tokens ts, (l.entry x).Ready
  /-- A key that a worker is in the middle of is under evaluation. -/
  building : ∀ st ∈ ts, ∀ k, st.subject = some k → ∃ b, (l.entry k).building = some b

theorem Live.tokens_cons (l : Live D) (st : Stage D) (others : Multiset (Stage D)) :
    l.tokens (st ::ₘ others) = l.queue + st.held + others.bind Stage.held := by
  rw [tokens, Multiset.cons_bind, add_assoc]

namespace Owned

variable {l' : Live D} {st st' : Stage D} {others : Multiset (Stage D)}

/-- No two workers are in the middle of the same key. -/
theorem unique (h : Owned l (st ::ₘ others)) (ho : Orderly st others) {k : D.Key}
    (hk : st.subject = some k) {other : Stage D} (hmem : other ∈ others) :
    other.subject ≠ some k := by
  intro hk'
  rcases ho with hidle | hsolo
  · rw [hidle other hmem] at hk'
    cases hk'
  · have hheld {st : Stage D} (hsolo : st.solo = false) (hk : st.subject = some k) :
        k ∈ st.held := by
      have hleads : st.leads = false := by
        cases hl : st.leads with
        | false => rfl
        | true =>
            rw [Stage.solo_of_leads hl] at hsolo
            cases hsolo
      simp [Stage.held, hleads, hk]
    have hnodup := h.nodup
    rw [Live.tokens_cons, Multiset.nodup_add] at hnodup
    refine Multiset.disjoint_left.mp hnodup.2.2
      (Multiset.mem_add.mpr (.inr (hheld (hsolo st (Multiset.mem_cons_self _ _)) hk))) ?_
    exact Multiset.mem_bind.mpr
      ⟨other, hmem, hheld (hsolo other (Multiset.mem_cons_of_mem hmem)) hk'⟩

theorem nudged (h : Owned l (st ::ₘ others)) (ho : Orderly st others)
    (hstep : Advances s l st l' st') {other : Stage D} (hmem : other ∈ others) {k : D.Key}
    (hk : other.subject = some k) : (l.entry k).Nudged (l'.entry k) :=
  nudged_step h.sound hstep fun hst => h.unique ho hst hmem hk

theorem step (h : Owned l (st ::ₘ others)) (ho : Orderly st others)
    (hstep : Advances s l st l' st') : Owned l' (st' ::ₘ others) := by
  obtain ⟨hs, hnodup, hready, hbuilding⟩ := h
  rw [Live.tokens_cons] at hnodup hready
  have hcarry : ∀ y ∈ (l'.queue + st'.held + others.bind Stage.held : Multiset D.Key),
      (l.entry y).Ready → (l'.entry y).Ready := by
    intro y hy hr
    by_cases hsubject : st.subject = some y
    · obtain ⟨b, hb⟩ := hbuilding st (Multiset.mem_cons_self _ _) y hsubject
      cases hstep.keeps hs hsubject hb with
      | on hb' hactive =>
          rcases hr with ⟨b₁, hb₁, hactive₁⟩ | ⟨hnone, -⟩
          · exact .inl ⟨_, hb', hactive b₁ hb₁ hactive₁⟩
          · rw [hb] at hnone
            cases hnone
      | done hnone hc _ => exact .inr ⟨hnone, hc⟩
      | left _ hheld hheld' _ hq =>
          -- The key was in the hands of the worker, so it is nowhere now.
          rw [hheld', hq, add_zero] at hy
          rw [hheld, add_right_comm, add_comm, Multiset.singleton_add,
            Multiset.nodup_cons] at hnodup
          exact absurd hy hnodup.1
    · exact (nudged_step hs hstep hsubject).ready hr
  refine ⟨sound_step hs hstep, ?_, ?_, ?_⟩
  · rw [Live.tokens_cons]
    rcases hstep.handsOn hs with hle | ⟨x, hx, -, hle⟩
    · exact Multiset.nodup_of_le (add_le_add_left hle _) hnodup
    · refine Multiset.nodup_of_le (add_le_add_left hle _) ?_
      rw [Multiset.cons_add, Multiset.nodup_cons]
      exact ⟨fun hmem => hx (hready x hmem), hnodup⟩
  · rw [Live.tokens_cons]
    intro y hy
    rcases hstep.handsOn hs with hle | ⟨x, -, hx, hle⟩
    · exact hcarry y hy (hready y (Multiset.mem_of_le (add_le_add_left hle _) hy))
    · have hy' := Multiset.mem_of_le (add_le_add_left hle _) hy
      rw [Multiset.cons_add, Multiset.mem_cons] at hy'
      rcases hy' with rfl | hy'
      · exact hx
      · exact hcarry y hy (hready y hy')
  · intro other hmem k hk
    rcases Multiset.mem_cons.mp hmem with rfl | hmem
    · by_cases hsubject : st.subject = some k
      · obtain ⟨b, hb⟩ := hbuilding st (Multiset.mem_cons_self _ _) k hsubject
        cases hstep.keeps hs hsubject hb with
        | on hb' _ => exact ⟨_, hb'⟩
        | done _ _ hnone | left _ _ _ hnone _ =>
            rw [hk] at hnone
            cases hnone
      · obtain ⟨b, -, hne⟩ := hstep.takes hsubject hk
        exact Option.ne_none_iff_exists'.mp hne
    · obtain ⟨b, hb⟩ := hbuilding other (Multiset.mem_cons_of_mem hmem) k hk
      have hnudged := nudged ⟨hs, by rwa [Live.tokens_cons], by rwa [Live.tokens_cons],
        hbuilding⟩ ho hstep hmem hk
      obtain ⟨b', hb', -⟩ := hnudged.kept b hb
      exact ⟨b', hb'⟩

end Owned

end MemoGraph
