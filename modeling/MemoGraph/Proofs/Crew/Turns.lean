import MemoGraph.Proofs.Crew.Owners

/-!
# The course of a round with several workers

Up to its end a round consists of steps of single workers and of wishes to stop, and the lead goes
on to break cycles while all the workers are idle.  Whatever holds when a round starts and is kept
by these holds throughout.  When the round ends, everybody is idle, and evaluations that did not
complete are taken back.
-/

set_option autoImplicit false

namespace MemoGraph

variable {D : Domain} {s : Setting D}

/-- The stage of the lead: idle while it does nothing but look. -/
def Lead.stage : Lead D → Stage D
  | .acting st => st
  | .surveying | .over _ => .idle

namespace Crew

/-- The stages of the lead and of the workers. -/
def stages (c : Crew D) : Multiset (Stage D) := c.lead.stage ::ₘ (c.workers : Multiset (Stage D))

/-- Whether the round is over. -/
def IsOver (c : Crew D) : Prop := ∃ verdict, c.lead = .over verdict

/-- The states of a round, from its start on. -/
def Reaches (s : Setting D) (c c' : Crew D) : Prop := Relation.ReflTransGen (Step s) c c'

/-- Either the workers are idle, or the lead waits for them and nobody breaks cycles. -/
def Calm (c : Crew D) : Prop :=
  (∀ st ∈ c.workers, st = .idle) ∨
    (c.lead = .acting .idle ∧ ∀ st ∈ c.workers, st.solo = false)

/-- What happens in a round up to its end. -/
inductive Move (s : Setting D) (c c' : Crew D) : Prop where
  /-- somebody takes a step -/
  | works {st st' : Stage D} {others : Multiset (Stage D)} : c.stages = st ::ₘ others →
      Orderly st others → Advances s c.live st c'.live st' → c'.stages = st' ::ₘ others →
      Move s c c'
  /-- the round is asked to stop, or the lead goes on to look for cycles -/
  | notes {stop : Bool} : (c.live.interrupted = true → stop = true) →
      c'.live = { c.live with interrupted := stop } → c'.stages = c.stages → Move s c c'
  /-- the lead begins to break cycles -/
  | breaks {found : List (Cycle D.Key)} {members : List D.Key} {others : Multiset (Stage D)} :
      c.stages = .idle ::ₘ others → (∀ other ∈ others, other = .idle) → c'.live = c.live →
      c'.stages = .breaking found members ::ₘ others → Move s c c'

/-- What is left when a round ends. -/
structure Ends (c c' : Crew D) : Prop where
  /-- Everybody is idle. -/
  idle : ∀ st ∈ c.stages, st = .idle
  /-- Evaluations that did not complete are taken back. -/
  store : c'.live.store = c.live.store.abandonAll c.live.touched.toList
  /-- Nothing else happens. -/
  log : c'.live.log = c.live.log

theorem stages_acting {c : Crew D} {st : Stage D} (h : c.lead = .acting st) :
    c.stages = st ::ₘ (c.workers : Multiset (Stage D)) := by
  rw [stages, h]
  rfl

theorem ends_finish {c : Crew D} (hl : c.lead.stage = .idle) (hw : ∀ st ∈ c.workers, st = .idle)
    (verdict : Except (Abort D.Key) (Report D)) : c.Ends (c.finish verdict) where
  idle st hst := by
    rcases Multiset.mem_cons.mp hst with rfl | hst
    · exact hl
    · exact hw st hst
  store := rfl
  log := rfl

/-- A step of a worker while the lead waits. -/
theorem move_of_worker {c : Crew D} (hlead : c.lead = .acting .idle)
    (hsolo : ∀ st ∈ c.workers, st.solo = false) {i : Nat} {st st' : Stage D} {l' : Live D}
    (hst : c.workers[i]? = some st) (hstep : Advances s c.live st l' st') :
    c.Move s { c with live := l', workers := c.workers.set i st' } ∧
      ({ c with live := l', workers := c.workers.set i st' } : Crew D).Calm ∧
        ¬ ({ c with live := l', workers := c.workers.set i st' } : Crew D).IsOver := by
  obtain ⟨hi, rfl⟩ := List.getElem?_eq_some_iff.mp hst
  obtain ⟨before, after, hworkers, -, hset⟩ : ∃ before after,
      c.workers = before ++ c.workers[i] :: after ∧ before.length = i ∧
        c.workers.set i st' = before ++ st' :: after := List.exists_of_set hi
  have hcons (st : Stage D) : ((before ++ st :: after : List (Stage D)) : Multiset (Stage D)) =
      st ::ₘ ((before ++ after : List (Stage D)) : Multiset (Stage D)) :=
    Multiset.coe_eq_coe.mpr List.perm_middle
  have hothers : ∀ st ∈ before ++ after, st.solo = false := by
    refine fun st hst => hsolo st ?_
    rw [hworkers]
    exact ((List.sublist_cons_self _ after).append_left before).subset hst
  have hnot : ¬ ({ c with live := l', workers := c.workers.set i st' } : Crew D).IsOver := by
    rintro ⟨verdict, h⟩
    rw [hlead] at h
    cases h
  have hstages : c.stages = c.workers[i] ::ₘ .idle ::ₘ
      ((before ++ after : List (Stage D)) : Multiset (Stage D)) := by
    rw [stages, hlead, Lead.stage, Multiset.cons_swap, ← hcons, ← hworkers]
  refine ⟨.works hstages ?_ hstep ?_, .inr ⟨hlead, fun st hst => ?_⟩, hnot⟩
  · refine .inr fun st hst => ?_
    rcases Multiset.mem_cons.mp hst with rfl | hst
    · exact hsolo _ (List.getElem_mem hi)
    · rcases Multiset.mem_cons.mp hst with rfl | hst
      · rfl
      · exact hothers st hst
  · rw [stages, hset, hcons, hlead, Lead.stage, Multiset.cons_swap]
  · rw [hset, List.mem_append, List.mem_cons, or_left_comm, ← List.mem_append] at hst
    rcases hst with rfl | hst
    · exact Stage.solo_step hstep (hsolo _ (List.getElem_mem hi))
    · exact hothers st hst

/-- A step of the lead or of a worker. -/
theorem move_of_turn {c c' : Crew D} (hc : c.Calm) {i : Nat} (h : c.turn s i = some c') :
    (c.Move s c' ∧ c'.Calm ∧ ¬ c'.IsOver) ∨ (c.Ends c' ∧ c'.IsOver) := by
  unfold turn at h
  split at h
  · cases h
  · rename_i hlead
    obtain rfl := Option.some.inj h
    have hw : ∀ st ∈ c.workers, st = .idle := by
      rcases hc with hw | ⟨hacting, -⟩
      · exact hw
      · rw [hlead] at hacting
        cases hacting
    simp only [survey]
    split
    · exact .inr ⟨ends_finish (by rw [hlead]; rfl) hw _, _, rfl⟩
    · refine .inl ⟨.breaks (by rw [stages, hlead]; rfl) hw rfl rfl, .inl hw, ?_⟩
      rintro ⟨verdict, h⟩
      cases h
  · rename_i hlead
    split at h
    · rename_i hquiet
      obtain rfl := Option.some.inj h
      have hw : ∀ st ∈ c.workers, st = .idle := by
        simp only [isQuiet, Bool.and_eq_true, List.all_eq_true] at hquiet
        intro st hst
        have hidle := hquiet.2 st hst
        cases st with
        | idle => rfl
        | _ => cases hidle
      have hstage : c.lead.stage = .idle := by
        rw [hlead]
        rfl
      unfold check
      split
      · exact .inr ⟨ends_finish hstage hw _, _, rfl⟩
      · split
        · exact .inr ⟨⟨(ends_finish hstage hw (.error .interrupted)).idle, rfl, rfl⟩, _, rfl⟩
        · refine .inl ⟨.notes id rfl ?_, .inl hw, ?_⟩
          · rw [stages, stages, hstage]
            rfl
          · rintro ⟨verdict, h⟩
            cases h
    · obtain ⟨st, hst, heq⟩ := Option.map_eq_some_iff.mp h
      have hsolo : ∀ st ∈ c.workers, st.solo = false := by
        rcases hc with hw | ⟨-, hsolo⟩
        · intro st hst
          rw [hw st hst]
          rfl
        · exact hsolo
      have hc' : c' = { c with
          live := (st.step s c.live).1, workers := c.workers.set i (st.step s c.live).2 } :=
        heq.symm
      rw [hc']
      exact .inl (move_of_worker hlead hsolo hst (advances s c.live st))
  · rename_i st hne hlead
    obtain rfl := Option.some.inj h
    have hw : ∀ st ∈ c.workers, st = .idle := by
      rcases hc with hw | ⟨hacting, -⟩
      · exact hw
      · rw [hlead] at hacting
        exact absurd (Lead.acting.inj hacting) hne
    refine .inl ⟨.works (stages_acting hlead) (.inl hw) (advances s c.live st) rfl, .inl hw, ?_⟩
    rintro ⟨verdict, h⟩
    cases h

/-- What a step of a round is. -/
theorem move_of_step {c c' : Crew D} (hc : c.Calm) (h : Step s c c') :
    (c.Move s c' ∧ c'.Calm ∧ ¬ c'.IsOver) ∨ (c.Ends c' ∧ c'.IsOver) := by
  cases h with
  | turn i h => exact move_of_turn hc h
  | stop hnot => exact .inl ⟨.notes (fun _ => rfl) rfl rfl, hc, fun ⟨v, h⟩ => hnot v h⟩

theorem calm_start (s : Setting D) (graph : Graph D) (calls : Table D.Key Nat) (workers : Nat) :
    (start s graph calls workers).Calm :=
  .inl fun _ h => List.eq_of_mem_replicate h

/-- There is no step once the round is over. -/
theorem not_isOver_of_step {c c' : Crew D} (h : Step s c c') : ¬ c.IsOver := by
  rintro ⟨verdict, hover⟩
  cases h with
  | turn i h =>
      simp only [turn, hover] at h
      cases h
  | stop hnot => exact hnot verdict hover

section Course

variable {graph : Graph D} {calls : Table D.Key Nat} {workers : Nat} {c : Crew D}

/-- A round that goes on is calm; a round that is over ended in a state in which all were idle. -/
theorem calm_of_reaches (h : Reaches s (start s graph calls workers) c) :
    (c.Calm ∧ ¬ c.IsOver) ∨
      (c.IsOver ∧ ∃ c₁, Reaches s (start s graph calls workers) c₁ ∧ ¬ c₁.IsOver ∧ c₁.Ends c) := by
  induction h with
  | refl =>
      refine .inl ⟨calm_start s graph calls workers, ?_⟩
      rintro ⟨verdict, h⟩
      cases h
  | tail hr hstep ih =>
      rcases ih with ⟨hc, hnot⟩ | ⟨hover, -⟩
      · rcases move_of_step hc hstep with ⟨-, hc', hnot'⟩ | ⟨hends, hover⟩
        · exact .inl ⟨hc', hnot'⟩
        · exact .inr ⟨hover, _, hr, hnot, hends⟩
      · exact absurd hover (not_isOver_of_step hstep)

/-- What holds at the start of a round and is kept by what happens in it holds up to its end. -/
theorem course_induction {P : Live D → Multiset (Stage D) → Prop}
    (begin : P (start s graph calls workers).live
      (.opening s.roots.toList ::ₘ Multiset.replicate workers .idle))
    (works : ∀ {c st st' others l'}, Reaches s (start s graph calls workers) c → ¬ c.IsOver →
      c.stages = st ::ₘ others → Orderly st others → Advances s c.live st l' st' →
        P c.live (st ::ₘ others) → P l' (st' ::ₘ others))
    (notes : ∀ {l : Live D} {ts stop}, (l.interrupted = true → stop = true) → P l ts →
      P { l with interrupted := stop } ts)
    (breaks : ∀ {l others found members}, (∀ other ∈ others, other = .idle) →
      P l (.idle ::ₘ others) → P l (.breaking found members ::ₘ others))
    (h : Reaches s (start s graph calls workers) c) (hnot : ¬ c.IsOver) : P c.live c.stages := by
  induction h with
  | refl => exact begin
  | @tail c c' hr hstep ih =>
      have hnot₁ := not_isOver_of_step hstep
      have ih := ih hnot₁
      obtain ⟨hc, -⟩ := (calm_of_reaches hr).resolve_right fun h => hnot₁ h.1
      obtain ⟨hmove, -⟩ := (move_of_step hc hstep).resolve_right fun h => hnot h.2
      cases hmove with
      | works hstages ho hadvance hstages' =>
          rw [hstages']
          rw [hstages] at ih
          exact works hr hnot₁ hstages ho hadvance ih
      | notes hstop hlive hstages =>
          rw [hlive, hstages]
          exact notes hstop ih
      | breaks hstages hidle hlive hstages' =>
          rw [hlive, hstages']
          rw [hstages] at ih
          exact breaks hidle ih

end Course

end Crew

/-- At the start of a round nothing is under evaluation. -/
theorem Live.node_start (s : Setting D) (graph : Graph D) (calls : Table D.Key Nat)
    (workers : Nat) (k : D.Key) :
    (Crew.start s graph calls workers).live.graph.node k = graph.node k := by
  rw [node_graph, entry, Crew.start, Store.entry_ofGraph, Entry.base_ofNode]

/-! ## Ownership throughout a round -/

section Owned

variable {graph : Graph D} {calls : Table D.Key Nat} {workers : Nat} {c : Crew D}

/-- Idle workers have nothing in hand. -/
theorem bind_idle {α : Type} {f : Stage D → Multiset α} (hf : f .idle = 0)
    {ts : Multiset (Stage D)} (h : ∀ st ∈ ts, st = .idle) : ts.bind f = 0 := by
  refine Multiset.eq_zero_of_forall_notMem fun x hx => ?_
  obtain ⟨st, hst, hx⟩ := Multiset.mem_bind.mp hx
  rw [h st hst, hf] at hx
  exact Multiset.notMem_zero x hx

/-- In every state of a round before its end, every key is in one pair of hands. -/
theorem Owned.of_reaches (h : Crew.Reaches s (.start s graph calls workers) c)
    (hnot : ¬ c.IsOver) : Owned c.live c.stages := by
  refine Crew.course_induction (P := Owned) ?_ ?_ ?_ ?_ h hnot
  · refine ⟨fun x => ?_, ?_, fun x hx => ?_, fun st hst k hk => ?_⟩
    · rw [Live.entry, Crew.start, Store.entry_ofGraph]
      exact Entry.sound_ofNode _
    · rw [Live.tokens_cons, bind_idle rfl fun _ => Multiset.eq_of_mem_replicate]
      exact Multiset.nodup_zero
    · rw [Live.tokens_cons, bind_idle rfl fun _ => Multiset.eq_of_mem_replicate] at hx
      exact absurd hx (Multiset.notMem_zero x)
    · rcases Multiset.mem_cons.mp hst with rfl | hst
      · cases hk
      · rw [Multiset.eq_of_mem_replicate hst] at hk
        cases hk
  · exact fun _ _ _ ho hstep ih => ih.step ho hstep
  · exact fun _ ih => ⟨ih.sound, ih.nodup, ih.ready, ih.building⟩
  · intro l others found members _ ih
    have hsame : l.tokens (.breaking found members ::ₘ others) = l.tokens (.idle ::ₘ others) := by
      rw [Live.tokens_cons, Live.tokens_cons]
      rfl
    refine ⟨ih.sound, ?_, ?_, fun st hst k hk => ?_⟩
    · rw [hsame]
      exact ih.nodup
    · rw [hsame]
      exact ih.ready
    · rcases Multiset.mem_cons.mp hst with rfl | hst
      · cases hk
      · exact ih.building st (Multiset.mem_cons_of_mem hst) k hk

end Owned

end MemoGraph
