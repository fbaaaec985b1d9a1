import MemoGraph.Proofs.Crew.Steps

/-!
# What a step leaves alone

A step edits at most one entry.  Only three stages write what is stored below it: to record the
dependencies of a key, to publish its outcome and to confirm it; and the readers of a key change by
the step of a worker that is in the middle of a reader.  So a worker in the middle of a key can
reckon with a lot: its own key is left alone by all others, and what is complete stays as it is.
-/

set_option autoImplicit false

namespace MemoGraph

variable {D : Domain} {s : Setting D} {l l' : Live D}

/-- The key for which the next step writes what is stored, readers apart. -/
def Stage.writes : Stage D → Option D.Key
  | .recording k _ _ _ | .publishing k _ _ | .confirming k => some k
  | _ => none

theorem Stage.subject_of_writes {st : Stage D} {k : D.Key} (h : st.writes = some k) :
    st.subject = some k := by
  cases st with
  | recording _ _ _ _ | publishing _ _ _ | confirming _ => exact h
  | _ => cases h

/-- The key that the next step enters or erases as a reader. -/
def Stage.relinker : Stage D → Option D.Key
  | .relinking k _ _ _ _ => some k
  | _ => none

theorem Stage.subject_of_relinker {st : Stage D} {k : D.Key} (h : st.relinker = some k) :
    st.subject = some k := by
  cases st with
  | relinking _ _ _ _ _ => exact h
  | _ => cases h

/-- What a step makes of the entry of `y`. -/
inductive Edit (s : Setting D) (l : Live D) (st : Stage D) (y : D.Key) : Entry D → Prop where
  /-- the key is asked for, and a reader may wait for it -/
  | asked (reader : D.Key) : Edit s l st y ((l.entry y).begin.await reader).2
  /-- the key is asked for by the lead -/
  | begun : Edit s l st y (l.entry y).begin
  /-- what the round keeps for the key changes; unless the worker is in the middle of the key, this
  does not concern how the key goes on -/
  | retasked (f : Task D → Task D) :
      (st.subject ≠ some y → ∀ b, (l.entry y).building = some b →
        (f b.task).mode = b.task.mode ∧
          ((f b.task).requested = b.task.requested ∨ (f b.task).requested = ∅) ∧
            (b.task.active = true → (f b.task).active = true)) →
      Edit s l st y ((l.entry y).retask f)
  /-- the dependencies are recorded -/
  | recorded {deps : DepGroups D.Key} {o : Outcome D} {after : After D} :
      st = .recording y deps o after → Edit s l st y { l.entry y with deps := deps }
  /-- a reader is entered or erased -/
  | relinked (rdeps : OrderedSet D.Key) :
      (∀ x, st.relinker ≠ some x → (x ∈ rdeps ↔ x ∈ (l.entry y).rdeps)) →
      Edit s l st y { l.entry y with rdeps := rdeps }
  /-- an outcome is published -/
  | published {o : Outcome D} {after : After D} : st = .publishing y o after →
      Edit s l st y ((l.entry y).publish o s.version)
  /-- the key is confirmed -/
  | confirmed : st = .confirming y → Edit s l st y ((l.entry y).confirm s.version)

/-- A step edits at most one entry. -/
inductive Edits (s : Setting D) (l : Live D) (st : Stage D) (l' : Live D) : Prop where
  /-- none -/
  | none : (∀ x, l'.entry x = l.entry x) → Edits s l st l'
  /-- one -/
  | one {y : D.Key} {e : Entry D} : Edit s l st y e →
      (∀ x, l'.entry x = if x = y then e else l.entry x) → Edits s l st l'

theorem Edits.put {st : Stage D} {y : D.Key} {e : Entry D} (h : Edit s l st y e) :
    Edits s l st (l.put y e) :=
  .one h fun x => l.entry_put y x e

theorem Edits.retask {st : Stage D} {y : D.Key} {b : Building D} {t : Task D}
    (hb : (l.entry y).building = some b)
    (h : st.subject ≠ some y → t.mode = b.task.mode ∧
      (t.requested = b.task.requested ∨ t.requested = ∅) ∧
        (b.task.active = true → t.active = true)) : Edits s l st (l.retask y t) := by
  refine .put (.retasked (fun _ => t) fun hne b' hb' => ?_)
  obtain rfl := Option.some.inj (hb.symm.trans hb')
  exact h hne

/-- A function only asks for things while it runs. -/
theorem Recipe.live_turn {recipe : Recipe D} {k : D.Key} {inv : Invocation D} {st : Stage D}
    (h : recipe.turn s l k inv = (l', st)) : l' = { l with interrupted := l'.interrupted } := by
  cases recipe with
  | _ =>
      obtain ⟨rfl, -⟩ := Prod.mk.inj h
      rfl

theorem edits_of_store (st : Stage D) (h : l'.store = l.store) : Edits s l st l' :=
  .none fun x => by rw [Live.entry, h, Live.entry]

theorem Advances.edits {st st' : Stage D} (h : Advances s l st l' st') : Edits s l st l' := by
  cases h with
  | creates | opens => exact .none fun x => Store.entry_create l.store _ x
  | looks h =>
      cases h with
      | value _ | failed _ => exact edits_of_store _ rfl
      | pending _ _ _ | begun _ _ _ => exact .put (.asked _)
  | judges h =>
      cases h with
      | gone _ => exact edits_of_store _ rfl
      | changed hb _ _ _ | parked hb _ _ | passed hb _ _ _ _ _ | again hb _ _ _ =>
          exact .retask hb fun hne => absurd rfl hne
  | calls _ => exact .put (.retasked _ fun hne => absurd rfl hne)
  | runs h =>
      rw [Recipe.live_turn h]
      exact edits_of_store _ rfl
  | concludes h =>
      cases h with
      | gone _ | crashed _ => exact edits_of_store _ rfl
      | doomed _ hb _ _ _ _ | waits hb _ _ _ | again hb _ _ _ _ | completes hb _ _ _ _ =>
          exact .retask hb fun hne => absurd rfl hne
  | records => exact .put (.recorded rfl)
  | @unlinks k dep _ _ _ _ =>
      refine .one (.relinked ((l.entry dep).rdeps.erase k) fun x hx => ?_) fun x =>
        Store.entry_adjust_of_fresh rfl l.store dep x
      have hne : x ≠ k := fun h => hx (congrArg some h.symm)
      simp [hne]
  | @links k dep _ _ _ =>
      refine .one (.relinked ((l.entry dep).rdeps.insert k) fun x hx => ?_) fun x =>
        Store.entry_update l.store dep x _
      have hne : x ≠ k := fun h => hx (congrArg some h.symm)
      simp [hne]
  | publishes | fails => exact .put (.published rfl)
  | confirms => exact .put (.confirmed rfl)
  | signals h =>
      cases h with
      | gone _ => exact edits_of_store _ rfl
      | counted hb hmode hrequested hactive =>
          exact .retask hb fun _ => ⟨hmode, .inl hrequested, fun h => hactive.trans h⟩
      | woken hb hmode hrequested _ hactive =>
          exact .retask hb fun _ => ⟨hmode, .inl hrequested, fun _ => hactive⟩
  | begins _ | passesBy _ => exact .put .begun
  | breaks h =>
      cases h with
      | gone _ | checked _ => exact edits_of_store _ rfl
      | rebuilt hb _ hmode hrequested hactive =>
          exact .retask hb fun _ => ⟨hmode, .inr hrequested, fun h => hactive.trans h⟩
  | _ => exact edits_of_store _ rfl

/-! ## Consequences -/

namespace Edit

variable {st : Stage D} {y : D.Key} {e : Entry D}

theorem sound (h : Edit s l st y e) (hs : (l.entry y).Sound) : e.Sound := by
  cases h with
  | asked reader => exact hs.begin.await reader
  | begun => exact hs.begin
  | retasked f _ => exact hs.retask f
  | recorded _ | relinked _ _ => exact hs
  | published _ | confirmed _ => exact Entry.sound_ofNode _

/-- Unless a stage writes, what is stored stays, readers apart. -/
theorem memo (h : Edit s l st y e) (hs : (l.entry y).Sound) (hw : st.writes ≠ some y) :
    e.base.memo = (l.entry y).base.memo := by
  cases h with
  | asked reader => rw [Entry.base_await, hs.base_begin]
  | begun => rw [hs.base_begin]
  | retasked f _ => rw [Entry.base_retask]
  | relinked rdeps _ => exact (Entry.Nudged.relink _ rdeps).memo
  | recorded hst | published hst | confirmed hst =>
      rw [hst] at hw
      exact absurd rfl hw

/-- A reader is entered and erased by nobody but its worker. -/
theorem mem_rdeps (h : Edit s l st y e) (hs : (l.entry y).Sound) {x : D.Key}
    (hx : st.relinker ≠ some x) : x ∈ e.base.rdeps ↔ x ∈ (l.entry y).base.rdeps := by
  cases h with
  | asked reader => rw [Entry.base_await, hs.base_begin]
  | begun => rw [hs.base_begin]
  | retasked f _ => rw [Entry.base_retask]
  | relinked rdeps h =>
      have hx := h x hx
      rw [Entry.base_eq, Entry.base_eq (l.entry y)]
      exact hx
  | recorded hst => rw [Entry.base_eq, Entry.base_eq (l.entry y)]; rfl
  | published hst =>
      rw [Entry.base_publish]
      rfl
  | confirmed hst =>
      rw [Entry.base_confirm]
      rfl

/-- To all keys but the one a worker is in the middle of, it gives a nudge at most. -/
theorem nudged (h : Edit s l st y e) (hs : (l.entry y).Sound) (hy : st.subject ≠ some y) :
    (l.entry y).Nudged e := by
  cases h with
  | asked reader => exact .ask hs reader
  | begun => exact .begin hs
  | retasked f hf => exact .retask (hf hy)
  | relinked rdeps _ => exact .relink _ rdeps
  | recorded hst | published hst | confirmed hst =>
      rw [hst] at hy
      exact absurd rfl hy

end Edit

section Step

variable (hs : ∀ x, (l.entry x).Sound) {st st' : Stage D} (h : Advances s l st l' st')

include hs h

theorem sound_step (x : D.Key) : (l'.entry x).Sound := by
  cases h.edits with
  | none h =>
      rw [h]
      exact hs x
  | one h hx =>
      rw [hx]
      split
      · exact h.sound (hs _)
      · exact hs x

theorem memo_step {x : D.Key} (hw : st.writes ≠ some x) :
    (l'.graph.node x).memo = (l.graph.node x).memo := by
  rw [Live.node_graph, Live.node_graph]
  cases h.edits with
  | none h => rw [h]
  | one h hx =>
      rw [hx]
      split
      · rename_i heq
        rw [heq]
        exact h.memo (hs _) (heq ▸ hw)
      · rfl

theorem mem_rdeps_step {x : D.Key} (hx : st.relinker ≠ some x) (d : D.Key) :
    x ∈ (l'.graph.node d).rdeps ↔ x ∈ (l.graph.node d).rdeps := by
  rw [Live.node_graph, Live.node_graph]
  cases h.edits with
  | none h => rw [h]
  | one h hd =>
      rw [hd]
      split
      · rename_i heq
        rw [heq]
        exact h.mem_rdeps (hs _) hx
      · exact Iff.rfl

theorem nudged_step {x : D.Key} (hx : st.subject ≠ some x) :
    (l.entry x).Nudged (l'.entry x) := by
  cases h.edits with
  | none h =>
      rw [h]
      exact .refl _
  | one h hd =>
      rw [hd]
      split
      · rename_i heq
        subst heq
        exact h.nudged (hs _) hx
      · exact .refl _

end Step

end MemoGraph
