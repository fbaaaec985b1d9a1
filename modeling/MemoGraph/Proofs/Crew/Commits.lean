import MemoGraph.Proofs.Crew.Ground
import MemoGraph.Proofs.Round.Commits

/-!
# What a round of several workers commits

Between completing a key and telling the observer other workers get their turns, so what a round has
committed is what was told and what some worker is about to tell.  Each key is committed at most
once.  Of a key that was not, everything stored is as before the round, up to the moment in which a
worker completes it; and if it is under evaluation, it was touched, so that the end of the round
takes its evaluation back.
-/

set_option autoImplicit false

namespace MemoGraph

variable {D : Domain} {s : Setting D} {l l' : Live D} {st st' : Stage D}
  {others : Multiset (Stage D)} {events : Multiset (Event D)} {k : D.Key}

/-! ## What was told -/

/-- What a worker is about to tell. -/
def Stage.due : Stage D → Multiset (Event D)
  | .slowing k _ _ => {.completed k .failed}
  | .reporting k how _ _ => {.completed k how}
  | _ => 0

/-- What was told and what workers are about to tell. -/
def Live.told (l : Live D) (ts : Multiset (Stage D)) : Multiset (Event D) :=
  l.log + ts.bind Stage.due

/-- What is told in addition when a worker takes a step. -/
inductive News (st : Stage D) : Multiset (Event D) → Prop where
  /-- nothing -/
  | nothing : News st 0
  /-- a key came under evaluation -/
  | enqueued (k : D.Key) : News st {.enqueued k}
  /-- a function was called -/
  | called (k : D.Key) : News st {.called k}
  /-- an outcome was published -/
  | built {k : D.Key} {o : Outcome D} {after : After D} {how : Completion} :
      st = .publishing k o after → how ≠ .clean → News st {.completed k how}
  /-- a key was confirmed -/
  | clean {k : D.Key} : st = .confirming k → News st {.completed k .clean}

/-- A step of the lead between two of its tasks tells nothing. -/
theorem Live.told_breaking (l : Live D) (found : List (Cycle D.Key)) (members : List D.Key)
    (others : Multiset (Stage D)) :
    l.told (.breaking found members ::ₘ others) = l.told (.idle ::ₘ others) := by
  rw [told, told, Multiset.cons_bind, Multiset.cons_bind]
  rfl

/-- Idle workers have nothing to tell. -/
theorem Live.told_of_idle (l : Live D) {ts : Multiset (Stage D)} (h : ∀ st ∈ ts, st = .idle) :
    l.told ts = l.log := by
  rw [told, bind_idle rfl h, add_zero]

/-- Nothing is told before the round begins. -/
theorem told_start (s : Setting D) (graph : Graph D) (calls : Table D.Key Nat) (workers : Nat) :
    (Crew.start s graph calls workers).live.told
      (.opening s.roots.toList ::ₘ Multiset.replicate workers .idle) = 0 := by
  rw [Live.told, Multiset.cons_bind, bind_idle rfl fun _ => Multiset.eq_of_mem_replicate]
  rfl

/-- Whether the next step completes a key. -/
def Stage.Completes (st : Stage D) (k : D.Key) : Prop :=
  (∃ o after, st = .publishing k o after) ∨ st = .confirming k

theorem News.completes (h : News st events) {k : D.Key} {how : Completion}
    (hk : .completed k how ∈ events) : st.Completes k := by
  cases h with
  | nothing => exact absurd hk (Multiset.notMem_zero _)
  | enqueued _ | called _ =>
      rw [Multiset.mem_singleton] at hk
      cases hk
  | @built k' o after how' hst _ =>
      rw [Multiset.mem_singleton] at hk
      exact .inl ⟨o, after, (Event.completed.inj hk).1 ▸ hst⟩
  | clean hst =>
      rw [Multiset.mem_singleton] at hk
      exact .inr ((Event.completed.inj hk).1 ▸ hst)

theorem Stage.Completes.subject (h : st.Completes k) : st.subject = some k := by
  rcases h with ⟨o, after, rfl⟩ | rfl
  · rfl
  · rfl

theorem Live.completion_ne_clean (e : Entry D) (o : Outcome D) : completion e o ≠ .clean := by
  cases o with
  | value v =>
      simp only [completion]
      split
      · simp
      · simp
  | failure f => simp [completion]

theorem Advances.news (h : Advances s l st l' st') : ∃ events, News st events ∧
    (l'.log : Multiset (Event D)) + st'.due = events + (l.log + st.due) := by
  cases h with
  | invokes => exact ⟨_, .called _, rfl⟩
  | announces => exact ⟨_, .enqueued _, rfl⟩
  | @publishes k o after =>
      refine ⟨_, .built rfl (Live.completion_ne_clean (l.entry k) o), ?_⟩
      simp only [Stage.due, add_zero]
      exact add_comm _ _
  | @fails k e after =>
      refine ⟨{.completed k .failed}, .built rfl (by simp), ?_⟩
      simp only [Stage.due, add_zero]
      exact add_comm _ _
  | confirms =>
      refine ⟨_, .clean rfl, ?_⟩
      simp only [Stage.due, add_zero]
      exact add_comm _ _
  | slows => exact ⟨0, .nothing, (zero_add _).symm⟩
  | @reports k how waiters after =>
      refine ⟨0, .nothing, ?_⟩
      simp only [Stage.due, zero_add, add_zero]
      exact (Multiset.singleton_add (Event.completed k how) (l.log : Multiset (Event D))).symm.trans
        (add_comm _ _)
  | looks h | judges h | concludes h | signals h | breaks h =>
      cases h with | _ => exact ⟨0, .nothing, (zero_add _).symm⟩
  | @runs k inv recipe l' st' h =>
      refine ⟨0, .nothing, ?_⟩
      cases recipe with
      | _ =>
          obtain ⟨rfl, rfl⟩ := Prod.mk.inj h
          exact (zero_add _).symm
  | @signalled after =>
      refine ⟨0, .nothing, ?_⟩
      cases after with | _ => exact (zero_add _).symm
  | @declines k next | @sends k next =>
      refine ⟨0, .nothing, ?_⟩
      cases next with | _ => exact (zero_add _).symm
  | _ => exact ⟨0, .nothing, (zero_add _).symm⟩

theorem Advances.told (h : Advances s l st l' st') (others : Multiset (Stage D)) :
    ∃ events, News st events ∧ l'.told (st' ::ₘ others) = events + l.told (st ::ₘ others) := by
  obtain ⟨events, hnews, heq⟩ := h.news
  refine ⟨events, hnews, ?_⟩
  rw [Live.told, Live.told, Multiset.cons_bind, Multiset.cons_bind, ← add_assoc, heq, add_assoc,
    add_assoc]

/-! ## Known and touched keys -/

/-- No step forgets a key. -/
theorem Advances.contains (h : Advances s l st l' st') {k : D.Key}
    (hk : l.store.contains k = true) : l'.store.contains k = true := by
  have hput {y : D.Key} {e : Entry D} : (l.put y e).store.contains k = true := by
    rw [Live.put, Store.contains_put, hk, Bool.or_true]
  cases h with
  | creates | opens => exact Store.contains_create hk _
  | looks h =>
      cases h with
      | value _ | failed _ => exact hk
      | pending _ _ _ | begun _ _ _ => exact hput
  | judges h =>
      cases h with
      | gone _ => exact hk
      | _ => exact hput
  | concludes h =>
      cases h with
      | gone _ | crashed _ => exact hk
      | _ => exact hput
  | signals h =>
      cases h with
      | gone _ => exact hk
      | _ => exact hput
  | breaks h =>
      cases h with
      | gone _ | checked _ => exact hk
      | rebuilt _ _ _ _ _ => exact hput
  | calls _ | records | publishes | fails | confirms | begins _ | passesBy _ => exact hput
  | unlinks =>
      rw [Store.contains_adjust]
      exact hk
  | links =>
      rw [Store.update, Store.contains_put, hk, Bool.or_true]
  | runs h =>
      rw [Recipe.live_turn h]
      exact hk
  | _ => exact hk

theorem Entry.building_of_await {e : Entry D} {reader : D.Key}
    (h : (e.await reader).2.building ≠ none) : e.building ≠ none := by
  intro hnone
  rcases await_cases e reader with he | he
  · rw [he] at h
    exact h hnone
  · rw [he, building_retask, hnone] at h
    exact h rfl

theorem Entry.begin_of_not_begins {e : Entry D} (h : e.begins = false) : e.begin = e := by
  rcases begin_cases e with ⟨-, he⟩ | ⟨status, hbegins, -⟩
  · exact he
  · rw [h] at hbegins
    cases hbegins

/-- A key comes under evaluation only where it is about to be noted as touched. -/
theorem Advances.comes (h : Advances s l st l' st') {x : D.Key}
    (hx : (l'.entry x).building ≠ none) :
    (l.entry x).building ≠ none ∨ ∃ next, st' = .touching x next := by
  have hput {y : D.Key} {e : Entry D} (he : e.building ≠ none → (l.entry y).building ≠ none)
      (hx : ((l.put y e).entry x).building ≠ none) : (l.entry x).building ≠ none := by
    rw [Live.entry_put] at hx
    split at hx
    · rename_i heq
      rw [heq]
      exact he hx
    · exact hx
  have hretask {y : D.Key} {f : Task D → Task D}
      (hx : ((l.put y ((l.entry y).retask f)).entry x).building ≠ none) :
      (l.entry x).building ≠ none := by
    refine hput (fun hb hnone => ?_) hx
    rw [Entry.building_retask, hnone] at hb
    exact hb rfl
  have hbegin {y : D.Key} {e : Entry D} {next : Next D}
      (hx : ((l.put y e).entry x).building ≠ none) :
      (l.entry x).building ≠ none ∨
        ∃ next', (.touching y next : Stage D) = .touching x next' := by
    rw [Live.entry_put] at hx
    split at hx
    · rename_i heq
      rw [heq]
      exact .inr ⟨next, rfl⟩
    · exact .inl hx
  cases h with
  | creates | opens =>
      refine .inl ?_
      rwa [Live.entry, Store.entry_create] at hx
  | looks h =>
      cases h with
      | value _ | failed _ => exact .inl hx
      | pending _ _ hnot =>
          rw [Entry.begin_of_not_begins hnot] at hx
          exact .inl (hput Entry.building_of_await hx)
      | begun _ _ _ => exact hbegin hx
  | judges h =>
      cases h with
      | gone _ => exact .inl hx
      | _ => exact .inl (hretask hx)
  | concludes h =>
      cases h with
      | gone _ | crashed _ => exact .inl hx
      | _ => exact .inl (hretask hx)
  | signals h =>
      cases h with
      | gone _ => exact .inl hx
      | _ => exact .inl (hretask hx)
  | breaks h =>
      cases h with
      | gone _ | checked _ => exact .inl hx
      | rebuilt _ _ _ _ _ => exact .inl (hretask hx)
  | calls _ => exact .inl (hretask hx)
  | @records k deps _ _ => exact .inl (hput (y := k) (e := { l.entry k with deps := deps }) id hx)
  | publishes | fails | confirms => exact .inl (hput (fun h => absurd rfl h) hx)
  | unlinks =>
      refine .inl ?_
      rw [Live.entry, Store.entry_adjust] at hx
      split at hx
      · rename_i heq
        rw [heq.1]
        exact hx
      · exact hx
  | links =>
      refine .inl ?_
      rw [Live.entry, Store.entry_update] at hx
      split at hx
      · rename_i heq
        rw [heq]
        exact hx
      · exact hx
  | begins _ => exact hbegin hx
  | passesBy hnot =>
      rw [Entry.begin_of_not_begins hnot] at hx
      exact .inl (hput id hx)
  | runs h =>
      rw [Recipe.live_turn h] at hx
      exact .inl hx
  | _ => exact .inl hx

/-- A key that is about to be noted as touched was so before, or was not under evaluation. -/
theorem Advances.touching (h : Advances s l st l' st') {x : D.Key}
    (hx : x ∈ l.touched ∨ ∃ next, st = .touching x next) :
    x ∈ l'.touched ∨ ∃ next, st' = .touching x next := by
  rcases hx with hx | ⟨next, rfl⟩
  · refine .inl ?_
    cases h with
    | touches => exact OrderedSet.mem_insert.mpr (.inl hx)
    | looks h | judges h | concludes h | signals h | breaks h => cases h with | _ => exact hx
    | runs h =>
        rw [Recipe.live_turn h]
        exact hx
    | _ => exact hx
  · cases h with
    | touches => exact .inl (OrderedSet.mem_insert.mpr (.inr rfl))

/-! ## Atomicity -/

/-- A key that a worker is about to complete, with its dependencies recorded. -/
def Stage.rewrites : Stage D → Option D.Key
  | .relinking k _ _ _ _ | .publishing k _ _ => some k
  | _ => none

theorem Stage.subject_of_rewrites (h : st.rewrites = some k) : st.subject = some k := by
  cases st with
  | relinking _ _ _ _ _ | publishing _ _ _ => exact h
  | _ => cases h

/-- What is known of every key since the round began over `graph`. -/
structure Atomic (graph : Graph D) (l : Live D) (ts : Multiset (Stage D)) : Prop where
  /-- No key was committed twice. -/
  once : ∀ k, (l.told ts).countP (Event.commits k ·) ≤ 1
  /-- A key that was committed is complete. -/
  complete : ∀ k how, .completed k how ∈ l.told ts → l.graph.isComplete k = true
  /-- A key that was not committed stores what it stored, unless a worker is about to complete
  it. -/
  kept : ∀ k, (∀ how, .completed k how ∉ l.told ts) → (∀ st ∈ ts, st.rewrites ≠ some k) →
    (l.graph.node k).memo = (graph.node k).memo
  /-- Known keys stay known. -/
  known : ∀ k, graph.contains k = true → l.store.contains k = true
  /-- A key under evaluation was touched, or is about to be noted as touched. -/
  touched : ∀ k, (l.entry k).building ≠ none →
    k ∈ l.touched ∨ ∃ st ∈ ts, ∃ next, st = .touching k next

/-- A worker that records or rewrites a key goes on with that, or completes it. -/
theorem Advances.rewrites (h : Advances s l st l' st')
    (hk : st.writes = some k ∨ st.rewrites = some k) :
    st'.rewrites = some k ∨ st.Completes k := by
  cases h with
  | records => exact .inl (hk.resolve_right fun h => by cases h)
  | unlinks | links | linked => exact .inl (hk.resolve_left fun h => by cases h)
  | @publishes k' o after => exact .inr (.inl ⟨o, after, by rw [← Option.some.inj (hk.elim id id)]⟩)
  | @fails k' e after =>
      exact .inr (.inl ⟨.failure e, after, by rw [← Option.some.inj (hk.elim id id)]⟩)
  | confirms => exact .inr (.inr (by rw [← Option.some.inj (hk.resolve_right fun h => by cases h)]))
  | _ => exact (hk.elim (fun h => by cases h) fun h => by cases h)

/-- A worker that completes a key has that to tell. -/
theorem Advances.tells (h : Advances s l st l' st') (hk : st.Completes k) :
    ∃ how, .completed k how ∈ l'.told (st' ::ₘ others) := by
  have hdue {how : Completion} (hmem : .completed k how ∈ st'.due) :
      ∃ how, .completed k how ∈ l'.told (st' ::ₘ others) :=
    ⟨how, Multiset.mem_add.mpr (.inr (Multiset.mem_bind.mpr
      ⟨st', Multiset.mem_cons_self _ _, hmem⟩))⟩
  rcases hk with ⟨o, after, rfl⟩ | rfl
  · cases h with
    | publishes | fails => exact hdue (Multiset.mem_singleton_self _)
  · cases h with
    | confirms => exact hdue (Multiset.mem_singleton_self _)

theorem Advances.complete (h : Advances s l st l' st') (hk : st.Completes k) :
    l'.graph.isComplete k = true := by
  rw [Live.isComplete_graph]
  rcases hk with ⟨o, after, rfl⟩ | rfl
  · cases h with
    | publishes | fails =>
        rw [Live.entry_put_self, Entry.base_publish]
        rfl
  · cases h with
    | confirms =>
        rw [Live.entry_put_self, Entry.base_confirm]
        rfl

/-- At most one completion is told by a step. -/
theorem News.countP_le (h : News st events) (k : D.Key) :
    events.countP (Event.commits k ·) ≤ 1 := by
  have hsingle (e : Event D) : ({e} : Multiset (Event D)).countP (Event.commits k ·) ≤ 1 :=
    (Multiset.countP_le_card _ _).trans (by simp)
  cases h with
  | nothing => simp
  | enqueued _ | called _ | built _ _ | clean _ => exact hsingle _

theorem countP_told_eq_zero (h : ∀ how, .completed k how ∉ events) :
    events.countP (Event.commits k ·) = 0 := by
  refine Multiset.countP_eq_zero.mpr fun e he hc => ?_
  cases e with
  | completed x how =>
      obtain rfl : x = k := of_decide_eq_true hc
      exact h how he
  | enqueued _ | called _ => cases hc

namespace Atomic

variable {graph : Graph D}

theorem step (h : Atomic graph l (st ::ₘ others)) (howned : Owned l (st ::ₘ others))
    (hstep : Advances s l st l' st') : Atomic graph l' (st' ::ₘ others) := by
  obtain ⟨events, hnews, htold⟩ := hstep.told others
  have hsparing := howned.sparing hstep
  have hself := Multiset.mem_cons_self st others
  have htold_iff {k : D.Key} {how : Completion} : .completed k how ∈ l'.told (st' ::ₘ others) ↔
      .completed k how ∈ events ∨ .completed k how ∈ l.told (st ::ₘ others) := by
    rw [htold, Multiset.mem_add]
  have hmono {k : D.Key} (hk : l.graph.isComplete k = true) : l'.graph.isComplete k = true :=
    (Node.isComplete_of_memo_eq (hsparing.lasting k hk)).trans hk
  refine ⟨fun k => ?_, fun k how hk => ?_, fun k hk hst => ?_, fun k hk => ?_, fun k hk => ?_⟩
  · rw [htold, Multiset.countP_add]
    by_cases hk : ∃ how, .completed k how ∈ events
    · -- What is told anew is about a key under evaluation, so it was not told before.
      obtain ⟨how, hk⟩ := hk
      obtain ⟨b, hb⟩ := howned.building st hself k (hnews.completes hk).subject
      have hincomplete : l.graph.isComplete k = false := by
        rw [Live.isComplete_graph, (howned.sound k).incomplete hb]
      have hnone : (l.told (st ::ₘ others)).countP (Event.commits k ·) = 0 :=
        countP_told_eq_zero fun how' hk' => by
          rw [h.complete k how' hk'] at hincomplete
          cases hincomplete
      rw [hnone]
      exact hnews.countP_le k
    · rw [countP_told_eq_zero fun how hmem => hk ⟨how, hmem⟩, Nat.zero_add]
      exact h.once k
  · rcases htold_iff.mp hk with hk | hk
    · exact hstep.complete (hnews.completes hk)
    · exact hmono (h.complete k how hk)
  · have hnot (hw : st.writes = some k ∨ st.rewrites = some k) : False := by
      rcases hstep.rewrites hw with hr | hcompletes
      · exact hst st' (Multiset.mem_cons_self _ _) hr
      · obtain ⟨how, hmem⟩ : ∃ how, .completed k how ∈ l'.told (st' ::ₘ others) :=
          hstep.tells hcompletes
        exact hk how hmem
    rw [hsparing.memo k fun hw => hnot (.inl hw)]
    refine h.kept k (fun how hmem => hk how (htold_iff.mpr (.inr hmem))) fun other hmem => ?_
    rcases Multiset.mem_cons.mp hmem with rfl | hmem
    · exact fun hr => hnot (.inr hr)
    · exact hst other (Multiset.mem_cons_of_mem hmem)
  · exact hstep.contains (h.known k hk)
  · have hmine (hk : k ∈ l'.touched ∨ ∃ next, st' = .touching k next) :
        k ∈ l'.touched ∨ ∃ st ∈ st' ::ₘ others, ∃ next, st = .touching k next :=
      hk.imp id fun hnext => ⟨st', Multiset.mem_cons_self _ _, hnext⟩
    rcases hstep.comes hk with hold | hnext
    · rcases h.touched k hold with ht | ⟨other, hmem, hnext⟩
      · exact hmine (hstep.touching (.inl ht))
      · rcases Multiset.mem_cons.mp hmem with rfl | hmem
        · exact hmine (hstep.touching (.inr hnext))
        · exact .inr ⟨other, Multiset.mem_cons_of_mem hmem, hnext⟩
    · exact hmine (.inr hnext)

/-- In every state of a round before its end, every key is committed as a whole or not at all. -/
theorem of_reaches {calls : Table D.Key Nat} {workers : Nat} {c : Crew D}
    (h : Crew.Reaches s (.start s graph calls workers) c) (hnot : ¬ c.IsOver) :
    Atomic graph c.live c.stages := by
  refine Crew.course_induction (P := Atomic graph) ?_ ?_ ?_ ?_ h hnot
  · have htold := told_start s graph calls workers
    refine ⟨fun k => ?_, fun k how hk => ?_, fun k _ _ => ?_, fun k hk => ?_, fun k hk => ?_⟩
    · rw [htold]
      simp
    · rw [htold] at hk
      exact absurd hk (Multiset.notMem_zero _)
    · rw [Live.node_start]
    · exact (Store.contains_ofGraph graph k).trans hk
    · rw [Live.entry, Crew.start, Store.entry_ofGraph] at hk
      exact absurd rfl hk
  · intro c st st' others l' hr hnot hstages ho hstep ih
    have howned := Owned.of_reaches hr hnot
    rw [hstages] at howned
    exact ih.step howned hstep
  · exact fun _ ih => ⟨ih.once, ih.complete, ih.kept, ih.known, ih.touched⟩
  · intro l others found members _ ih
    have htold := l.told_breaking found members others
    refine ⟨fun k => htold ▸ ih.once k, fun k how hk => ih.complete k how (htold ▸ hk),
      fun k hk hst => ih.kept k (htold ▸ hk) fun other hmem => ?_, ih.known, fun k hk => ?_⟩
    · rcases Multiset.mem_cons.mp hmem with rfl | hmem
      · exact fun e => by cases e
      · exact hst other (Multiset.mem_cons_of_mem hmem)
    · refine (ih.touched k hk).imp id ?_
      rintro ⟨other, hmem, next, hnext⟩
      rcases Multiset.mem_cons.mp hmem with rfl | hmem
      · cases hnext
      · exact ⟨other, Multiset.mem_cons_of_mem hmem, next, hnext⟩

end Atomic

end MemoGraph
