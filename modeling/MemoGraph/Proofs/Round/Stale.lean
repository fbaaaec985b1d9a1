import MemoGraph.Proofs.Round.Accounts
import MemoGraph.Proofs.Round.Commits

/-!
# When a dirty key is rebuilt

The check of a dirty key reads its recorded groups in order and ends at the first one with a
dependency that changed after the key was evaluated.  Only then is the function of the key called.
If there is no such group the key is confirmed, and what it stores is what it stored before it was
dirtied.
-/

set_option autoImplicit false

namespace MemoGraph

variable {D : Domain}

namespace Graph

/-- The group at position `i` is the first of the key `k` with a complete dependency that changed
after `k` was evaluated. -/
structure FirstChanged (g : Graph D) (k : D.Key) (i : Nat) : Prop where
  /-- It has such a dependency. -/
  changed : ∃ group, (g.node k).deps.group? i = some group ∧ ∃ d ∈ group,
    g.isComplete d = true ∧ (g.node k).evaluatedAt < (g.node d).changedAt
  /-- All dependencies in earlier groups are complete and did not change. -/
  before : ∀ j group, j < i → (g.node k).deps.group? j = some group →
    ∀ d ∈ group, g.Unchanged k d

/-- It stays the first one as long as the key and complete keys stay as they are. -/
theorem FirstChanged.of_memo {g g' : Graph D} {k : D.Key} {i : Nat} (h : g.FirstChanged k i)
    (hk : (g'.node k).memo = (g.node k).memo)
    (hcomplete : ∀ d, g.isComplete d = true → (g'.node d).memo = (g.node d).memo) :
    g'.FirstChanged k i := by
  obtain ⟨-, -, hdeps, -, heval⟩ := Node.memo_eq_iff.mp hk
  constructor
  · obtain ⟨group, hgroup, d, hd, hdc, hlt⟩ := h.changed
    have hmemo := hcomplete d hdc
    refine ⟨group, by rw [hdeps, hgroup], d, hd, (Node.isComplete_of_memo_eq hmemo).trans hdc, ?_⟩
    rw [heval, (Node.memo_eq_iff.mp hmemo).2.2.2.1]
    exact hlt
  · intro j group hj hgroup d hd
    rw [hdeps] at hgroup
    have hunchanged := h.before j group hj hgroup d hd
    exact hunchanged.of_node hk (hcomplete d hunchanged.1)

end Graph

namespace Round

variable {s : Setting D}

/-! ## What a reading notices -/

/-- A change that a reading of a group notices is there. -/
theorem changed_of_readGroup {k : D.Key} {since : Version} {group : List D.Key}
    {seen : GroupReading D.Key} {r : Round D}
    (h : (readGroup s k since group seen r).1.changed = true) :
    seen.changed = true ∨
      ∃ d ∈ group, r.graph.isComplete d = true ∧ since < (r.graph.node d).changedAt := by
  induction group generalizing seen r with
  | nil => exact .inl h
  | cons dep rest ih =>
      have hreads := reads_readOne s r k dep
      have hrest : (readGroup s k since rest (seen.note since dep (r.readOne s k dep).1)
          (r.readOne s k dep).2).1.changed = true := h
      rcases ih hrest with hnote | ⟨d, hd, hc, hlt⟩
      · cases hi : r.interrupted with
        | true =>
            rw [readOne_of_interrupted k dep hi] at hnote
            exact .inl hnote
        | false =>
            cases ho : (r.graph.node dep).settled? with
            | none =>
                rw [readOne_of_unsettled k dep hi ho] at hnote
                exact .inl hnote
            | some o =>
                have hc : r.graph.isComplete dep = true := (Graph.shows_of_settled ho).1
                rw [readOne_of_settled k dep hi ho] at hnote
                have hnoticed : (seen.changed || decide (since < (r.graph.node dep).changedAt)) =
                    true := by
                  cases o with
                  | value v => exact hnote
                  | failure e => exact hnote
                rcases Bool.or_eq_true_iff.mp hnoticed with hchanged | hlt
                · exact .inl hchanged
                · exact .inr ⟨dep, List.mem_cons_self, hc, of_decide_eq_true hlt⟩
      · rw [hreads.isComplete] at hc
        rw [hreads.node] at hlt
        exact .inr ⟨d, List.mem_cons_of_mem dep hd, hc, hlt⟩

/-- A group with a noticed change, after groups without one. -/
theorem Checks.firstChanged {r r' : Round D} (h : Checks r) {k : D.Key} {t : Task D} {i : Nat}
    {group : List D.Key} {waiters : OrderedSet D.Key} {seen : GroupReading D.Key}
    (hc : Checked s r k t i group waiters seen r') (hseen : seen.changed = true) :
    r.graph.FirstChanged k i := by
  refine ⟨⟨group, hc.listed, ?_⟩, (h k t hc.task i hc.mode).2⟩
  have hread : (readGroup s k (r.graph.node k).evaluatedAt group .start r).1.changed = true := by
    rw [hc.read]
    exact hseen
  exact (changed_of_readGroup hread).resolve_left Bool.false_ne_true

/-! ## Tasks that rebuild -/

/-- A dirty key is to be rebuilt only if one of its groups has changed. -/
def Stale (g : Graph D) (k : D.Key) (t : Task D) : Prop :=
  t.mode = .rebuild → (g.node k).status = .dirty → ∃ i, g.FirstChanged k i

theorem taskRule_stale (s : Setting D) : TaskRule s (Stale (D := D)) where
  frame h hnode hmode _ _ hm hdirty := by
    rw [hnode] at hdirty
    obtain ⟨i, hi⟩ := h (hmode ▸ hm) hdirty
    exact ⟨i, hi.of_memo (by rw [hnode]) fun d _ => by rw [hnode]⟩
  begun g k _ hm hdirty := by
    rw [Task.start, if_pos hdirty] at hm
    cases hm
  settle {c g g' k t} hs hc hk h hm hdirty := by
    rw [(Node.memo_eq_iff.mp (hs.others k hk)).1] at hdirty
    obtain ⟨i, hi⟩ := h hm hdirty
    refine ⟨i, hi.of_memo (hs.others k hk) fun d hd => hs.others d fun e => ?_⟩
    rw [e, hc] at hd
    cases hd

theorem stale_of_reaches {g : Graph D} {calls : Table D.Key Nat} {r : Round D}
    (h : Reaches s (Round.start s g calls) r) : EachTask Stale r := by
  induction h with
  | refl => exact EachTask.start (taskRule_stale s) g calls
  | @tail r r' hr hstep ih =>
      refine EachTask.step (taskRule_stale s) ih (tally_of_reaches hr) ?_ ?_ hstep
      · intro k rest t i group waiters seen r₁ _ hc hm _
        have hchecks : Checks r := Checks.of_reaches hr
        have hpop : Checks { r with queue := rest } := hchecks
        have hseen : seen.changed = true := GroupReading.changed_of_nextMode hm
        exact ⟨i, (hpop.firstChanged hc hseen).of_memo (by rw [hc.reads.node])
          fun d _ => by rw [hc.reads.node]⟩
      · intro k rest t waiters f inv r₁ _ _ hi _ hdirty
        rw [hi.reads.node] at hdirty
        obtain ⟨i, hfirst⟩ := ih k t hi.task hi.mode hdirty
        exact ⟨i, hfirst.of_memo (by rw [hi.reads.node]) fun d _ => by rw [hi.reads.node]⟩

/-- The next action of the key, if it is its turn, is to read the recorded group at position `j`
again. -/
def Rereads (r : Round D) (k : D.Key) (j : Nat) (group : List D.Key) : Prop :=
  ∃ t, r.tasks.get? k = some t ∧ t.mode = .check j ∧ (r.graph.node k).deps.group? j = some group

theorem process_of_rereads {r : Round D} {k : D.Key} {j : Nat} {group : List D.Key}
    (h : r.Rereads k j group) : r.process s k = r.checkGroup s k j group := by
  obtain ⟨t, ht, hm, hg⟩ := h
  simp only [process, ht, hm, hg]

section Round

variable {g : Graph D} {calls : Table D.Key Nat} {r r' r₀ : Round D}

/-- The function of a dirty key is called only if one of its groups has changed. -/
theorem firstChanged_of_called (h : Reaches s (Round.start s g calls) r)
    (hstep : r.step s = some r') {news : List (Event D)} (hlog : r'.log = news ++ r.log)
    {k : D.Key} (hcalled : .called k ∈ news) (hdirty : (g.node k).status = .dirty) :
    r.tasks.contains k = true ∧ ∃ i, r.graph.FirstChanged k i := by
  obtain ⟨news', hlog', hnews⟩ := (course_of_step (Checks.of_reaches h) (sought_of_reaches h)
    (tally_of_reaches h) hstep).told
  obtain rfl : news = news' := List.append_cancel_right (hlog.symm.trans hlog')
  obtain ⟨-, -, t, ht, hm⟩ := hnews k hcalled
  have htask := contains_of_get? ht
  refine ⟨htask, stale_of_reaches h k t ht hm ?_⟩
  rw [(Node.memo_eq_iff.mp ((Atomic.of_reaches h).memo_of_task htask)).1]
  exact hdirty

/-- The check of a key reads no group after the first changed one, in no state of the round. -/
theorem le_of_rereads (h : Reaches s (Round.start s g calls) r)
    (h₀ : Reaches s (Round.start s g calls) r₀) {k : D.Key} {i j : Nat} {group : List D.Key}
    (hfirst : r.graph.FirstChanged k i) (htask : r.tasks.contains k = true)
    (hreads : r₀.Rereads k j group) : j ≤ i := by
  obtain ⟨t₀, ht₀, hm₀, -⟩ := hreads
  obtain ⟨changed, hchanged, d, hd, hdc, hlt⟩ := hfirst.changed
  have hk : (r.graph.node k).memo = (r₀.graph.node k).memo :=
    ((Atomic.of_reaches h).memo_of_task htask).trans
      ((Atomic.of_reaches h₀).memo_of_task (contains_of_get? ht₀)).symm
  apply Nat.le_of_not_lt
  intro hij
  -- Otherwise the check would have passed the changed dependency as an unchanged one.
  rw [(Node.memo_eq_iff.mp hk).2.2.1] at hchanged
  have hpassed := (Checks.of_reaches h₀ k t₀ ht₀ j hm₀).2 i changed hij hchanged d hd
  have hmemo : (r.graph.node d).memo = (r₀.graph.node d).memo := by
    have hright : Relator.RightUnique fun r r' : Round D => r.step s = some r' :=
      fun _ _ _ h h' => Option.some.inj (h.symm.trans h')
    rcases Relation.ReflTransGen.total_of_right_unique hright h h₀ with hlater | hlater
    · exact (memo_of_reaches h hlater hdc).symm
    · exact memo_of_reaches h₀ hlater hpassed.1
  rw [(Node.memo_eq_iff.mp hk).2.2.2.2, (Node.memo_eq_iff.mp hmemo).2.2.2.1] at hlt
  exact Nat.not_lt_of_le hpassed.2 hlt

end Round

/-! ## Keys that were confirmed -/

/-- The key stores what it stored in `g`, confirmed in this round, and its dependencies did not
change after it was evaluated before. -/
structure Confirmed (s : Setting D) (g : Graph D) (r : Round D) (k : D.Key) : Prop where
  /-- What it stores. -/
  memo : (r.graph.node k).memo = ((g.node k).confirm s.version).memo
  /-- Its dependencies. -/
  deps : ∀ d ∈ (g.node k).deps.keys,
    r.graph.isComplete d = true ∧ (r.graph.node d).changedAt ≤ (g.node k).evaluatedAt

/-- A key that completed was called, or is on a cycle that was broken, or was confirmed. -/
def Explained (s : Setting D) (g : Graph D) (r : Round D) (k : D.Key) (how : Completion) : Prop :=
  .called k ∈ r.log ∨ (∃ c ∈ r.cycles, k ∈ c.members) ∨ how = .clean ∧ Confirmed s g r k

/-- An explanation lasts until the end of the round. -/
theorem Explained.prepare {g : Graph D} {calls : D.Key → Prop} {r r' : Round D} {k : D.Key}
    {how : Completion} (h : Explained s g r k how) (hp : Prepares calls r r') :
    Explained s g r' k how := by
  refine h.imp hp.mem_log (Or.imp ?_ ?_)
  · exact fun ⟨c, hc, hmem⟩ => ⟨c, hp.cycles c hc, hmem⟩
  · rintro ⟨hclean, hconf⟩
    refine ⟨hclean, (congrArg Node.memo (hp.node k)).trans hconf.memo, fun d hd => ?_⟩
    rw [hp.isComplete, hp.node]
    exact hconf.deps d hd

theorem Explained.settle {g : Graph D} {r r' : Round D} {k c : D.Key} {how how' : Completion}
    (h : Explained s g r k how) (hinc : r.graph.isComplete c = false)
    (hs : Settled s c how' r r') : Explained s g r' k how := by
  have hother {x : D.Key} (hx : r.graph.isComplete x = true) : x ≠ c := by
    rintro rfl
    rw [hinc] at hx
    cases hx
  refine h.imp (fun hcalled => ?_) (Or.imp ?_ ?_)
  · rw [hs.completes.log]
    exact List.mem_cons_of_mem _ hcalled
  · rw [hs.completes.cycles]
    exact id
  · rintro ⟨hclean, hconf⟩
    have hk : r.graph.isComplete k = true := by
      rw [Graph.isComplete, Node.isComplete_of_memo_eq hconf.memo]
      exact Node.isComplete_iff.mpr rfl
    refine ⟨hclean, (hs.settles.others k (hother hk)).trans hconf.memo, fun d hd => ?_⟩
    obtain ⟨hdc, hle⟩ := hconf.deps d hd
    refine ⟨hs.settles.isComplete_mono hdc, ?_⟩
    rw [(Node.memo_eq_iff.mp (hs.settles.others d (hother hdc))).2.2.2.1]
    exact hle

/-- The causes of a completion explain it. -/
theorem Atomic.explained {g : Graph D} {r r' : Round D} (h : Atomic g r) {k : D.Key}
    {how : Completion} (hs : Settled s k how r r') : Explained s g r' k how := by
  have hmemo := h.memo_of_task hs.task
  have hlog {e : Event D} (he : e ∈ r.log) : e ∈ r'.log := by
    rw [hs.completes.log]
    exact List.mem_cons_of_mem _ he
  cases hs.cause with
  | built _ _ hcalled _ => exact .inl (hlog hcalled)
  | failed hcalled _ => exact .inl (hlog hcalled)
  | member hc hk _ => exact .inr (.inl ⟨_, hs.completes.cycles ▸ hc, hk⟩)
  | verified hdeps hnode =>
      obtain ⟨hstatus, hout, hgdeps, hch, heval⟩ := Node.memo_eq_iff.mp hmemo
      refine .inr (.inr ⟨rfl, ?_, fun d hd => ?_⟩)
      · rw [hnode]
        exact Node.memo_eq_iff.mpr ⟨rfl, hout, hgdeps, hch, rfl⟩
      · obtain ⟨hdc, hle⟩ := hdeps d (hgdeps ▸ hd)
        have hdk : d ≠ k := by
          rintro rfl
          rw [h.unfinished d hs.task] at hdc
          cases hdc
        refine ⟨hs.settles.isComplete_mono hdc, ?_⟩
        rw [(Node.memo_eq_iff.mp (hs.settles.others d hdk)).2.2.2.1, ← heval]
        exact hle

/-- Every completion of a round is explained. -/
theorem explained_of_reaches {g : Graph D} {calls : Table D.Key Nat} {r : Round D}
    (h : Reaches s (Round.start s g calls) r) {k : D.Key} {how : Completion}
    (hk : .completed k how ∈ r.log) : Explained s g r k how := by
  refine (course_induction (P := fun r => Atomic g r ∧ ∀ how, .completed k how ∈ r.log →
    Explained s g r k how) ⟨.blank g calls, fun how hk => absurd hk List.not_mem_nil⟩
    ?_ ?_ h).2 how hk
  · rintro r r' ⟨hatomic, hall⟩ hp
    exact ⟨hatomic.prepare hp, fun how hk => (hall how (hp.completed.mp hk)).prepare hp⟩
  · rintro c how' r r' ⟨hatomic, hall⟩ hs
    refine ⟨hatomic.settle hs, fun how hk => ?_⟩
    rw [hs.completes.log] at hk
    rcases List.mem_cons.mp hk with hk | hk
    · obtain ⟨rfl, rfl⟩ := Event.completed.inj hk
      exact hatomic.explained hs
    · exact (hall how hk).settle (hatomic.unfinished c hs.task) hs

end Round

end MemoGraph
