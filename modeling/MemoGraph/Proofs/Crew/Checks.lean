import MemoGraph.Proofs.Crew.Rules
import MemoGraph.Proofs.Round.Accounts

/-!
# Checks among several workers

Between two reads of a check other workers may complete keys, so a group that had to wait when it
was read may be complete when it is judged, and is read again then.  What was read as complete does
not change any more in the round.  So as with one worker, a key that is confirmed was dirty, and all
its recorded dependencies are complete and did not change after it was evaluated.
-/

set_option autoImplicit false

namespace MemoGraph

variable {D : Domain} {s : Setting D}

namespace Graph

/-- The key is dirty, and every group before `i` holds unchanged dependencies. -/
def Passed (g : Graph D) (k : D.Key) (i : Nat) : Prop :=
  (g.node k).status = .dirty ∧ ∀ j group, j < i → (g.node k).deps.group? j = some group →
    ∀ d ∈ group, g.Unchanged k d

/-- The check of `k` is at the group at position `i`, with the keys in `rest` still to be read. -/
structure Rereads (g : Graph D) (k : D.Key) (i : Nat) (seen : GroupReading D.Key)
    (rest : List D.Key) : Prop where
  /-- The groups before. -/
  passed : g.Passed k i
  /-- Of the group, what is not waited for is unchanged unless a change was noticed. -/
  group : ∃ read, (g.node k).deps.group? i = some (read ++ rest) ∧
    (seen.changed = false → ∀ d ∈ read, d ∈ seen.waiting ∨ g.Unchanged k d)

/-- The key is dirty, and all its recorded dependencies are unchanged. -/
def Confirmable (g : Graph D) (k : D.Key) : Prop :=
  (g.node k).status = .dirty ∧ ∀ d ∈ (g.node k).deps.keys, g.Unchanged k d

variable {g : Graph D} {k : D.Key} {i : Nat}

/-- A key that has passed all its groups has unchanged dependencies only. -/
theorem Passed.confirmable (h : g.Passed k i) (hend : (g.node k).deps.group? i = none) :
    g.Confirmable k := by
  refine ⟨h.1, fun d hd => ?_⟩
  obtain ⟨group, hgroup, hd⟩ := List.mem_flatten.mp hd
  obtain ⟨j, hj, hget⟩ := List.mem_iff_getElem.mp hgroup
  have hle : (g.node k).deps.groups.length ≤ i := List.getElem?_eq_none_iff.mp hend
  refine h.2 j group (Nat.lt_of_lt_of_le hj hle) ?_ d hd
  rw [DepGroups.group?, List.getElem?_eq_getElem hj, hget]

theorem Rereads.start (h : g.Passed k i) {group : List D.Key}
    (hgroup : (g.node k).deps.group? i = some group) : g.Rereads k i .start group :=
  ⟨h, [], hgroup, fun _ _ hd => absurd hd List.not_mem_nil⟩

/-- A group that is complete and unchanged is passed. -/
theorem Rereads.next {seen : GroupReading D.Key} (h : g.Rereads k i seen [])
    (hchanged : seen.changed = false) (hwaiting : seen.waiting = []) : g.Passed k (i + 1) := by
  obtain ⟨⟨hdirty, hpassed⟩, read, hread, hunchanged⟩ := h
  refine ⟨hdirty, fun j group hj hgroup d hd => ?_⟩
  rcases Nat.lt_succ_iff_lt_or_eq.mp hj with hj | rfl
  · exact hpassed j group hj hgroup d hd
  · rw [hread, List.append_nil] at hgroup
    obtain rfl := Option.some.inj hgroup
    refine (hunchanged hchanged d hd).resolve_left fun hw => ?_
    rw [hwaiting] at hw
    exact List.not_mem_nil hw

/-- Reading on. -/
theorem Rereads.read {seen seen' : GroupReading D.Key} {dep : D.Key} {rest : List D.Key}
    (h : g.Rereads k i seen (dep :: rest))
    (hchanged : seen'.changed = false → seen.changed = false)
    (hwaiting : ∀ d ∈ seen.waiting, d ∈ seen'.waiting)
    (hdep : seen'.changed = false → dep ∈ seen'.waiting ∨ g.Unchanged k dep) :
    g.Rereads k i seen' rest := by
  obtain ⟨hpassed, read, hread, hunchanged⟩ := h
  refine ⟨hpassed, read ++ [dep], by rw [hread]; simp, fun hc d hd => ?_⟩
  rcases List.mem_append.mp hd with hd | hd
  · exact (hunchanged (hchanged hc) d hd).imp (hwaiting d) id
  · obtain rfl := List.mem_singleton.mp hd
    exact hdep hc

end Graph

section Spared

variable {l l' : Live D} {k : D.Key} {i : Nat}

theorem Spared.unchanged (h : Spared l l' k) {d : D.Key} (hd : l.graph.Unchanged k d) :
    l'.graph.Unchanged k d :=
  hd.of_node h.own (h.lasting d hd.1)

/-- What can be read stays readable. -/
theorem Spared.shows (h : Spared l l' k) {d : D.Key} {o : Outcome D} (hd : l.graph.Shows d o) :
    l'.graph.Shows d o :=
  (Graph.shows_of_memo_eq (h.lasting d hd.1)).mpr hd

theorem Spared.deps (h : Spared l l' k) : (l'.graph.node k).deps = (l.graph.node k).deps :=
  (Node.memo_eq_iff.mp h.own).2.2.1

theorem Spared.passed (h : Spared l l' k) (hp : l.graph.Passed k i) : l'.graph.Passed k i := by
  obtain ⟨hdirty, hpassed⟩ := hp
  refine ⟨(Node.memo_eq_iff.mp h.own).1.trans hdirty, fun j group hj hgroup d hd => ?_⟩
  rw [h.deps] at hgroup
  exact h.unchanged (hpassed j group hj hgroup d hd)

theorem Spared.rereads (h : Spared l l' k) {seen : GroupReading D.Key} {rest : List D.Key}
    (hr : l.graph.Rereads k i seen rest) : l'.graph.Rereads k i seen rest := by
  obtain ⟨hpassed, read, hread, hunchanged⟩ := hr
  refine ⟨h.passed hpassed, read, by rw [h.deps, hread], fun hc d hd => ?_⟩
  exact (hunchanged hc d hd).imp id h.unchanged

theorem Spared.confirmable (h : Spared l l' k) (hc : l.graph.Confirmable k) :
    l'.graph.Confirmable k := by
  obtain ⟨hdirty, hdeps⟩ := hc
  refine ⟨(Node.memo_eq_iff.mp h.own).1.trans hdirty, fun d hd => ?_⟩
  rw [h.deps] at hd
  exact h.unchanged (hdeps d hd)

end Spared

/-- What is known of keys that are being checked. -/
def checkRule : Rule D where
  task l k t := ∀ i, t.mode = .check i → l.graph.Passed k i
  read l k t reader rest :=
    match reader with
    | .group i since seen =>
        since = (l.graph.node k).evaluatedAt ∧ l.graph.Rereads k i seen rest
    | .batch _ _ _ _ => t.mode = .rebuild
  other l k t st :=
    match st with
    | .checking _ i => l.graph.Passed k i
    | .judging _ i seen => l.graph.Rereads k i seen []
    | .confirming _ => l.graph.Confirmable k
    | .calling _ | .invoking _ _ _ | .running _ _ _ | .returned _ _ _ | .concluding _ _ _
    | .recording _ _ _ _ => t.mode = .rebuild
    | _ => True

theorem not_check_of_rebuild {t t' : Task D} (ht : t.mode = .rebuild) (h : t'.mode = t.mode)
    {i : Nat} : t'.mode ≠ .check i := by
  rw [h, ht]
  simp

theorem lawful_checkRule (s : Setting D) : (checkRule (D := D)).Lawful s where
  task h hmode _ ht i hi := h.passed (ht i (hmode ▸ hi))
  read {l l' k t t' reader rest} h hmode hr := by
    cases reader with
    | group i since seen =>
        refine ⟨hr.1.trans ?_, h.rereads hr.2⟩
        rw [(Node.memo_eq_iff.mp h.own).2.2.2.2]
    | batch inv accepts answers next => exact hmode.trans hr
  other {l l' k t t' st} h hmode hst := by
    cases st with
    | checking _ i => exact h.passed hst
    | judging _ i seen => exact h.rereads hst
    | confirming _ => exact h.confirmable hst
    | calling _ | invoking _ _ _ | running _ _ _ | returned _ _ _ | concluding _ _ _
    | recording _ _ _ _ => exact hmode.trans hst
    | _ => trivial
  begun {l k t} hmode _ i hi := by
    rw [hmode, Task.start] at hi
    split at hi
    · rename_i hdirty
      obtain rfl := Mode.check.inj hi
      exact ⟨hdirty, fun j _ hj => absurd hj (Nat.not_lt_zero j)⟩
    · cases hi
  checks ht hmode := ht _ hmode
  rebuilds _ hmode := hmode
  passes hst hend := hst.confirmable hend
  regroups hst hgroup := ⟨rfl, .start hst hgroup⟩
  shown {l k t reader dep rest o} hr ho := by
    cases reader with
    | batch inv accepts answers next => exact hr
    | group i since seen =>
        obtain ⟨rfl, hr⟩ := hr
        refine ⟨rfl, ?_⟩
        have hnote : (seen.note (l.graph.node k).evaluatedAt dep
            (o.reply (l.graph.node dep).changedAt)).changed =
              (seen.changed ||
                decide ((l.graph.node k).evaluatedAt < (l.graph.node dep).changedAt)) := by
          cases o with | _ => rfl
        have hwaiting : (seen.note (l.graph.node k).evaluatedAt dep
            (o.reply (l.graph.node dep).changedAt)).waiting = seen.waiting := by
          cases o with | _ => rfl
        refine hr.read (fun hc => ?_) (fun d hd => hwaiting ▸ hd) fun hc => .inr ?_
        · rw [hnote, Bool.or_eq_false_iff] at hc
          exact hc.1
        · rw [hnote, Bool.or_eq_false_iff, decide_eq_false_iff_not] at hc
          exact ⟨(Graph.shows_of_settled ho).1, Nat.le_of_not_lt hc.2⟩
  pending {l k t reader dep rest} enlisted hr := by
    cases reader with
    | batch inv accepts answers next => exact hr
    | group i since seen =>
        refine ⟨hr.1, hr.2.read id (fun d hd => List.mem_append_left _ hd) fun _ => .inl ?_⟩
        exact List.mem_append_right _ List.mem_cons_self
  cut _ hr := hr
  grouped hr := hr.2
  answered hr := hr
  parked {l k t t' i seen} _ hst hmode _ i' hi := by
    rcases hmode with hm | hm
    · rw [hm] at hi
      cases hi
    · rw [hm] at hi
      obtain rfl := Mode.check.inj hi
      exact hst.passed
  passed hst hchanged hwaiting := hst.next hchanged hwaiting
  again hst := hst.passed
  calls hst _ := hst
  invokes hst := hst
  runs {l l' k t inv recipe st} hst h hk := by
    cases recipe with
    | _ =>
        obtain ⟨rfl, rfl⟩ := Prod.mk.inj h
        first
        | exact hst
        | cases hk
  heeds _ hst := hst
  absorbs _ hst _ hmode _ i hi := absurd hi (not_check_of_rebuild hst hmode)
  repeats hst := hst
  completes _ hst _ := hst
  rebuilt _ hmode := hmode
  checked _ := trivial
  records _ hst _ _ _ := ⟨fun i hi => absurd hi (not_check_of_rebuild hst rfl), trivial⟩
  relinks _ := trivial
  linked _ := trivial

/-- A key that is about to be confirmed was dirty, and all its recorded dependencies are complete
and unchanged. -/
theorem confirmable_of_reaches {graph : Graph D} {calls : Table D.Key Nat} {workers : Nat}
    {c : Crew D} (h : Crew.Reaches s (.start s graph calls workers) c) (hnot : ¬ c.IsOver)
    {k : D.Key} (hst : Stage.confirming k ∈ c.stages) : c.live.graph.Confirmable k := by
  obtain ⟨b, hb⟩ := (Owned.of_reaches h hnot).building _ hst k rfl
  exact (Rule.Obeyed.of_reaches (lawful_checkRule s) h hnot).stages _ hst k b rfl hb

end MemoGraph
