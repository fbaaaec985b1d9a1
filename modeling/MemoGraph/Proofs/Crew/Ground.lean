import MemoGraph.Proofs.Crew.Checks

/-!
# What rounds of several workers stand on

The dependencies of a key and its entries among the readers of others are stored one after the
other, so in the middle of that the two directions differ, by just what is still to be told.  No
other worker gets into this.  At the end of a round both directions are stored; nothing is dated
later than the round, every key that was ever completed has an outcome, and keys that need work were
evaluated in an earlier round.
-/

set_option autoImplicit false

namespace MemoGraph

variable {D : Domain} {s : Setting D} {l l' : Live D} {st st' : Stage D}
  {others : Multiset (Stage D)}

/-! ## What is stored -/

/-- What a step stores, readers apart. -/
inductive Shifts (s : Setting D) (l : Live D) (st : Stage D) (l' : Live D) : Prop where
  /-- nothing -/
  | nothing : st.writes = none → (∀ x, (l'.graph.node x).memo = (l.graph.node x).memo) →
      Shifts s l st l'
  /-- the dependencies of a key that is about to complete -/
  | recorded {k : D.Key} {deps : DepGroups D.Key} {o : Outcome D} {after : After D} :
      st = .recording k deps o after → l.graph.isComplete k = false →
      (∀ x, x ≠ k → (l'.graph.node x).memo = (l.graph.node x).memo) →
      (l'.graph.node k).memo = ({ l.graph.node k with deps := deps } : Node D).memo →
      Shifts s l st l'
  /-- an outcome -/
  | published {k : D.Key} {o : Outcome D} {after : After D} :
      st = .publishing k o after → l.graph.isComplete k = false →
      (∀ x, (l'.graph.node x).memo = ((l.graph.publish k o s.version).node x).memo) →
      Shifts s l st l'
  /-- that a key has the outcome it had -/
  | confirmed {k : D.Key} : st = .confirming k → l.graph.isComplete k = false →
      (∀ x, (l'.graph.node x).memo = ((l.graph.confirm k s.version).node x).memo) →
      Shifts s l st l'

theorem Owned.shifts (h : Owned l (st ::ₘ others)) (hstep : Advances s l st l' st') :
    Shifts s l st l' := by
  have hmemo := (h.sparing hstep).memo
  have hincomplete {k : D.Key} (hk : st.subject = some k) : l.graph.isComplete k = false := by
    obtain ⟨b, hb⟩ := h.building st (Multiset.mem_cons_self _ _) k hk
    rw [Live.isComplete_graph, (h.sound k).incomplete hb]
  cases hw : st.writes with
  | none => exact .nothing hw fun x => hmemo x (by simp [hw])
  | some k =>
      have hk := hincomplete (Stage.subject_of_writes hw)
      have hothers (x : D.Key) (hx : x ≠ k) :
          (l'.graph.node x).memo = (l.graph.node x).memo :=
        hmemo x fun h => hx (Option.some.inj (h.symm.trans hw))
      cases hstep with
      | records =>
          obtain rfl := Option.some.inj hw
          refine .recorded rfl hk hothers ?_
          rw [Live.node_graph, Live.node_graph, Live.entry_put_self, Entry.base_deps]
      | publishes | fails =>
          obtain rfl := Option.some.inj hw
          refine .published rfl hk fun x => ?_
          rw [Graph.node_publish]
          split
          · rename_i hx
            rw [hx, Live.node_graph, Live.node_graph, Live.entry_put_self, Entry.base_publish]
          · rename_i hx
            exact hothers x hx
      | confirms =>
          obtain rfl := Option.some.inj hw
          refine .confirmed rfl hk fun x => ?_
          rw [Graph.node_confirm]
          split
          · rename_i hx
            rw [hx, Live.node_graph, Live.node_graph, Live.entry_put_self, Entry.base_confirm]
          · rename_i hx
            exact hothers x hx
      | _ => cases hw

/-- Only where dependencies are recorded do the dependencies of a key change. -/
theorem Shifts.deps (h : Shifts s l st l') {k : D.Key}
    (hk : ∀ deps o after, st ≠ .recording k deps o after) :
    (l'.graph.node k).deps = (l.graph.node k).deps := by
  cases h with
  | nothing _ hmemo => exact (Node.memo_eq_iff.mp (hmemo k)).2.2.1
  | @recorded k' deps o after hst _ hmemo _ =>
      refine (Node.memo_eq_iff.mp (hmemo k fun e => ?_)).2.2.1
      exact hk deps o after (e ▸ hst)
  | published _ _ hmemo =>
      rw [(Node.memo_eq_iff.mp (hmemo k)).2.2.1, Graph.node_publish]
      split
      · rename_i e
        rw [e]
        rfl
      · rfl
  | confirmed _ _ hmemo =>
      rw [(Node.memo_eq_iff.mp (hmemo k)).2.2.1, Graph.node_confirm]
      split
      · rename_i e
        rw [e]
        rfl
      · rfl

/-! ## Edges -/

/-- What is still to be told of the edges of `k`: the keys in `dropped` are not read any more, and
those in `added` are read, perhaps for the first time. -/
structure Graph.Relinks (g : Graph D) (k : D.Key) (dropped added : List D.Key) : Prop where
  /-- Who lists the reader is read, or to be told. -/
  listed : ∀ d, k ∈ (g.node d).rdeps → d ∈ (g.node k).deps.keys ∨ d ∈ dropped
  /-- Who is read lists the reader, or is to be told. -/
  read : ∀ d, d ∈ (g.node k).deps.keys → k ∈ (g.node d).rdeps ∨ d ∈ added
  /-- Who is dropped is not read. -/
  dropped : ∀ d, d ∈ dropped → d ∉ (g.node k).deps.keys
  /-- Who is added is read. -/
  added : ∀ d, d ∈ added → d ∈ (g.node k).deps.keys

namespace Graph.Relinks

variable {g g' : Graph D} {k dep : D.Key} {dropped added : List D.Key}

/-- The edges of a key are its dependencies and the keys that list it. -/
theorem congr (h : g.Relinks k dropped added) (hdeps : (g'.node k).deps = (g.node k).deps)
    (hrdeps : ∀ d, k ∈ (g'.node d).rdeps ↔ k ∈ (g.node d).rdeps) :
    g'.Relinks k dropped added := by
  refine ⟨fun d hd => ?_, fun d hd => ?_, fun d hd => ?_, fun d hd => ?_⟩
  · rw [hdeps]
    exact h.listed d ((hrdeps d).mp hd)
  · rw [hdeps] at hd
    exact (h.read d hd).imp (hrdeps d).mpr id
  · rw [hdeps]
    exact h.dropped d hd
  · rw [hdeps]
    exact h.added d hd

/-- New dependencies, before anything is told. -/
theorem start {deps : DepGroups D.Key}
    (h : ∀ d, d ∈ (g.node k).deps.keys ↔ k ∈ (g.node d).rdeps)
    (hdeps : (g'.node k).deps = deps)
    (hrdeps : ∀ d, k ∈ (g'.node d).rdeps ↔ k ∈ (g.node d).rdeps) :
    g'.Relinks k ((g.node k).deps.keys.filter fun dep => !deps.contains dep) deps.keys := by
  refine ⟨fun d hd => ?_, fun d hd => .inr (hdeps ▸ hd), fun d hd => ?_, fun d hd => hdeps ▸ hd⟩
  · rw [hdeps]
    by_cases hmem : d ∈ deps.keys
    · exact .inl hmem
    · refine .inr (List.mem_filter.mpr ⟨(h d).mpr ((hrdeps d).mp hd), ?_⟩)
      simpa [DepGroups.contains_iff, Bool.eq_false_iff] using hmem
  · rw [hdeps]
    have hnot := (List.mem_filter.mp hd).2
    simpa [DepGroups.contains_iff, Bool.eq_false_iff] using hnot

/-- A key that is not read any more was told. -/
theorem unlink (h : g.Relinks k (dep :: dropped) added)
    (hdeps : (g'.node k).deps = (g.node k).deps) (hdep : k ∉ (g'.node dep).rdeps)
    (hrdeps : ∀ d, d ≠ dep → (g'.node d).rdeps = (g.node d).rdeps) :
    g'.Relinks k dropped added := by
  have hne {d : D.Key} (hd : d ∈ (g.node k).deps.keys) : d ≠ dep :=
    fun e => h.dropped dep List.mem_cons_self (e ▸ hd)
  refine ⟨fun d hd => ?_, fun d hd => ?_, fun d hd => ?_, fun d hd => hdeps ▸ h.added d hd⟩
  · have hd' : d ≠ dep := fun e => hdep (e ▸ hd)
    rw [hrdeps d hd'] at hd
    rw [hdeps]
    exact (h.listed d hd).imp id fun hd => (List.mem_cons.mp hd).resolve_left hd'
  · rw [hdeps] at hd
    rw [hrdeps d (hne hd)]
    exact h.read d hd
  · rw [hdeps]
    exact h.dropped d (List.mem_cons_of_mem dep hd)

/-- A key that is read was told. -/
theorem link (h : g.Relinks k dropped (dep :: added))
    (hdeps : (g'.node k).deps = (g.node k).deps) (hdep : k ∈ (g'.node dep).rdeps)
    (hrdeps : ∀ d, d ≠ dep → (g'.node d).rdeps = (g.node d).rdeps) :
    g'.Relinks k dropped added := by
  refine ⟨fun d hd => ?_, fun d hd => ?_, fun d hd => hdeps ▸ h.dropped d hd,
    fun d hd => hdeps ▸ h.added d (List.mem_cons_of_mem dep hd)⟩
  · rw [hdeps]
    by_cases hd' : d = dep
    · exact .inl (hd' ▸ h.added dep List.mem_cons_self)
    · rw [hrdeps d hd'] at hd
      exact h.listed d hd
  · by_cases hd' : d = dep
    · exact .inl (hd' ▸ hdep)
    · rw [hrdeps d hd']
      rw [hdeps] at hd
      exact (h.read d hd).imp id fun hd => (List.mem_cons.mp hd).resolve_left hd'

/-- Once everything is told, both directions are stored. -/
theorem done (h : g.Relinks k [] []) (d : D.Key) :
    d ∈ (g.node k).deps.keys ↔ k ∈ (g.node d).rdeps :=
  ⟨fun hd => (h.read d hd).resolve_right List.not_mem_nil,
    fun hd => (h.listed d hd).resolve_right List.not_mem_nil⟩

end Graph.Relinks

/-- Both directions of every edge are stored, except for what workers are still to tell. -/
structure Linked (l : Live D) (ts : Multiset (Stage D)) : Prop where
  /-- Keys whose edges nobody changes. -/
  settled : ∀ k, (∀ st ∈ ts, st.relinker ≠ some k) →
    ∀ d, d ∈ (l.graph.node k).deps.keys ↔ k ∈ (l.graph.node d).rdeps
  /-- Keys whose edges are being changed. -/
  under : ∀ k dropped added o after, .relinking k dropped added o after ∈ ts →
    l.graph.Relinks k dropped added

/-- A worker begins to change the edges of a key where it records its dependencies. -/
theorem Advances.relinker (h : Advances s l st l' st') {k : D.Key} (hk : st'.relinker = some k) :
    (∃ deps o after, st = .recording k deps o after) ∨ st.relinker = some k := by
  cases h with
  | records => exact .inl ⟨_, _, _, congrArg (fun k => Stage.recording k _ _ _)
      (Option.some.inj hk)⟩
  | unlinks | links => exact .inr hk
  | looks h | judges h | concludes h | signals h | breaks h => cases h with | _ => cases hk
  | @runs _ _ recipe _ _ h =>
      cases recipe with
      | _ =>
          obtain ⟨-, rfl⟩ := Prod.mk.inj h
          cases hk
  | @signalled after => cases after with | _ => cases hk
  | @declines _ next | @sends _ next => cases next with | _ => cases hk
  | _ => cases hk

/-- What becomes of the edges of a key in a step. -/
inductive Relinking (l : Live D) (st : Stage D) (l' : Live D) (st' : Stage D) (k : D.Key) :
    Prop where
  /-- they stay -/
  | kept : st.relinker ≠ some k → st'.relinker ≠ some k →
      (l'.graph.node k).deps = (l.graph.node k).deps →
      (∀ d, k ∈ (l'.graph.node d).rdeps ↔ k ∈ (l.graph.node d).rdeps) → Relinking l st l' st' k
  /-- they are being changed -/
  | under {dropped added : List D.Key} {o : Outcome D} {after : After D} :
      st.subject = some k → st' = .relinking k dropped added o after →
      ((st.relinker ≠ some k →
          ∀ d, d ∈ (l.graph.node k).deps.keys ↔ k ∈ (l.graph.node d).rdeps) →
        (∀ dropped added o after, st = .relinking k dropped added o after →
          l.graph.Relinks k dropped added) → l'.graph.Relinks k dropped added) →
      Relinking l st l' st' k
  /-- everything was told -/
  | done {o : Outcome D} {after : After D} : st = .relinking k [] [] o after →
      st'.relinker ≠ some k → l' = l → Relinking l st l' st' k

theorem Advances.relinking (h : Advances s l st l' st') (hs : ∀ x, (l.entry x).Sound)
    (hshifts : Shifts s l st l') (k : D.Key) : Relinking l st l' st' k := by
  have hkept (hr : st.relinker ≠ some k) (hr' : st'.relinker ≠ some k)
      (hd : ∀ deps o after, st ≠ .recording k deps o after) : Relinking l st l' st' k :=
    .kept hr hr' (hshifts.deps hd) (mem_rdeps_step hs h hr)
  by_cases hrec : ∃ deps o after, st = .recording k deps o after
  · obtain ⟨deps, o, after, rfl⟩ := hrec
    have hrdeps := mem_rdeps_step hs h (x := k) fun e => by cases e
    cases h with
    | records =>
        refine .under rfl rfl fun hbefore _ => ?_
        rw [← Live.deps_graph]
        refine .start (hbefore fun e => by cases e) ?_ hrdeps
        rw [Live.deps_graph, Live.entry_put_self]
  · have hd : ∀ deps o after, st ≠ .recording k deps o after :=
      fun deps o after e => hrec ⟨deps, o, after, e⟩
    by_cases hr : st.relinker = some k
    · cases st with
      | relinking k' dropped added o after =>
          obtain rfl := Option.some.inj hr
          have hdeps := hshifts.deps hd
          cases h with
          | @unlinks _ dep dropped _ _ _ =>
              have hentry (x : D.Key) := Store.entry_adjust_of_fresh (f := fun e : Entry D =>
                { e with rdeps := e.rdeps.erase k' }) rfl l.store dep x
              refine .under rfl rfl fun _ hunder => (hunder _ _ _ _ rfl).unlink hdeps ?_ ?_
              · rw [Live.rdeps_graph, Live.entry, hentry, if_pos rfl]
                simp
              · intro d hd
                rw [Live.rdeps_graph, Live.rdeps_graph, Live.entry, hentry, if_neg hd]
                rfl
          | @links _ dep added _ _ =>
              have hentry (x : D.Key) := Store.entry_update l.store dep x fun e : Entry D =>
                { e with rdeps := e.rdeps.insert k' }
              refine .under rfl rfl fun _ hunder => (hunder _ _ _ _ rfl).link hdeps ?_ ?_
              · rw [Live.rdeps_graph, Live.entry, hentry, if_pos rfl]
                simp
              · intro d hd
                rw [Live.rdeps_graph, Live.rdeps_graph, Live.entry, hentry, if_neg hd]
                rfl
          | linked => exact .done rfl (fun e => by cases e) rfl
      | _ => cases hr
    · refine hkept hr (fun hr' => ?_) hd
      rcases h.relinker hr' with hrec' | hr'
      · exact hrec hrec'
      · exact hr hr'

namespace Linked

theorem step (h : Linked l (st ::ₘ others)) (howned : Owned l (st ::ₘ others))
    (ho : Orderly st others) (hstep : Advances s l st l' st') : Linked l' (st' ::ₘ others) := by
  have hself := Multiset.mem_cons_self st others
  have hrelinking (k : D.Key) :=
    hstep.relinking howned.sound (howned.shifts hstep) k
  have hunique {k : D.Key} (hk : st.subject = some k) {other : Stage D} (hmem : other ∈ others) :
      other.relinker ≠ some k :=
    fun hr => howned.unique ho hk hmem (Stage.subject_of_relinker hr)
  have hsettled {k : D.Key} (hr : st.relinker ≠ some k)
      (hk : ∀ other ∈ others, other.relinker ≠ some k) :=
    h.settled k fun other hmem => (Multiset.mem_cons.mp hmem).elim (fun e => e ▸ hr) (hk other)
  refine ⟨fun k hk d => ?_, fun k dropped added o after hmem => ?_⟩
  · have hothers : ∀ other ∈ others, other.relinker ≠ some k :=
      fun other hmem => hk other (Multiset.mem_cons_of_mem hmem)
    cases hrelinking k with
    | kept hr _ hdeps hrdeps =>
        rw [hdeps, hrdeps]
        exact hsettled hr hothers d
    | under _ hst' _ =>
        rw [hst'] at hk
        exact absurd rfl (hk _ (Multiset.mem_cons_self _ _))
    | @done o after hst _ hl =>
        rw [hl]
        rw [hst] at hself
        exact (h.under k _ _ o after (hst ▸ hself)).done d
  · cases hrelinking k with
    | kept _ hr' hdeps hrdeps =>
        refine (h.under k dropped added o after ?_).congr hdeps hrdeps
        rcases Multiset.mem_cons.mp hmem with rfl | hmem
        · exact absurd rfl hr'
        · exact Multiset.mem_cons_of_mem hmem
    | under hsubject hst' hgo =>
        rcases Multiset.mem_cons.mp hmem with heq | hmem
        · obtain ⟨-, rfl, rfl, -, -⟩ := Stage.relinking.inj (heq.trans hst')
          refine hgo (fun hr => hsettled hr fun other => hunique hsubject) ?_
          rintro dropped' added' o' after' rfl
          exact h.under k _ _ _ _ hself
        · exact absurd rfl (hunique hsubject hmem)
    | done hst hr' _ =>
        rcases Multiset.mem_cons.mp hmem with rfl | hmem
        · exact absurd rfl hr'
        · exact absurd rfl (hunique (k := k) (by rw [hst]; rfl) hmem)

/-- In a round over a mirrored graph, both directions of every edge are stored, except for what
workers are still to tell. -/
theorem of_reaches {graph : Graph D} (hg : graph.Mirrored) {calls : Table D.Key Nat}
    {workers : Nat} {c : Crew D} (h : Crew.Reaches s (.start s graph calls workers) c)
    (hnot : ¬ c.IsOver) : Linked c.live c.stages := by
  refine Crew.course_induction (P := Linked) ?_ ?_ ?_ ?_ h hnot
  · refine ⟨fun k _ d => ?_, fun k dropped added o after hmem => ?_⟩
    · rw [Live.node_start, Live.node_start]
      exact hg k d
    · rcases Multiset.mem_cons.mp hmem with heq | hmem
      · cases heq
      · cases Multiset.eq_of_mem_replicate hmem
  · intro c st st' others l' hr hnot hstages ho hstep ih
    have howned := Owned.of_reaches hr hnot
    rw [hstages] at howned
    exact ih.step howned ho hstep
  · exact fun _ ih => ⟨ih.settled, ih.under⟩
  · intro l others found members _ ih
    refine ⟨fun k hk => ih.settled k fun st hst => ?_, fun k dropped added o after hmem => ?_⟩
    · rcases Multiset.mem_cons.mp hst with rfl | hst
      · exact fun e => by cases e
      · exact hk st (Multiset.mem_cons_of_mem hst)
    · rcases Multiset.mem_cons.mp hmem with heq | hmem
      · cases heq
      · exact ih.under k _ _ _ _ (Multiset.mem_cons_of_mem hmem)

end Linked

/-! ## Dates and outcomes -/

/-- What holds of the graph in every state of a round, whatever workers are at. -/
structure Live.Dated (s : Setting D) (l : Live D) : Prop where
  /-- Whatever was completed once has an outcome. -/
  filled : l.graph.Filled
  /-- No key was evaluated later than the round. -/
  dated : ∀ k, (l.graph.node k).evaluatedAt ≤ s.version
  /-- Keys that need work were evaluated earlier. -/
  before : l.graph.Before s.version

theorem Live.Dated.of_memo (h : l.Dated s)
    (hmemo : ∀ x, (l'.graph.node x).memo = (l.graph.node x).memo) : l'.Dated s where
  filled k hk := by
    obtain ⟨hstatus, hout, -⟩ := Node.memo_eq_iff.mp (hmemo k)
    rw [hout]
    exact h.filled k (hstatus ▸ hk)
  dated k := by
    rw [(Node.memo_eq_iff.mp (hmemo k)).2.2.2.2]
    exact h.dated k
  before k hk := by
    rw [(Node.memo_eq_iff.mp (hmemo k)).2.2.2.2]
    refine h.before k ?_
    rwa [Graph.isComplete, Node.isComplete_of_memo_eq (hmemo k)] at hk

/-- A graph with the same memos as one after a completion. -/
theorem Graph.Settles.of_memo {version : Version} {c : D.Key} {g g' g'' : Graph D}
    (h : Graph.Settles version c g g') (hmemo : ∀ x, (g''.node x).memo = (g'.node x).memo) :
    Graph.Settles version c g g'' := by
  obtain ⟨-, hout, -, hch, hev⟩ := Node.memo_eq_iff.mp (hmemo c)
  refine ⟨fun k hk => (hmemo k).trans (h.others k hk), ?_, hev.trans h.evaluated, ?_⟩
  · rw [isComplete, Node.isComplete_of_memo_eq (hmemo c)]
    exact h.complete
  · exact h.dated.imp (fun h => ⟨hout.trans h.1, hch.trans h.2⟩)
      fun h => ⟨h.1.congr hout hch, h.2⟩

theorem Live.Dated.settles (h : l.Dated s) {k : D.Key}
    (hs : Graph.Settles s.version k l.graph l'.graph)
    (ho : (l'.graph.node k).outcome.isSome = true) : l'.Dated s where
  filled x hx := by
    by_cases hxk : x = k
    · exact hxk ▸ ho
    · obtain ⟨hstatus, hout, -⟩ := Node.memo_eq_iff.mp (hs.others x hxk)
      rw [hout]
      exact h.filled x (hstatus ▸ hx)
  dated x := by
    by_cases hxk : x = k
    · exact hxk ▸ Nat.le_of_eq hs.evaluated
    · rw [(Node.memo_eq_iff.mp (hs.others x hxk)).2.2.2.2]
      exact h.dated x
  before := hs.before h.before

/-- Recording dependencies changes no date and no outcome. -/
theorem Live.Dated.recorded (h : l.Dated s) {k : D.Key} {deps : DepGroups D.Key}
    (hothers : ∀ x, x ≠ k → (l'.graph.node x).memo = (l.graph.node x).memo)
    (hk : (l'.graph.node k).memo = ({ l.graph.node k with deps := deps } : Node D).memo) :
    l'.Dated s := by
  have hsame (x : D.Key) : (l'.graph.node x).status = (l.graph.node x).status ∧
      (l'.graph.node x).outcome = (l.graph.node x).outcome ∧
        (l'.graph.node x).evaluatedAt = (l.graph.node x).evaluatedAt := by
    by_cases hx : x = k
    · obtain ⟨hstatus, hout, -, -, hev⟩ := Node.memo_eq_iff.mp hk
      exact hx ▸ ⟨hstatus, hout, hev⟩
    · obtain ⟨hstatus, hout, -, -, hev⟩ := Node.memo_eq_iff.mp (hothers x hx)
      exact ⟨hstatus, hout, hev⟩
  refine ⟨fun x hx => ?_, fun x => ?_, fun x hx => ?_⟩
  · rw [(hsame x).2.1]
    exact h.filled x ((hsame x).1 ▸ hx)
  · rw [(hsame x).2.2]
    exact h.dated x
  · rw [(hsame x).2.2]
    refine h.before x ?_
    rwa [Graph.isComplete, Node.isComplete, (hsame x).1] at hx

/-- In a round over a grounded graph, nothing is dated later than the round, and keys that need work
were evaluated earlier. -/
theorem dated_of_reaches {graph : Graph D} (hg : graph.Grounded s.version)
    (hb : graph.Before s.version) {calls : Table D.Key Nat} {workers : Nat} {c : Crew D}
    (h : Crew.Reaches s (.start s graph calls workers) c) (hnot : ¬ c.IsOver) :
    c.live.Dated s := by
  refine Crew.course_induction (P := fun l _ => l.Dated s) ?_ ?_ ?_ ?_ h hnot
  · have hnode := Live.node_start s graph calls workers
    refine ⟨fun k hk => ?_, fun k => ?_, fun k hk => ?_⟩
    · rw [hnode] at hk ⊢
      exact hg.filled k hk
    · rw [hnode]
      exact hg.dated k
    · rw [Graph.isComplete, hnode] at hk
      rw [hnode]
      exact hb k hk
  · intro c st st' others l' hr hnot hstages ho hstep ih
    have howned := Owned.of_reaches hr hnot
    rw [hstages] at howned
    cases howned.shifts hstep with
    | nothing _ hmemo => exact ih.of_memo hmemo
    | recorded _ _ hothers hk => exact ih.recorded hothers hk
    | published _ hk hmemo =>
        refine ih.settles ((Graph.settles_publish _ hk).of_memo hmemo) ?_
        rw [(Node.memo_eq_iff.mp (hmemo _)).2.1, Graph.node_publish, if_pos rfl]
        exact Graph.Grounded.isSome_publish _ _ _
    | @confirmed k hst _ hmemo =>
        have hdirty := (confirmable_of_reaches hr hnot (k := k) (by rw [hstages, hst]; simp)).1
        refine ih.settles (Graph.settles_confirm.of_memo hmemo) ?_
        rw [(Node.memo_eq_iff.mp (hmemo k)).2.1, Graph.node_confirm, if_pos rfl]
        refine ih.filled k ?_
        rw [hdirty]
        exact fun e => by cases e
  · exact fun _ ih => ⟨ih.filled, ih.dated, ih.before⟩
  · exact fun _ ih => ih

/-! ## The end of a round -/

/-- When a round ends, others see what was below the entries. -/
theorem Crew.Ends.node {c c' : Crew D} (h : c.Ends c')
    (htouched : ∀ x, (c.live.entry x).building ≠ none → x ∈ c.live.touched.toList) (k : D.Key) :
    c'.live.store.graph.node k = c.live.graph.node k := by
  rw [Store.node_graph, h.store, Store.entry_abandonAll, Live.node_graph]
  split
  · rfl
  · rename_i hk
    have hnone : (c.live.entry k).building = none :=
      Classical.byContradiction fun hb => hk (htouched k hb)
    exact (Entry.base_of_resting hnone).symm

end MemoGraph
