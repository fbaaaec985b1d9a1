import MemoGraph.Proofs.Cycle.Search
import MemoGraph.Proofs.Round.Accounts

/-!
# Cycle failures and the edges behind them

A failure names the cycles it stems from, each with the path by which its holder reaches it.  Such a
cycle is *tied* to the graph if every edge that it claims is recorded.  No node can tell this of
itself, but it follows if each one answers for its own part: a member for its edge to the next
member, any other key for an edge to a dependency that names the same cycle with the rest of the
path.  That is an account, so it lasts as long as nothing behind it changes.
-/

set_option autoImplicit false

namespace MemoGraph

variable {D : Domain}

namespace Cycle

variable {K : Type}

/-- What edges hand on from member to member, one member gives to all. -/
theorem forall_members_of_edge {c : Cycle K} {P : K → Prop}
    (hedge : ∀ e ∈ c.edges, P e.1 → P e.2) {k : K} (hk : k ∈ c.members) (h : P k) :
    ∀ m ∈ c.members, P m := by
  -- Along a list whose elements hand `P` on, `z` being next after the last.
  have hchain (z : K) (l : List K) (a : K)
      (hl : ∀ e ∈ (a :: l).zip (l ++ [z]), P e.1 → P e.2) :
      ((∃ x ∈ a :: l, P x) → P z) ∧ (P a → ∀ x ∈ a :: l, P x) := by
    induction l generalizing a with
    | nil =>
        have hz : P a → P z := hl (a, z) (by simp)
        refine ⟨fun ⟨x, hx, hpx⟩ => hz (List.mem_singleton.mp hx ▸ hpx), fun ha x hx => ?_⟩
        exact List.mem_singleton.mp hx ▸ ha
    | cons b l ih =>
        have hb : P a → P b := hl (a, b) (by simp)
        obtain ⟨hz, hall⟩ := ih b fun e he => hl e (by simp [he])
        refine ⟨fun ⟨x, hx, hpx⟩ => ?_, fun ha x hx => ?_⟩
        · rcases List.mem_cons.mp hx with rfl | hx
          · exact hz ⟨b, List.mem_cons_self, hb hpx⟩
          · exact hz ⟨x, hx, hpx⟩
        · rcases List.mem_cons.mp hx with rfl | hx
          · exact ha
          · exact hall (hb ha) x hx
  cases hm : c.members with
  | nil =>
      rw [hm] at hk
      exact absurd hk List.not_mem_nil
  | cons a l =>
      have hedges : ∀ e ∈ (a :: l).zip (l ++ [a]), P e.1 → P e.2 := by
        intro e he
        apply hedge e
        rw [edges, hm]
        exact he
      obtain ⟨hback, hall⟩ := hchain a l a hedges
      exact hall (hback ⟨k, hm ▸ hk, h⟩)

end Cycle

/-- A failure answers for the cycles it names: as a member, for the edge to the next member, which
names the cycle too; otherwise for an edge to a dependency that names the cycle with the rest of the
path. -/
def cycleAccount : Account D where
  holds k deps o relies := ∀ e, o = .failure e → ∀ c ∈ e.cycles,
    (c.path = [] ∧ k ∈ c.members ∧ ∀ d, (k, d) ∈ c.edges →
      d ∈ deps.keys ∧ ∃ e', relies d (.failure e') ∧ c ∈ e'.cycles) ∨
    ∃ d ∈ deps.keys, ∃ e', relies d (.failure e') ∧ ∃ c' ∈ e'.cycles, c = c'.seenFrom k
  mono := by
    intro k deps o relies relies' hmore h e ho c hc
    rcases h e ho c hc with ⟨hpath, hmem, hedge⟩ | ⟨d, hd, e', hr, hrest⟩
    · refine .inl ⟨hpath, hmem, fun d hd => ?_⟩
      obtain ⟨hdep, e', hr, hc'⟩ := hedge d hd
      exact ⟨hdep, e', hmore d hdep _ hr, hc'⟩
    · exact .inr ⟨d, hd, e', hmore d hd _ hr, hrest⟩

/-- Failures that count as the same name the same cycles. -/
theorem stable_cycleAccount : (cycleAccount (D := D)).Stable := by
  intro k deps o o' relies hsame h e' he' c hc
  subst he'
  cases o with
  | value v => exact Bool.noConfusion hsame
  | failure e =>
      simp only [Outcome.same, Failure.same, Bool.and_eq_true, decide_eq_true_eq] at hsame
      exact h e rfl c (hsame.1.2 ▸ hc)

theorem exemptsValues_cycleAccount : (cycleAccount (D := D)).ExemptsValues := by
  intro k deps v relies e he
  cases he

namespace Graph

/-- The edges that a cycle named by the failure of `k` claims are recorded. -/
structure Ties (g : Graph D) (k : D.Key) (c : Cycle D.Key) : Prop where
  /-- Without a path the key is a member, else the path starts at the key. -/
  entry : (c.path = [] ∧ k ∈ c.members) ∨ c.path.head? = some k
  /-- Every key of the path depends on the next one. -/
  path : c.path.IsChain fun a b => b ∈ (g.node a).deps.keys
  /-- The last key of the path depends on a member. -/
  joint : ∀ a ∈ c.path.getLast?, ∃ m ∈ c.members, m ∈ (g.node a).deps.keys
  /-- Every member depends on the next one, the last on the first. -/
  ring : ∀ e ∈ c.edges, e.2 ∈ (g.node e.1).deps.keys

/-- Every cycle behind a failure that can be read is tied to recorded edges. -/
def Tied (g : Graph D) : Prop :=
  ∀ k e, (g.node k).failure? = some e → ∀ c ∈ e.cycles, g.Ties k c

instance (g : Graph D) (k : D.Key) (c : Cycle D.Key) : Decidable (g.Ties k c) :=
  decidable_of_iff
    (((c.path = [] ∧ k ∈ c.members) ∨ c.path.head? = some k) ∧
      (c.path.IsChain fun a b => b ∈ (g.node a).deps.keys) ∧
      (∀ a ∈ c.path.getLast?, ∃ m ∈ c.members, m ∈ (g.node a).deps.keys) ∧
      ∀ e ∈ c.edges, e.2 ∈ (g.node e.1).deps.keys)
    ⟨fun h => ⟨h.1, h.2.1, h.2.2.1, h.2.2.2⟩, fun h => ⟨h.entry, h.path, h.joint, h.ring⟩⟩

theorem tied_iff {g : Graph D} :
    g.Tied ↔ ∀ k ∈ g.keys, ∀ e ∈ (g.node k).failure?, ∀ c ∈ e.cycles, g.Ties k c := by
  constructor
  · intro h k _ e he
    exact h k e he
  · intro h k e he
    apply h k _ e he
    cases hk : g.contains k with
    | true => exact Table.contains_iff_mem_keys.mp hk
    | false =>
        rw [node_of_not_contains hk] at he
        cases he

instance (g : Graph D) : Decidable g.Tied := decidable_of_iff _ tied_iff.symm

theorem shows_of_failure? {g : Graph D} {k : D.Key} {e : Failure D.Key D.Fault}
    (h : (g.node k).failure? = some e) : g.Shows k (.failure e) := by
  obtain ⟨o, ho, he⟩ := Option.bind_eq_some_iff.mp h
  cases o with
  | value v => cases he
  | failure e' =>
      obtain rfl := Option.some.inj he
      exact shows_of_settled ho

variable {g : Graph D}

/-- The account of a key that can be read, out of what can be read of its dependencies. -/
theorem cycleAccount_of_shows (h : ∀ x, g.Accounted cycleAccount x) {k : D.Key}
    {e : Failure D.Key D.Fault} (hk : g.Shows k (.failure e)) {c : Cycle D.Key}
    (hc : c ∈ e.cycles) :
    (c.path = [] ∧ k ∈ c.members ∧ ∀ d, (k, d) ∈ c.edges → d ∈ (g.node k).deps.keys ∧
      ∃ e', g.Shows d (.failure e') ∧ c ∈ e'.cycles) ∨
    ∃ d ∈ (g.node k).deps.keys, ∃ e', g.Shows d (.failure e') ∧
      ∃ c' ∈ e'.cycles, c = c'.seenFrom k :=
  (h k).of_complete hk.1 hk.2 e rfl c hc

/-- On the cycle itself, every member can be read and names the cycle. -/
theorem forall_members_shows (h : ∀ x, g.Accounted cycleAccount x) {k : D.Key}
    {e : Failure D.Key D.Fault} (hk : g.Shows k (.failure e)) {c : Cycle D.Key}
    (hc : c ∈ e.cycles) (hpath : c.path = []) (hmem : k ∈ c.members) :
    ∀ m ∈ c.members, ∃ e', g.Shows m (.failure e') ∧ c ∈ e'.cycles := by
  refine Cycle.forall_members_of_edge ?_ hmem ⟨e, hk, hc⟩
  rintro ⟨m, d⟩ hedge ⟨e', hm, hc'⟩
  rcases cycleAccount_of_shows h hm hc' with ⟨-, -, hnext⟩ | ⟨d', -, e'', -, c'', -, heq⟩
  · exact (hnext d hedge).2
  · rw [heq] at hpath
    cases hpath

/-- If every key answers for its part, every cycle is tied.  Moreover whatever passes from readers
to their complete dependencies passes from the holder to every key of the path and of the cycle. -/
theorem ties_of_accounted (h : ∀ x, g.Accounted cycleAccount x) {k : D.Key}
    {e : Failure D.Key D.Fault} (hk : g.Shows k (.failure e)) {c : Cycle D.Key}
    (hc : c ∈ e.cycles) : g.Ties k c ∧ ∀ Q : D.Key → Prop,
      (∀ y d, d ∈ (g.node y).deps.keys → g.isComplete d = true → Q y → Q d) → Q k →
        ∀ x ∈ c.path ++ c.members, Q x := by
  generalize hpath : c.path = path
  induction path generalizing k e c with
  | nil =>
      rcases cycleAccount_of_shows h hk hc with ⟨-, hmem, -⟩ | ⟨d, -, e', -, c', -, heq⟩
      · have hall := forall_members_shows h hk hc hpath hmem
        have hring : ∀ x ∈ c.edges, x.2 ∈ (g.node x.1).deps.keys := by
          rintro ⟨m, d⟩ hedge
          obtain ⟨e', hm, hc'⟩ := hall m (Cycle.mem_members_of_edge hedge).1
          rcases cycleAccount_of_shows h hm hc' with ⟨-, -, hnext⟩ | ⟨d', -, e'', -, c'', -, heq⟩
          · exact (hnext d hedge).1
          · rw [heq] at hpath
            cases hpath
        refine ⟨⟨.inl ⟨hpath, hmem⟩, ?_, ?_, hring⟩, fun Q hQ hQk x hx => ?_⟩
        · rw [hpath]
          exact List.isChain_nil
        · intro a ha
          simp [hpath] at ha
        · rw [List.nil_append] at hx
          refine Cycle.forall_members_of_edge (fun y hy hQy => ?_) hmem hQk x hx
          obtain ⟨e', hd, -⟩ := hall y.2 (Cycle.mem_members_of_edge hy).2
          exact hQ y.1 y.2 (hring y hy) hd.1 hQy
      · rw [heq] at hpath
        cases hpath
  | cons a rest ih =>
      rcases cycleAccount_of_shows h hk hc with ⟨hnil, -, -⟩ | ⟨d, hd, e', hshows, c', hc', rfl⟩
      · rw [hpath] at hnil
        cases hnil
      · obtain ⟨rfl, hrest⟩ := List.cons.inj hpath
        obtain ⟨⟨entry, path, joint, ring⟩, hpass⟩ := ih hshows hc' hrest
        refine ⟨⟨.inr rfl, ?_, ?_, ring⟩, fun Q hQ hQk x hx => ?_⟩
        · rw [Cycle.path_seenFrom, List.isChain_cons]
          refine ⟨fun b hb => ?_, path⟩
          rcases entry with ⟨hnil, -⟩ | hhead
          · simp [hnil] at hb
          · rw [hhead, Option.mem_some_iff] at hb
            exact hb ▸ hd
        · intro b hb
          rw [Cycle.path_seenFrom, Cycle.members_seenFrom] at *
          cases hcase : c'.path with
          | nil =>
              obtain rfl : k = b := by simpa [hcase] using hb
              rcases entry with ⟨-, hmem⟩ | hhead
              · exact ⟨d, hmem, hd⟩
              · simp [hcase] at hhead
          | cons y ys =>
              apply joint b
              rw [hcase, List.getLast?_cons_cons] at hb
              rw [hcase]
              exact hb
        · rcases List.mem_cons.mp hx with rfl | hx
          · exact hQk
          · exact hpass Q hQ (hQ k d hd hshows.1 hQk) x hx

theorem tied_of_accounted (h : ∀ x, g.Accounted cycleAccount x) : g.Tied :=
  fun _ _ he _ hc => (ties_of_accounted h (shows_of_failure? he) hc).1

/-- Invalidating any key of the path or of the cycle takes the trust from the holder. -/
theorem not_complete_of_invalidate (h : ∀ x, g.Accounted cycleAccount x) (hm : g.Mirrored)
    {k : D.Key} {e : Failure D.Key D.Fault} (he : (g.node k).failure? = some e)
    {c : Cycle D.Key} (hc : c ∈ e.cycles) {x : D.Key} (hx : x ∈ c.path ++ c.members)
    {keys : List D.Key} (hk : x ∈ keys) : (g.invalidate keys).1.isComplete k = false := by
  cases hkc : (g.invalidate keys).1.isComplete k with
  | false => rfl
  | true =>
      have hall := (ties_of_accounted h (shows_of_failure? he) hc).2
        (fun y => (g.invalidate keys).1.isComplete y = true)
        (fun y d hd hdc hy => hm.isComplete_dep_invalidate hd hy hdc) hkc x hx
      exact absurd hk (isComplete_invalidate.mp hall).2.1

end Graph

end MemoGraph
