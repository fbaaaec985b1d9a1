import Mathlib.Logic.Relation
import MemoGraph.Proofs.Cycle.Search

/-!
# The search for cycles, one edge at a time

A `Traversal` follows one edge, closes one key or starts from one root in each step, and writes down
whose edges it has asked for.  It knows no bound: whether it ends depends on the graph alone.  If
finitely many keys can be reached it does end, it asks for the edges of each of them once, and it
has found what `find` yields.  What the open keys and the closed keys have in common is stated for
one step and holds to the end: open keys form a path from a root, and from a closed key one cannot
go on for ever without meeting a cycle that was found.
-/

set_option autoImplicit false

namespace MemoGraph

namespace Cycle

variable {K : Type}

/-- The key is a root or can be reached from one. -/
def Below (next : K → List K) (roots : List K) (k : K) : Prop :=
  ∃ root ∈ roots, Relation.ReflTransGen (fun a b => b ∈ next a) root k

theorem below_of_mem {next : K → List K} {roots : List K} {k : K} (h : k ∈ roots) :
    Below next roots k :=
  ⟨k, h, .refl⟩

theorem Below.edge {next : K → List K} {roots : List K} {k d : K} (h : Below next roots k)
    (hd : d ∈ next k) : Below next roots d := by
  obtain ⟨root, hroot, hpath⟩ := h
  exact ⟨root, hroot, hpath.tail hd⟩

/-- The key is on one of the cycles. -/
def OnSome (found : List (Cycle K)) (k : K) : Prop := ∃ c ∈ found, k ∈ c.members

theorem OnSome.mono {found found' : List (Cycle K)} {k : K} (h : OnSome found k)
    (hsub : found ⊆ found') : OnSome found' k := by
  obtain ⟨c, hc, hk⟩ := h
  exact ⟨c, hsub hc, hk⟩

/-- An edge between keys that are on none of the cycles. -/
def Spared (next : K → List K) (found : List (Cycle K)) (a b : K) : Prop :=
  b ∈ next a ∧ ¬ OnSome found a ∧ ¬ OnSome found b

/-- A walk along spared edges ends, whichever way it goes. -/
def Ends (next : K → List K) (found : List (Cycle K)) (k : K) : Prop :=
  Acc (fun b a => Spared next found a b) k

/-- The more cycles, the fewer edges are spared. -/
theorem Ends.append {next : K → List K} {found : List (Cycle K)} {k : K}
    (h : Ends next found k) (c : Cycle K) : Ends next (found ++ [c]) k := by
  have hmore {a : K} (ha : OnSome found a) : OnSome (found ++ [c]) a :=
    ha.mono (List.subset_append_left found [c])
  induction h with
  | intro k _ ih =>
      refine ⟨k, fun d hd => ih d ⟨hd.1, fun hk => hd.2.1 (hmore hk), fun hd' => ?_⟩⟩
      exact hd.2.2 (hmore hd')

/-- A key from which all walks end is not on a way back to itself. -/
theorem Ends.not_loop {next : K → List K} {found : List (Cycle K)} {k : K}
    (h : Ends next found k) : ¬ Relation.TransGen (Spared next found) k k := by
  induction h with
  | intro k _ ih =>
      intro hloop
      obtain ⟨d, hd, hback⟩ := Relation.TransGen.head'_iff.mp hloop
      exact ih d hd (Relation.TransGen.tail' hback hd)

/-- A key from which all walks end is on no cycle whose members are all spared. -/
theorem Ends.not_mem_members {next : K → List K} {found : List (Cycle K)} {k : K}
    (h : Ends next found k) {c : Cycle K} (hedge : ∀ e ∈ c.edges, e.2 ∈ next e.1)
    (hspared : ∀ m ∈ c.members, ¬ OnSome found m) : k ∉ c.members := by
  induction h with
  | intro k _ ih =>
      intro hk
      obtain ⟨d, hd⟩ := exists_edge_of_mem hk
      have hdc : d ∈ c.members := (mem_members_of_edge hd).2
      exact ih d ⟨hedge _ hd, hspared k hk, hspared d hdc⟩ hdc

/-- A cycle that a search from the given roots may report. -/
structure Genuine (next : K → List K) (roots : List K) (c : Cycle K) : Prop where
  /-- There are members. -/
  nonempty : c.members ≠ []
  /-- No key occurs twice. -/
  distinct : (c.path ++ c.members).Nodup
  /-- Each key has an edge to the next one. -/
  chain : (c.path ++ c.members).IsChain fun a b => b ∈ next a
  /-- The last member has an edge to the first. -/
  closing : ∀ last ∈ c.members.getLast?, ∀ first ∈ c.members.head?, first ∈ next last
  /-- The path, or the cycle if there is none, begins at a root. -/
  begins : ∃ root ∈ roots, (c.path ++ c.members).head? = some root

/-- From the first member one comes back to it. -/
theorem Genuine.loop {next : K → List K} {roots : List K} {c : Cycle K}
    (h : Genuine next roots c) :
    ∃ k, Below next roots k ∧ Relation.TransGen (fun a b => b ∈ next a) k k := by
  obtain ⟨first, tail, hmembers⟩ := List.exists_cons_of_ne_nil h.nonempty
  refine ⟨first, ?_, ?_⟩
  · refine h.chain.induction (Below next roots) _ (fun _ _ hedge hbelow => hbelow.edge hedge)
      (fun hne => ?_) first (by simp [hmembers])
    obtain ⟨root, hroot, hhead⟩ := h.begins
    rw [List.head?_eq_some_head hne] at hhead
    rw [Option.some.inj hhead]
    exact below_of_mem hroot
  · have hchain : (first :: tail).IsChain fun a b => b ∈ next a :=
      hmembers ▸ h.chain.suffix (List.suffix_append c.path c.members)
    have hlast := List.getLast?_eq_some_getLast (List.cons_ne_nil first tail)
    refine Relation.TransGen.tail'
      (List.relationReflTransGen_of_exists_isChain_cons tail hchain rfl) (h.closing _ ?_ first ?_)
    · rw [hmembers]
      exact hlast
    · rw [hmembers]
      rfl

/-- A depth-first search in progress. -/
structure Traversal (K : Type) where
  /-- The roots from which the search has still to start. -/
  roots : List K
  /-- The open keys, deepest first, each with the edges that are still to be followed. -/
  frames : List (K × List K)
  /-- The keys whose edges were asked for, the latest first. -/
  asked : List K
  /-- The cycles found so far, in order. -/
  found : List (Cycle K)

namespace Traversal

/-- The search before its first step. -/
def start (roots : List K) : Traversal K :=
  { roots := roots, frames := [], asked := [], found := [] }

/-- The open keys, deepest first. -/
def opened (t : Traversal K) : List K := t.frames.map Prod.fst

/-- Ask for the edges of a key and open it. -/
def enter (next : K → List K) (t : Traversal K) (k : K) : Traversal K :=
  { t with frames := (k, next k) :: t.frames, asked := k :: t.asked }

variable [DecidableEq K]

/-- Meeting an open key again closes a cycle that begins where the open keys do. -/
theorem genuine_close {next : K → List K} {roots domain : List K} {k child : K} {rest : List K}
    {below : List (K × List K)} (h : Opened next domain ((k, rest) :: below))
    (hdistinct : (((k, rest) :: below).map Prod.fst).Nodup)
    (hbase : ∀ x ∈ (((k, rest) :: below).map Prod.fst).getLast?, x ∈ roots)
    (hopen : child ∈ ((k, rest) :: below).map Prod.fst) (hedge : child ∈ next k) :
    Genuine next roots (close ((k, rest) :: below) child) := by
  obtain ⟨tail, hmembers, hlast⟩ := members_close hopen
  have hall := path_append_members_close ((k, rest) :: below) child
  constructor
  · simp [hmembers]
  · rw [hall]
    exact List.pairwise_reverse.mpr (hdistinct.imp Ne.symm)
  · rw [hall]
    exact List.isChain_reverse.mpr h.chain
  · intro last hk first hchild
    rw [hmembers, hlast] at hk
    rw [hmembers] at hchild
    obtain rfl : k = last := by simpa using hk
    obtain rfl : child = first := by simpa using hchild
    exact hedge
  · rw [hall, List.head?_reverse]
    exact ⟨_, hbase _ (List.getLast?_eq_some_getLast (List.cons_ne_nil k (below.map Prod.fst))),
      List.getLast?_eq_some_getLast (List.cons_ne_nil k (below.map Prod.fst))⟩

/-- Follow the next edge of the deepest open key, close that key if it has none left, or start from
the next root if no key is open; `none` if the search is over. -/
def step (next : K → List K) (t : Traversal K) : Option (Traversal K) :=
  match t.frames with
  | [] =>
      match t.roots with
      | [] => none
      | root :: rest =>
          let t := { t with roots := rest }
          some (if root ∈ t.asked then t else t.enter next root)
  | (_, []) :: below => some { t with frames := below }
  | (k, child :: rest) :: below =>
      let t := { t with frames := (k, rest) :: below }
      some (if child ∈ t.opened then { t with found := t.found ++ [close t.frames child] }
        else if child ∈ t.asked then t
        else t.enter next child)

/-- The second search is reached from the first by steps. -/
def Runs (next : K → List K) : Traversal K → Traversal K → Prop :=
  Relation.ReflTransGen fun t t' => t.step next = some t'

/-- What a step can do. -/
inductive Advance (next : K → List K) (t : Traversal K) : Traversal K → Prop where
  /-- a root was met before -/
  | met {root : K} {rest : List K} : t.frames = [] → t.roots = root :: rest → root ∈ t.asked →
      Advance next t { t with roots := rest }
  /-- the search starts from a root -/
  | started {root : K} {rest : List K} : t.frames = [] → t.roots = root :: rest →
      root ∉ t.asked → Advance next t (enter next { t with roots := rest } root)
  /-- a key has no edge left -/
  | closed {k : K} {below : List (K × List K)} : t.frames = (k, []) :: below →
      Advance next t { t with frames := below }
  /-- an edge leads back to an open key -/
  | back {k child : K} {rest : List K} {below : List (K × List K)} :
      t.frames = (k, child :: rest) :: below → child ∈ ((k, rest) :: below).map Prod.fst →
      Advance next t { t with
        frames := (k, rest) :: below
        found := t.found ++ [close ((k, rest) :: below) child] }
  /-- an edge leads to a closed key -/
  | across {k child : K} {rest : List K} {below : List (K × List K)} :
      t.frames = (k, child :: rest) :: below → child ∉ ((k, rest) :: below).map Prod.fst →
      child ∈ t.asked → Advance next t { t with frames := (k, rest) :: below }
  /-- an edge leads to a new key -/
  | entered {k child : K} {rest : List K} {below : List (K × List K)} :
      t.frames = (k, child :: rest) :: below → child ∉ t.asked →
      Advance next t (enter next { t with frames := (k, rest) :: below } child)

theorem advance_of_step {next : K → List K} {t t' : Traversal K} (h : t.step next = some t') :
    Advance next t t' := by
  unfold step at h
  split at h
  · rename_i hframes
    split at h
    · cases h
    · rename_i root rest hroots
      obtain rfl := Option.some.inj h
      dsimp only
      split
      · rename_i hasked
        exact .met hframes hroots hasked
      · rename_i hasked
        exact .started hframes hroots hasked
  · rename_i k below hframes
    obtain rfl := Option.some.inj h
    exact .closed hframes
  · rename_i k child rest below hframes
    obtain rfl := Option.some.inj h
    dsimp only
    split
    · rename_i hopen
      exact .back hframes hopen
    · rename_i hopen
      split
      · rename_i hasked
        exact .across hframes hopen hasked
      · rename_i hasked
        exact .entered hframes hasked

theorem runs_induction {next : K → List K} {P : Traversal K → Prop} {t t' : Traversal K}
    (h : Runs next t t') (begin : P t) (step : ∀ {t t'}, P t → Advance next t t' → P t') :
    P t' := by
  induction h with
  | refl => exact begin
  | tail _ hstep ih => exact step ih (advance_of_step hstep)

/-! ## What is open -/

/-- What a search with roots `roots` maintains on its way: the open keys form a path from a root, no
key is asked for twice, and what was found are cycles. -/
structure Upright (next : K → List K) (roots : List K) (t : Traversal K) : Prop where
  /-- Roots to start from are roots. -/
  pending : ∀ root ∈ t.roots, root ∈ roots
  /-- Each open key was entered from the one above it and was asked for. -/
  path : Opened next t.asked t.frames
  /-- No key is open twice. -/
  distinct : t.opened.Nodup
  /-- The first open key is a root. -/
  base : ∀ k ∈ t.opened.getLast?, k ∈ roots
  /-- No key was asked for twice. -/
  once : t.asked.Nodup
  /-- Only reachable keys were asked for. -/
  reached : ∀ k ∈ t.asked, Below next roots k
  /-- What was found are cycles. -/
  genuine : ∀ c ∈ t.found, Genuine next roots c

variable {next : K → List K} {roots : List K} {t t' : Traversal K}

omit [DecidableEq K] in
theorem opened_eq {k : K} {rest : List K} {below : List (K × List K)}
    (h : t.frames = (k, rest) :: below) : t.opened = k :: below.map Prod.fst := by
  rw [opened, h, List.map_cons]

omit [DecidableEq K] in
theorem Upright.asked_of_opened (h : Upright next roots t) {k : K} (hk : k ∈ t.opened) :
    k ∈ t.asked := by
  obtain ⟨frame, hframe, rfl⟩ := List.mem_map.mp hk
  exact h.path.inside frame hframe

omit [DecidableEq K] in
theorem upright_start (next : K → List K) (roots : List K) : Upright next roots (start roots) where
  pending := fun _ hroot => hroot
  path := ⟨List.isChain_nil, by simp [start], by simp [start]⟩
  distinct := List.nodup_nil
  base := by simp [start, opened]
  once := List.nodup_nil
  reached := by simp [start]
  genuine := by simp [start]

omit [DecidableEq K] in
/-- Following an edge, wherever it leads. -/
theorem Upright.skip (h : Upright next roots t) {k child : K} {rest : List K}
    {below : List (K × List K)} (hframes : t.frames = (k, child :: rest) :: below) :
    child ∈ next k ∧ Upright next roots { t with frames := (k, rest) :: below } := by
  have hopened := opened_eq hframes
  obtain ⟨hedge, hskip⟩ := (hframes ▸ h.path).skip
  have hdistinct : (k :: below.map Prod.fst).Nodup := hopened ▸ h.distinct
  have hbase : ∀ x ∈ (k :: below.map Prod.fst).getLast?, x ∈ roots := hopened ▸ h.base
  exact ⟨hedge, { h with path := hskip, distinct := hdistinct, base := hbase }⟩

omit [DecidableEq K] in
/-- Opening a new key from a root or along an edge. -/
theorem Upright.enter (h : Upright next roots t) {k : K} (hk : k ∉ t.asked)
    (hfrom : t.frames = [] ∧ k ∈ roots ∨
      ∃ a rest below, t.frames = (a, rest) :: below ∧ k ∈ next a) :
    Upright next roots (t.enter next k) := by
  have hdistinct : (k :: t.opened).Nodup :=
    List.nodup_cons.mpr ⟨fun hopen => hk (h.asked_of_opened hopen), h.distinct⟩
  have hpath : Opened next (k :: t.asked) t.frames :=
    h.path.mono fun x hx => List.mem_cons_of_mem k hx
  have hlocal : Below next roots k ∧ Opened next (k :: t.asked) ((k, next k) :: t.frames) ∧
      ∀ x ∈ (k :: t.opened).getLast?, x ∈ roots := by
    rcases hfrom with ⟨hnil, hroot⟩ | ⟨a, rest, below, hframes, hedge⟩
    · refine ⟨below_of_mem hroot, ?_, ?_⟩
      · rw [hnil]
        exact ⟨List.isChain_singleton _, by simp, by simp⟩
      · simp [opened, hnil, hroot]
    · have ha : a ∈ t.asked := h.asked_of_opened (opened_eq hframes ▸ List.mem_cons_self)
      refine ⟨(h.reached a ha).edge hedge, ?_, ?_⟩
      · rw [hframes] at hpath ⊢
        exact hpath.push hedge List.mem_cons_self
      · have hbase := h.base
        rw [opened_eq hframes] at hbase ⊢
        rwa [List.getLast?_cons_cons]
  exact {
    pending := h.pending
    path := hlocal.2.1
    distinct := hdistinct
    base := hlocal.2.2
    once := List.nodup_cons.mpr ⟨hk, h.once⟩
    reached := List.forall_mem_cons.mpr ⟨hlocal.1, h.reached⟩
    genuine := h.genuine }

/-- One step keeps the search upright. -/
theorem Upright.advance (h : Upright next roots t) (hstep : Advance next t t') :
    Upright next roots t' := by
  cases hstep with
  | met hframes hroots hasked =>
      exact { h with pending := fun k hk => h.pending k (hroots ▸ List.mem_cons_of_mem _ hk) }
  | @started root rest hframes hroots hasked =>
      have hrest : Upright next roots { t with roots := rest } :=
        { h with pending := fun k hk => h.pending k (hroots ▸ List.mem_cons_of_mem _ hk) }
      exact hrest.enter hasked (.inl ⟨hframes, h.pending root (hroots ▸ List.mem_cons_self)⟩)
  | @closed k below hframes =>
      have hpath := hframes ▸ h.path
      have hdistinct : (k :: below.map Prod.fst).Nodup := opened_eq hframes ▸ h.distinct
      have hbase : ∀ x ∈ (k :: below.map Prod.fst).getLast?, x ∈ roots := opened_eq hframes ▸ h.base
      exact { h with
        path := ⟨hpath.chain.tail, fun f hf => hpath.left f (.tail _ hf),
          fun f hf => hpath.inside f (.tail _ hf)⟩
        distinct := (List.nodup_cons.mp hdistinct).2
        base := fun x hx => hbase x (List.mem_getLast?_cons hx) }
  | @back k child rest below hframes hopen =>
      obtain ⟨hedge, hskip⟩ := h.skip hframes
      have hnew := genuine_close hskip.path hskip.distinct hskip.base hopen hedge
      exact { hskip with
        genuine := List.forall_mem_append.mpr ⟨hskip.genuine, List.forall_mem_singleton.mpr hnew⟩ }
  | across hframes hopen hasked => exact (h.skip hframes).2
  | @entered k child rest below hframes hasked =>
      obtain ⟨hedge, hskip⟩ := h.skip hframes
      exact hskip.enter hasked (.inr ⟨k, rest, below, rfl, hedge⟩)

/-- The search is upright at any time. -/
theorem upright_of_runs (h : Runs next (start roots) t) : Upright next roots t :=
  runs_induction h (upright_start next roots) Upright.advance

/-! ## What is closed -/

/-- Of each open key, every edge is still to be followed or leads to a key that was asked for; if
that was open before, a cycle through the key was found. -/
def Followed (next : K → List K) (asked : List K) (found : List (Cycle K)) :
    List (K × List K) → Prop
  | [] => True
  | (k, rest) :: below =>
      (∀ d ∈ next k, d ∈ rest ∨ d ∈ asked ∧ (d ∈ k :: below.map Prod.fst → OnSome found k)) ∧
        Followed next asked found below

omit [DecidableEq K] in
theorem Followed.mono {asked asked' : List K} {found found' : List (Cycle K)}
    {frames : List (K × List K)} (h : Followed next asked found frames) (hasked : asked ⊆ asked')
    (hfound : found ⊆ found') : Followed next asked' found' frames := by
  induction frames with
  | nil => trivial
  | cons frame below ih =>
      refine ⟨fun d hd => (h.1 d hd).imp_right fun hrest => ⟨hasked hrest.1, fun hopen => ?_⟩,
        ih h.2⟩
      exact (hrest.2 hopen).mono hfound

omit [DecidableEq K] in
/-- The next edge of the deepest open key was followed to a key that was asked for. -/
theorem Followed.skip {asked : List K} {found : List (Cycle K)} {k child : K} {rest : List K}
    {below : List (K × List K)} (h : Followed next asked found ((k, child :: rest) :: below))
    (hasked : child ∈ asked) (hopen : child ∈ k :: below.map Prod.fst → OnSome found k) :
    Followed next asked found ((k, rest) :: below) := by
  refine ⟨fun d hd => ?_, h.2⟩
  rcases h.1 d hd with hrest | hdone
  · rcases List.mem_cons.mp hrest with rfl | hrest
    · exact .inr ⟨hasked, hopen⟩
    · exact .inl hrest
  · exact .inr hdone

/-- How far a search with roots `roots` has come. -/
structure Thorough (next : K → List K) (roots : List K) (t : Traversal K) : Prop where
  /-- No root is forgotten. -/
  started : ∀ root ∈ roots, root ∈ t.roots ∨ root ∈ t.asked
  /-- No edge of an open key is forgotten. -/
  followed : Followed next t.asked t.found t.frames
  /-- Each edge of a closed key was followed, and going on along one meets a cycle or an end. -/
  finished : ∀ k ∈ t.asked, k ∉ t.opened → (∀ d ∈ next k, d ∈ t.asked) ∧ Ends next t.found k

omit [DecidableEq K] in
theorem thorough_start (next : K → List K) (roots : List K) :
    Thorough next roots (start roots) where
  started := fun _ hroot => .inl hroot
  followed := trivial
  finished := by simp [start]

omit [DecidableEq K] in
theorem Thorough.report (h : Thorough next roots t) (c : Cycle K) :
    Thorough next roots { t with found := t.found ++ [c] } where
  started := h.started
  followed := h.followed.mono (List.Subset.refl _) (List.subset_append_left _ _)
  finished := fun k hk hopen => (h.finished k hk hopen).imp_right fun hends => hends.append c

omit [DecidableEq K] in
/-- Opening a new key, which leaves its own edges to be followed. -/
theorem Thorough.enter (h : Thorough next roots t) {k : K} {pending : List K}
    {frames : List (K × List K)} (hpending : ∀ root ∈ t.roots, root ∈ pending ∨ root = k)
    (hopened : frames.map Prod.fst = t.opened)
    (hframes : Followed next (k :: t.asked) t.found frames) :
    Thorough next roots (Traversal.enter next { t with roots := pending, frames := frames } k) where
  started := by
    intro root hroot
    rcases h.started root hroot with hroot | hroot
    · rcases hpending root hroot with hroot | rfl
      · exact .inl hroot
      · exact .inr List.mem_cons_self
    · exact .inr (List.mem_cons_of_mem _ hroot)
  followed := ⟨fun _ hd => .inl hd, hframes⟩
  finished := by
    intro x hx hxo
    rw [Traversal.opened, Traversal.enter, List.map_cons, hopened, List.mem_cons, not_or] at hxo
    obtain ⟨hasked, hends⟩ := h.finished x ((List.mem_cons.mp hx).resolve_left hxo.1) hxo.2
    exact ⟨fun d hd => List.mem_cons_of_mem _ (hasked d hd), hends⟩

omit [DecidableEq K] in
/-- Closing a key whose edges were all followed: each leads to a closed key or closed a cycle. -/
theorem Thorough.close (h : Thorough next roots t) {k : K} {below : List (K × List K)}
    (hframes : t.frames = (k, []) :: below) :
    Thorough next roots { t with frames := below } := by
  have hopened := opened_eq hframes
  obtain ⟨hk, hbelow⟩ : Followed next t.asked t.found ((k, []) :: below) := hframes ▸ h.followed
  have hdone (d : K) (hd : d ∈ next k) :
      d ∈ t.asked ∧ (d ∈ t.opened → OnSome t.found k) := by
    rw [hopened]
    exact (hk d hd).resolve_left List.not_mem_nil
  refine ⟨h.started, hbelow, fun x hx hxo => ?_⟩
  by_cases hxk : x = k
  · subst hxk
    refine ⟨fun d hd => (hdone d hd).1, ⟨x, fun d hd => ?_⟩⟩
    have hclosed : d ∉ t.opened := fun hopen => hd.2.1 ((hdone d hd.1).2 hopen)
    exact (h.finished d (hdone d hd.1).1 hclosed).2
  · apply h.finished x hx
    rw [hopened]
    exact fun hopen => hxo ((List.mem_cons.mp hopen).resolve_left hxk)

/-- One step goes on thoroughly. -/
theorem Thorough.advance (h : Thorough next roots t) (hu : Upright next roots t)
    (hstep : Advance next t t') : Thorough next roots t' := by
  have hsame {k child : K} {rest : List K} {below : List (K × List K)}
      (hframes : t.frames = (k, child :: rest) :: below) :
      Followed next t.asked t.found ((k, child :: rest) :: below) ∧
        ∀ x, x ∉ k :: below.map Prod.fst → x ∉ t.opened :=
    ⟨hframes ▸ h.followed, fun x hx => opened_eq hframes ▸ hx⟩
  cases hstep with
  | met hframes hroots hasked =>
      refine ⟨fun root hroot => ?_, h.followed, h.finished⟩
      rcases h.started root hroot with hroot | hroot
      · rw [hroots] at hroot
        rcases List.mem_cons.mp hroot with rfl | hroot
        · exact .inr hasked
        · exact .inl hroot
      · exact .inr hroot
  | @started root rest hframes hroots hasked =>
      refine h.enter (fun x hx => ?_) rfl (h.followed.mono (List.subset_cons_self _ _)
        (List.Subset.refl _))
      rw [hroots] at hx
      exact (List.mem_cons.mp hx).symm
  | closed hframes => exact h.close hframes
  | @back k child rest below hframes hopen =>
      obtain ⟨hedge, hskip⟩ := hu.skip hframes
      have hreport := h.report (Cycle.close ((k, rest) :: below) child)
      have hmem : OnSome (t.found ++ [Cycle.close ((k, rest) :: below) child]) k := by
        refine ⟨_, List.mem_append_right _ List.mem_cons_self, ?_⟩
        obtain ⟨tail, hmembers, hlast⟩ := members_close hopen
        rw [hmembers]
        exact List.mem_of_getLast? hlast
      have hfollowed : Followed next t.asked _ ((k, child :: rest) :: below) :=
        hframes ▸ hreport.followed
      exact ⟨h.started, hfollowed.skip (hskip.asked_of_opened hopen) fun _ => hmem,
        fun x hx hxo => hreport.finished x hx ((hsame hframes).2 x hxo)⟩
  | @across k child rest below hframes hopen hasked =>
      exact ⟨h.started, (hsame hframes).1.skip hasked fun hmem => absurd hmem hopen,
        fun x hx hxo => h.finished x hx ((hsame hframes).2 x hxo)⟩
  | @entered k child rest below hframes hasked =>
      have hgrown := (hsame hframes).1.mono (List.subset_cons_self child t.asked)
        (List.Subset.refl _)
      refine h.enter (fun x hx => .inl hx) (opened_eq hframes).symm (hgrown.skip
        List.mem_cons_self fun hmem => ?_)
      exact absurd (hu.asked_of_opened (opened_eq hframes ▸ hmem)) hasked

/-- The search is thorough at any time. -/
theorem thorough_of_runs (h : Runs next (start roots) t) : Thorough next roots t := by
  have hboth : Upright next roots t ∧ Thorough next roots t := by
    apply runs_induction (P := fun t => Upright next roots t ∧ Thorough next roots t) h
    · exact ⟨upright_start next roots, thorough_start next roots⟩
    · intro t t' ⟨hu, hthorough⟩ hstep
      exact ⟨hu.advance hstep, hthorough.advance hu hstep⟩
  exact hboth.2

/-! ## The end of the search -/

/-- The search is over if there is no step left. -/
theorem over_of_step_eq_none (h : t.step next = none) : t.roots = [] ∧ t.frames = [] := by
  unfold step at h
  split at h
  · split at h
    · rename_i hframes _ hroots
      exact ⟨hroots, hframes⟩
    · cases h
  · cases h
  · cases h

/-- In the end every reachable key was asked for. -/
theorem asked_of_below (h : Runs next (start roots) t) (hover : t.step next = none) {k : K}
    (hk : Below next roots k) : k ∈ t.asked := by
  obtain ⟨hroots, hframes⟩ := over_of_step_eq_none hover
  have hthorough := thorough_of_runs h
  obtain ⟨root, hroot, hpath⟩ := hk
  induction hpath with
  | refl =>
      refine (hthorough.started root hroot).resolve_left ?_
      rw [hroots]
      exact List.not_mem_nil
  | tail _ hedge ih =>
      refine (hthorough.finished _ ih ?_).1 _ hedge
      simp [opened, hframes]

/-- In the end every walk from a reachable key meets a cycle that was found, or ends. -/
theorem ends_of_below (h : Runs next (start roots) t) (hover : t.step next = none) {k : K}
    (hk : Below next roots k) : Ends next t.found k := by
  refine ((thorough_of_runs h).finished k (asked_of_below h hover hk) ?_).2
  simp [opened, (over_of_step_eq_none hover).2]

/-! ## The bounded search -/

/-- Fresh are the keys of the domain that were not asked for. -/
def Fresh (domain : List K) (t : Traversal K) (fresh : List K) : Prop :=
  ∀ k, k ∈ fresh ↔ k ∈ domain ∧ k ∉ t.asked

theorem Fresh.ask {domain fresh : List K} (h : Fresh domain t fresh) {k : K}
    (hasked : t'.asked = k :: t.asked) : Fresh domain t' (without fresh k) := by
  intro x
  rw [mem_without, h x, hasked, List.mem_cons, not_or]
  tauto

omit [DecidableEq K] in
/-- Where only the domain can be reached, an edge that leads to no fresh key leads to one that was
asked for. -/
theorem Fresh.asked {domain fresh : List K} (h : Fresh domain t fresh)
    (hdomain : ∀ k, Below next roots k → k ∈ domain) {k : K} (hk : Below next roots k)
    (hfresh : k ∉ fresh) : k ∈ t.asked := by
  by_contra hasked
  exact hfresh ((h k).mpr ⟨hdomain k hk, hasked⟩)

/-- From the same open keys the search does what `walk` does. -/
theorem runs_walk {domain fresh : List K} {frames : List (K × List K)}
    (hdomain : ∀ k, Below next roots k → k ∈ domain) (hu : Upright next roots t)
    (hframes : t.frames = frames) (hfresh : Fresh domain t fresh) :
    ∃ t', Runs next t t' ∧ t'.roots = t.roots ∧ t'.frames = [] ∧
      t'.found = t.found ++ (walk next fresh frames).1 ∧
      Fresh domain t' (walk next fresh frames).2 := by
  fun_induction walk next fresh frames generalizing t with
  | case1 fresh =>
      exact ⟨t, .refl, rfl, hframes, (List.append_nil _).symm, hfresh⟩
  | case2 fresh k below ih =>
      have hstep : t.step next = some { t with frames := below } := by simp [step, hframes]
      obtain ⟨t', hruns, hend⟩ := ih (hu.advance (advance_of_step hstep)) rfl hfresh
      exact ⟨t', .head hstep hruns, hend⟩
  | case3 fresh k child rest below hopen found left hwalk ih =>
      have hopened : child ∈ opened { t with frames := (k, rest) :: below } := hopen
      have hstep : t.step next = some { t with
          frames := (k, rest) :: below
          found := t.found ++ [Cycle.close ((k, rest) :: below) child] } := by
        simp only [step, hframes, if_pos hopened]
      obtain ⟨t', hruns, hroots, hnil, hfound, hleft⟩ :=
        ih (hu.advance (advance_of_step hstep)) rfl hfresh
      rw [hwalk] at hfound hleft
      refine ⟨t', .head hstep hruns, hroots, hnil, ?_, hleft⟩
      rw [hfound, List.append_assoc, List.singleton_append]
  | case4 fresh k child rest below hopen hchild ih =>
      have hopened : child ∉ opened { t with frames := (k, rest) :: below } := hopen
      have hasked : child ∉ t.asked := ((hfresh child).mp hchild).2
      have hstep : t.step next =
          some (Traversal.enter next { t with frames := (k, rest) :: below } child) := by
        simp only [step, hframes, if_neg hopened, if_neg hasked]
      obtain ⟨t', hruns, hend⟩ :=
        ih (hu.advance (advance_of_step hstep)) rfl (hfresh.ask rfl)
      exact ⟨t', .head hstep hruns, hend⟩
  | case5 fresh k child rest below hopen hchild ih =>
      have hopened : child ∉ opened { t with frames := (k, rest) :: below } := hopen
      obtain ⟨hedge, hskip⟩ := hu.skip hframes
      have hk : Below next roots k := hu.reached k (hskip.path.inside (k, rest) List.mem_cons_self)
      have hasked : child ∈ t.asked := hfresh.asked hdomain (hk.edge hedge) hchild
      have hstep : t.step next = some { t with frames := (k, rest) :: below } := by
        simp only [step, hframes, if_neg hopened, if_pos hasked]
      obtain ⟨t', hruns, hend⟩ := ih hskip rfl hfresh
      exact ⟨t', .head hstep hruns, hend⟩

/-- From the same roots the search does what `findFrom` does, and then is over. -/
theorem runs_findFrom {domain fresh pending : List K}
    (hdomain : ∀ k, Below next roots k → k ∈ domain) (hu : Upright next roots t)
    (hpending : t.roots = pending) (hframes : t.frames = []) (hfresh : Fresh domain t fresh) :
    ∃ t', Runs next t t' ∧ t'.step next = none ∧
      t'.found = t.found ++ findFrom next fresh pending := by
  induction pending generalizing t fresh with
  | nil =>
      exact ⟨t, .refl, by simp [step, hframes, hpending], (List.append_nil _).symm⟩
  | cons root rest ih =>
      have hroot : root ∈ roots := hu.pending root (hpending ▸ List.mem_cons_self)
      by_cases hmem : root ∈ fresh
      · have hasked : root ∉ t.asked := ((hfresh root).mp hmem).2
        have hstep : t.step next = some (Traversal.enter next { t with roots := rest } root) := by
          simp [step, hframes, hpending, hasked]
        have hu₁ := hu.advance (advance_of_step hstep)
        obtain ⟨t₂, hruns₂, hroots₂, hnil₂, hfound₂, hfresh₂⟩ :=
          runs_walk hdomain hu₁ rfl (hfresh.ask rfl)
        have hu₂ := runs_induction hruns₂ hu₁ Upright.advance
        obtain ⟨t₃, hruns₃, hover, hfound₃⟩ := ih hu₂ hroots₂ hnil₂ hfresh₂
        refine ⟨t₃, .head hstep (hruns₂.trans hruns₃), hover, ?_⟩
        rw [hfound₃, hfound₂, findFrom, if_pos hmem, List.append_assoc]
        simp only [Traversal.enter, hframes]
      · have hasked : root ∈ t.asked := hfresh.asked hdomain (below_of_mem hroot) hmem
        have hstep : t.step next = some { t with roots := rest } := by
          simp [step, hframes, hpending, hasked]
        obtain ⟨t', hruns, hover, hfound⟩ :=
          ih (hu.advance (advance_of_step hstep)) rfl hframes hfresh
        refine ⟨t', .head hstep hruns, hover, ?_⟩
        rw [hfound, findFrom, if_neg hmem]

/-- If only keys of the domain can be reached, the search ends and has found what `find` yields. -/
theorem runs_find {domain : List K} (hdomain : ∀ k, Below next roots k → k ∈ domain) :
    ∃ t, Runs next (start roots) t ∧ t.step next = none ∧ t.found = find next domain roots := by
  have hfresh : Fresh domain (start roots) domain := by
    intro k
    simp [start]
  simpa [start, find] using
    runs_findFrom hdomain (upright_start next roots) rfl rfl hfresh

/-- Beyond the reported cycles nothing goes on for ever. -/
theorem ends_find {domain : List K} (hdomain : ∀ k, Below next roots k → k ∈ domain) {k : K}
    (hk : Below next roots k) : Ends next (find next domain roots) k := by
  obtain ⟨t, hruns, hover, hfound⟩ := runs_find hdomain
  exact hfound ▸ ends_of_below hruns hover hk

end Traversal

/-- The search for cycles is exact.  If finitely many keys can be reached, it ends and has asked for
the edges of each of them once.  Whatever it reports is a cycle of distinct keys at the end of a
path from a root.  Every cycle that can be reached has a member on a reported one, so that without
their members no cycle is left; in particular nothing is reported only if there is none. -/
theorem find_exact [DecidableEq K] {next : K → List K} {domain roots : List K}
    (hdomain : ∀ k, Below next roots k → k ∈ domain) :
    (∃ t, Traversal.Runs next (.start roots) t ∧ t.step next = none ∧
      t.found = find next domain roots ∧ t.asked.Nodup ∧ ∀ k, k ∈ t.asked ↔ Below next roots k) ∧
    (∀ c ∈ find next domain roots, Genuine next roots c) ∧
    (∀ c : Cycle K, (∀ e ∈ c.edges, e.2 ∈ next e.1) → (∃ k ∈ c.members, Below next roots k) →
      ∃ k ∈ c.members, OnSome (find next domain roots) k) ∧
    (∀ k, Below next roots k →
      ¬ Relation.TransGen (Spared next (find next domain roots)) k k) ∧
    (find next domain roots = [] ↔
      ∀ k, Below next roots k → ¬ Relation.TransGen (fun a b => b ∈ next a) k k) := by
  obtain ⟨t, hruns, hover, hfound⟩ := Traversal.runs_find hdomain
  have hu := Traversal.upright_of_runs hruns
  have hends (k : K) (hk : Below next roots k) : Ends next (find next domain roots) k :=
    Traversal.ends_find hdomain hk
  have hgenuine (c : Cycle K) (hc : c ∈ find next domain roots) : Genuine next roots c :=
    hu.genuine c (hfound.symm ▸ hc)
  refine ⟨⟨t, hruns, hover, hfound, hu.once, fun k => ⟨hu.reached k, ?_⟩⟩, hgenuine, ?_, ?_, ?_⟩
  · exact Traversal.asked_of_below hruns hover
  · intro c hedges ⟨k, hk, hbelow⟩
    by_contra hnone
    have hspared : ∀ m ∈ c.members, ¬ OnSome (find next domain roots) m :=
      fun m hm hon => hnone ⟨m, hm, hon⟩
    exact (hends k hbelow).not_mem_members hedges hspared hk
  · exact fun k hk => (hends k hk).not_loop
  · constructor
    · intro hnil k hk hloop
      have hspared : ∀ m, ¬ OnSome (find next domain roots) m := by simp [OnSome, hnil]
      exact (hends k hk).not_loop
        (Relation.TransGen.mono (fun a b hab => ⟨hab, hspared a, hspared b⟩) k k hloop)
    · intro hacyclic
      by_contra hne
      obtain ⟨c, hc⟩ := List.exists_mem_of_ne_nil _ hne
      obtain ⟨k, hk, hloop⟩ := (hgenuine c hc).loop
      exact hacyclic k hk hloop

/-- Two cycles with a common key below one root. -/
def nested (k : Nat) : List Nat := [[1, 3], [2], [1, 2, 3]].getD k []

/-- Both are found, each with the path to it. -/
theorem find_exact_nested :
    (∀ k, Below nested [0] k → k ∈ [0, 1, 2, 3]) ∧
      find nested [0, 1, 2, 3] [0] = [⟨[0], [1, 2]⟩, ⟨[0, 1], [2]⟩] ∧
      (∀ c ∈ find nested [0, 1, 2, 3] [0], Genuine nested [0] c) ∧
      ¬ Relation.TransGen (Spared nested (find nested [0, 1, 2, 3] [0])) 2 2 := by
  have hdomain : ∀ k, Below nested [0] k → k ∈ [0, 1, 2, 3] := by
    rintro k ⟨root, hroot, hpath⟩
    induction hpath with
    | refl => simp [List.mem_singleton.mp hroot]
    | @tail a b _ hedge ih =>
        have hclosed : ∀ a ∈ [0, 1, 2, 3], ∀ b ∈ nested a, b ∈ [0, 1, 2, 3] := by decide
        exact hclosed a ih b hedge
  obtain ⟨-, hgenuine, -, hspared, -⟩ := find_exact hdomain
  have h₁ : Below nested [0] 1 := (below_of_mem List.mem_cons_self).edge (k := 0) (by decide)
  exact ⟨hdomain, by cbv, hgenuine, hspared 2 (h₁.edge (by decide))⟩

end Cycle

end MemoGraph
