import Mathlib.Data.List.Nodup
import Mathlib.Logic.Relation
import SequentSearch.Proofs.Requests

/-!
# The list of open goals

A proof keeps four things that have to agree: the nodes with their links, which of them are closed,
the table of goals, and the list of open goals. `Proof.Consistent` says how they do, in every state
that requests lead to (`Proof.consistent_after`):

* the links of the nodes go both ways, and downwards to larger numbers;
* the list of open goals holds the numbers of the goals, each once, in the order of their leaves
  from left to right;
* a leaf has a goal, or it is closed and carries the application that closed it; a node with
  children is closed if and only if they are;
* the root is closed if and only if no goal is open.

The left-to-right order is that of the tree (`Proof.LeftOf`): two nodes are in order if their
branches part at children of one node that are in order. Steps add nodes below leaves only, so nodes
that are in order stay so (`Proof.LeftOf.grows`), and so do the nodes below them
(`Proof.LeftOf.below`). That is why the list stays in order when the goals that replace a goal are
put in its place.
-/

namespace SequentSearch

namespace Proof

variable {nodes nodes' : Array Node} {p q : Proof} {g : GoalId} {goal : Goal} {app : RuleApp}
  {i j i' j' : NodeId}

/-! ## The order of the tree -/

/-- A node is a child of another one. -/
def IsChild (nodes : Array Node) (i c : NodeId) : Prop := ∃ n, nodes[i]? = some n ∧ c ∈ n.children

/-- A node is at or below another one, which comes first. -/
def Below (nodes : Array Node) : NodeId → NodeId → Prop := Relation.ReflTransGen (IsChild nodes)

/-- **A node is to the left of another one**: their branches part at two children of one node, and
the child on its branch comes first. -/
def LeftOf (nodes : Array Node) (i j : NodeId) : Prop :=
  ∃ (k : NodeId) (n : Node) (a b : NodeId), nodes[k]? = some n ∧ [a, b].Sublist n.children ∧
    Below nodes a i ∧ Below nodes b j

/-- The nodes there were are still there with their children in the same order, among others
perhaps. -/
def Grows (nodes nodes' : Array Node) : Prop :=
  ∀ (i : NodeId) (n : Node), nodes[i]? = some n →
    ∃ n', nodes'[i]? = some n' ∧ n.children.Sublist n'.children

theorem Below.grows (h : Below nodes i j) (hgrows : Grows nodes nodes') : Below nodes' i j := by
  refine Relation.ReflTransGen.mono ?_ _ _ h
  rintro k c ⟨n, hn, hc⟩
  obtain ⟨n', hn', hsub⟩ := hgrows k n hn
  exact ⟨n', hn', hsub.subset hc⟩

/-- Nodes that are in order stay so. -/
theorem LeftOf.grows (h : LeftOf nodes i j) (hgrows : Grows nodes nodes') : LeftOf nodes' i j := by
  obtain ⟨k, n, a, b, hn, hab, hi, hj⟩ := h
  obtain ⟨n', hn', hsub⟩ := hgrows k n hn
  exact ⟨k, n', a, b, hn', hab.trans hsub, hi.grows hgrows, hj.grows hgrows⟩

/-- What is below nodes that are in order is in order. -/
theorem LeftOf.below (h : LeftOf nodes i j) (hi : Below nodes i i') (hj : Below nodes j j') :
    LeftOf nodes i' j' := by
  obtain ⟨k, n, a, b, hn, hab, ha, hb⟩ := h
  exact ⟨k, n, a, b, hn, hab, ha.trans hi, hb.trans hj⟩

/-- **One open goal comes before another one**: its leaf is to the left of the other's. -/
def Precedes (p : Proof) (g h : GoalId) : Prop :=
  ∃ goal goal', p.goal? g = some goal ∧ p.goal? h = some goal' ∧ LeftOf p.nodes goal.node goal'.node

/-- **The open goals are listed**, each once, from left to right. -/
structure Listed (p : Proof) : Prop where
  /-- none is listed twice -/
  nodup : p.openGoals.Nodup
  /-- all are listed, and nothing else -/
  mem_openGoals : ∀ g, g ∈ p.openGoals ↔ p.isOpen g
  /-- from left to right -/
  ordered : p.openGoals.Pairwise p.Precedes

theorem isOpen_iff : p.isOpen g ↔ ∃ goal, p.goal? g = some goal := Option.isSome_iff_exists

theorem isOpen_of_goal? (h : p.goal? g = some goal) : p.isOpen g := isOpen_iff.mpr ⟨goal, h⟩

/-- The list stays right as long as the nodes only grow and the goals stay where they are. -/
theorem Listed.congr (h : p.Listed) (hgrows : Grows p.nodes q.nodes)
    (hgoals : ∀ g, (p.goal? g = none ∧ q.goal? g = none) ∨
      ∃ goal goal', p.goal? g = some goal ∧ q.goal? g = some goal' ∧ SameGoal goal goal')
    (hopen : q.openGoals = p.openGoals) : q.Listed := by
  have hgoal : ∀ {g goal}, p.goal? g = some goal →
      ∃ goal', q.goal? g = some goal' ∧ goal'.node = goal.node := by
    intro g goal hg
    rcases hgoals g with ⟨hnone, -⟩ | ⟨goal₁, goal', hp, hq, hsame⟩
    · cases hg.symm.trans hnone
    · cases hg.symm.trans hp
      exact ⟨goal', hq, hsame.1⟩
  constructor
  · rw [hopen]
    exact h.nodup
  · intro g
    rw [hopen, h.mem_openGoals]
    rcases hgoals g with ⟨hp, hq⟩ | ⟨goal, goal', hp, hq, -⟩ <;> simp [isOpen, hp, hq]
  · rw [hopen]
    refine h.ordered.imp ?_
    rintro g₁ g₂ ⟨goal₁, goal₂, h₁, h₂, hleft⟩
    obtain ⟨goal₁', h₁', hnode₁⟩ := hgoal h₁
    obtain ⟨goal₂', h₂', hnode₂⟩ := hgoal h₂
    exact ⟨goal₁', goal₂', h₁', h₂', hnode₁ ▸ hnode₂ ▸ hleft.grows hgrows⟩

theorem grows_refl (nodes : Array Node) : Grows nodes nodes := fun _ n hn => ⟨n, hn, .refl _⟩

theorem grows_recordApp (p : Proof) (id : NodeId) (app : RuleApp) :
    Grows p.nodes (p.recordApp id app).nodes := by
  intro i n hn
  rcases sameNodes_recordApp p id app i with ⟨hnone, -⟩ | ⟨m, n', hm, hn', hsame, -⟩
  · cases hn.symm.trans hnone
  · cases hn.symm.trans hm
    exact ⟨n', hn', hsame.2.1 ▸ .refl _⟩

theorem grows_closeUp (path : List NodeId) (nodes : Array Node) :
    Grows nodes (closeUp path nodes) := by
  intro i n hn
  rcases closeUp_same path nodes i with ⟨hnone, -⟩ | ⟨m, n', hm, hn', hsame, -⟩
  · cases hn.symm.trans hnone
  · cases hn.symm.trans hm
    exact ⟨n', hn', hsame.2.1 ▸ .refl _⟩

/-- **Closing a goal keeps the list right.** -/
theorem Listed.close (h : p.Listed) (g : GoalId) (goal : Goal) : (p.close g goal).Listed := by
  have hget : ∀ g', (p.close g goal).goal? g' = if g' = g then none else p.goal? g' :=
    fun g' => IdTable.get?_erase ..
  have hlist : (p.close g goal).openGoals = p.openGoals.filter (· != g) := rfl
  constructor
  · exact h.nodup.filter _
  · intro g'
    rw [hlist, List.mem_filter, h.mem_openGoals, isOpen_iff, isOpen_iff, hget]
    by_cases hg' : g' = g <;> simp [hg']
  · rw [hlist, List.pairwise_filter]
    refine h.ordered.imp ?_
    rintro g₁ g₂ ⟨goal₁, goal₂, h₁, h₂, hleft⟩ hg₁ hg₂
    refine ⟨goal₁, goal₂, ?_, ?_, hleft.grows (grows_closeUp _ _)⟩
    · rw [hget, if_neg (by simpa using hg₁), h₁]
    · rw [hget, if_neg (by simpa using hg₂), h₂]

/-! ## Splitting a goal keeps the list right -/

section

variable {entries : List (GoalId × Successor)}

/-- The list with other goals in the place of a goal. -/
def putInPlace (g : GoalId) (ids openGoals : List GoalId) : List GoalId :=
  openGoals.flatMap fun h => if h = g then ids else [h]

theorem openGoals_split (p : Proof) (g : GoalId) (goal : Goal) (app : RuleApp)
    (succs : List Successor) :
    (p.split g goal app succs).2.openGoals = putInPlace g (splitIds p g succs) p.openGoals := rfl

/-- Splitting a goal adds nodes, and children below its leaf. -/
theorem Splits.grows (hs : Splits p q goal app entries) : Grows p.nodes q.nodes := by
  intro i n hn
  by_cases hi : i = goal.node
  · subst hi
    exact ⟨_, hs.leaf n hn, List.sublist_append_left ..⟩
  · exact ⟨n, (hs.other i hi (lt_size_of_getElem? hn)).trans hn, List.Sublist.refl _⟩

/-- The new nodes are children of the leaf. -/
theorem Splits.isChild (hs : Splits p q goal app entries) (htree : p.Tree)
    (hgoal : p.goal? g = some goal) {k : Nat} (hk : k < entries.length) :
    IsChild q.nodes goal.node (p.nodes.size + k) := by
  obtain ⟨leaf, hleaf, -⟩ := htree.goal_node g goal hgoal
  refine ⟨_, hs.leaf leaf hleaf, List.mem_append_right _ (List.mem_range'_1.mpr ⟨?_, ?_⟩)⟩ <;> omega

/-- **The goals that take the place of a goal are below it.** A goal that was not split is one of
them itself. -/
theorem Splits.goal_below (hs : Splits p q goal app entries) (hnum : Numbered p q g entries)
    (htree : p.Tree) (hgoal : p.goal? g = some goal) {a x : GoalId} {goal₁ : Goal}
    (ha : p.goal? a = some goal₁) (hx : x ∈ if a = g then entries.map Prod.fst else [a]) :
    ∃ goal', q.goal? x = some goal' ∧ Below q.nodes goal₁.node goal'.node := by
  split at hx <;> rename_i heq
  · subst heq
    cases hgoal.symm.trans ha
    obtain ⟨e, he, rfl⟩ := List.mem_map.mp hx
    obtain ⟨k, hk, hget⟩ := List.mem_iff_getElem.mp he
    refine ⟨_, hs.goal_new hnum.nodup k e (List.getElem?_eq_some_iff.mpr ⟨hk, hget⟩), ?_⟩
    exact .single (hs.isChild htree hgoal hk)
  · obtain rfl := List.mem_singleton.mp hx
    exact ⟨goal₁, (hs.goal_old x (hnum.ne htree ha heq)).trans ha, .refl⟩

theorem pair_sublist_range' {s n k l : Nat} (hkl : k < l) (hl : l < n) :
    [s + k, s + l].Sublist (List.range' s n) := by
  have hsplit :
      List.range' s n = List.range' s (k + 1) ++ List.range' (s + (k + 1)) (n - (k + 1)) := by
    rw [List.range'_append_1]
    congr
    omega
  have hfirst : s + k ∈ List.range' s (k + 1) := by
    rw [List.mem_range'_1]
    omega
  have hsecond : s + l ∈ List.range' (s + (k + 1)) (n - (k + 1)) := by
    rw [List.mem_range'_1]
    omega
  rw [hsplit]
  exact (List.singleton_sublist.mpr hfirst).append (List.singleton_sublist.mpr hsecond)

/-- **The new goals are in order**, as their nodes are in order below the leaf. -/
theorem Splits.precedes (hs : Splits p q goal app entries) (hnum : Numbered p q g entries)
    (htree : p.Tree) (hgoal : p.goal? g = some goal) :
    (entries.map Prod.fst).Pairwise q.Precedes := by
  obtain ⟨leaf, hleaf, -⟩ := htree.goal_node g goal hgoal
  rw [List.pairwise_map, List.pairwise_iff_getElem]
  intro k l hk hl hkl
  refine ⟨_, _, hs.goal_new hnum.nodup k _ (List.getElem?_eq_getElem hk),
    hs.goal_new hnum.nodup l _ (List.getElem?_eq_getElem hl), ?_⟩
  refine ⟨goal.node, _, _, _, hs.leaf leaf hleaf, ?_, .refl, .refl⟩
  exact (pair_sublist_range' hkl hl).trans (List.sublist_append_right ..)

theorem Splits.ordered (hs : Splits p q goal app entries) (hnum : Numbered p q g entries)
    (htree : p.Tree) (hgoal : p.goal? g = some goal) {openGoals : List GoalId}
    (h : openGoals.Pairwise p.Precedes) :
    (putInPlace g (entries.map Prod.fst) openGoals).Pairwise q.Precedes := by
  rw [putInPlace, List.pairwise_flatMap]
  refine ⟨fun a _ => ?_, h.imp ?_⟩
  · split
    · exact hs.precedes hnum htree hgoal
    · exact List.pairwise_singleton ..
  · rintro a b ⟨goal₁, goal₂, ha, hb, hleft⟩ x hx y hy
    obtain ⟨goal₁', hx', hbelow₁⟩ := hs.goal_below hnum htree hgoal ha hx
    obtain ⟨goal₂', hy', hbelow₂⟩ := hs.goal_below hnum htree hgoal hb hy
    exact ⟨goal₁', goal₂', hx', hy', (hleft.grows hs.grows).below hbelow₁ hbelow₂⟩

theorem Splits.mem_putInPlace (hs : Splits p q goal app entries) (hnum : Numbered p q g entries)
    (htree : p.Tree) (hgoal : p.goal? g = some goal) {openGoals : List GoalId}
    (h : ∀ g', g' ∈ openGoals ↔ p.isOpen g') (x : GoalId) :
    x ∈ putInPlace g (entries.map Prod.fst) openGoals ↔ q.isOpen x := by
  rw [putInPlace, List.mem_flatMap]
  constructor
  · rintro ⟨a, ha, hx⟩
    obtain ⟨goal₁, hgoal₁⟩ := isOpen_iff.mp ((h a).mp ha)
    obtain ⟨goal', hx', -⟩ := hs.goal_below hnum htree hgoal hgoal₁ hx
    exact isOpen_of_goal? hx'
  · intro hx
    obtain ⟨goal', hx⟩ := isOpen_iff.mp hx
    rcases hs.goal_cases hx with ⟨hold, hids⟩ | ⟨k, e, he, rfl, -⟩
    · obtain ⟨s, rest, hfirst⟩ := hnum.first
      have hne : x ≠ g := (hids (g, s) (hfirst ▸ List.mem_cons_self ..)).symm
      exact ⟨x, (h x).mpr (isOpen_of_goal? hold), by simp [hne]⟩
    · refine ⟨g, (h g).mpr (isOpen_of_goal? hgoal), ?_⟩
      rw [if_pos rfl]
      exact List.mem_map_of_mem (List.mem_of_getElem? he)

theorem Numbered.nodup_putInPlace (hnum : Numbered p q g entries) (htree : p.Tree)
    {openGoals : List GoalId} (hopen : ∀ g' ∈ openGoals, p.isOpen g') (h : openGoals.Nodup) :
    (putInPlace g (entries.map Prod.fst) openGoals).Nodup := by
  -- a goal that stays has none of the numbers of the new ones
  have hfresh : ∀ a ∈ openGoals, a ≠ g → a ∉ entries.map Prod.fst := by
    intro a ha hne hmem
    obtain ⟨goal₁, hgoal₁⟩ := isOpen_iff.mp (hopen a ha)
    obtain ⟨e, he, heq⟩ := List.mem_map.mp hmem
    exact hnum.ne htree hgoal₁ hne e he heq
  rw [putInPlace, List.nodup_flatMap]
  refine ⟨fun a _ => ?_, h.imp_of_mem ?_⟩
  · split
    · exact hnum.nodup
    · exact List.nodup_singleton a
  · intro a b ha hb hne x hxa hxb
    simp only at hxa hxb
    split at hxa <;> split at hxb <;> rename_i hag hbg
    · exact hne (hag.trans hbg.symm)
    · exact hfresh b hb hbg (List.mem_singleton.mp hxb ▸ hxa)
    · exact hfresh a ha hag (List.mem_singleton.mp hxa ▸ hxb)
    · exact hne ((List.mem_singleton.mp hxa).symm.trans (List.mem_singleton.mp hxb))

/-- **Splitting a goal keeps the list right.** -/
theorem Listed.splits (h : p.Listed) (hs : Splits p q goal app entries)
    (hnum : Numbered p q g entries) (htree : p.Tree) (hgoal : p.goal? g = some goal)
    (hopen : q.openGoals = putInPlace g (entries.map Prod.fst) p.openGoals) : q.Listed where
  nodup := hopen ▸ hnum.nodup_putInPlace htree (fun g' hg' => (h.mem_openGoals g').mp hg') h.nodup
  mem_openGoals := hopen ▸ hs.mem_putInPlace hnum htree hgoal h.mem_openGoals
  ordered := hopen ▸ hs.ordered hnum htree hgoal h.ordered

end

/-! ## What nodes look like -/

/-- **What a node looks like**, beside its links. -/
structure Shaped (i : NodeId) (n : Node) : Prop where
  /-- no node but the root is without a parent -/
  rooted : n.parent = none → i = root
  /-- children are listed in the order in which they were added -/
  increasing : n.children.Pairwise (· < ·)
  /-- an application is recorded where it was made: the node is closed, or has children -/
  recorded : n.app.isSome ↔ n.children ≠ [] ∨ n.closed

theorem getElem?_recordApp (p : Proof) (id : NodeId) (app : RuleApp) (i : NodeId) :
    (p.recordApp id app).nodes[i]? =
      if id = i then p.nodes[i]?.map fun n => { n with app := some app } else p.nodes[i]? :=
  Array.getElem?_modify

/-- Closing changes no application that is recorded. -/
theorem map_app_closeUp (path : List NodeId) (nodes : Array Node) (i : NodeId) :
    (closeUp path nodes)[i]?.map Node.app = nodes[i]?.map Node.app := by
  induction path generalizing nodes with
  | nil => rfl
  | cons id above ih =>
    rw [closeUp_cons]
    split
    · rw [ih, getElem?_closeNode]
      split
      · cases nodes[i]? <;> rfl
      · rfl
    · rfl

/-- **The nodes after a goal was closed.** The leaf is closed and carries the application. The
others that are closed now have children. -/
theorem Tree.node_of_close (h : p.Tree) (hgoal : p.goal? g = some goal) (app : RuleApp)
    (names : NameSupply) {n' : Node}
    (hn' : (({ p with names := names }.recordApp goal.node app).close g goal).nodes[i]? = some n') :
    ∃ n, p.nodes[i]? = some n ∧ n'.parent = n.parent ∧ n'.children = n.children ∧
      (i = goal.node → n'.app = some app ∧ n'.closed) ∧
      (i ≠ goal.node → n'.app = n.app ∧ (n'.closed → n.children ≠ [] ∨ n.closed) ∧
        (n.closed → n'.closed)) := by
  have htree := h.recordApp goal.node app names
  obtain ⟨leaf, hleaf, -, hchildren, -⟩ := htree.goal_node g goal hgoal
  have hclosable : closable ({ p with names := names }.recordApp goal.node app).nodes
      goal.node := by
    rw [closable_iff hleaf, hchildren]
    exact fun c hc => (nomatch hc)
  have happ := map_app_closeUp (goal.node :: goal.steps.map Step.node)
    ({ p with names := names }.recordApp goal.node app).nodes i
  rcases closeUp_same (goal.node :: goal.steps.map Step.node)
      ({ p with names := names }.recordApp goal.node app).nodes i with
    ⟨-, hnone⟩ | ⟨m, m', hm, hm', hsame, hmono⟩
  · cases hn'.symm.trans hnone
  · cases hn'.symm.trans hm'
    rw [hm, hm'] at happ
    have happ : n'.app = m.app := Option.some.inj happ
    have hrecord := getElem?_recordApp { p with names := names } goal.node app i
    rw [hm] at hrecord
    split at hrecord <;> rename_i hi
    · subst hi
      obtain ⟨n, hn, rfl⟩ := Option.map_eq_some_iff.mp hrecord.symm
      obtain ⟨m', hm', hclosed⟩ := nodeClosed_iff.mp (closeUp_head hclosable)
      cases hn'.symm.trans hm'
      exact ⟨n, hn, hsame.1, hsame.2.1, fun _ => ⟨happ, hclosed⟩, fun hne => absurd rfl hne⟩
    · refine ⟨m, hrecord.symm, hsame.1, hsame.2.1, fun heq => absurd heq.symm hi, fun hne => ?_⟩
      refine ⟨happ, fun hclosed => ?_, hmono⟩
      rcases closed_of_closeUp (nodeClosed_iff.mpr ⟨n', hn', hclosed⟩) with hbefore | hpath
      · obtain ⟨m₁, hm₁, hclosed₁⟩ := nodeClosed_iff.mp hbefore
        cases hm.symm.trans hm₁
        exact .inr hclosed₁
      · rcases List.mem_cons.mp hpath with heq | habove
        · exact absurd heq hne
        · obtain ⟨m₁, hm₁, hne₁⟩ := htree.children_of_branch (htree.branch g goal hgoal) i habove
          cases hm.symm.trans hm₁
          exact .inl hne₁

/-- **Closing a goal** leaves the nodes in shape. -/
theorem Tree.shaped_close (h : p.Tree) (hgoal : p.goal? g = some goal) (app : RuleApp)
    (names : NameSupply) (hshaped : ∀ i n, p.nodes[i]? = some n → Shaped i n) {n' : Node}
    (hn' : (({ p with names := names }.recordApp goal.node app).close g goal).nodes[i]? = some n') :
    Shaped i n' := by
  obtain ⟨n, hn, hparent, hchildren, hleaf, hother⟩ := h.node_of_close hgoal app names hn'
  obtain ⟨hrooted, hincreasing, hrecorded⟩ := hshaped i n hn
  refine ⟨hparent ▸ hrooted, hchildren ▸ hincreasing, ?_⟩
  by_cases hi : i = goal.node
  · obtain ⟨happ, hclosed⟩ := hleaf hi
    simp [happ, hclosed]
  · obtain ⟨happ, hclosed, hmono⟩ := hother hi
    rw [happ, hchildren, hrecorded]
    exact ⟨Or.imp_right hmono, fun h => h.elim .inl hclosed⟩

/-- **Splitting a goal** leaves the nodes in shape. -/
theorem Tree.shaped_split (h : p.Tree) (hgoal : p.goal? g = some goal) (app : RuleApp)
    (names : NameSupply) (hshaped : ∀ i n, p.nodes[i]? = some n → Shaped i n)
    {entries : List (GoalId × Successor)} (hne : entries ≠ [])
    (hs : Splits ({ p with names := names }.recordApp goal.node app) q goal app entries) {n : Node}
    (hn : q.nodes[i]? = some n) : Shaped i n := by
  obtain ⟨leaf, hleaf, -, hchildren, -⟩ := h.goal_node g goal hgoal
  have hrecord := getElem?_recordApp { p with names := names } goal.node app
  have hleaf' := hrecord goal.node
  rw [if_pos rfl, hleaf, Option.map_some] at hleaf'
  rcases hs.node_cases hleaf' hn with ⟨rfl, rfl⟩ | ⟨hi, hp⟩ | ⟨k, e, -, -, rfl⟩
  · refine ⟨(hshaped _ leaf hleaf).rooted, ?_, ?_⟩
    · simp only [hchildren, List.nil_append]
      exact List.pairwise_lt_range' ..
    · simp [hne]
  · rw [hrecord, if_neg (Ne.symm hi)] at hp
    exact hshaped i n hp
  · exact ⟨fun hnone => (nomatch hnone), .nil, by simp⟩

/-! ## All that is kept -/

/-- **What every request keeps.** -/
structure InOrder (p : Proof) : Prop where
  /-- the nodes form a tree -/
  tree : p.Tree
  /-- they are in shape -/
  shaped : ∀ i n, p.nodes[i]? = some n → Shaped i n
  /-- the open goals are listed -/
  listed : p.Listed

theorem inOrder_start (root : Sequent) (rules : List Rule) (strategy : Strategy) :
    (start root rules strategy).InOrder where
  tree := tree_start root rules strategy
  shaped i n hn := by
    obtain ⟨rfl, rfl⟩ := nodes_start root rules strategy hn
    exact ⟨fun _ => rfl, .nil, by simp⟩
  listed := by
    refine ⟨List.nodup_singleton 0, fun g => ?_, List.pairwise_singleton ..⟩
    have hget : (start root rules strategy).goal? g = if g = 0 then some _ else none :=
      IdTable.get?_insert ..
    have hopen : (start root rules strategy).openGoals = [0] := rfl
    rw [isOpen, hget, hopen, List.mem_singleton]
    by_cases hg : g = 0 <;> simp [hg]

/-- **A step keeps all in order.** -/
theorem InOrder.apply (h : p.InOrder) (g : GoalId) (app : RuleApp) : (p.apply g app).2.InOrder := by
  have htree := h.tree.apply g app
  have hcases := apply_cases p g app
  generalize (p.apply g app).2 = q at hcases htree ⊢
  cases hcases with
  | failed hnames =>
    exact ⟨htree, h.shaped, h.listed.congr (grows_refl p.nodes) (sameGoals_refl p) rfl⟩
  | @closed goal names hgoal hexec =>
    have hlisted := h.listed.congr (grows_recordApp { p with names := names } goal.node app)
      (sameGoals_refl p) rfl
    exact ⟨htree, fun i n => h.tree.shaped_close hgoal app names h.shaped, hlisted.close g goal⟩
  | @split goal names succs hgoal hexec hne =>
    have hlisted := h.listed.congr (grows_recordApp { p with names := names } goal.node app)
      (sameGoals_refl p) rfl
    have htree' := h.tree.recordApp goal.node app names
    obtain ⟨n, hn, -⟩ := htree'.goal_node g goal hgoal
    have hs := splits_split (lt_size_of_getElem? hn) g app succs
    have hnum : Numbered _ (Proof.split _ g goal app succs).2 g _ :=
      numbered_split hne (htree'.goal_lt g goal hgoal)
    have hentries : splitEntries ({ p with names := names }.recordApp goal.node app) g succs ≠
        [] := by
      obtain ⟨s, rest, hfirst⟩ := hnum.first
      exact hfirst ▸ List.cons_ne_nil _ _
    refine ⟨htree, fun i n => h.tree.shaped_split hgoal app names h.shaped hentries hs, ?_⟩
    refine hlisted.splits hs hnum htree' hgoal ?_
    rw [openGoals_split, map_fst_splitEntries _ g hne]

theorem InOrder.keeps (h : p.InOrder) (hkeeps : Keeps p q) : q.InOrder where
  tree := h.tree.keeps hkeeps
  shaped := hkeeps.nodes ▸ h.shaped
  listed := by
    refine h.listed.congr (hkeeps.nodes ▸ grows_refl p.nodes) (fun g => ?_) hkeeps.openGoals
    rcases hkeeps.goals g with hnone | ⟨goal, goal', hp, hq, hsame⟩
    · exact .inl hnone
    · exact .inr ⟨goal, goal', hp, hq, hsame.same⟩

/-- A node above one that is not closed is not closed. So neither is the root. -/
theorem InOrder.root_open (h : p.InOrder) {path : List NodeId} (hbranch : Branch p.nodes i path)
    (hopen : ¬nodeClosed p.nodes i) : ¬nodeClosed p.nodes root := by
  induction hbranch with
  | root hn hparent => exact (h.shaped _ _ hn).rooted hparent ▸ hopen
  | step hn hparent _ ih =>
    obtain ⟨m, hm, hmem⟩ := h.tree.parent _ _ hn _ hparent
    refine ih fun hclosed => hopen ?_
    obtain ⟨m', hm', hclosed⟩ := nodeClosed_iff.mp hclosed
    cases hm.symm.trans hm'
    exact (h.tree.closedIff _ m hm (List.ne_nil_of_mem hmem)).mp hclosed _ hmem

/-- **The root is closed if and only if no goal is open.** -/
theorem InOrder.isClosed_iff (h : p.InOrder) : p.isClosed ↔ p.openGoals = [] := by
  constructor
  · intro hclosed
    refine List.eq_nil_iff_forall_not_mem.mpr fun g hg => ?_
    obtain ⟨goal, hgoal⟩ := isOpen_iff.mp ((h.listed.mem_openGoals g).mp hg)
    obtain ⟨n, hn, -, -, hopen⟩ := h.tree.goal_node g goal hgoal
    refine h.root_open (h.tree.branch g goal hgoal) ?_ hclosed
    rw [nodeClosed, hn]
    simp [hopen]
  · intro hnil
    by_contra hopen
    obtain ⟨g, goal, hgoal⟩ := h.tree.exists_goal hopen
    have hmem := (h.listed.mem_openGoals g).mpr (isOpen_of_goal? hgoal)
    rw [hnil] at hmem
    cases hmem

/-- **The nodes, the goals and the list of open goals agree.** -/
structure Consistent (p : Proof) : Prop where
  /-- the root is there, and it is the only node without a parent -/
  root : (∃ n, p.nodes[root]? = some n) ∧
    ∀ (i : NodeId) (n : Node), p.nodes[i]? = some n → (n.parent = none ↔ i = root)
  /-- a node is a child of its parent, and of no other node -/
  links : ∀ i c, IsChild p.nodes i c ↔ ∃ n, p.nodes[c]? = some n ∧ n.parent = some i
  /-- children have larger numbers than their parents -/
  child_lt : ∀ i c, IsChild p.nodes i c → i < c
  /-- a node lists its children once, in the order of their numbers -/
  children : ∀ (i : NodeId) (n : Node), p.nodes[i]? = some n → n.children.Pairwise (· < ·)
  /-- no open goal is listed twice -/
  nodup : p.openGoals.Nodup
  /-- the goals that are listed are those that are open -/
  mem_openGoals : ∀ g, g ∈ p.openGoals ↔ p.isOpen g
  /-- an open goal is at a leaf that is not closed and carries no application -/
  goal_node : ∀ g goal, p.goal? g = some goal → ∃ n, p.nodes[goal.node]? = some n ∧
    n.children = [] ∧ n.app.isNone ∧ n.closed = false
  /-- different open goals are at different leaves -/
  goal_inj : ∀ g h goal goal', p.goal? g = some goal → p.goal? h = some goal' →
    goal.node = goal'.node → g = h
  /-- a leaf has an open goal, or it is closed and carries an application -/
  leaf : ∀ (i : NodeId) (n : Node), p.nodes[i]? = some n → n.children = [] →
    (∃ g goal, p.goal? g = some goal ∧ goal.node = i) ∨ (n.closed ∧ n.app.isSome)
  /-- a node with children is closed if and only if all of them are -/
  inner : ∀ (i : NodeId) (n : Node), p.nodes[i]? = some n → n.children ≠ [] →
    (n.closed ↔ ∀ c ∈ n.children, nodeClosed p.nodes c)
  /-- the open goals are listed from left to right -/
  ordered : p.openGoals.Pairwise p.Precedes
  /-- the proof is closed if and only if no goal is open -/
  isClosed_iff : p.isClosed ↔ p.openGoals = []

theorem InOrder.consistent (h : p.InOrder) : p.Consistent := by
  obtain ⟨root, hroot, hparent⟩ := h.tree.root
  constructor
  · refine ⟨⟨root, hroot⟩, fun i n hn => ⟨(h.shaped i n hn).rooted, ?_⟩⟩
    rintro rfl
    cases hroot.symm.trans hn
    exact hparent
  · refine fun i c => ⟨?_, fun ⟨n, hn, hparent⟩ => h.tree.parent c n hn i hparent⟩
    rintro ⟨n, hn, hc⟩
    exact (h.tree.linked i n hn c hc).2
  · rintro i c ⟨n, hn, hc⟩
    exact (h.tree.linked i n hn c hc).1
  · exact fun i n hn => (h.shaped i n hn).increasing
  · exact h.listed.nodup
  · exact h.listed.mem_openGoals
  · intro g goal hgoal
    obtain ⟨n, hn, -, hchildren, hopen⟩ := h.tree.goal_node g goal hgoal
    have hnone : ¬n.app.isSome := by
      rw [(h.shaped _ n hn).recorded]
      simp [hchildren, hopen]
    exact ⟨n, hn, hchildren, by simpa using hnone, hopen⟩
  · exact h.tree.goal_inj
  · intro i n hn hchildren
    cases hclosed : n.closed with
    | false => exact .inl (h.tree.leaf i n hn hchildren hclosed)
    | true => exact .inr ⟨rfl, (h.shaped i n hn).recorded.mpr (.inr hclosed)⟩
  · exact h.tree.closedIff
  · exact h.listed.ordered
  · exact h.isClosed_iff

/-- **After any requests the nodes, the goals and the list of open goals agree**, whether or not the
requests could be met. -/
theorem consistent_after (root : Sequent) (rules : List Rule) (strategy : Strategy)
    (requests : List Request) : ((start root rules strategy).after requests).Consistent := by
  have hinOrder : ((start root rules strategy).after requests).InOrder :=
    holds_after (fun p g app h => InOrder.apply h g app) (fun p q hkeeps h =>
      InOrder.keeps h hkeeps) (inOrder_start root rules strategy) requests
  exact hinOrder.consistent

end Proof

end SequentSearch
