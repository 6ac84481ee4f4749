import SequentSearch.Proofs.ProofSteps

/-!
# The tree of a proof

The nodes of a proof form a tree, and its goals are leaves of it. `Proof.Tree` says what this means,
and that it stays so after every step (`Proof.Tree.apply`, `Proof.Tree.nextApp`). Two facts about
runs rest on it.

* A node with children is closed if and only if all its children are. Closing a leaf may upset this
  for its parent only, and closing goes on with the parent (`Proof.closeUp_closedIff`).
* As long as the root is not closed there is an open goal (`Proof.Tree.exists_goal`).
-/

namespace SequentSearch

namespace Proof

variable {nodes : Array Node} {p q : Proof} {g : GoalId} {goal : Goal} {app : RuleApp}

/-! ## Closing nodes -/

/-- The node after it was closed. -/
def closeNode (nodes : Array Node) (id : NodeId) : Array Node :=
  nodes.modify id fun n => { n with closed := true }

theorem getElem?_closeNode (nodes : Array Node) (id i : NodeId) :
    (closeNode nodes id)[i]? =
      if id = i then nodes[i]?.map fun n => { n with closed := true } else nodes[i]? :=
  Array.getElem?_modify

/-- Whether a node can be closed: all its children are closed. -/
def closable (nodes : Array Node) (id : NodeId) : Bool :=
  nodes[id]?.any fun n => n.children.all (nodeClosed nodes)

theorem closeUp_cons (id : NodeId) (above : List NodeId) (nodes : Array Node) :
    closeUp (id :: above) nodes =
      if closable nodes id then closeUp above (closeNode nodes id) else nodes := rfl

theorem nodeClosed_iff {i : NodeId} :
    nodeClosed nodes i ↔ ∃ n, nodes[i]? = some n ∧ n.closed := by
  unfold nodeClosed
  cases nodes[i]? <;> simp

theorem closable_iff {i : NodeId} {n : Node} (hn : nodes[i]? = some n) :
    closable nodes i ↔ ∀ c ∈ n.children, nodeClosed nodes c := by
  unfold closable
  simp [hn]

theorem nodeClosed_closeNode {id i : NodeId} :
    nodeClosed (closeNode nodes id) i ↔ nodeClosed nodes i ∨
    (id = i ∧ ∃ n, nodes[i]? = some n) := by
  rw [nodeClosed_iff, nodeClosed_iff, getElem?_closeNode]
  by_cases h : id = i
  · cases nodes[i]? <;> simp [h]
  · simp [h]

/-- What a node is apart from being closed. -/
def SameNode (n n' : Node) : Prop :=
  n'.parent = n.parent ∧ n'.children = n.children ∧ n'.sequent = n.sequent

/-- **Closing changes nothing but what is closed.** -/
theorem closeUp_same (path : List NodeId) (nodes : Array Node) (i : NodeId) :
    (nodes[i]? = none ∧ (closeUp path nodes)[i]? = none) ∨
      ∃ n n', nodes[i]? = some n ∧ (closeUp path nodes)[i]? = some n' ∧ SameNode n n' ∧
        (n.closed → n'.closed) := by
  induction path generalizing nodes with
  | nil =>
    cases hi : nodes[i]? with
    | none => exact .inl ⟨rfl, hi⟩
    | some n => exact .inr ⟨n, n, rfl, hi, ⟨rfl, rfl, rfl⟩, id⟩
  | cons j above ih =>
    rw [closeUp_cons]
    split
    · have hstep := getElem?_closeNode nodes j i
      rcases ih (closeNode nodes j) with ⟨hnone, hnone'⟩ | ⟨n, n', hn, hn', hsame, hclosed⟩
      · refine .inl ⟨?_, hnone'⟩
        rw [hnone] at hstep
        split at hstep
        · exact Option.map_eq_none_iff.mp hstep.symm
        · exact hstep.symm
      · rw [hn] at hstep
        split at hstep
        · obtain ⟨m, hm, rfl⟩ := Option.map_eq_some_iff.mp hstep.symm
          exact .inr ⟨m, n', hm, hn', hsame, fun _ => hclosed rfl⟩
        · exact .inr ⟨n, n', hstep.symm, hn', hsame, hclosed⟩
    · cases hi : nodes[i]? with
      | none => exact .inl ⟨rfl, rfl⟩
      | some n => exact .inr ⟨n, n, rfl, rfl, ⟨rfl, rfl, rfl⟩, id⟩

/-- The nodes above a node, its parent first. -/
inductive Branch (nodes : Array Node) : NodeId → List NodeId → Prop where
  /-- the root has none -/
  | root {id : NodeId} {n : Node} (hn : nodes[id]? = some n) (hparent : n.parent = none) :
      Branch nodes id []
  /-- any other node has its parent and those above -/
  | step {id i : NodeId} {n : Node} {path : List NodeId} (hn : nodes[id]? = some n)
      (hparent : n.parent = some i) (h : Branch nodes i path) : Branch nodes id (i :: path)

/-- Branches depend on the links between nodes only. -/
theorem Branch.congr {nodes' : Array Node} {id : NodeId} {path : List NodeId}
    (h : Branch nodes id path) (hsame : ∀ (i : NodeId) (n : Node), nodes[i]? = some n →
      ∃ n', nodes'[i]? = some n' ∧ n'.parent = n.parent) :
    Branch nodes' id path := by
  induction h with
  | root hn hparent =>
    obtain ⟨n', hn', heq⟩ := hsame _ _ hn
    exact .root hn' (heq.trans hparent)
  | step hn hparent _ ih =>
    obtain ⟨n', hn', heq⟩ := hsame _ _ hn
    exact .step hn' (heq.trans hparent) ih

/-- Each child of a node has it as its parent, and a larger number. -/
def Linked (nodes : Array Node) : Prop :=
  ∀ (i : NodeId) (n : Node), nodes[i]? = some n →
    ∀ c ∈ n.children, i < c ∧ ∃ m, nodes[c]? = some m ∧ m.parent = some i

/-- A node that has children is closed if and only if all of them are. -/
def ClosedIff (nodes : Array Node) (i : NodeId) : Prop :=
  ∀ n, nodes[i]? = some n → n.children ≠ [] → (n.closed ↔ ∀ c ∈ n.children, nodeClosed nodes c)

theorem exists_of_closeNode {id i : NodeId} {n' : Node} (h : (closeNode nodes id)[i]? = some n') :
    ∃ n, nodes[i]? = some n ∧ SameNode n n' ∧ (id ≠ i → n' = n) := by
  rw [getElem?_closeNode] at h
  split at h <;> rename_i hi
  · obtain ⟨n, hn, rfl⟩ := Option.map_eq_some_iff.mp h
    exact ⟨n, hn, ⟨rfl, rfl, rfl⟩, fun hne => absurd hi hne⟩
  · exact ⟨n', h, ⟨rfl, rfl, rfl⟩, fun _ => rfl⟩

theorem exists_closeNode {i : NodeId} {n : Node} (h : nodes[i]? = some n) (id : NodeId) :
    ∃ n', (closeNode nodes id)[i]? = some n' ∧ SameNode n n' := by
  rw [getElem?_closeNode, h]
  split
  · exact ⟨_, rfl, rfl, rfl, rfl⟩
  · exact ⟨n, rfl, rfl, rfl, rfl⟩

theorem Linked.closeNode (h : Linked nodes) (id : NodeId) : Linked (closeNode nodes id) := by
  intro i n' hn' c hc
  obtain ⟨n, hn, ⟨-, hchildren, -⟩, -⟩ := exists_of_closeNode hn'
  obtain ⟨hlt, m, hm, hparent⟩ := h i n hn c (hchildren ▸ hc)
  obtain ⟨m', hm', hsame⟩ := exists_closeNode hm id
  exact ⟨hlt, m', hm', hsame.1.trans hparent⟩

/-- Closing a node all of whose children are closed is right for the node itself, and for every node
it is not a child of. -/
theorem closedIff_closeNode {id i : NodeId} (hid : closable nodes id)
    (hi : i ≠ id → ClosedIff nodes i ∧ ∀ n, nodes[i]? = some n → id ∉ n.children) :
    ClosedIff (closeNode nodes id) i := by
  intro n' hn' hne
  obtain ⟨n, hn, ⟨-, hchildren, -⟩, hsame⟩ := exists_of_closeNode hn'
  rw [hchildren] at hne ⊢
  by_cases heq : i = id
  · subst heq
    rw [getElem?_closeNode, if_pos rfl, hn] at hn'
    cases hn'
    refine iff_of_true rfl fun c hc => ?_
    exact nodeClosed_closeNode.mpr (.inl ((closable_iff hn).mp hid c hc))
  · obtain ⟨hclosed, hnot⟩ := hi heq
    rw [hsame (Ne.symm heq), hclosed n hn hne]
    refine forall₂_congr fun c hc => ?_
    rw [nodeClosed_closeNode]
    refine (or_iff_left ?_).symm
    rintro ⟨rfl, -⟩
    exact hnot n hn hc

theorem closedIff_of_not_closable {id : NodeId} (hclosable : ¬closable nodes id)
    (hothers : ∀ i, i ≠ id → ClosedIff nodes i)
    (hid : ∀ n, nodes[id]? = some n → n.closed → ∀ c ∈ n.children, nodeClosed nodes c)
    (i : NodeId) :
    ClosedIff nodes i := by
  by_cases heq : i = id
  · subst heq
    intro n hn _
    refine ⟨hid n hn, fun hall => ?_⟩
    exact absurd ((closable_iff hn).mpr hall) hclosable
  · exact hothers i heq

/-- **Closing goes up far enough.** The induction is along the branch. The node at hand is the only
one for which being closed may lag behind its children; once it is closed, its parent is the only
one. -/
theorem closeUp_closedIff {id : NodeId} {path : List NodeId} (hbranch : Branch nodes id path)
    (hlinked : Linked nodes) (hothers : ∀ i, i ≠ id → ClosedIff nodes i)
    (hid : ∀ n, nodes[id]? = some n → n.closed → ∀ c ∈ n.children, nodeClosed nodes c)
    (i : NodeId) :
    ClosedIff (closeUp (id :: path) nodes) i := by
  induction path generalizing id nodes with
  | nil =>
    rw [closeUp_cons]
    split <;> rename_i hclosable
    · refine closedIff_closeNode hclosable fun hne => ⟨hothers i hne, fun n hn hmem => ?_⟩
      -- the root is no child
      obtain ⟨-, m, hm, hparent⟩ := hlinked i n hn id hmem
      cases hbranch with
      | root hn' hnone =>
        cases hm.symm.trans hn'
        rw [hnone] at hparent
        cases hparent
    · exact closedIff_of_not_closable hclosable hothers hid i
  | cons j path ih =>
    cases hbranch with
    | step hn hparent habove =>
      rw [closeUp_cons]
      split <;> rename_i hclosable
      · refine ih (habove.congr fun k m hm => ?_) (hlinked.closeNode id) (fun k hk => ?_) ?_
        · obtain ⟨m', hm', hsame⟩ := exists_closeNode hm id
          exact ⟨m', hm', hsame.1⟩
        · refine closedIff_closeNode hclosable fun hne => ⟨hothers k hne, fun m hm hmem => ?_⟩
          -- the node at hand has one parent
          obtain ⟨-, n', hn', hparent'⟩ := hlinked k m hm id hmem
          cases hn.symm.trans hn'
          rw [hparent] at hparent'
          exact hk (Option.some.inj hparent').symm
        · intro m' hm' hclosed c hc
          obtain ⟨m, hm, ⟨-, hchildren, -⟩, hsame⟩ := exists_of_closeNode hm'
          rw [hchildren] at hc
          refine nodeClosed_closeNode.mpr (.inl ?_)
          by_cases heq : j = id
          · subst heq
            exact (closable_iff hm).mp hclosable c hc
          · rw [hsame (Ne.symm heq)] at hclosed
            exact (hothers j heq m hm (List.ne_nil_of_mem hc)).mp hclosed c hc
      · exact closedIff_of_not_closable hclosable hothers hid i

/-! ## The tree -/

/-- **The nodes of a proof form a tree, and its goals are the leaves that are not closed.** -/
structure Tree (p : Proof) : Prop where
  /-- there is a root -/
  root : ∃ n, p.nodes[root]? = some n ∧ n.parent = none
  /-- children know their parents -/
  linked : Linked p.nodes
  /-- parents know their children -/
  parent : ∀ (c : NodeId) (m : Node), p.nodes[c]? = some m → ∀ i, m.parent = some i →
    ∃ n, p.nodes[i]? = some n ∧ c ∈ n.children
  /-- a node with children is closed if and only if they are -/
  closedIff : ∀ i, ClosedIff p.nodes i
  /-- a leaf is closed or has a goal -/
  leaf : ∀ (i : NodeId) (n : Node), p.nodes[i]? = some n → n.children = [] → n.closed = false →
    ∃ g goal, p.goal? g = some goal ∧ goal.node = i
  /-- a goal is at a leaf that is not closed, and has its sequent -/
  goal_node : ∀ g goal, p.goal? g = some goal → ∃ n, p.nodes[goal.node]? = some n ∧
    n.sequent = goal.sequent ∧ n.children = [] ∧ n.closed = false
  /-- different goals are at different leaves -/
  goal_inj : ∀ g h goal goal', p.goal? g = some goal → p.goal? h = some goal' →
    goal.node = goal'.node → g = h
  /-- the steps of a goal were made on the nodes above it -/
  branch : ∀ g goal, p.goal? g = some goal → Branch p.nodes goal.node (goal.steps.map Step.node)
  /-- numbers of goals were handed out before -/
  goal_lt : ∀ g goal, p.goal? g = some goal → g < p.nextGoal

/-- What the tree says of a goal. -/
def SameGoal (goal goal' : Goal) : Prop :=
  goal'.node = goal.node ∧ goal'.sequent = goal.sequent ∧ goal'.steps = goal.steps

/-- **The tree depends on the links, the sequents and what is closed**, not on the applications that
are recorded or the queues of goals. -/
theorem Tree.congr (h : p.Tree)
    (hnodes : ∀ i : NodeId, (p.nodes[i]? = none ∧ q.nodes[i]? = none) ∨
      ∃ n n', p.nodes[i]? = some n ∧ q.nodes[i]? = some n' ∧ SameNode n n' ∧ n'.closed = n.closed)
    (hgoals : ∀ g, (p.goal? g = none ∧ q.goal? g = none) ∨
      ∃ goal goal', p.goal? g = some goal ∧ q.goal? g = some goal' ∧ SameGoal goal goal')
    (hnext : p.nextGoal ≤ q.nextGoal) : q.Tree := by
  have hback : ∀ {i : NodeId} {n' : Node}, q.nodes[i]? = some n' →
      ∃ n, p.nodes[i]? = some n ∧ SameNode n n' ∧ n'.closed = n.closed := by
    intro i n' hn'
    rcases hnodes i with ⟨-, hnone⟩ | ⟨n, m, hn, hm, hsame⟩
    · rw [hn'] at hnone
      cases hnone
    · cases hn'.symm.trans hm
      exact ⟨n, hn, hsame⟩
  have hforth : ∀ {i : NodeId} {n : Node}, p.nodes[i]? = some n →
      ∃ n', q.nodes[i]? = some n' ∧ SameNode n n' ∧ n'.closed = n.closed := by
    intro i n hn
    rcases hnodes i with ⟨hnone, -⟩ | ⟨m, n', hm, hn', hsame⟩
    · rw [hn] at hnone
      cases hnone
    · cases hn.symm.trans hm
      exact ⟨n', hn', hsame⟩
  have hgoal : ∀ {g goal'}, q.goal? g = some goal' → ∃ goal, p.goal? g = some goal ∧
      SameGoal goal goal' := by
    intro g goal' hg
    rcases hgoals g with ⟨-, hnone⟩ | ⟨goal, goal'', hp, hq, hsame⟩
    · rw [hg] at hnone
      cases hnone
    · cases hg.symm.trans hq
      exact ⟨goal, hp, hsame⟩
  have hclosed : ∀ i, nodeClosed q.nodes i ↔ nodeClosed p.nodes i := by
    intro i
    rw [nodeClosed_iff, nodeClosed_iff]
    constructor
    · rintro ⟨n', hn', hc⟩
      obtain ⟨n, hn, -, heq⟩ := hback hn'
      exact ⟨n, hn, heq ▸ hc⟩
    · rintro ⟨n, hn, hc⟩
      obtain ⟨n', hn', -, heq⟩ := hforth hn
      exact ⟨n', hn', heq.trans hc⟩
  constructor
  · obtain ⟨n, hn, hparent⟩ := h.root
    obtain ⟨n', hn', hsame, -⟩ := hforth hn
    exact ⟨n', hn', hsame.1.trans hparent⟩
  · intro i n' hn' c hc
    obtain ⟨n, hn, hsame, -⟩ := hback hn'
    obtain ⟨hlt, m, hm, hparent⟩ := h.linked i n hn c (hsame.2.1 ▸ hc)
    obtain ⟨m', hm', hsame', -⟩ := hforth hm
    exact ⟨hlt, m', hm', hsame'.1.trans hparent⟩
  · intro c m' hm' i hi
    obtain ⟨m, hm, hsame, -⟩ := hback hm'
    obtain ⟨n, hn, hc⟩ := h.parent c m hm i (hsame.1 ▸ hi)
    obtain ⟨n', hn', hsame', -⟩ := hforth hn
    exact ⟨n', hn', hsame'.2.1 ▸ hc⟩
  · intro i n' hn' hne
    obtain ⟨n, hn, hsame, heq⟩ := hback hn'
    rw [hsame.2.1] at hne ⊢
    rw [heq, h.closedIff i n hn hne]
    exact forall₂_congr fun c _ => (hclosed c).symm
  · intro i n' hn' hchildren hc
    obtain ⟨n, hn, hsame, heq⟩ := hback hn'
    obtain ⟨g, goal, hg, hnode⟩ := h.leaf i n hn (hsame.2.1 ▸ hchildren) (heq ▸ hc)
    rcases hgoals g with ⟨hnone, -⟩ | ⟨goal', goal'', hp, hq, hsame'⟩
    · rw [hg] at hnone
      cases hnone
    · cases hg.symm.trans hp
      exact ⟨g, goal'', hq, hsame'.1.trans hnode⟩
  · intro g goal' hg
    obtain ⟨goal, hp, hnode, hsequent, -⟩ := hgoal hg
    obtain ⟨n, hn, hseq, hchildren, hc⟩ := h.goal_node g goal hp
    obtain ⟨n', hn', hsame, heq⟩ := hforth hn
    rw [hnode, hsequent]
    exact ⟨n', hn', hsame.2.2.trans hseq, hsame.2.1.trans hchildren, heq.trans hc⟩
  · intro g h' goal₁ goal₂ h₁ h₂ heq
    obtain ⟨goal₁', hp₁, hnode₁, -⟩ := hgoal h₁
    obtain ⟨goal₂', hp₂, hnode₂, -⟩ := hgoal h₂
    exact h.goal_inj g h' goal₁' goal₂' hp₁ hp₂ (hnode₁.symm.trans (heq.trans hnode₂))
  · intro g goal' hg
    obtain ⟨goal, hp, hnode, -, hsteps⟩ := hgoal hg
    rw [hnode, hsteps]
    refine (h.branch g goal hp).congr fun i n hn => ?_
    obtain ⟨n', hn', hsame, -⟩ := hforth hn
    exact ⟨n', hn', hsame.1⟩
  · intro g goal' hg
    obtain ⟨goal, hp, -⟩ := hgoal hg
    exact Nat.lt_of_lt_of_le (h.goal_lt g goal hp) hnext

theorem sameGoals_refl (p : Proof) (g : GoalId) : (p.goal? g = none ∧ p.goal? g = none) ∨
    ∃ goal goal', p.goal? g = some goal ∧ p.goal? g = some goal' ∧ SameGoal goal goal' := by
  cases hg : p.goal? g with
  | none => exact .inl ⟨rfl, rfl⟩
  | some goal => exact .inr ⟨goal, goal, rfl, rfl, rfl, rfl, rfl⟩

theorem sameNodes_refl (nodes : Array Node) (i : NodeId) : (nodes[i]? = none ∧ nodes[i]? = none) ∨
    ∃ n n', nodes[i]? = some n ∧ nodes[i]? = some n' ∧ SameNode n n' ∧ n'.closed = n.closed := by
  cases hi : nodes[i]? with
  | none => exact .inl ⟨rfl, rfl⟩
  | some n => exact .inr ⟨n, n, rfl, rfl, ⟨rfl, rfl, rfl⟩, rfl⟩

/-- Recording an application changes nothing else about nodes. -/
theorem sameNodes_recordApp (p : Proof) (id : NodeId) (app : RuleApp) (i : NodeId) :
    (p.nodes[i]? = none ∧ (p.recordApp id app).nodes[i]? = none) ∨
      ∃ n n', p.nodes[i]? = some n ∧ (p.recordApp id app).nodes[i]? = some n' ∧ SameNode n n' ∧
        n'.closed = n.closed := by
  have hnodes : (p.recordApp id app).nodes[i]? =
      if id = i then p.nodes[i]?.map fun n => { n with app := some app } else p.nodes[i]? :=
    Array.getElem?_modify
  rw [hnodes]
  split
  · cases p.nodes[i]? with
    | none => exact .inl ⟨rfl, rfl⟩
    | some n => exact .inr ⟨n, _, rfl, rfl, ⟨rfl, rfl, rfl⟩, rfl⟩
  · exact sameNodes_refl p.nodes i

/-- Recording an application changes nothing about the tree. -/
theorem Tree.recordApp (h : p.Tree) (id : NodeId) (app : RuleApp) (names : NameSupply) :
    ({ p with names := names }.recordApp id app).Tree :=
  h.congr (sameNodes_recordApp { p with names := names } id app) (sameGoals_refl p) (Nat.le_refl _)

/-- **Asking for the next application keeps the tree.** -/
theorem Tree.nextApp (h : p.Tree) (g : GoalId) : (p.nextApp g).2.Tree := by
  rcases nextApp_cases p g with heq | ⟨goal, queue, hgoal, -, heq, -⟩
  · rw [heq]
    exact h
  · rw [heq]
    refine h.congr (sameNodes_refl p.nodes) (fun g' => ?_) (Nat.le_refl _)
    have hget : { p with goals := p.goals.insert g { goal with queue := .pure queue } }.goal? g' =
        if g' = g then some { goal with queue := .pure queue } else p.goal? g' :=
      IdTable.get?_insert ..
    rw [hget]
    split <;> rename_i hg'
    · subst hg'
      exact .inr ⟨goal, _, hgoal, rfl, rfl, rfl, rfl⟩
    · exact sameGoals_refl p g'

/-! ## Closing a goal keeps the tree -/

/-- Only nodes of the branch are closed. -/
theorem closed_of_closeUp {path : List NodeId} {i : NodeId}
    (h : nodeClosed (closeUp path nodes) i) :
    nodeClosed nodes i ∨ i ∈ path := by
  induction path generalizing nodes with
  | nil => exact .inl h
  | cons j above ih =>
    rw [closeUp_cons] at h
    split at h
    · rcases ih h with h | h
      · rcases nodeClosed_closeNode.mp h with h | ⟨rfl, -⟩
        · exact .inl h
        · exact .inr (List.mem_cons_self ..)
      · exact .inr (List.mem_cons_of_mem _ h)
    · exact .inl h

/-- A node that can be closed is closed. -/
theorem closeUp_head {id : NodeId} {path : List NodeId} (h : closable nodes id) :
    nodeClosed (closeUp (id :: path) nodes) id := by
  rw [closeUp_cons, if_pos h]
  have hsome : ∃ n, nodes[id]? = some n := by
    unfold closable at h
    cases hn : nodes[id]? with
    | none => simp [hn] at h
    | some n => exact ⟨n, rfl⟩
  obtain ⟨n, hn, hclosed⟩ := nodeClosed_iff.mp (nodeClosed_closeNode.mpr (.inr ⟨rfl, hsome⟩))
  rcases closeUp_same path (closeNode nodes id) id with ⟨hnone, -⟩ | ⟨m, m', hm, hm', -, hmono⟩
  · rw [hn] at hnone
    cases hnone
  · cases hn.symm.trans hm
    exact nodeClosed_iff.mpr ⟨m', hm', hmono hclosed⟩

/-- The nodes above a node have children. -/
theorem Tree.children_of_branch (h : p.Tree) {id : NodeId} {path : List NodeId}
    (hbranch : Branch p.nodes id path) :
    ∀ i ∈ path, ∃ n, p.nodes[i]? = some n ∧ n.children ≠ [] := by
  induction hbranch with
  | root => exact fun i hi => (nomatch hi)
  | step hn hparent _ ih =>
    refine List.forall_mem_cons.mpr ⟨?_, ih⟩
    obtain ⟨m, hm, hmem⟩ := h.parent _ _ hn _ hparent
    exact ⟨m, hm, List.ne_nil_of_mem hmem⟩

/-- **Closing a goal keeps the tree.** -/
theorem Tree.close (h : p.Tree) (hgoal : p.goal? g = some goal) : (p.close g goal).Tree := by
  obtain ⟨leaf, hleaf, -, hchildren, hopen⟩ := h.goal_node g goal hgoal
  have hbranch := h.branch g goal hgoal
  have hclosable : closable p.nodes goal.node := by
    rw [closable_iff hleaf, hchildren]
    exact fun c hc => (nomatch hc)
  have hnodes : (p.close g goal).nodes =
      closeUp (goal.node :: goal.steps.map Step.node) p.nodes := rfl
  have hget : ∀ g', (p.close g goal).goal? g' = if g' = g then none else p.goal? g' :=
    fun g' => IdTable.get?_erase ..
  have hback : ∀ {i : NodeId} {n' : Node}, (p.close g goal).nodes[i]? = some n' →
      ∃ n, p.nodes[i]? = some n ∧ SameNode n n' ∧ (n.closed → n'.closed) := by
    intro i n' hn'
    rcases closeUp_same (goal.node :: goal.steps.map Step.node) p.nodes i with
      ⟨-, hnone⟩ | ⟨n, m, hn, hm, hsame⟩
    · rw [← hnodes, hn'] at hnone
      cases hnone
    · cases hn'.symm.trans hm
      exact ⟨n, hn, hsame⟩
  have hforth : ∀ {i : NodeId} {n : Node}, p.nodes[i]? = some n →
      ∃ n', (p.close g goal).nodes[i]? = some n' ∧ SameNode n n' := by
    intro i n hn
    rcases closeUp_same (goal.node :: goal.steps.map Step.node) p.nodes i with
      ⟨hnone, -⟩ | ⟨m, n', hm, hn', hsame, -⟩
    · rw [hn] at hnone
      cases hnone
    · cases hn.symm.trans hm
      exact ⟨n', hn', hsame⟩
  have hold : ∀ {g' goal'}, (p.close g goal).goal? g' = some goal' →
      g' ≠ g ∧ p.goal? g' = some goal' := by
    intro g' goal' hg'
    rw [hget] at hg'
    split at hg' <;> rename_i hne
    · cases hg'
    · exact ⟨hne, hg'⟩
  constructor
  · obtain ⟨n, hn, hparent⟩ := h.root
    obtain ⟨n', hn', hsame⟩ := hforth hn
    exact ⟨n', hn', hsame.1.trans hparent⟩
  · intro i n' hn' c hc
    obtain ⟨n, hn, hsame, -⟩ := hback hn'
    obtain ⟨hlt, m, hm, hparent⟩ := h.linked i n hn c (hsame.2.1 ▸ hc)
    obtain ⟨m', hm', hsame'⟩ := hforth hm
    exact ⟨hlt, m', hm', hsame'.1.trans hparent⟩
  · intro c m' hm' i hi
    obtain ⟨m, hm, hsame, -⟩ := hback hm'
    obtain ⟨n, hn, hc⟩ := h.parent c m hm i (hsame.1 ▸ hi)
    obtain ⟨n', hn', hsame'⟩ := hforth hn
    exact ⟨n', hn', hsame'.2.1 ▸ hc⟩
  · intro i
    refine closeUp_closedIff hbranch h.linked (fun j _ => h.closedIff j) (fun n hn hc => ?_) i
    cases hleaf.symm.trans hn
    rw [hopen] at hc
    cases hc
  · intro i n' hn' hnone hc
    obtain ⟨n, hn, hsame, hmono⟩ := hback hn'
    have hnc : n.closed = false := by
      cases hclosed : n.closed with
      | false => rfl
      | true =>
        rw [hmono hclosed] at hc
        cases hc
    obtain ⟨g', goal', hg', hnode⟩ := h.leaf i n hn (hsame.2.1 ▸ hnone) hnc
    refine ⟨g', goal', ?_, hnode⟩
    rw [hget, if_neg]
    · exact hg'
    · -- the leaf of the goal itself is closed now
      rintro rfl
      cases hgoal.symm.trans hg'
      obtain ⟨m, hm, hclosed⟩ := nodeClosed_iff.mp (closeUp_head hclosable)
      rw [← hnode] at hn'
      cases hn'.symm.trans hm
      rw [hc] at hclosed
      cases hclosed
  · intro g' goal' hg'
    obtain ⟨hne, hg'⟩ := hold hg'
    obtain ⟨n, hn, hseq, hnone, hc⟩ := h.goal_node g' goal' hg'
    obtain ⟨n', hn', hsame⟩ := hforth hn
    refine ⟨n', hn', hsame.2.2.trans hseq, hsame.2.1.trans hnone, ?_⟩
    cases hclosed : n'.closed with
    | false => rfl
    | true =>
      rcases closed_of_closeUp (nodeClosed_iff.mpr ⟨n', hn', hclosed⟩) with hbefore | hpath
      · obtain ⟨m, hm, hmc⟩ := nodeClosed_iff.mp hbefore
        cases hn.symm.trans hm
        rw [hc] at hmc
        cases hmc
      · rcases List.mem_cons.mp hpath with heq | hpath
        · exact absurd (h.goal_inj g' g goal' goal hg' hgoal heq) hne
        · obtain ⟨m, hm, hmchildren⟩ := h.children_of_branch hbranch _ hpath
          cases hn.symm.trans hm
          exact absurd hnone hmchildren
  · intro g₁ g₂ goal₁ goal₂ h₁ h₂
    exact h.goal_inj g₁ g₂ goal₁ goal₂ (hold h₁).2 (hold h₂).2
  · intro g' goal' hg'
    refine (h.branch g' goal' (hold hg').2).congr fun i n hn => ?_
    obtain ⟨n', hn', hsame⟩ := hforth hn
    exact ⟨n', hn', hsame.1⟩
  · intro g' goal' hg'
    exact h.goal_lt g' goal' (hold hg').2

/-! ## Splitting a goal keeps the tree -/

section

variable {entries : List (GoalId × Successor)} {leaf : Node}

theorem lt_size_of_getElem? {i : NodeId} {n : Node} (h : nodes[i]? = some n) : i < nodes.size :=
  (Array.getElem?_eq_some_iff.mp h).1

/-- A node after a split is the leaf with its children, one of the others, or new. -/
theorem Splits.node_cases (h : Splits p q goal app entries)
    (hleaf : p.nodes[goal.node]? = some leaf) {i : NodeId} {n : Node} (hn : q.nodes[i]? = some n) :
    (i = goal.node ∧
      n = { leaf with children := leaf.children ++ List.range' p.nodes.size entries.length }) ∨
    (i ≠ goal.node ∧ p.nodes[i]? = some n) ∨
    ∃ k e, i = p.nodes.size + k ∧ entries[k]? = some e ∧
      n = { parent := some goal.node, sequent := e.2.change.sequent, label := e.2.label } := by
  by_cases hi : i = goal.node
  · subst hi
    exact .inl ⟨rfl, Option.some.inj (hn.symm.trans (h.leaf leaf hleaf))⟩
  · by_cases hlt : i < p.nodes.size
    · exact .inr (.inl ⟨hi, (h.other i hi hlt).symm.trans hn⟩)
    · obtain ⟨k, rfl⟩ := Nat.exists_eq_add_of_le (Nat.le_of_not_lt hlt)
      have hk : k < entries.length := by
        have hsize := h.size ▸ lt_size_of_getElem? hn
        exact Nat.lt_of_add_lt_add_left hsize
      have he := List.getElem?_eq_getElem hk
      exact .inr (.inr ⟨k, _, rfl, he, Option.some.inj (hn.symm.trans (h.child k _ he))⟩)

/-- The nodes there were keep their parents, their sequents and whether they are closed. -/
theorem Splits.exists_node (h : Splits p q goal app entries) {i : NodeId} {n : Node}
    (hn : p.nodes[i]? = some n) : ∃ n', q.nodes[i]? = some n' ∧ n'.parent = n.parent ∧
      n'.sequent = n.sequent ∧ n'.closed = n.closed ∧ ∀ c ∈ n.children, c ∈ n'.children := by
  by_cases hi : i = goal.node
  · subst hi
    exact ⟨_, h.leaf n hn, rfl, rfl, rfl, fun c hc => List.mem_append_left _ hc⟩
  · exact ⟨n, (h.other i hi (lt_size_of_getElem? hn)).trans hn, rfl, rfl, rfl, fun c hc => hc⟩

/-- A split closes no node. -/
theorem Splits.nodeClosed_iff (h : Splits p q goal app entries)
    (hleaf : p.nodes[goal.node]? = some leaf) (i : NodeId) :
    nodeClosed q.nodes i ↔ nodeClosed p.nodes i := by
  rw [Proof.nodeClosed_iff, Proof.nodeClosed_iff]
  constructor
  · rintro ⟨n, hn, hc⟩
    rcases h.node_cases hleaf hn with ⟨rfl, rfl⟩ | ⟨-, hp⟩ | ⟨k, e, -, -, rfl⟩
    · exact ⟨leaf, hleaf, hc⟩
    · exact ⟨n, hp, hc⟩
    · cases hc
  · rintro ⟨n, hn, hc⟩
    obtain ⟨n', hn', -, -, hclosed, -⟩ := h.exists_node hn
    exact ⟨n', hn', hclosed.trans hc⟩

/-- The numbers of the goals that take the place of a goal, with their successors. -/
structure Numbered (p q : Proof) (g : GoalId) (entries : List (GoalId × Successor)) : Prop where
  /-- the first goal keeps the number -/
  first : ∃ s rest, entries = (g, s) :: rest
  /-- the numbers are different -/
  nodup : (entries.map Prod.fst).Nodup
  /-- the others have new numbers -/
  new : ∀ e ∈ entries, e.1 = g ∨ p.nextGoal ≤ e.1
  /-- which are handed out now -/
  lt : ∀ e ∈ entries, e.1 < q.nextGoal
  /-- in increasing order -/
  le : p.nextGoal ≤ q.nextGoal

/-- A goal of another number that was open before is not one of the new ones. -/
theorem Numbered.ne (hn : Numbered p q g entries) (h : p.Tree) {g' : GoalId} {goal' : Goal}
    (hg' : p.goal? g' = some goal') (hne : g' ≠ g) : ∀ e ∈ entries, e.1 ≠ g' := by
  rintro e he rfl
  rcases hn.new e he with heq | hle
  · exact hne heq
  · exact Nat.not_lt_of_le hle (h.goal_lt _ _ hg')

/-- **Splitting a goal keeps the tree.** -/
theorem Tree.splits (h : p.Tree) (hgoal : p.goal? g = some goal) (hs : Splits p q goal app entries)
    (hnum : Numbered p q g entries) : q.Tree := by
  obtain ⟨leaf, hleaf, -, hchildren, hopen⟩ := h.goal_node g goal hgoal
  have hlt := lt_size_of_getElem? hleaf
  obtain ⟨s, rest, hfirst⟩ := hnum.first
  have hold : ∀ {h' goal'}, p.goal? h' = some goal' → (∀ e ∈ entries, e.1 ≠ h') →
      goal'.node ≠ goal.node := by
    intro h' goal' hg' hids heq
    obtain rfl := h.goal_inj h' g goal' goal hg' hgoal heq
    exact hids (h', s) (hfirst ▸ List.mem_cons_self ..) rfl
  have hfresh : ∀ {h' goal'} (k : Nat), p.goal? h' = some goal' →
      goal'.node ≠ p.nodes.size + k := by
    intro h' goal' k hg' heq
    obtain ⟨n, hn, -⟩ := h.goal_node h' goal' hg'
    exact Nat.not_lt_of_le (Nat.le_add_right _ k) (heq ▸ lt_size_of_getElem? hn)
  constructor
  · obtain ⟨n, hn, hparent⟩ := h.root
    obtain ⟨n', hn', heq, -⟩ := hs.exists_node hn
    exact ⟨n', hn', heq.trans hparent⟩
  · intro i n hn c hc
    rcases hs.node_cases hleaf hn with ⟨rfl, rfl⟩ | ⟨-, hp⟩ | ⟨k, e, -, -, rfl⟩
    · rw [hchildren, List.nil_append] at hc
      obtain ⟨k, hk, rfl⟩ := List.mem_range'.mp hc
      rw [Nat.one_mul]
      exact ⟨Nat.lt_of_lt_of_le hlt (Nat.le_add_right ..), _,
        hs.child k _ (List.getElem?_eq_getElem hk), rfl⟩
    · obtain ⟨hlt', m, hm, hparent⟩ := h.linked i n hp c hc
      obtain ⟨m', hm', heq, -⟩ := hs.exists_node hm
      exact ⟨hlt', m', hm', heq.trans hparent⟩
    · cases hc
  · intro c m hm i hi
    have hparent : ∀ m', p.nodes[c]? = some m' → m'.parent = some i →
        ∃ n, q.nodes[i]? = some n ∧ c ∈ n.children := by
      intro m' hm' hi'
      obtain ⟨n, hn, hc⟩ := h.parent c m' hm' i hi'
      obtain ⟨n', hn', -, -, -, hsub⟩ := hs.exists_node hn
      exact ⟨n', hn', hsub c hc⟩
    rcases hs.node_cases hleaf hm with ⟨rfl, rfl⟩ | ⟨-, hp⟩ | ⟨k, e, rfl, he, rfl⟩
    · exact hparent leaf hleaf hi
    · exact hparent m hp hi
    · cases hi
      refine ⟨_, hs.leaf leaf hleaf, List.mem_append_right _ (List.mem_range'.mpr ⟨k, ?_, ?_⟩)⟩
      · exact (List.getElem?_eq_some_iff.mp he).1
      · rw [Nat.one_mul]
  · intro i n hn hne
    rcases hs.node_cases hleaf hn with ⟨rfl, rfl⟩ | ⟨-, hp⟩ | ⟨k, e, -, -, rfl⟩
    · -- the leaf is not closed, and its first child is not
      refine iff_of_false (by simp [hopen]) fun hall => ?_
      have hchild := hs.child 0 (g, s) (by rw [hfirst]; rfl)
      have hclosed := hall p.nodes.size (by simp [hfirst])
      obtain ⟨m, hm, hc⟩ := nodeClosed_iff.mp hclosed
      cases hchild.symm.trans hm
      cases hc
    · rw [h.closedIff i n hp hne]
      exact forall₂_congr fun c _ => (hs.nodeClosed_iff hleaf c).symm
    · cases hne rfl
  · intro i n hn hnone hc
    rcases hs.node_cases hleaf hn with ⟨rfl, rfl⟩ | ⟨hne, hp⟩ | ⟨k, e, rfl, he, rfl⟩
    · simp [hfirst] at hnone
    · obtain ⟨g', goal', hg', rfl⟩ := h.leaf i n hp hnone hc
      have hne' : g' ≠ g := by
        rintro rfl
        cases hgoal.symm.trans hg'
        exact hne rfl
      exact ⟨g', goal', (hs.goal_old g' (hnum.ne h hg' hne')).trans hg', rfl⟩
    · exact ⟨e.1, _, hs.goal_new hnum.nodup k e he, rfl⟩
  · intro g' goal' hg'
    rcases hs.goal_cases hg' with ⟨hp, hids⟩ | ⟨k, e, he, rfl, rfl⟩
    · obtain ⟨n, hn, hseq, hnone, hc⟩ := h.goal_node g' goal' hp
      exact ⟨n, (hs.other _ (hold hp hids) (lt_size_of_getElem? hn)).trans hn, hseq, hnone, hc⟩
    · exact ⟨_, hs.child k e he, rfl, rfl, rfl⟩
  · intro g₁ g₂ goal₁ goal₂ h₁ h₂ heq
    rcases hs.goal_cases h₁ with ⟨hp₁, -⟩ | ⟨k₁, e₁, he₁, rfl, rfl⟩ <;>
      rcases hs.goal_cases h₂ with ⟨hp₂, -⟩ | ⟨k₂, e₂, he₂, rfl, rfl⟩
    · exact h.goal_inj g₁ g₂ goal₁ goal₂ hp₁ hp₂ heq
    · exact absurd heq (hfresh k₂ hp₁)
    · exact absurd heq.symm (hfresh k₁ hp₂)
    · obtain rfl : k₁ = k₂ := Nat.add_left_cancel heq
      cases he₁.symm.trans he₂
      rfl
  · have hcongr : ∀ {id : NodeId} {path : List NodeId}, Branch p.nodes id path →
        Branch q.nodes id path := by
      intro id path hb
      refine hb.congr fun i n hn => ?_
      obtain ⟨n', hn', heq, -⟩ := hs.exists_node hn
      exact ⟨n', hn', heq⟩
    intro g' goal' hg'
    rcases hs.goal_cases hg' with ⟨hp, -⟩ | ⟨k, e, he, rfl, rfl⟩
    · exact hcongr (h.branch g' goal' hp)
    · exact .step (hs.child k e he) rfl (hcongr (h.branch g goal hgoal))
  · intro g' goal' hg'
    rcases hs.goal_cases hg' with ⟨hp, -⟩ | ⟨k, e, he, rfl, rfl⟩
    · exact Nat.lt_of_lt_of_le (h.goal_lt g' goal' hp) hnum.le
    · exact hnum.lt e (List.mem_of_getElem? he)

/-- The successors with the numbers of their goals. -/
def splitEntries (p : Proof) (g : GoalId) (succs : List Successor) : List (GoalId × Successor) :=
  (splitIds p g succs).zip succs

theorem length_splitIds (p : Proof) (g : GoalId) {succs : List Successor} (hne : succs ≠ []) :
    (splitIds p g succs).length = succs.length := by
  have hpos := List.length_pos_iff.mpr hne
  simp [splitIds]
  omega

theorem map_snd_splitEntries (p : Proof) (g : GoalId) {succs : List Successor} (hne : succs ≠ []) :
    (splitEntries p g succs).map Prod.snd = succs :=
  List.map_snd_zip (Nat.le_of_eq (length_splitIds p g hne).symm)

theorem map_fst_splitEntries (p : Proof) (g : GoalId) {succs : List Successor} (hne : succs ≠ []) :
    (splitEntries p g succs).map Prod.fst = splitIds p g succs :=
  List.map_fst_zip (Nat.le_of_eq (length_splitIds p g hne))

theorem splits_split (hlt : goal.node < p.nodes.size) (g : GoalId) (app : RuleApp)
    (succs : List Successor) :
    Splits p (p.split g goal app succs).2 goal app (splitEntries p g succs) := by
  have h : Splits p _ goal app (splitEntries p g succs) := splits_foldl hlt _
  exact ⟨h.size, h.leaf, h.other, h.child, h.goal_cases, h.goal_new, h.goal_old, h.base,
    h.strategy, h.names⟩

theorem numbered_split {succs : List Successor} (hne : succs ≠ []) (hg : g < p.nextGoal) :
    Numbered p (p.split g goal app succs).2 g (splitEntries p g succs) := by
  have hids : ∀ e ∈ splitEntries p g succs, e.1 ∈ splitIds p g succs := by
    intro e he
    rw [← map_fst_splitEntries p g hne]
    exact List.mem_map_of_mem he
  have hnext : (p.split g goal app succs).2.nextGoal = p.nextGoal + (succs.length - 1) := rfl
  refine ⟨?_, ?_, fun e he => ?_, fun e he => ?_, ?_⟩
  · obtain ⟨s, rest, rfl⟩ := List.exists_cons_of_ne_nil hne
    exact ⟨s, _, rfl⟩
  · rw [map_fst_splitEntries p g hne]
    refine List.nodup_cons.mpr ⟨fun hmem => ?_, List.nodup_range' ..⟩
    exact Nat.not_lt_of_le (List.mem_range'_1.mp hmem).1 hg
  · rcases List.mem_cons.mp (hids e he) with heq | hmem
    · exact .inl heq
    · exact .inr (List.mem_range'_1.mp hmem).1
  · rw [hnext]
    rcases List.mem_cons.mp (hids e he) with heq | hmem
    · rw [heq]
      exact Nat.lt_of_lt_of_le hg (Nat.le_add_right ..)
    · exact (List.mem_range'_1.mp hmem).2
  · rw [hnext]
    exact Nat.le_add_right ..

end

/-! ## Runs -/

theorem goal?_start (root : Sequent) (rules : List Rule) (strategy : Strategy)
    {g : GoalId} {goal : Goal} (h : (start root rules strategy).goal? g = some goal) :
    g = 0 ∧ goal = Goal.fill strategy
      { node := 0, sequent := root, index := .ofSequent (.ofRules rules) root,
        queue := .pure .waiting } := by
  have hget : (start root rules strategy).goal? g = if g = 0 then some _ else none :=
    IdTable.get?_insert ..
  rw [hget] at h
  split at h <;> rename_i hg
  · exact ⟨hg, (Option.some.inj h).symm⟩
  · cases h

theorem nodes_start (root : Sequent) (rules : List Rule) (strategy : Strategy)
    {i : NodeId} {n : Node} (h : (start root rules strategy).nodes[i]? = some n) :
    i = 0 ∧ n = { parent := none, sequent := root } := by
  have hnodes : (start root rules strategy).nodes = #[{ parent := none, sequent := root }] := rfl
  rw [hnodes, Array.getElem?_singleton] at h
  split at h <;> rename_i hi
  · exact ⟨hi, (Option.some.inj h).symm⟩
  · cases h

/-- **A proof starts as a tree.** -/
theorem tree_start (root : Sequent) (rules : List Rule) (strategy : Strategy) :
    (start root rules strategy).Tree := by
  have hroot : (start root rules strategy).nodes[Proof.root]? =
      some { parent := none, sequent := root } := rfl
  constructor
  · exact ⟨_, hroot, rfl⟩
  · intro i n hn c hc
    obtain ⟨-, rfl⟩ := nodes_start root rules strategy hn
    cases hc
  · intro c m hm i hi
    obtain ⟨-, rfl⟩ := nodes_start root rules strategy hm
    cases hi
  · intro i n hn hne
    obtain ⟨-, rfl⟩ := nodes_start root rules strategy hn
    cases hne rfl
  · intro i n hn _ _
    obtain ⟨rfl, -⟩ := nodes_start root rules strategy hn
    exact ⟨0, _, rfl, rfl⟩
  · intro g goal hg
    obtain ⟨rfl, rfl⟩ := goal?_start root rules strategy hg
    exact ⟨_, hroot, rfl, rfl, rfl⟩
  · intro g h goal goal' hg hh _
    exact (goal?_start root rules strategy hg).1.trans (goal?_start root rules strategy hh).1.symm
  · intro g goal hg
    obtain ⟨rfl, rfl⟩ := goal?_start root rules strategy hg
    exact .root hroot rfl
  · intro g goal hg
    obtain ⟨rfl, -⟩ := goal?_start root rules strategy hg
    exact Nat.zero_lt_one

/-- **A step keeps the tree**, whatever application it makes. -/
theorem Tree.apply (h : p.Tree) (g : GoalId) (app : RuleApp) : (p.apply g app).2.Tree := by
  have hcases := apply_cases p g app
  generalize (p.apply g app).2 = q at hcases ⊢
  cases hcases with
  | failed hnames => exact h.congr (sameNodes_refl p.nodes) (sameGoals_refl p) (Nat.le_refl _)
  | closed hgoal hexec => exact (h.recordApp _ app _).close hgoal
  | @split goal names succs hgoal hexec hne =>
    have htree := h.recordApp goal.node app names
    obtain ⟨n, hn, -⟩ := htree.goal_node g goal hgoal
    exact htree.splits hgoal (splits_split (lt_size_of_getElem? hn) g app succs)
      (numbered_split hne (h.goal_lt g goal hgoal))

/-- **As long as the root is not closed there is an open goal.** From a node that is not closed we
go down to a child that is not. -/
theorem Tree.exists_goal (h : p.Tree) (hopen : ¬p.isClosed) : ∃ g goal, p.goal? g = some goal := by
  have hnode : ∀ d (i : NodeId) (n : Node), p.nodes.size - i = d → p.nodes[i]? = some n →
      n.closed = false → ∃ g goal, p.goal? g = some goal := by
    intro d
    induction d using Nat.strongRecOn with
    | ind d ih =>
      intro i n hd hn hc
      by_cases hnone : n.children = []
      · obtain ⟨g, goal, hg, -⟩ := h.leaf i n hn hnone hc
        exact ⟨g, goal, hg⟩
      · have hall : ¬∀ c ∈ n.children, nodeClosed p.nodes c := by
          rw [← h.closedIff i n hn hnone, hc]
          exact Bool.false_ne_true
        push Not at hall
        obtain ⟨c, hmem, hopen⟩ := hall
        obtain ⟨hlt, m, hm, -⟩ := h.linked i n hn c hmem
        have hmc : m.closed = false := by
          cases hclosed : m.closed with
          | false => rfl
          | true => exact absurd (nodeClosed_iff.mpr ⟨m, hm, hclosed⟩) hopen
        exact ih _ (hd ▸ Nat.sub_lt_sub_left (lt_size_of_getElem? hn) hlt) c m rfl hm hmc
  obtain ⟨n, hn, -⟩ := h.root
  refine hnode _ _ n rfl hn ?_
  unfold isClosed at hopen
  simpa [hn] using hopen

end Proof

end SequentSearch
