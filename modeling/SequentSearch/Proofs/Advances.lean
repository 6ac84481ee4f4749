import SequentSearch.Proofs.OpenGoals
import SequentSearch.Proofs.Runs

/-!
# Steps that are made

A step that is made works on one leaf of the tree. `Proof.Advances` says all that it does: the leaf
carries the application and gets a child for each new goal, and every other node and goal stays as
it is. So a path of the tree after the step is one that was there before, or it ends in a new child
of the leaf (`Proof.Advances.isChild`, `Proof.Advances.below`).

The proofs that can come about at all are those that requests lead to, with any names taken into use
in between (`Proof.Attained`). In all of them the tree is in order, and a queue holds only what the
strategy gave a finite cost (`Proof.Priced`): queues are filled anew when the strategy changes. If
the strategy is steady it approves of all that, and the application that is shown for a goal is the
one that is handed out (`Proof.Approved.nextApp_eq`).
-/

namespace SequentSearch

namespace Proof

variable {p q : Proof} {g : GoalId} {goal : Goal} {app : RuleApp} {new : List GoalId} {i j : NodeId}

/-! ## What a step does -/

/-- **What a step does to a proof**: the goals for the successors take the place of a goal, below
its leaf. -/
structure Advances (p q : Proof) (g : GoalId) (goal : Goal) (app : RuleApp)
    (new : List GoalId) : Prop extends p.Supplants q g goal new where
  /-- the strategy stays the same -/
  strategy : q.strategy = p.strategy
  /-- the first new goal keeps the number of the goal, and the others get the next numbers -/
  numbers : new = [] ∨ new = g :: List.range' p.nextGoal (new.length - 1)
  /-- which are then handed out -/
  nextGoal : q.nextGoal = p.nextGoal + (new.length - 1)
  /-- the new goals are for successors, at new nodes -/
  successor : ∀ h ∈ new, ∃ node s, p.nodes.size ≤ node ∧
    q.goal? h = some (p.successorGoal goal app node s)
  /-- there is a new node for each of them -/
  size : q.nodes.size = p.nodes.size + new.length
  /-- the leaf carries the application, and the new nodes are its children -/
  leaf : ∃ n, q.nodes[goal.node]? = some n ∧ n.app = some app ∧
    n.children = List.range' p.nodes.size new.length
  /-- other nodes stay as they are, and new ones have nothing below them -/
  other : ∀ i, i ≠ goal.node →
    (∃ n n', p.nodes[i]? = some n ∧ q.nodes[i]? = some n' ∧ n'.app = n.app ∧
      n'.children = n.children) ∨
      (p.nodes[i]? = none ∧ ∀ n', q.nodes[i]? = some n' → n'.app = none ∧ n'.children = [])

/-- Closing adds no nodes. -/
theorem size_closeUp (path : List NodeId) (nodes : Array Node) :
    (closeUp path nodes).size = nodes.size := by
  induction path generalizing nodes with
  | nil => rfl
  | cons id above ih =>
    rw [closeUp_cons]
    split
    · exact (ih _).trans Array.size_modify
    · rfl

/-- A step that is made is one that can be executed. -/
theorem execute_of_apply (hgoal : p.goal? g = some goal) (happly : p.apply g app = (.ok new, q)) :
    ∃ succs, app.execute goal.sequent p.names =
      (.ok succs, (app.execute goal.sequent p.names).2) := by
  rcases hexec : app.execute goal.sequent p.names with ⟨_ | succs, names⟩
  · rw [Proof.apply, hgoal] at happly
    simp only [hexec] at happly
    cases happly
  · exact ⟨succs, rfl⟩

/-- A step that closes a goal. -/
theorem advances_close (htree : p.Tree) (hgoal : p.goal? g = some goal) {names : NameSupply}
    (hexec : app.execute goal.sequent p.names = (.ok [], names)) :
    p.Advances (({ p with names := names }.recordApp goal.node app).close g goal) g
      goal app [] := by
  obtain ⟨new, hnew, hsupplants, -⟩ := supplants_of_execute htree hgoal hexec
  obtain ⟨leaf, hleaf, -, hchildren, -⟩ := htree.goal_node g goal hgoal
  have hkept : ∀ {i n}, p.nodes[i]? = some n → _ := fun hn => node_of_apply htree g app hn
  rw [apply_eq_close hgoal hexec] at hnew hsupplants hkept
  cases hnew
  refine ⟨hsupplants, rfl, .inl rfl, rfl, fun h hh => (nomatch hh), ?_, ?_, fun i hi => ?_⟩
  · exact (size_closeUp ..).trans Array.size_modify
  · obtain ⟨n', hn', -⟩ := hkept hleaf
    obtain ⟨n, hn, -, hsame, happ, -⟩ := htree.node_of_close hgoal app names hn'
    cases hleaf.symm.trans hn
    exact ⟨n', hn', (happ rfl).1, hsame.trans hchildren⟩
  · cases hn : p.nodes[i]? with
    | none =>
      refine .inr ⟨rfl, fun n' hn' => ?_⟩
      obtain ⟨n, hn₁, -⟩ := htree.node_of_close hgoal app names hn'
      cases hn.symm.trans hn₁
    | some n =>
      obtain ⟨n', hn', -⟩ := hkept hn
      obtain ⟨n₁, hn₁, -, hsame, -, happ⟩ := htree.node_of_close hgoal app names hn'
      cases hn.symm.trans hn₁
      exact .inl ⟨n, n', rfl, hn', (happ hi).1, hsame⟩

/-- A step that splits a goal. -/
theorem advances_split (htree : p.Tree) (hgoal : p.goal? g = some goal) {names : NameSupply}
    {succs : List Successor} (hexec : app.execute goal.sequent p.names = (.ok succs, names))
    (hne : succs ≠ []) :
    p.Advances (({ p with names := names }.recordApp goal.node app).split g goal app succs).2 g
      goal app (splitIds ({ p with names := names }.recordApp goal.node app) g succs) := by
  obtain ⟨new, hnew, hsupplants, -⟩ := supplants_of_execute htree hgoal hexec
  rw [apply_eq_split hgoal hexec hne] at hnew hsupplants
  cases hnew
  obtain ⟨leaf, hleaf, -, hchildren, -⟩ := htree.goal_node g goal hgoal
  have hrecord := getElem?_recordApp { p with names := names } goal.node app
  have hleaf' := hrecord goal.node
  rw [if_pos rfl, hleaf, Option.map_some] at hleaf'
  have hsize : ({ p with names := names }.recordApp goal.node app).nodes.size = p.nodes.size :=
    Array.size_modify
  have hs := splits_split (lt_size_of_getElem? hleaf') g app succs
  have hnum : Numbered _ (Proof.split _ g goal app succs).2 g _ :=
    numbered_split hne ((htree.recordApp goal.node app names).goal_lt g goal hgoal)
  have hlength := length_splitIds ({ p with names := names }.recordApp goal.node app) g hne
  have hentries :
      (splitEntries ({ p with names := names }.recordApp goal.node app) g succs).length =
        (splitIds ({ p with names := names }.recordApp goal.node app) g succs).length := by
    rw [← map_fst_splitEntries _ g hne, List.length_map]
  refine ⟨hsupplants, hs.strategy, .inr ?_, ?_, fun h hh => ?_, ?_, ⟨_, hs.leaf _ hleaf', rfl, ?_⟩,
    fun i hi => ?_⟩
  · rw [hlength]
    rfl
  · rw [hlength]
    rfl
  · rw [← map_fst_splitEntries _ g hne] at hh
    obtain ⟨e, he, rfl⟩ := List.mem_map.mp hh
    obtain ⟨k, hk⟩ := List.mem_iff_getElem?.mp he
    exact ⟨_, e.2, hsize ▸ Nat.le_add_right .., hs.goal_new hnum.nodup k e hk⟩
  · rw [hs.size, hsize, hentries]
  · simp only [hchildren, List.nil_append, hsize, hentries]
  · have hsame := hrecord i
    rw [if_neg (Ne.symm hi)] at hsame
    cases hn : p.nodes[i]? with
    | none =>
      refine .inr ⟨rfl, fun n' hn' => ?_⟩
      rcases hs.node_cases hleaf' hn' with ⟨heq, -⟩ | ⟨-, hold⟩ | ⟨-, -, -, -, rfl⟩
      · exact absurd heq hi
      · cases (hsame.trans hn).symm.trans hold
      · exact ⟨rfl, rfl⟩
    | some n =>
      have hold := hs.other i hi (hsize ▸ lt_size_of_getElem? hn)
      exact .inl ⟨n, n, rfl, (hold.trans hsame).trans hn, rfl, rfl⟩

/-- **A step that is made works on the leaf of its goal only.** -/
theorem advances_of_apply (htree : p.Tree) (hgoal : p.goal? g = some goal)
    (happly : p.apply g app = (.ok new, q)) : p.Advances q g goal app new := by
  obtain ⟨succs, hexec⟩ := execute_of_apply hgoal happly
  by_cases hne : succs = []
  · subst hne
    rw [apply_eq_close hgoal hexec] at happly
    cases happly
    exact advances_close htree hgoal hexec
  · rw [apply_eq_split hgoal hexec hne] at happly
    cases happly
    exact advances_split htree hgoal hexec hne

/-- **An application that a goal hands out and that is made** works on the leaf of the goal only.
That the goal was asked for it leaves no trace, as the queue of the goal goes with it. -/
theorem advances_of_nextApp (htree : p.Tree) (hgoal : p.goal? g = some goal)
    (happly : (p.nextApp g).2.apply g app = (.ok new, q)) : p.Advances q g goal app new := by
  obtain ⟨queue, -, hget⟩ := goal?_nextApp hgoal
  have hgoal' : (p.nextApp g).2.goal? g = some { goal with queue := .pure queue } := by
    rw [hget, if_pos rfl]
  have hsame : ∀ h, h ≠ g → (p.nextApp g).2.goal? h = p.goal? h := by
    intro h hne
    rw [hget, if_neg hne]
  have hadvances := advances_of_apply (htree.nextApp g) hgoal' happly
  obtain ⟨hbase, hstrategy, -, hnodes, hnext⟩ := nextApp_keeps p g
  have hsuccessor : ∀ node s, (p.nextApp g).2.successorGoal
      { goal with queue := .pure queue } app node s =
      p.successorGoal goal app node s := by
    intro node s
    rw [successorGoal, successorGoal, hbase, hstrategy]
    rfl
  refine ⟨⟨hadvances.isOpen, fun h hh hne => ?_, fun h hh => ?_, fun h goal' hh hne => ?_⟩,
    hadvances.strategy.trans hstrategy, hnext ▸ hadvances.numbers, hnext ▸ hadvances.nextGoal,
    fun h hh => ?_, hnodes ▸ hadvances.size, hnodes ▸ hadvances.leaf, hnodes ▸ hadvances.other⟩
  · exact hsame h hne ▸ hadvances.fresh h hh hne
  · rw [hadvances.old h hh]
    split <;> rename_i hne
    · rfl
    · exact hsame h hne
  · exact hadvances.parent h goal' ((hsame h hne).trans hh) hne
  · obtain ⟨node, s, hle, hh⟩ := hadvances.successor h hh
    exact ⟨node, s, hnodes ▸ hle, hsuccessor node s ▸ hh⟩

/-- A step that fails is one that cannot be executed. It takes at most names into use. -/
theorem apply_eq_error {e : ProofError} (hgoal : p.goal? g = some goal)
    (happly : p.apply g app = (.error e, q)) : ∃ err names, e = .exec err ∧
      app.execute goal.sequent p.names = (.error err, names) ∧ q = { p with names := names } := by
  rw [Proof.apply, hgoal] at happly
  rcases hexec : app.execute goal.sequent p.names with ⟨err | _ | _, names⟩ <;>
    simp only [hexec] at happly <;> cases happly
  exact ⟨err, names, rfl, rfl, rfl⟩

/-! ## Paths after a step -/

/-- **A child after a step** was one before, or it is a new child of the leaf. -/
theorem Advances.isChild (h : p.Advances q g goal app new) (htree : p.Tree)
    (hchild : IsChild q.nodes i j) :
    (j < p.nodes.size ∧ i ≠ goal.node ∧ IsChild p.nodes i j) ∨
    (p.nodes.size ≤ j ∧ i = goal.node) := by
  obtain ⟨n', hn', hj⟩ := hchild
  by_cases hi : i = goal.node
  · obtain ⟨leaf, hleaf, -, hchildren⟩ := h.leaf
    rw [hi] at hn'
    cases hleaf.symm.trans hn'
    rw [hchildren] at hj
    exact .inr ⟨(List.mem_range'_1.mp hj).1, hi⟩
  · rcases h.other i hi with ⟨n, m', hn, hm', -, hsame⟩ | ⟨-, hnil⟩
    · cases hn'.symm.trans hm'
      rw [hsame] at hj
      obtain ⟨-, m, hm, -⟩ := htree.linked i n hn j hj
      exact .inl ⟨lt_size_of_getElem? hm, hi, n, hn, hj⟩
    · rw [(hnil n' hn').2] at hj
      cases hj

theorem IsChild.lt_size {nodes : Array Node} (h : IsChild nodes i j) : i < nodes.size := by
  obtain ⟨n, hn, -⟩ := h
  exact lt_size_of_getElem? hn

/-- The leaf of a goal is a node. -/
theorem Tree.node_lt (htree : p.Tree) (hgoal : p.goal? g = some goal) :
    goal.node < p.nodes.size := by
  obtain ⟨n, hn, -⟩ := htree.goal_node g goal hgoal
  exact lt_size_of_getElem? hn

/-- An open goal has nothing below its leaf. -/
theorem Tree.not_isChild (htree : p.Tree) (hgoal : p.goal? g = some goal) :
    ¬IsChild p.nodes goal.node j := by
  rintro ⟨n, hn, hj⟩
  obtain ⟨leaf, hleaf, -, hchildren, -⟩ := htree.goal_node g goal hgoal
  cases hleaf.symm.trans hn
  rw [hchildren] at hj
  cases hj

/-- **What is below a node after a step** was below it before, or it is new and the leaf of the step
is below the node. -/
theorem Advances.below (h : p.Advances q g goal app new) (htree : p.Tree)
    (hgoal : p.goal? g = some goal) (hbelow : Below q.nodes i j) :
    Below p.nodes i j ∨ (p.nodes.size ≤ j ∧ Below p.nodes i goal.node) := by
  induction hbelow with
  | refl => exact .inl .refl
  | tail _ hchild ih =>
    rcases h.isChild htree hchild with ⟨-, -, hchild'⟩ | ⟨hle, rfl⟩
    · refine .inl (.tail (ih.resolve_right fun hnew => ?_) hchild')
      exact Nat.not_lt_of_le hnew.1 hchild'.lt_size
    · refine .inr ⟨hle, ih.resolve_right fun hnew => ?_⟩
      exact Nat.not_lt_of_le hnew.1 (htree.node_lt hgoal)

/-- The numbers of new goals are that of the goal and new ones. -/
theorem Advances.mem_new (h : p.Advances q g goal app new) {k : GoalId} (hk : k ∈ new) :
    k = g ∨ (p.nextGoal ≤ k ∧ k < q.nextGoal) := by
  rcases h.numbers with hnil | hnew
  · rw [hnil] at hk
    cases hk
  · rw [hnew] at hk
    rcases List.mem_cons.mp hk with heq | hmem
    · exact .inl heq
    · rw [h.nextGoal]
      exact .inr (List.mem_range'_1.mp hmem)

/-! ## Goals that are not worked on -/

/-- A goal that a step was not made on stays as it is. -/
theorem Supplants.keeps (h : p.Supplants q g goal new) {k : GoalId} {goal' : Goal}
    (hk : p.goal? k = some goal') (hne : k ≠ g) : k ∉ new ∧ q.goal? k = some goal' := by
  have hmem : k ∉ new := by
    intro hmem
    cases hk.symm.trans (h.fresh k hmem hne)
  refine ⟨hmem, ?_⟩
  rw [h.old k hmem, if_neg hne, hk]

/-- **A goal after a step** is new, or it was there before and is not the one the step was made
on. -/
theorem Supplants.goal_cases (h : p.Supplants q g goal new) {k : GoalId} {goal' : Goal}
    (hk : q.goal? k = some goal') : k ∈ new ∨ (k ∉ new ∧ k ≠ g ∧ p.goal? k = some goal') := by
  by_cases hmem : k ∈ new
  · exact .inl hmem
  · rw [h.old k hmem] at hk
    split at hk <;> rename_i hne
    · cases hk
    · exact .inr ⟨hmem, hne, hk⟩

/-- What is handed out for a goal depends on the goal and the strategy. -/
theorem nextApp_congr {k : GoalId} (hgoal : q.goal? k = p.goal? k)
    (hstrategy : q.strategy = p.strategy) :
    (q.nextApp k).1 = (p.nextApp k).1 := by
  rw [Proof.nextApp, Proof.nextApp, hgoal, hstrategy]
  cases p.goal? k <;> rfl

/-- Asking for an application changes nothing for other goals. -/
theorem goal?_nextApp_of_ne {k : GoalId} (hne : k ≠ g) : (p.nextApp g).2.goal? k = p.goal? k := by
  cases hgoal : p.goal? g with
  | none => rw [Proof.nextApp, hgoal]
  | some goal =>
    obtain ⟨queue, -, hget⟩ := goal?_nextApp hgoal
    rw [hget, if_neg hne]

theorem nextApp_nextApp_of_ne {k : GoalId} (hne : k ≠ g) :
    ((p.nextApp g).2.nextApp k).1 = (p.nextApp k).1 :=
  nextApp_congr (goal?_nextApp_of_ne hne) (nextApp_keeps p g).2.1

/-- **A goal that has nothing to hand out still has nothing** when it is asked again. -/
theorem nextApp_nextApp_of_none (hnone : (p.nextApp g).1 = none) :
    ((p.nextApp g).2.nextApp g).1 = none := by
  cases hgoal : p.goal? g with
  | none => rw [show (p.nextApp g).2 = p by rw [Proof.nextApp, hgoal], hnone]
  | some goal =>
    have hrejects := approves_of_nextApp_eq_none hgoal hnone
    obtain ⟨queue, hsub, hget⟩ := goal?_nextApp hgoal
    have hgoal' : (p.nextApp g).2.goal? g = some { goal with queue := .pure queue } := by
      rw [hget, if_pos rfl]
    cases happ : ((p.nextApp g).2.nextApp g).1 with
    | none => rfl
    | some app =>
      rcases nextApp_cases (p.nextApp g).2 g with hnothing | ⟨goal', -, hgoal'', -, -, hfrom⟩
      · rw [hnothing] at happ
        cases happ
      · cases hgoal'.symm.trans hgoal''
        obtain ⟨happroves, cost, hmem⟩ := hfrom app happ
        rw [(nextApp_keeps p g).2.1] at happroves
        exact absurd happroves (Bool.eq_false_iff.mp (hrejects _ (hsub _ hmem)))

/-! ## Proofs that can come about -/

/-- **The queues hold only what the strategy gave a finite cost.** -/
def Priced (p : Proof) : Prop :=
  ∀ g goal, p.goal? g = some goal →
    ∀ e ∈ goal.queue.get.entries, (p.strategy.cost goal.context e.2).isTop = false

theorem isTop_cost_fill (strategy : Strategy) (goal : Goal) :
    ∀ e ∈ (goal.fill strategy).queue.get.entries,
      (strategy.cost (goal.fill strategy).context e.2).isTop = false := by
  rintro ⟨cost, app⟩ he
  obtain ⟨-, -, -, -, -, hfinite⟩ := Strategy.mem_offers.mp (Goal.mem_fill.mp he)
  exact hfinite

theorem Priced.apply (h : p.Priced) (htree : p.Tree) (g : GoalId) (app : RuleApp) :
    (p.apply g app).2.Priced := by
  intro k goal' hk
  rw [(apply_keeps htree g app).2.1]
  rcases goal_of_apply htree hk with hold | ⟨goal, succs, -, -, s, -, node, rfl, -⟩
  · exact h k goal' hold
  · exact isTop_cost_fill p.strategy _

theorem Priced.nextApp (h : p.Priced) (g : GoalId) : (p.nextApp g).2.Priced := by
  intro k goal' hk e he
  rw [(nextApp_keeps p g).2.1]
  obtain ⟨goal, hgoal, hsub, queue, rfl⟩ := goal_of_nextApp hk
  exact h k goal hgoal e (hsub e he)

theorem Priced.setAutomatic (h : p.Priced) (g : GoalId) (automatic : Bool) :
    (p.setAutomatic g automatic).2.Priced := by
  intro k goal' hk
  rw [strategy_setAutomatic]
  obtain ⟨goal, hgoal, -, rfl⟩ := goal_of_setAutomatic hk
  exact h k goal hgoal

theorem priced_setStrategy (p : Proof) (strategy : Strategy) : (p.setStrategy strategy).Priced := by
  intro k goal' hk
  obtain ⟨goal, -, rfl⟩ := goal_of_setStrategy hk
  exact isTop_cost_fill strategy goal

theorem Priced.perform (h : p.Priced) (htree : p.Tree) (r : Request) : (p.perform r).Priced := by
  cases r with
  | apply g app => exact h.apply htree g app
  | applyInteractive g app =>
    rw [Proof.perform, applyInteractive]
    split
    · exact h.apply htree g app
    · exact h
  | nextApp g => exact h.nextApp g
  | peek g => exact h
  | setAutomatic g automatic => exact h.setAutomatic g automatic
  | setStrategy strategy => exact priced_setStrategy p strategy

/-- **The strategy approves of all that the queues hold**, since it is steady. -/
structure Approved (p : Proof) : Prop where
  /-- what the queues hold was given a finite cost -/
  priced : p.Priced
  /-- and that has not changed -/
  steady : p.strategy.Steady

theorem Approved.approves (h : p.Approved) (hgoal : p.goal? g = some goal) :
    ∀ e ∈ goal.queue.get.entries, p.strategy.approves goal.context e.2 :=
  fun e he => h.steady _ _ (h.priced g goal hgoal e he)

theorem Approved.apply (h : p.Approved) (htree : p.Tree) (g : GoalId) (app : RuleApp) :
    (p.apply g app).2.Approved :=
  ⟨h.priced.apply htree g app, (apply_keeps htree g app).2.1 ▸ h.steady⟩

theorem Approved.nextApp (h : p.Approved) (g : GoalId) : (p.nextApp g).2.Approved :=
  ⟨h.priced.nextApp g, (nextApp_keeps p g).2.1 ▸ h.steady⟩

theorem Approved.make (h : p.Approved) (htree : p.Tree)
    (happly : (p.nextApp g).2.apply g app = (.ok new, q)) : q.Approved := by
  have hq : q = ((p.nextApp g).2.apply g app).2 := by rw [happly]
  exact hq ▸ (h.nextApp g).apply (htree.nextApp g) g app

/-- **A goal whose entries are all approved of hands out the first one**, and keeps the others. -/
theorem nextApp_of_approves (hgoal : p.goal? g = some goal)
    (happroves : ∀ e ∈ goal.queue.get.entries, p.strategy.approves goal.context e.2) :
    p.nextApp g = (goal.peek?,
      { p with goals := p.goals.insert g { goal with queue := .pure goal.queue.get.tail } }) := by
  have hkeep : goal.queue.get.dropUntil (p.strategy.approves goal.context) = goal.queue.get := by
    rw [Queue.dropUntil]
    cases hentries : goal.queue.get.entries with
    | nil => rw [List.dropWhile_nil, ← hentries]
    | cons e rest =>
      have hfirst := happroves e (hentries ▸ List.mem_cons_self)
      rw [List.dropWhile_cons_of_neg (by simp [hfirst]), ← hentries]
  rw [Proof.nextApp, hgoal]
  simp only [hkeep]
  rfl

/-- **In a queue without entries that are not approved of, what is shown is handed out.** -/
theorem Approved.nextApp_eq (h : p.Approved) (hgoal : p.goal? g = some goal) :
    (p.nextApp g).1 = goal.peek? := by
  rw [nextApp_of_approves hgoal (h.approves hgoal)]

/-- **The proofs that can come about**: requests are made, and names may be taken into use in
between. -/
inductive Attained : Proof → Prop where
  /-- the root is the only goal -/
  | start (root : Sequent) (rules : List Rule) (strategy : Strategy) :
      Attained (start root rules strategy)
  /-- a request is made -/
  | perform {p : Proof} (h : Attained p) (r : Request) : Attained (p.perform r)
  /-- the names in use are changed -/
  | rename {p : Proof} (h : Attained p) (names : NameSupply) : Attained { p with names := names }

theorem keeps_names (p : Proof) (names : NameSupply) : Keeps p { p with names := names } :=
  ⟨rfl, sameState_refl p, rfl, rfl, rfl⟩

/-- **The tree is always in order.** -/
theorem Attained.inOrder (h : p.Attained) : p.InOrder := by
  induction h with
  | start root rules strategy => exact inOrder_start root rules strategy
  | @perform p _ r ih =>
    rcases perform_cases p r with ⟨g, app, heq⟩ | hkeeps
    · exact heq ▸ ih.apply g app
    · exact ih.keeps hkeeps
  | @rename p _ names ih => exact ih.keeps (keeps_names p names)

/-- **Queues always hold only what the strategy gave a finite cost.** -/
theorem Attained.priced (h : p.Attained) : p.Priced := by
  induction h with
  | start root rules strategy =>
    intro g goal hg
    obtain ⟨-, rfl⟩ := goal?_start root rules strategy hg
    exact isTop_cost_fill strategy _
  | perform h r ih => exact ih.perform h.inOrder.tree r
  | rename _ names ih => exact ih

end Proof

end SequentSearch
