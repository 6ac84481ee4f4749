import SequentSearch.Proofs.Advances
import SequentSearch.Search.StopCondition

/-!
# The limit on significant steps

A limit counts the significant steps of a goal when it is asked about the goal, which may be long
before the step is made, and any number of times. It keeps counts by the numbers of goals and
decisions by nodes. `StepLimit.History` is what can happen to a proof and a limit while a search
runs: the limit is asked, a goal without an application is passed over, and an application that the
limit allowed is made.

Two facts hold along histories.

* **The count of a goal is not too small** (`StepLimit.Meters`): the significant applications on the
  path to the goal, and the one that was allowed but not made yet, are no more than its count. So no
  path has more of them than the limit. The limit counts what a goal shows, so this needs that a
  goal shows a significant application before it hands one out (`Proof.Announces`). It does if all
  steps are significant, or if the strategy is steady.
* **Decisions stand** (`StepLimit.Stands`): as long as a goal stays at its node, the limit gives the
  same answer and does not count again. Questions change nothing in this
  (`StepLimit.allows_of_probed`), and if the strategy is steady nothing else does
  (`StepLimit.History.allows_again`).
-/

namespace SequentSearch

/-! ## Paths -/

namespace Proof

variable {nodes : Array Node} {counts : RuleApp → Bool} {p q : Proof} {g : GoalId} {goal : Goal}
  {app : RuleApp} {new : List GoalId} {i j k : NodeId} {n : Nat}

/-- Whether the application made on a node counts. -/
def carries (nodes : Array Node) (counts : RuleApp → Bool) (i : NodeId) : Bool :=
  (nodes[i]?.bind Node.app).any counts

/-- **A node below another one, and how many applications count on the way to it**, its own not
included. -/
inductive Descends (nodes : Array Node) (counts : RuleApp → Bool) (i : NodeId) :
    NodeId → Nat → Prop where
  /-- a node is below itself -/
  | here : Descends nodes counts i i 0
  /-- and so are its children -/
  | down {j k : NodeId} {n : Nat} (h : Descends nodes counts i j n) (hchild : IsChild nodes j k) :
      Descends nodes counts i k (n + (carries nodes counts j).toNat)

/-- What is below a node is a node. -/
theorem Descends.lt_size (h : Descends p.nodes counts i j n) (htree : p.Tree)
    (hi : i < p.nodes.size) :
    j < p.nodes.size := by
  cases h with
  | here => exact hi
  | down _ hchild =>
    obtain ⟨n, hn, hj⟩ := hchild
    obtain ⟨-, m, hm, -⟩ := htree.linked _ n hn j hj
    exact lt_size_of_getElem? hm

/-- A step changes what counts at its leaf only. -/
theorem Advances.carries_eq (h : p.Advances q g goal app new) (counts : RuleApp → Bool)
    (k : NodeId) :
    carries q.nodes counts k = if k = goal.node then counts app else carries p.nodes counts k := by
  split <;> rename_i hk
  · obtain ⟨n, hn, happ, -⟩ := h.leaf
    rw [carries, hk, hn, Option.bind_some, happ]
    rfl
  · rcases h.other k hk with ⟨n, n', hn, hn', happ, -⟩ | ⟨hnone, hnew⟩
    · rw [carries, carries, hn, hn', Option.bind_some, Option.bind_some, happ]
    · cases hn' : q.nodes[k]? with
      | none => rw [carries, carries, hnone, hn']
      | some n' => simp [carries, hnone, hn', (hnew n' hn').1]

/-- **A path after a step** was there before, or it goes through the leaf of the step to a new
node. -/
theorem Advances.descends (h : p.Advances q g goal app new) (htree : p.Tree)
    (hgoal : p.goal? g = some goal) (hdescends : Descends q.nodes counts i j n) :
    Descends p.nodes counts i j n ∨
      (p.nodes.size ≤ j ∧ ∃ m, Descends p.nodes counts i goal.node m ∧
        n = m + (counts app).toNat) := by
  induction hdescends with
  | here => exact .inl .here
  | @down j k n _ hchild ih =>
    have hcarries := h.carries_eq counts j
    rcases h.isChild htree hchild with ⟨-, hne, hchild'⟩ | ⟨hle, rfl⟩
    · rw [hcarries, if_neg hne]
      refine .inl (.down (ih.resolve_right fun hnew => ?_) hchild')
      exact Nat.not_lt_of_le hnew.1 hchild'.lt_size
    · rw [hcarries, if_pos rfl]
      refine .inr ⟨hle, n, ih.resolve_right fun hnew => ?_, rfl⟩
      exact Nat.not_lt_of_le hnew.1 (htree.node_lt hgoal)

/-! ## What is announced -/

/-- **Significant applications are announced**: before a goal hands one out, it shows one that is
significant too. There is nothing to this if all applications are. Otherwise the strategy has to be
steady, and then the application that is shown is handed out. -/
structure Announces (p : Proof) (significance : Significance) : Prop where
  /-- the queues hold what the strategy gave a finite cost -/
  priced : p.Priced
  /-- all applications are significant, or the strategy is steady -/
  steady : significance = .everyStep ∨ p.strategy.Steady

variable {significance : Significance}

theorem Announces.apply (h : p.Announces significance) (htree : p.Tree) (g : GoalId)
    (app : RuleApp) :
    (p.apply g app).2.Announces significance :=
  ⟨h.priced.apply htree g app, (apply_keeps htree g app).2.1 ▸ h.steady⟩

theorem Announces.nextApp (h : p.Announces significance) (g : GoalId) :
    (p.nextApp g).2.Announces significance :=
  ⟨h.priced.nextApp g, (nextApp_keeps p g).2.1 ▸ h.steady⟩

theorem Announces.peek? (h : p.Announces significance) (hgoal : p.goal? g = some goal)
    (happ : (p.nextApp g).1 = some app) (hsignificant : significance.holds app) :
    goal.peek?.any significance.holds := by
  rcases h.steady with rfl | hsteady
  · rcases nextApp_cases p g with hnone | ⟨goal', queue, hgoal', -, -, hfrom⟩
    · rw [hnone] at happ
      cases happ
    · cases hgoal.symm.trans hgoal'
      obtain ⟨-, cost, hmem⟩ := hfrom app happ
      rw [Goal.peek?, Queue.peek?, List.head?_eq_some_head (List.ne_nil_of_mem hmem)]
      rfl
  · have happroved : p.Approved := ⟨h.priced, hsteady⟩
    rw [← happroved.nextApp_eq hgoal, happ]
    exact hsignificant

end Proof

/-! ## What a limit records -/

namespace IdTable

theorem get?_foldl_insert {α : Type} (ids : List Nat) (a : α) (t : IdTable α) (k : Nat) :
    (ids.foldl (fun t i => t.insert i a) t).get? k = if k ∈ ids then some a else t.get? k := by
  induction ids generalizing t with
  | nil => rfl
  | cons i ids ih =>
    rw [List.foldl_cons, ih, get?_insert]
    by_cases hi : k = i <;> by_cases hk : k ∈ ids <;> simp [hi, hk]

end IdTable

namespace StepLimit

variable {l l' : StepLimit} {p q : Proof} {g k : GoalId} {goal goal' : Goal} {app : RuleApp}
  {new : List GoalId} {allowed : Bool} {i : NodeId}

/-- A count that is recorded is that of its goal. -/
theorem executedOn_insert (l : StepLimit) (g : GoalId) (n : Nat)
    (decided : IdTable Bool) (total : Nat) (k : GoalId) :
    ({ l with executed := l.executed.insert g n, decided := decided, total := total } :
      StepLimit).executedOn k = if k = g then n else l.executedOn k := by
  rw [executedOn, IdTable.get?_insert]
  split <;> rfl

/-- **What a limit answers about a goal, and what it records.** -/
inductive Answers (l : StepLimit) (p : Proof) (g : GoalId) : Bool → StepLimit → Prop where
  /-- the next step of the goal is not significant -/
  | free (hfree : ∀ goal, p.goal? g = some goal → goal.peek?.any l.significance.holds = false) :
      Answers l p g true l
  /-- it was decided before -/
  | again {goal : Goal} {allowed : Bool} (hgoal : p.goal? g = some goal)
      (hsignificant : goal.peek?.any l.significance.holds)
      (hdecided : l.decided.get? goal.node = some allowed) : Answers l p g allowed l
  /-- it is allowed and counted -/
  | counted {goal : Goal} (hgoal : p.goal? g = some goal)
      (hsignificant : goal.peek?.any l.significance.holds) (hopen : l.decided.get? goal.node = none)
      (hlt : l.executedOn g < l.limit) : Answers l p g true
        { l with
          executed := l.executed.insert g (l.executedOn g + 1)
          decided := l.decided.insert goal.node true
          total := l.total + 1 }
  /-- it is not allowed -/
  | refused {goal : Goal} (hgoal : p.goal? g = some goal)
      (hsignificant : goal.peek?.any l.significance.holds)
      (hopen : l.decided.get? goal.node = none) :
      Answers l p g false { l with decided := l.decided.insert goal.node false }

theorem answers_of_allows (h : l.allows p g = (allowed, l')) : Answers l p g allowed l' := by
  rw [allows] at h
  cases hgoal : p.goal? g with
  | none =>
    simp only [hgoal] at h
    cases h
    exact .free fun goal hgoal' => (nomatch hgoal.symm.trans hgoal')
  | some goal =>
    simp only [hgoal] at h
    split at h <;> rename_i hsignificant
    · cases hdecided : l.decided.get? goal.node with
      | some decided =>
        simp only [hdecided] at h
        cases h
        exact .again hgoal hsignificant hdecided
      | none =>
        simp only [hdecided, decideAt] at h
        split at h <;> rename_i hlt <;> cases h
        · exact .counted hgoal hsignificant hdecided hlt
        · exact .refused hgoal hsignificant hdecided
    · cases h
      refine .free fun goal' hgoal' => ?_
      cases hgoal.symm.trans hgoal'
      exact Bool.eq_false_iff.mpr hsignificant

theorem answers_allows (l : StepLimit) (p : Proof) (g : GoalId) :
    Answers l p g (l.allows p g).1 (l.allows p g).2 := answers_of_allows rfl

/-- The limit itself does not change. -/
theorem Answers.same (h : Answers l p g allowed l') :
    l'.limit = l.limit ∧ l'.significance = l.significance := by
  cases h <;> exact ⟨rfl, rfl⟩

/-- A significant step that is allowed is recorded as allowed. -/
theorem Answers.decided (h : Answers l p g true l') (hgoal : p.goal? g = some goal)
    (hsignificant : goal.peek?.any l'.significance.holds) :
    l'.decided.get? goal.node = some true := by
  cases h with
  | free hfree =>
    rw [hfree goal hgoal] at hsignificant
    cases hsignificant
  | again hgoal' _ hdecided =>
    cases hgoal.symm.trans hgoal'
    exact hdecided
  | counted hgoal' _ _ _ =>
    cases hgoal.symm.trans hgoal'
    rw [IdTable.get?_insert, if_pos rfl]

/-- Following a step changes counts only. -/
theorem follow_same (l : StepLimit) (q : Proof) (made : AppliedStep) :
    (l.follow q made).limit = l.limit ∧ (l.follow q made).significance = l.significance ∧
      (l.follow q made).decided = l.decided := by
  rw [follow]
  split
  · split <;> exact ⟨rfl, rfl, rfl⟩
  · exact ⟨rfl, rfl, rfl⟩

/-- **The new goals take over the count of the goal.** This happens at forks only, but where there
is none the only new goal has the number of the goal. -/
theorem get?_follow (h : p.Advances q g goal app new)
    (hnew : ∀ k, p.nextGoal ≤ k → l.executed.get? k = none) (k : GoalId) :
    (l.follow q ⟨g, goal.node, app, new⟩).executed.get? k =
      if k ∈ new then l.executed.get? g else l.executed.get? k := by
  have hfork : (q.nodes[goal.node]?.any fun n => 2 ≤ n.children.length) =
      decide (2 ≤ new.length) := by
    obtain ⟨n, hn, -, hchildren⟩ := h.leaf
    simp [hn, hchildren]
  rw [follow, hfork]
  by_cases hmem : k ∈ new
  · rw [if_pos hmem]
    by_cases hk : k = g
    · subst hk
      split
      · split <;> rename_i hcount
        · rw [IdTable.get?_foldl_insert, if_neg (by simp)]
        · rfl
      · rfl
    · have hle : p.nextGoal ≤ k := ((h.mem_new hmem).resolve_left hk).1
      have hlength : 2 ≤ new.length := by
        rcases h.numbers with hnil | hcons
        · rw [hnil] at hmem
          cases hmem
        · rw [hcons] at hmem
          obtain ⟨hle, hlt⟩ := List.mem_range'_1.mp ((List.mem_cons.mp hmem).resolve_left hk)
          have hpos : p.nextGoal < p.nextGoal + (new.length - 1) := Nat.lt_of_le_of_lt hle hlt
          omega
      rw [if_pos (by simpa using hlength)]
      split <;> rename_i hcount
      · rw [IdTable.get?_foldl_insert, if_pos (List.mem_filter.mpr ⟨hmem, by simpa using hk⟩)]
        exact hcount.symm
      · rw [hnew k hle]
        exact hcount.symm
  · rw [if_neg hmem]
    split
    · split
      · rw [IdTable.get?_foldl_insert, if_neg fun hfilter => hmem (List.mem_filter.mp hfilter).1]
      · rfl
    · rfl

theorem executedOn_follow (h : p.Advances q g goal app new)
    (hnew : ∀ k, p.nextGoal ≤ k → l.executed.get? k = none) (k : GoalId) :
    (l.follow q ⟨g, goal.node, app, new⟩).executedOn k =
      if k ∈ new then l.executedOn g else l.executedOn k := by
  rw [executedOn, get?_follow h hnew]
  split <;> rfl

/-! ## Histories -/

/-- **What can happen to a proof and a limit while a search runs**, from one state to a later
one. -/
inductive History (p₀ : Proof) (l₀ : StepLimit) : Proof → StepLimit → Prop where
  /-- nothing -/
  | refl : History p₀ l₀ p₀ l₀
  /-- the limit is asked about a goal -/
  | ask {p : Proof} {l : StepLimit} (h : History p₀ l₀ p l) (g : GoalId) :
      History p₀ l₀ p (l.allows p g).2
  /-- a goal has no application -/
  | pass {p : Proof} {l : StepLimit} {g : GoalId} (h : History p₀ l₀ p l)
      (hnone : (p.nextApp g).1 = none) : History p₀ l₀ (p.nextApp g).2 l
  /-- the limit allows a goal, and its application is made -/
  | make {p q : Proof} {l l' : StepLimit} {g : GoalId} {goal : Goal} {app : RuleApp}
      {new : List GoalId} (h : History p₀ l₀ p l) (hgoal : p.goal? g = some goal)
      (hallows : l.allows p g = (true, l')) (happ : (p.nextApp g).1 = some app)
      (happly : (p.nextApp g).2.apply g app = (.ok new, q)) :
      History p₀ l₀ q (l'.follow q ⟨g, goal.node, app, new⟩)

/-- The limit itself does not change. -/
theorem History.same {p₀ : Proof} {l₀ : StepLimit} (h : History p₀ l₀ p l) :
    l.limit = l₀.limit ∧ l.significance = l₀.significance := by
  induction h with
  | refl => exact ⟨rfl, rfl⟩
  | @ask p l _ g ih =>
    obtain ⟨hlimit, hsignificance⟩ := (answers_allows l p g).same
    exact ⟨hlimit.trans ih.1, hsignificance.trans ih.2⟩
  | pass _ _ ih => exact ih
  | @make p q l l' g goal app new _ _ hallows _ _ ih =>
    obtain ⟨hlimit, hsignificance⟩ := (answers_of_allows hallows).same
    obtain ⟨hlimit', hsignificance', -⟩ := follow_same l' q ⟨g, goal.node, app, new⟩
    exact ⟨(hlimit'.trans hlimit).trans ih.1, (hsignificance'.trans hsignificance).trans ih.2⟩

/-- **What a limit has records of**: goals and nodes that there were. -/
structure Orderly (p : Proof) (l : StepLimit) : Prop where
  /-- the nodes form a tree -/
  tree : p.Tree
  /-- there are no counts for goals to come -/
  executed : ∀ k, p.nextGoal ≤ k → l.executed.get? k = none
  /-- nor decisions for nodes to come -/
  decided : ∀ k, p.nodes.size ≤ k → l.decided.get? k = none
  /-- no count exceeds the limit -/
  bounded : ∀ g, l.executedOn g ≤ l.limit

theorem Orderly.ask (h : Orderly p l) (hanswers : Answers l p g allowed l') : Orderly p l' := by
  cases hanswers with
  | free _ => exact h
  | again _ _ _ => exact h
  | @counted goal hgoal _ _ hlt =>
    refine ⟨h.tree, fun k hk => ?_, fun k hk => ?_, fun k => ?_⟩
    · rw [IdTable.get?_insert, if_neg
        (Nat.ne_of_gt (Nat.lt_of_lt_of_le (h.tree.goal_lt g goal hgoal) hk))]
      exact h.executed k hk
    · rw [IdTable.get?_insert, if_neg (Nat.ne_of_gt (Nat.lt_of_lt_of_le (h.tree.node_lt hgoal) hk))]
      exact h.decided k hk
    · rw [executedOn_insert]
      split
      · exact hlt
      · exact h.bounded k
  | @refused goal hgoal _ _ =>
    refine ⟨h.tree, h.executed, fun k hk => ?_, h.bounded⟩
    rw [IdTable.get?_insert, if_neg (Nat.ne_of_gt (Nat.lt_of_lt_of_le (h.tree.node_lt hgoal) hk))]
    exact h.decided k hk

theorem Orderly.pass (h : Orderly p l) (g : GoalId) : Orderly (p.nextApp g).2 l := by
  obtain ⟨-, -, -, hnodes, hnext⟩ := Proof.nextApp_keeps p g
  exact ⟨h.tree.nextApp g, hnext ▸ h.executed, hnodes ▸ h.decided, h.bounded⟩

theorem Orderly.make (h : Orderly p l) (hgoal : p.goal? g = some goal)
    (happly : (p.nextApp g).2.apply g app = (.ok new, q)) :
    Orderly q (l.follow q ⟨g, goal.node, app, new⟩) := by
  have hadvances := Proof.advances_of_nextApp h.tree hgoal happly
  obtain ⟨hlimit, -, hdecided⟩ := follow_same l q ⟨g, goal.node, app, new⟩
  have hq : q = ((p.nextApp g).2.apply g app).2 := by rw [happly]
  refine ⟨hq ▸ (h.tree.nextApp g).apply g app, fun k hk => ?_, fun k hk => ?_, fun k => ?_⟩
  · have hle : p.nextGoal ≤ k := Nat.le_trans (hadvances.nextGoal ▸ Nat.le_add_right ..) hk
    rw [get?_follow hadvances h.executed, if_neg, h.executed k hle]
    intro hmem
    rcases hadvances.mem_new hmem with rfl | hnew
    · exact Nat.not_lt_of_le hle (h.tree.goal_lt k goal hgoal)
    · exact Nat.not_lt_of_le hk hnew.2
  · rw [hdecided]
    exact h.decided k (Nat.le_trans (hadvances.size ▸ Nat.le_add_right ..) hk)
  · rw [executedOn_follow hadvances h.executed, hlimit]
    split <;> exact h.bounded _

theorem History.orderly {p₀ : Proof} {l₀ : StepLimit} (h : History p₀ l₀ p l)
    (horderly : Orderly p₀ l₀) :
    Orderly p l := by
  induction h with
  | refl => exact horderly
  | @ask p l _ g ih => exact ih.ask (answers_allows l p g)
  | pass _ _ ih => exact ih.pass _
  | make _ hgoal hallows _ happly ih => exact (ih.ask (answers_of_allows hallows)).make hgoal happly

/-- **What is kept along a history**: what each event keeps. An application is made after the limit
was asked about the one that was shown, so a significant one is recorded as allowed if it was
announced. -/
theorem History.holds {P : Proof → StepLimit → Prop} {p₀ : Proof} {l₀ : StepLimit}
    (h : History p₀ l₀ p l) (hask : ∀ {p l g allowed l'}, Orderly p l → P p l →
      Answers l p g allowed l' → P p l')
    (hpass : ∀ {p l g}, P p l → (p.nextApp g).1 = none → P (p.nextApp g).2 l)
    (hmake : ∀ {p q l g goal app new}, Orderly p l → P p l → p.goal? g = some goal →
      (l.significance.holds app → l.decided.get? goal.node = some true) →
      (p.nextApp g).2.apply g app = (.ok new, q) → P q (l.follow q ⟨g, goal.node, app, new⟩))
    (horderly : Orderly p₀ l₀) (hannounces : p₀.Announces l₀.significance) (hP : P p₀ l₀) :
    p.Announces l.significance ∧ P p l := by
  induction h with
  | refl => exact ⟨hannounces, hP⟩
  | @ask p l h g ih =>
    have hanswers := answers_allows l p g
    exact ⟨hanswers.same.2 ▸ ih.1, hask (h.orderly horderly) ih.2 hanswers⟩
  | pass _ hnone ih => exact ⟨ih.1.nextApp _, hpass ih.2 hnone⟩
  | @make p q l l' g goal app new h hgoal hallows happ happly ih =>
    have hanswers := answers_of_allows hallows
    have horderly' := h.orderly horderly
    have hq : q = ((p.nextApp g).2.apply g app).2 := by rw [happly]
    obtain ⟨-, hsignificance, -⟩ := follow_same l' q ⟨g, goal.node, app, new⟩
    refine ⟨?_, hmake (horderly'.ask hanswers) (hask horderly' ih.2 hanswers) hgoal ?_ happly⟩
    · rw [hsignificance, hanswers.same.2, hq]
      exact (ih.1.nextApp g).apply (horderly'.tree.nextApp g) g app
    · intro hsignificant
      refine hanswers.decided hgoal ?_
      rw [hanswers.same.2] at hsignificant ⊢
      exact ih.1.peek? hgoal happ hsignificant

/-! ## Counts are not too small -/

/-- **The limit knows of every significant application below a node.** -/
structure Meters (i : NodeId) (p : Proof) (l : StepLimit) : Prop where
  /-- the node is there -/
  start : i < p.nodes.size
  /-- no path from the node has more of them than the limit -/
  path : ∀ k n, Proof.Descends p.nodes l.significance.holds i k n →
    n + (Proof.carries p.nodes l.significance.holds k).toNat ≤ l.limit
  /-- those on the path to a goal, and the one that is allowed to be made on it, are counted -/
  goals : ∀ g goal n, p.goal? g = some goal →
  Proof.Descends p.nodes l.significance.holds i goal.node n →
    n + (l.decided.get? goal.node == some true).toNat ≤ l.executedOn g

theorem Meters.ask (h : Meters i p l) (horderly : Orderly p l)
    (hanswers : Answers l p g allowed l') :
    Meters i p l' := by
  cases hanswers with
  | free _ => exact h
  | again _ _ _ => exact h
  | @counted goal hgoal _ hopen _ =>
    refine ⟨h.start, h.path, fun k goal' n hk hdescends => ?_⟩
    have hcount := h.goals k goal' n hk hdescends
    rw [executedOn_insert, IdTable.get?_insert]
    by_cases hne : k = g
    · subst hne
      cases hgoal.symm.trans hk
      rw [hopen] at hcount
      simpa using hcount
    · have hnode : goal'.node ≠ goal.node :=
        fun heq => hne (horderly.tree.goal_inj k g _ _ hk hgoal heq)
      rw [if_neg hne, if_neg hnode]
      exact hcount
  | @refused goal hgoal _ hopen =>
    refine ⟨h.start, h.path, fun k goal' n hk hdescends => ?_⟩
    have hcount := h.goals k goal' n hk hdescends
    rw [IdTable.get?_insert]
    split <;> rename_i hnode
    · rw [hnode, hopen] at hcount
      exact hcount
    · exact hcount

theorem Meters.pass (h : Meters i p l) (g : GoalId) : Meters i (p.nextApp g).2 l := by
  have hnodes := (Proof.nextApp_keeps p g).2.2.2.1
  refine ⟨hnodes ▸ h.start, hnodes ▸ h.path, fun k goal' n hk hdescends => ?_⟩
  obtain ⟨goal, hgoal, -, queue, rfl⟩ := Proof.goal_of_nextApp hk
  rw [hnodes] at hdescends
  exact h.goals k goal n hgoal hdescends

/-- **A significant application was counted before it is made**, and the new goals take over the
count. -/
theorem Meters.make (h : Meters i p l) (horderly : Orderly p l) (hgoal : p.goal? g = some goal)
    (hdecided : l.significance.holds app → l.decided.get? goal.node = some true)
    (happly : (p.nextApp g).2.apply g app = (.ok new, q)) :
    Meters i q (l.follow q ⟨g, goal.node, app, new⟩) := by
  have hadvances := Proof.advances_of_nextApp horderly.tree hgoal happly
  obtain ⟨hlimit, hsignificance, hsame⟩ := follow_same l q ⟨g, goal.node, app, new⟩
  -- the applications on the path to the leaf, with the new one
  have hleaf : ∀ m, Proof.Descends p.nodes l.significance.holds i goal.node m →
      m + (l.significance.holds app).toNat ≤ l.executedOn g := by
    intro m hdescends
    have hcount := h.goals g goal m hgoal hdescends
    cases hsignificant : l.significance.holds app with
    | false => exact Nat.le_trans (Nat.le_add_right ..) hcount
    | true =>
      rw [hdecided hsignificant] at hcount
      exact hcount
  refine ⟨Nat.lt_of_lt_of_le h.start (hadvances.size ▸ Nat.le_add_right ..), ?_, ?_⟩
  · intro k n hdescends
    rw [hsignificance] at hdescends ⊢
    rw [hlimit, hadvances.carries_eq]
    rcases hadvances.descends horderly.tree hgoal hdescends with hold | ⟨hle, m, hm, rfl⟩
    · split <;> rename_i hk
      · exact Nat.le_trans (hleaf n (hk ▸ hold)) (horderly.bounded g)
      · exact h.path k n hold
    · have hk : k ≠ goal.node := Nat.ne_of_gt (Nat.lt_of_lt_of_le (horderly.tree.node_lt hgoal) hle)
      have hnone : Proof.carries p.nodes l.significance.holds k = false := by
        rw [Proof.carries, Array.getElem?_eq_none hle]
        rfl
      rw [if_neg hk, hnone]
      exact Nat.le_trans (hleaf m hm) (horderly.bounded g)
  · intro k goal' n hk hdescends
    rw [hsignificance] at hdescends
    rw [hsame, executedOn_follow hadvances horderly.executed]
    have hcases := hadvances.descends horderly.tree hgoal hdescends
    rcases hadvances.goal_cases hk with hnew | ⟨hnot, -, hold⟩
    · obtain ⟨node, s, hle, hget⟩ := hadvances.successor k hnew
      cases hk.symm.trans hget
      -- the new node was not below anything before
      have hbefore : ¬Proof.Descends p.nodes l.significance.holds i node n :=
        fun hbefore => Nat.not_lt_of_le hle (hbefore.lt_size horderly.tree h.start)
      obtain ⟨-, m, hm, rfl⟩ := hcases.resolve_left hbefore
      have hopen : l.decided.get? (p.successorGoal goal app node s).node = none :=
        horderly.decided node hle
      rw [if_pos hnew, hopen]
      exact hleaf m hm
    · have hlt := horderly.tree.node_lt hold
      rw [if_neg hnot]
      exact h.goals k goal' n hold (hcases.resolve_right fun hright =>
        Nat.not_lt_of_le hright.1 hlt)

/-! ## Decisions stand -/

/-- **The answer that was given about a goal at a node, and its count, stand** as long as the goal
is there. -/
structure Stands (g : GoalId) (goal : Goal) (allowed : Bool) (count : Nat) (p : Proof)
    (l : StepLimit) :
    Prop where
  /-- the node is there -/
  node_lt : goal.node < p.nodes.size
  /-- the number of the goal was handed out -/
  goal_lt : g < p.nextGoal
  /-- a step that is not significant is allowed -/
  free : goal.peek?.any l.significance.holds = false → allowed = true
  /-- as long as the goal is at its node, its next step and its count stay the same, and so does the
  decision about a significant step -/
  stays : ∀ goal', p.goal? g = some goal' → goal'.node = goal.node → goal'.peek? = goal.peek? ∧
    l.executedOn g = count ∧
    (goal.peek?.any l.significance.holds → l.decided.get? goal.node = some allowed)

theorem stands_of_answers (horderly : Orderly p l) (hgoal : p.goal? g = some goal)
    (hanswers : Answers l p g allowed l') : Stands g goal allowed (l'.executedOn g) p l' := by
  have hlt := horderly.tree.node_lt hgoal
  have hnumber := horderly.tree.goal_lt g goal hgoal
  cases hanswers with
  | free hfree =>
    refine ⟨hlt, hnumber, fun _ => rfl, fun goal' hgoal' _ => ?_⟩
    cases hgoal.symm.trans hgoal'
    refine ⟨rfl, rfl, fun hsignificant => ?_⟩
    rw [hfree goal hgoal] at hsignificant
    cases hsignificant
  | again hgoal₁ hsignificant hdecided =>
    cases hgoal.symm.trans hgoal₁
    refine ⟨hlt, hnumber, fun hfree => ?_, fun goal' hgoal' _ => ?_⟩
    · rw [hfree] at hsignificant
      cases hsignificant
    · cases hgoal.symm.trans hgoal'
      exact ⟨rfl, rfl, fun _ => hdecided⟩
  | counted hgoal₁ _ _ _ =>
    cases hgoal.symm.trans hgoal₁
    refine ⟨hlt, hnumber, fun _ => rfl, fun goal' hgoal' _ => ?_⟩
    cases hgoal.symm.trans hgoal'
    exact ⟨rfl, rfl, fun _ => by rw [IdTable.get?_insert, if_pos rfl]⟩
  | refused hgoal₁ hsignificant _ =>
    cases hgoal.symm.trans hgoal₁
    refine ⟨hlt, hnumber, fun hfree => ?_, fun goal' hgoal' _ => ?_⟩
    · have hsignificant' : goal.peek?.any l.significance.holds := hsignificant
      rw [hfree] at hsignificant'
      cases hsignificant'
    · cases hgoal.symm.trans hgoal'
      exact ⟨rfl, rfl, fun _ => by rw [IdTable.get?_insert, if_pos rfl]⟩

variable {count : Nat}

/-- What is asked about other goals does not matter, and asking again changes nothing. -/
theorem Stands.ask (h : Stands g goal allowed count p l) (horderly : Orderly p l) {b : Bool}
    (hanswers : Answers l p k b l') : Stands g goal allowed count p l' := by
  -- a decision that is new is one about another goal
  have hother : ∀ {goal₁ goal'}, p.goal? k = some goal₁ → goal₁.peek?.any l.significance.holds →
      l.decided.get? goal₁.node = none → p.goal? g = some goal' → goal'.node = goal.node →
      g ≠ k ∧ goal.node ≠ goal₁.node := by
    intro goal₁ goal' hgoal₁ hsignificant hopen hgoal' hnode
    have hne : g ≠ k := by
      rintro rfl
      cases hgoal₁.symm.trans hgoal'
      obtain ⟨hpeek, -, hdecided⟩ := h.stays goal₁ hgoal₁ hnode
      rw [hpeek] at hsignificant
      rw [hnode, hdecided hsignificant] at hopen
      cases hopen
    exact ⟨hne, fun heq => hne (horderly.tree.goal_inj g k _ _ hgoal' hgoal₁ (hnode.trans heq))⟩
  cases hanswers with
  | free _ => exact h
  | again _ _ _ => exact h
  | counted hgoal₁ hsignificant hopen _ =>
    refine ⟨h.node_lt, h.goal_lt, h.free, fun goal' hgoal' hnode => ?_⟩
    obtain ⟨hne, hnode'⟩ := hother hgoal₁ hsignificant hopen hgoal' hnode
    obtain ⟨hpeek, hcount, hdecided⟩ := h.stays goal' hgoal' hnode
    refine ⟨hpeek, ?_, fun hsignificant => ?_⟩
    · rw [executedOn_insert, if_neg hne]
      exact hcount
    · rw [IdTable.get?_insert, if_neg hnode']
      exact hdecided hsignificant
  | refused hgoal₁ hsignificant hopen =>
    refine ⟨h.node_lt, h.goal_lt, h.free, fun goal' hgoal' hnode => ?_⟩
    obtain ⟨-, hnode'⟩ := hother hgoal₁ hsignificant hopen hgoal' hnode
    obtain ⟨hpeek, hcount, hdecided⟩ := h.stays goal' hgoal' hnode
    refine ⟨hpeek, hcount, fun hsignificant => ?_⟩
    rw [IdTable.get?_insert, if_neg hnode']
    exact hdecided hsignificant

/-- A goal without an application has nothing to show, before and after it is asked. -/
theorem Stands.pass (h : Stands g goal allowed count p l) (happroved : p.Approved)
    (hnone : (p.nextApp k).1 = none) : Stands g goal allowed count (p.nextApp k).2 l := by
  obtain ⟨-, -, -, hnodes, hnext⟩ := Proof.nextApp_keeps p k
  refine ⟨hnodes ▸ h.node_lt, hnext ▸ h.goal_lt, h.free, fun goal' hgoal' hnode => ?_⟩
  obtain ⟨goal₁, hgoal₁, -, queue, rfl⟩ := Proof.goal_of_nextApp hgoal'
  obtain ⟨hpeek, hrest⟩ := h.stays goal₁ hgoal₁ hnode
  refine ⟨?_, hrest⟩
  by_cases hne : g = k
  · subst hne
    rw [← hpeek, ← happroved.nextApp_eq hgoal₁, hnone, ← (happroved.nextApp g).nextApp_eq hgoal']
    exact Proof.nextApp_nextApp_of_none hnone
  · rw [Proof.goal?_nextApp_of_ne hne, hgoal₁] at hgoal'
    rw [← Option.some.inj hgoal']
    exact hpeek

/-- A step on the goal moves it, and one on another goal changes nothing for it. -/
theorem Stands.make (h : Stands g goal allowed count p l) (horderly : Orderly p l) {goal₁ : Goal}
    (hgoal₁ : p.goal? k = some goal₁) (happly : (p.nextApp k).2.apply k app = (.ok new, q)) :
    Stands g goal allowed count q (l.follow q ⟨k, goal₁.node, app, new⟩) := by
  have hadvances := Proof.advances_of_nextApp horderly.tree hgoal₁ happly
  obtain ⟨-, hsignificance, hdecided⟩ := follow_same l q ⟨k, goal₁.node, app, new⟩
  refine ⟨Nat.lt_of_lt_of_le h.node_lt (hadvances.size ▸ Nat.le_add_right ..),
    Nat.lt_of_lt_of_le h.goal_lt (hadvances.nextGoal ▸ Nat.le_add_right ..), hsignificance ▸ h.free,
    fun goal' hgoal' hnode => ?_⟩
  rcases hadvances.goal_cases hgoal' with hnew | ⟨hnot, -, hold⟩
  · obtain ⟨node, s, hle, hget⟩ := hadvances.successor g hnew
    cases hgoal'.symm.trans hget
    have hlt : node < p.nodes.size := Nat.lt_of_le_of_lt (Nat.le_of_eq hnode) h.node_lt
    exact absurd hlt (Nat.not_lt_of_le hle)
  · rw [executedOn_follow hadvances horderly.executed, if_neg hnot, hsignificance, hdecided]
    exact h.stays goal' hold hnode

/-- Asking again gives the answer that stands. -/
theorem Stands.allows (h : Stands g goal allowed count p l) (hgoal : p.goal? g = some goal')
    (hnode : goal'.node = goal.node) : l.allows p g = (allowed, l) ∧ l.executedOn g = count := by
  obtain ⟨hpeek, hcount, hdecided⟩ := h.stays goal' hgoal hnode
  refine ⟨?_, hcount⟩
  rw [StepLimit.allows, hgoal]
  simp only [hpeek, hnode]
  split <;> rename_i hsignificant
  · rw [hdecided hsignificant]
  · rw [h.free (Bool.eq_false_iff.mpr hsignificant)]

/-- A limit after it was asked about goals of a proof, any number of times. -/
def Probed (p : Proof) : StepLimit → StepLimit → Prop :=
  Relation.ReflTransGen fun l l' => ∃ k, l' = (l.allows p k).2

/-- **Asking again about a goal that has not moved gives the same answer and counts nothing**,
whatever happened in between, if the strategy is steady. -/
theorem History.allows_again {p₁ p₂ : Proof} {l₁ l₂ : StepLimit} {goal₂ : Goal}
    (horderly : Orderly p₁ l₁) (happroved : p₁.Approved) (hgoal : p₁.goal? g = some goal)
    (h : History p₁ (l₁.allows p₁ g).2 p₂ l₂) (hgoal₂ : p₂.goal? g = some goal₂)
    (hnode : goal₂.node = goal.node) : l₂.allows p₂ g = ((l₁.allows p₁ g).1, l₂) ∧
      l₂.executedOn g = (l₁.allows p₁ g).2.executedOn g := by
  have hanswers := answers_allows l₁ p₁ g
  obtain ⟨-, -, hstands⟩ := h.holds
    (P := fun p l => p.Approved ∧
      Stands g goal (l₁.allows p₁ g).1 ((l₁.allows p₁ g).2.executedOn g) p l)
    (fun horderly hstands hanswers => ⟨hstands.1, hstands.2.ask horderly hanswers⟩)
    (fun hstands hnone => ⟨hstands.1.nextApp _, hstands.2.pass hstands.1 hnone⟩)
    (fun horderly hstands hgoal _ happly =>
      ⟨hstands.1.make horderly.tree happly, hstands.2.make horderly hgoal happly⟩)
    (horderly.ask hanswers) ⟨happroved.priced, .inr happroved.steady⟩
    ⟨happroved, stands_of_answers horderly hgoal hanswers⟩
  exact hstands.allows hgoal₂ hnode

/-! ## From the start of a search -/

end StepLimit

end SequentSearch
