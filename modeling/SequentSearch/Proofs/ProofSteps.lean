import Mathlib.Data.List.TakeWhile
import SequentSearch.Proof.Apply
import SequentSearch.Proofs.Execution

/-!
# What a step does to a proof

A step on a goal has one of three outcomes, and `Proof.apply_cases` says what each of them leaves:

* it fails, and nothing changes but the names in use;
* it closes the goal: the goal goes, and nodes are closed from its leaf upwards;
* it splits the goal: the leaf gets one child for each successor, the first of which takes over the
  goal (`Proof.Splits`).

Asking for the next application changes the queue of a goal and nothing else
(`Proof.nextApp_cases`). All invariants of runs are derived from these facts.
-/

namespace SequentSearch

/-! ## Tables -/

namespace IdTable

variable {α : Type} {t : IdTable α} {i j : Nat}

theorem lookup_cons (k : Nat) (a : α) (entries : List (Nat × α)) (j : Nat) :
    ((k, a) :: entries).lookup j = if j = k then some a else entries.lookup j := by
  rw [List.lookup_cons]
  by_cases h : j = k
  · simp [h]
  · rw [beq_false_of_ne h, if_neg h]

theorem lookup_insertSorted (i : Nat) (a : α) (entries : List (Nat × α)) (j : Nat) :
    (insertSorted i a entries).lookup j = if j = i then some a else entries.lookup j := by
  induction entries with
  | nil => exact lookup_cons i a [] j
  | cons e entries ih =>
    obtain ⟨k, b⟩ := e
    rw [insertSorted]
    split
    · exact lookup_cons i a _ j
    · split <;> rename_i heq
      · obtain rfl : i = k := heq
        rw [lookup_cons, lookup_cons]
        by_cases h : j = i <;> simp [h]
      · have hne : i ≠ k := heq
        rw [lookup_cons, lookup_cons, ih]
        by_cases h : j = k
        · subst h
          rw [if_pos rfl, if_neg (Ne.symm hne), if_pos rfl]
        · rw [if_neg h, if_neg h]

@[simp] theorem get?_insert (t : IdTable α) (i : Nat) (a : α) (j : Nat) :
    (t.insert i a).get? j = if j = i then some a else t.get? j :=
  lookup_insertSorted i a t.entries j

@[simp] theorem get?_erase (t : IdTable α) (i j : Nat) :
    (t.erase i).get? j = if j = i then none else t.get? j := by
  obtain ⟨entries⟩ := t
  unfold erase get?
  induction entries with
  | nil => simp
  | cons e entries ih =>
    obtain ⟨k, b⟩ := e
    by_cases hk : k = i
    · subst hk
      rw [List.filter_cons_of_neg (by simp), ih, lookup_cons]
      by_cases h : j = k <;> simp [h]
    · rw [List.filter_cons_of_pos (by simpa using hk), lookup_cons, lookup_cons, ih]
      by_cases h : j = k
      · subst h
        rw [if_pos rfl, if_neg hk, if_pos rfl]
      · rw [if_neg h, if_neg h]

@[simp] theorem get?_modify (t : IdTable α) (i : Nat) (f : α → α) (j : Nat) :
    (t.modify i f).get? j = if j = i then (t.get? j).map f else t.get? j := by
  obtain ⟨entries⟩ := t
  simp only [modify, get?]
  induction entries with
  | nil => simp
  | cons e entries ih =>
    obtain ⟨k, b⟩ := e
    rw [List.map_cons]
    by_cases hk : k = i
    · subst hk
      rw [if_pos rfl, lookup_cons, lookup_cons, ih]
      by_cases h : j = k <;> simp [h]
    · rw [if_neg hk, lookup_cons, lookup_cons, ih]
      by_cases h : j = k
      · subst h
        rw [if_pos rfl, if_neg hk, if_pos rfl]
      · rw [if_neg h, if_neg h]

@[simp] theorem get?_map (t : IdTable α) (f : α → α) (j : Nat) :
    (t.map f).get? j = (t.get? j).map f := by
  obtain ⟨entries⟩ := t
  simp only [map, get?]
  induction entries with
  | nil => rfl
  | cons e entries ih =>
    rw [List.map_cons, lookup_cons, lookup_cons, ih]
    split <;> rfl

end IdTable

namespace RuleApp

/-- Executing an application, successfully or not, takes names into use and gives none back. -/
theorem execute_grows {app : RuleApp} {seq : Sequent} {ns ns' : NameSupply}
    {result : Except ExecError (List Successor)} (h : app.execute seq ns = (result, ns')) :
    ∀ n ∈ ns.used, n ∈ ns'.used := by
  unfold execute at h
  split at h
  · split at h
    · cases h
      exact fun n hn => hn
    · obtain ⟨-, hns⟩ := Prod.mk.injEq .. ▸ h
      subst hns
      exact (drawConstants_spec rfl).grows
  · cases h
    exact fun n hn => hn

end RuleApp

namespace Proof

variable {p q : Proof} {g : GoalId} {goal : Goal} {app : RuleApp}

/-! ## Splitting a goal -/

/-- **What splitting a goal does.** The entries are the successors with the numbers of their
goals. -/
structure Splits (p q : Proof) (goal : Goal) (app : RuleApp) (entries : List (GoalId × Successor)) :
    Prop where
  /-- there is a new node for each successor -/
  size : q.nodes.size = p.nodes.size + entries.length
  /-- the new nodes are children of the leaf -/
  leaf : ∀ n, p.nodes[goal.node]? = some n → q.nodes[goal.node]? =
    some { n with children := n.children ++ List.range' p.nodes.size entries.length }
  /-- other nodes stay as they are -/
  other : ∀ i, i ≠ goal.node → i < p.nodes.size → q.nodes[i]? = p.nodes[i]?
  /-- what the new nodes are -/
  child : ∀ k e, entries[k]? = some e → q.nodes[p.nodes.size + k]? =
    some { parent := some goal.node, sequent := e.2.change.sequent, label := e.2.label }
  /-- a goal is an old one or that of a new node -/
  goal_cases : ∀ {h goal'}, q.goal? h = some goal' →
    (p.goal? h = some goal' ∧ ∀ e ∈ entries, e.1 ≠ h) ∨
      ∃ k e, entries[k]? = some e ∧ e.1 = h ∧
        goal' = p.successorGoal goal app (p.nodes.size + k) e.2
  /-- each new node has its goal -/
  goal_new : (entries.map Prod.fst).Nodup → ∀ k e, entries[k]? = some e →
    q.goal? e.1 = some (p.successorGoal goal app (p.nodes.size + k) e.2)
  /-- goals of other numbers stay as they are -/
  goal_old : ∀ h, (∀ e ∈ entries, e.1 ≠ h) → q.goal? h = p.goal? h
  /-- the rules stay the same -/
  base : q.base = p.base
  /-- so does the strategy -/
  strategy : q.strategy = p.strategy
  /-- and the names in use -/
  names : q.names = p.names

theorem splits_nil (p : Proof) (goal : Goal) (app : RuleApp) : Splits p p goal app [] where
  size := rfl
  leaf n hn := by simpa using hn
  other _ _ _ := rfl
  child _ _ h := (nomatch h)
  goal_cases h := .inl ⟨h, fun _ he => (nomatch he)⟩
  goal_new _ _ _ h := (nomatch h)
  goal_old _ _ := rfl
  base := rfl
  strategy := rfl
  names := rfl

theorem goal?_addSuccessor (p : Proof) (goal : Goal) (app : RuleApp) (e : GoalId × Successor)
    (h : GoalId) : (addSuccessor goal app p e).goal? h =
      if h = e.1 then some (p.successorGoal goal app p.nodes.size e.2) else p.goal? h :=
  IdTable.get?_insert ..

theorem nodes_addSuccessor (hlt : goal.node < p.nodes.size) (e : GoalId × Successor) (i : Nat) :
    (addSuccessor goal app p e).nodes[i]? =
      if i = p.nodes.size then
        some { parent := some goal.node, sequent := e.2.change.sequent, label := e.2.label }
      else if i = goal.node then
        p.nodes[i]?.map fun n => { n with children := n.children ++ [p.nodes.size] }
      else p.nodes[i]? := by
  show ((p.nodes.push _).modify goal.node _)[i]? = _
  rw [Array.getElem?_modify, Array.getElem?_push]
  by_cases hi : i = p.nodes.size
  · have hne : ¬goal.node = i := fun h => Nat.lt_irrefl _ (hi ▸ h ▸ hlt)
    rw [if_neg hne, if_pos hi, if_pos hi]
  · by_cases hleaf : i = goal.node
    · subst hleaf
      simp [hi]
    · simp [hi, hleaf, Ne.symm hleaf]

theorem size_addSuccessor (p : Proof) (goal : Goal) (app : RuleApp) (e : GoalId × Successor) :
    (addSuccessor goal app p e).nodes.size = p.nodes.size + 1 := by
  simp [addSuccessor]

/-- Adding one more successor in front. -/
theorem Splits.cons {e : GoalId × Successor} {entries : List (GoalId × Successor)}
    (hlt : goal.node < p.nodes.size)
    (h : Splits (addSuccessor goal app p e) q goal app entries) :
    Splits p q goal app (e :: entries) := by
  have hsize := size_addSuccessor p goal app e
  -- the rules and the strategy do not change, so the goals of successors are the same
  have hgoal : ∀ k s, (addSuccessor goal app p e).successorGoal goal app (p.nodes.size + 1 + k) s =
      p.successorGoal goal app (p.nodes.size + (k + 1)) s := by
    intro k s
    rw [Nat.add_assoc, Nat.add_comm 1 k]
    rfl
  constructor
  · rw [h.size, hsize, List.length_cons]
    omega
  · intro n hn
    have hn' : (addSuccessor goal app p e).nodes[goal.node]? =
        some { n with children := n.children ++ [p.nodes.size] } := by
      rw [nodes_addSuccessor hlt, if_neg (Nat.ne_of_lt hlt), if_pos rfl, hn]
      rfl
    rw [h.leaf _ hn', hsize, List.length_cons, List.range'_succ, List.append_assoc]
    rfl
  · intro i hne hi
    rw [h.other i hne (hsize ▸ Nat.lt_succ_of_lt hi), nodes_addSuccessor hlt,
      if_neg (Nat.ne_of_lt hi), if_neg hne]
  · intro k e' he'
    cases k with
    | zero =>
      obtain rfl : e = e' := Option.some.inj he'
      rw [Nat.add_zero, h.other _ (Nat.ne_of_gt hlt) (hsize ▸ Nat.lt_succ_self _),
        nodes_addSuccessor hlt, if_pos rfl]
    | succ k =>
      have hk := h.child k e' he'
      rw [hsize, Nat.add_assoc, Nat.add_comm 1 k] at hk
      exact hk
  · intro i goal' hgoal'
    rcases h.goal_cases hgoal' with ⟨hold, hids⟩ | ⟨k, e', he', hid, rfl⟩
    · rw [goal?_addSuccessor] at hold
      split at hold <;> rename_i hi
      · cases hold
        exact .inr ⟨0, e, rfl, hi.symm, rfl⟩
      · exact .inl ⟨hold, List.forall_mem_cons.mpr ⟨Ne.symm hi, hids⟩⟩
    · refine .inr ⟨k + 1, e', he', hid, ?_⟩
      rw [hsize, hgoal]
  · intro hnodup k e' he'
    obtain ⟨hnot, hnodup⟩ := List.nodup_cons.mp hnodup
    cases k with
    | zero =>
      obtain rfl : e = e' := Option.some.inj he'
      have hids : ∀ e' ∈ entries, e'.1 ≠ e.1 := by
        intro e' he' heq
        exact hnot (heq ▸ List.mem_map_of_mem he')
      rw [h.goal_old _ hids, goal?_addSuccessor, if_pos rfl]
      rfl
    | succ k =>
      rw [h.goal_new hnodup k e' he', hsize, hgoal]
  · intro i hi
    obtain ⟨hne, hi⟩ := List.forall_mem_cons.mp hi
    rw [h.goal_old i hi, goal?_addSuccessor, if_neg (Ne.symm hne)]
  · exact h.base
  · exact h.strategy
  · exact h.names

/-- **Adding the goals for all successors, one after another.** -/
theorem splits_foldl (hlt : goal.node < p.nodes.size) (entries : List (GoalId × Successor)) :
    Splits p (entries.foldl (addSuccessor goal app) p) goal app entries := by
  induction entries generalizing p with
  | nil => exact splits_nil p goal app
  | cons e entries ih =>
    refine Splits.cons hlt (ih ?_)
    rw [size_addSuccessor]
    exact Nat.lt_succ_of_lt hlt

/-! ## The three outcomes of a step -/

/-- The numbers of the goals that take the place of a goal: its own, then new ones. -/
def splitIds (p : Proof) (g : GoalId) (succs : List Successor) : List GoalId :=
  g :: List.range' p.nextGoal (succs.length - 1)

/-- **What a step on a goal leads to.** -/
inductive Applied (p : Proof) (g : GoalId) (app : RuleApp) : Proof → Prop where
  /-- it fails, and at most takes names into use -/
  | failed {names : NameSupply} (hnames : ∀ n ∈ p.names.used, n ∈ names.used) :
      Applied p g app { p with names := names }
  /-- it closes the goal -/
  | closed {goal : Goal} {names : NameSupply} (hgoal : p.goal? g = some goal)
      (hexec : app.execute goal.sequent p.names = (.ok [], names)) :
      Applied p g app (({ p with names := names }.recordApp goal.node app).close g goal)
  /-- it splits the goal -/
  | split {goal : Goal} {names : NameSupply} {succs : List Successor}
      (hgoal : p.goal? g = some goal)
      (hexec : app.execute goal.sequent p.names = (.ok succs, names)) (hne : succs ≠ []) :
      Applied p g app (({ p with names := names }.recordApp goal.node app).split g goal app succs).2

/-- **Every step has one of the three outcomes.** -/
theorem apply_cases (p : Proof) (g : GoalId) (app : RuleApp) :
    Applied p g app (p.apply g app).2 := by
  unfold Proof.apply
  split <;> rename_i hgoal
  · exact .failed fun n hn => hn
  · rename_i goal
    rcases hexec : app.execute goal.sequent p.names with ⟨result, names⟩
    simp only
    split
    · exact .failed (RuleApp.execute_grows hexec)
    · exact .closed hgoal hexec
    · rename_i succs hne
      exact .split hgoal hexec hne

/-- An application without successors closes the goal. -/
theorem apply_eq_close {names : NameSupply} (hgoal : p.goal? g = some goal)
    (hexec : app.execute goal.sequent p.names = (.ok [], names)) :
    p.apply g app = (.ok [], ({ p with names := names }.recordApp goal.node app).close g goal) := by
  rw [Proof.apply, hgoal]
  simp only [hexec]

/-- An application with successors splits the goal. -/
theorem apply_eq_split {names : NameSupply} {succs : List Successor} (hgoal : p.goal? g = some goal)
    (hexec : app.execute goal.sequent p.names = (.ok succs, names)) (hne : succs ≠ []) :
    p.apply g app = (.ok (splitIds ({ p with names := names }.recordApp goal.node app) g succs),
      (({ p with names := names }.recordApp goal.node app).split g goal app succs).2) := by
  obtain ⟨s, rest, rfl⟩ := List.exists_cons_of_ne_nil hne
  rw [Proof.apply, hgoal]
  simp only [hexec]
  rfl

/-- Asking for the next application changes the queue of a goal and nothing else. What is handed out
comes from the queue, and the strategy approves of it. -/
theorem nextApp_cases (p : Proof) (g : GoalId) :
    p.nextApp g = (none, p) ∨ ∃ goal queue, p.goal? g = some goal ∧
      (∀ e ∈ queue.entries, e ∈ goal.queue.get.entries) ∧
      (p.nextApp g).2 = { p with goals := p.goals.insert g { goal with queue := .pure queue } } ∧
      ∀ app, (p.nextApp g).1 = some app →
        p.strategy.approves goal.context app ∧ ∃ cost, (cost, app) ∈ goal.queue.get.entries := by
  unfold Proof.nextApp
  split <;> rename_i hgoal
  · exact .inl rfl
  · rename_i goal
    refine .inr ⟨goal, _, hgoal, ?_, rfl, ?_⟩
    · intro e he
      exact (List.dropWhile_sublist _).subset (List.mem_of_mem_tail he)
    · intro app happ
      obtain ⟨e, he, rfl⟩ := Option.map_eq_some_iff.mp happ
      have hhead : (goal.queue.get.entries.dropWhile
          fun e => !p.strategy.approves goal.context e.2).head? = some e := he
      refine ⟨?_, e.1, (List.dropWhile_sublist _).subset (List.mem_of_mem_head? hhead)⟩
      have hpass := List.head?_dropWhile_not (fun e => !p.strategy.approves goal.context e.2)
        goal.queue.get.entries
      rw [hhead] at hpass
      simpa using hpass

/-- If no application is handed out then the strategy approves of none in the queue. -/
theorem approves_of_nextApp_eq_none (hgoal : p.goal? g = some goal)
    (hnone : (p.nextApp g).1 = none) :
    ∀ e ∈ goal.queue.get.entries, p.strategy.approves goal.context e.2 = false := by
  have hrest : (goal.queue.get.entries.dropWhile fun e =>
      !p.strategy.approves goal.context e.2) = [] := by
    rw [Proof.nextApp, hgoal] at hnone
    exact List.head?_eq_none_iff.mp (Option.map_eq_none_iff.mp hnone)
  intro e he
  simpa using List.dropWhile_eq_nil_iff.mp hrest e he

end Proof

end SequentSearch
