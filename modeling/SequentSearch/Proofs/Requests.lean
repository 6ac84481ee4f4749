import SequentSearch.Proofs.ProofTree

/-!
# Requests

Whoever works on a proof makes **requests**: to apply an application, automatically or by hand, to
hand out the next application for a goal or only to show it, to keep search from a goal, to change
the strategy. Requests come in any order and on any goals, open or not, and any of them may fail.

A request makes a step, or it leaves everything as it is but the queues of goals, their flags and
the strategy (`Proof.perform_cases`). So what holds of a proof at the start holds after any requests
if steps keep it and it does not depend on the latter (`Proof.holds_after`).
-/

namespace SequentSearch

namespace Proof

variable {p q : Proof}

/-- What can be asked of a proof. -/
inductive Request where
  /-- apply an application to a goal -/
  | apply (g : GoalId) (app : RuleApp)
  /-- apply an application that was chosen by hand to a goal -/
  | applyInteractive (g : GoalId) (app : RuleApp)
  /-- take the next application from the queue of a goal -/
  | nextApp (g : GoalId)
  /-- look at the next application in the queue of a goal -/
  | peek (g : GoalId)
  /-- let automatic search work on a goal, or keep it from doing so -/
  | setAutomatic (g : GoalId) (automatic : Bool)
  /-- rank applications by another strategy -/
  | setStrategy (strategy : Strategy)

/-- The proof after a request, whether or not it could be met. -/
def perform (p : Proof) : Request → Proof
  | .apply g app => (p.apply g app).2
  | .applyInteractive g app => (p.applyInteractive g app).2
  | .nextApp g => (p.nextApp g).2
  -- the queue is a delayed value, and looking at it does not change it
  | .peek _ => p
  | .setAutomatic g automatic => (p.setAutomatic g automatic).2
  | .setStrategy strategy => p.setStrategy strategy

/-- The proof after some requests. -/
def after (p : Proof) (requests : List Request) : Proof := requests.foldl perform p

/-- A goal stays the same apart from its queue and its flag. -/
structure SameState (goal goal' : Goal) : Prop where
  /-- its leaf, its sequent and its steps stay the same -/
  same : SameGoal goal goal'
  /-- and so does its index -/
  index : goal'.index = goal.index

/-- **A proof stays the same** apart from the queues and the flags of its goals, and the
strategy. -/
structure Keeps (p q : Proof) : Prop where
  /-- the nodes stay the same -/
  nodes : q.nodes = p.nodes
  /-- the goals do, apart from their queues and flags -/
  goals : ∀ g, (p.goal? g = none ∧ q.goal? g = none) ∨
    ∃ goal goal', p.goal? g = some goal ∧ q.goal? g = some goal' ∧ SameState goal goal'
  /-- so does the list of the open goals -/
  openGoals : q.openGoals = p.openGoals
  /-- and the number of the next new goal -/
  nextGoal : q.nextGoal = p.nextGoal
  /-- and the rules -/
  base : q.base = p.base

theorem keeps_of_goals {goals : IdTable Goal} {strategy : Strategy}
    (h : ∀ g, (p.goal? g = none ∧ goals.get? g = none) ∨
      ∃ goal goal', p.goal? g = some goal ∧ goals.get? g = some goal' ∧ SameState goal goal') :
    Keeps p { p with goals := goals, strategy := strategy } :=
  ⟨rfl, h, rfl, rfl, rfl⟩

theorem sameState_refl (p : Proof) (g : GoalId) : (p.goal? g = none ∧ p.goal? g = none) ∨
    ∃ goal goal', p.goal? g = some goal ∧ p.goal? g = some goal' ∧ SameState goal goal' := by
  cases hg : p.goal? g with
  | none => exact .inl ⟨rfl, rfl⟩
  | some goal => exact .inr ⟨goal, goal, rfl, rfl, ⟨rfl, rfl, rfl⟩, rfl⟩

theorem keeps_refl (p : Proof) : Keeps p p := keeps_of_goals (sameState_refl p)

theorem Keeps.trans {r : Proof} (h : Keeps p q) (h' : Keeps q r) : Keeps p r where
  nodes := h'.nodes.trans h.nodes
  goals g := by
    rcases h.goals g with ⟨hp, hq⟩ | ⟨goal, goal', hp, hq, hsame⟩
    · rcases h'.goals g with ⟨-, hr⟩ | ⟨goal₁, -, hq', -⟩
      · exact .inl ⟨hp, hr⟩
      · cases hq.symm.trans hq'
    · rcases h'.goals g with ⟨hq', -⟩ | ⟨goal₁, goal₂, hq', hr, hsame'⟩
      · cases hq.symm.trans hq'
      · cases hq.symm.trans hq'
        obtain ⟨⟨hnode, hsequent, hsteps⟩, hindex⟩ := hsame
        obtain ⟨⟨hnode', hsequent', hsteps'⟩, hindex'⟩ := hsame'
        exact .inr ⟨goal, goal₂, hp, hr, ⟨hnode'.trans hnode, hsequent'.trans hsequent,
          hsteps'.trans hsteps⟩, hindex'.trans hindex⟩
  openGoals := h'.openGoals.trans h.openGoals
  nextGoal := h'.nextGoal.trans h.nextGoal
  base := h'.base.trans h.base

theorem keeps_nextApp (p : Proof) (g : GoalId) : Keeps p (p.nextApp g).2 := by
  rcases nextApp_cases p g with heq | ⟨goal, queue, hgoal, -, heq, -⟩
  · rw [heq]
    exact keeps_refl p
  · rw [heq]
    refine keeps_of_goals fun g' => ?_
    rw [IdTable.get?_insert]
    split <;> rename_i hg'
    · subst hg'
      exact .inr ⟨goal, _, hgoal, rfl, ⟨rfl, rfl, rfl⟩, rfl⟩
    · exact sameState_refl p g'

theorem keeps_setAutomatic (p : Proof) (g : GoalId) (automatic : Bool) :
    Keeps p (p.setAutomatic g automatic).2 := by
  rw [setAutomatic]
  split
  · refine keeps_of_goals fun g' => ?_
    rw [IdTable.get?_modify]
    split
    · cases hg' : p.goal? g' with
      | none => exact .inl ⟨rfl, Option.map_eq_none_iff.mpr hg'⟩
      | some goal =>
        exact .inr ⟨goal, _, rfl, Option.map_eq_some_iff.mpr ⟨goal, hg', rfl⟩, ⟨rfl, rfl, rfl⟩, rfl⟩
    · exact sameState_refl p g'
  · exact keeps_refl p

theorem strategy_setAutomatic (p : Proof) (g : GoalId) (automatic : Bool) :
    (p.setAutomatic g automatic).2.strategy = p.strategy := by
  rw [setAutomatic]
  split <;> rfl

theorem keeps_setStrategy (p : Proof) (strategy : Strategy) : Keeps p (p.setStrategy strategy) := by
  refine keeps_of_goals fun g => ?_
  rw [IdTable.get?_map]
  cases hg : p.goal? g with
  | none => exact .inl ⟨rfl, Option.map_eq_none_iff.mpr hg⟩
  | some goal =>
    exact .inr ⟨goal, _, rfl, Option.map_eq_some_iff.mpr ⟨goal, hg, rfl⟩, ⟨rfl, rfl, rfl⟩, rfl⟩

/-- The goals after one was flagged: it has another flag, and all else is as it was. -/
theorem goal_of_setAutomatic {g k : GoalId} {automatic : Bool} {goal' : Goal}
    (h : (p.setAutomatic g automatic).2.goal? k = some goal') :
    ∃ goal, p.goal? k = some goal ∧ ∃ automatic, goal' = { goal with automatic := automatic } := by
  rw [setAutomatic] at h
  split at h
  · have hget : (p.goals.modify g fun goal => { goal with automatic := automatic }).get? k =
        some goal' := h
    rw [IdTable.get?_modify] at hget
    split at hget
    · obtain ⟨goal, hgoal, rfl⟩ := Option.map_eq_some_iff.mp hget
      exact ⟨goal, hgoal, automatic, rfl⟩
    · exact ⟨goal', hget, _, rfl⟩
  · exact ⟨goal', h, _, rfl⟩

/-- The goals after the strategy was changed: their queues are filled by it. -/
theorem goal_of_setStrategy {k : GoalId} {strategy : Strategy} {goal' : Goal}
    (h : (p.setStrategy strategy).goal? k = some goal') :
    ∃ goal, p.goal? k = some goal ∧ goal' = goal.fill strategy := by
  have hget : (p.goals.map (Goal.fill strategy)).get? k = some goal' := h
  rw [IdTable.get?_map] at hget
  obtain ⟨goal, hgoal, rfl⟩ := Option.map_eq_some_iff.mp hget
  exact ⟨goal, hgoal, rfl⟩

/-- **A request makes a step, or it leaves the proof as it is** apart from queues, flags and the
strategy. -/
theorem perform_cases (p : Proof) (r : Request) :
    (∃ g app, p.perform r = (p.apply g app).2) ∨ Keeps p (p.perform r) := by
  cases r with
  | apply g app => exact .inl ⟨g, app, rfl⟩
  | applyInteractive g app =>
    rw [perform, applyInteractive]
    split
    · exact .inl ⟨g, app, rfl⟩
    · exact .inr (keeps_refl p)
  | nextApp g => exact .inr (keeps_nextApp p g)
  | peek g => exact .inr (keeps_refl p)
  | setAutomatic g automatic => exact .inr (keeps_setAutomatic p g automatic)
  | setStrategy strategy => exact .inr (keeps_setStrategy p strategy)

/-- **What holds after any requests**: what holds at the start, is kept by steps, and does not
depend on queues, flags and the strategy. -/
theorem holds_after {P : Proof → Prop} (happly : ∀ p g app, P p → P (p.apply g app).2)
    (hkeeps : ∀ p q, Keeps p q → P p → P q) (hp : P p) (requests : List Request) :
    P (p.after requests) := by
  induction requests generalizing p with
  | nil => exact hp
  | cons r requests ih =>
    refine ih ?_
    rcases perform_cases p r with ⟨g, app, heq⟩ | hkept
    · rw [heq]
      exact happly p g app hp
    · exact hkeeps p _ hkept hp

/-- The tree does not depend on queues, flags and the strategy. -/
theorem Tree.keeps (h : p.Tree) (hkeeps : Keeps p q) : q.Tree := by
  refine h.congr (fun i => ?_) (fun g => ?_) (Nat.le_of_eq hkeeps.nextGoal.symm)
  · rw [hkeeps.nodes]
    exact sameNodes_refl p.nodes i
  · rcases hkeeps.goals g with hnone | ⟨goal, goal', hp, hq, hsame⟩
    · exact .inl hnone
    · exact .inr ⟨goal, goal', hp, hq, hsame.same⟩

end Proof

end SequentSearch
