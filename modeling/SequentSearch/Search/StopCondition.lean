import SequentSearch.Proof.Apply

/-!
# Stop conditions

A stop condition is asked before each application whether it may be made, and after it whether the
search should end. There are two of them, a **budget** for the whole search and a limit on the
**significant** steps of each goal, and a compound of two conditions. A search is run under one of
these (`StopCondition`); conditions that a user of the search might add are left out.

A goal chooser may also ask whether a goal is allowed. So the limit on significant steps remembers
what it decided for a node: asking again about a goal that has not moved counts nothing and gives
the same answer. Choosers do not depend on this. They ask any **arbiter** (`Arbiter`): whatever it
answers and remembers, all that is fixed is that it leaves the proof alone.
-/

namespace SequentSearch

/-- The limits of a search, and how much of them is used up. -/
structure Budget where
  /-- the greatest number of applications -/
  maxApplications : Option Nat := none
  /-- the time limit in milliseconds -/
  timeout : Option Nat := none
  /-- the milliseconds that have passed -/
  elapsed : Nat := 0
  /-- the applications made -/
  applied : Nat := 0

namespace Budget

/-- No limits. Goal choosers ask with it. -/
def probe : Budget := {}

/-- Whether no application is left. -/
def stepsExhausted (b : Budget) : Bool := b.maxApplications.any fun limit => limit ≤ b.applied

/-- Whether the time is up. -/
def timedOut (b : Budget) : Bool := b.timeout.any fun limit => limit ≤ b.elapsed

/-- Whether a limit is reached. -/
def exhausted (b : Budget) : Bool := b.stepsExhausted || b.timedOut

/-- Why a search ends that has reached a limit. -/
def message (b : Budget) : String :=
  if b.stepsExhausted then "Maximal number of rule applications reached." else "Timeout reached."

end Budget

/-- Which applications count as significant. -/
inductive Significance where
  /-- all of them -/
  | everyStep
  /-- those of the rules of a rule set -/
  | inRuleSet (set : String)

namespace Significance

/-- Whether an application is significant. -/
def holds : Significance → RuleApp → Bool
  | everyStep, _ => true
  | inRuleSet set, app => app.rule.inRuleSet set

/-- Whether the cheapest application for a goal is significant. -/
def atGoal (s : Significance) (p : Proof) (g : GoalId) : Bool := (p.peek? g).any s.holds

end Significance

/-! ## The limit on significant steps -/

/-- A limit on the significant steps of each goal, and the steps counted so far. -/
structure StepLimit where
  /-- the greatest number of significant steps of a goal -/
  limit : Nat
  /-- which applications count -/
  significance : Significance
  /-- the significant steps of each goal -/
  executed : IdTable Nat := {}
  /-- what was decided for the nodes asked about -/
  decided : IdTable Bool := {}
  /-- the significant steps allowed since the search started -/
  total : Nat := 0

namespace StepLimit

/-- The significant steps counted for a goal. -/
def executedOn (s : StepLimit) (g : GoalId) : Nat := (s.executed.get? g).getD 0

/-- Whether a significant step was allowed since the search started. -/
def anyExecuted (s : StepLimit) : Bool := 0 < s.total

/-- Forget what was counted and decided. -/
def clear (s : StepLimit) : StepLimit := { s with executed := {}, decided := {} }

/-- Forget everything at the start of a search. -/
def restart (s : StepLimit) : StepLimit := { s.clear with total := 0 }

/-- Decide about a significant step of a goal at a node, for the first time. -/
def decideAt (s : StepLimit) (g : GoalId) (node : NodeId) : Bool × StepLimit :=
  let count := s.executedOn g
  if count < s.limit then
    (true,
      { s with
        executed := s.executed.insert g (count + 1)
        decided := s.decided.insert node true
        total := s.total + 1 })
  else (false, { s with decided := s.decided.insert node false })

/-- Whether the next step of a goal is allowed. Steps that are not significant are. -/
def allows (s : StepLimit) (p : Proof) (g : GoalId) : Bool × StepLimit :=
  match p.goal? g with
  | none => (true, s)
  | some goal =>
    if goal.peek?.any s.significance.holds then
      match s.decided.get? goal.node with
      | some allowed => (allowed, s)
      | none => s.decideAt g goal.node
    else (true, s)

/-- Pass the count of a goal that has forked on to the new goals. -/
def follow (s : StepLimit) (p : Proof) (step : AppliedStep) : StepLimit :=
  if p.nodes[step.node]?.any fun n => 2 ≤ n.children.length then
    match s.executed.get? step.goal with
    | some count =>
      let new := step.newGoals.filter (· != step.goal)
      { s with executed := new.foldl (fun t g => t.insert g count) s.executed }
    | none => s
  else s

/-- Why a goal is not allowed. -/
def message (s : StepLimit) : String :=
  if 1 < s.limit then
    "Maximal limit of " ++ toString s.limit ++ " symbolic execution tree nodes reached."
  else "Maximal limit of one symbolic execution tree node reached."

end StepLimit

/-! ## Conditions -/

/-- The part of a compound condition that answered no. -/
inductive Part where
  | first
  | second
deriving DecidableEq

/-- When a search ends. -/
inductive StopCondition where
  /-- when the budget is used up -/
  | budget
  /-- when a goal has reached the limit on significant steps -/
  | stepLimit (s : StepLimit)
  /-- when one of two conditions says so; the parts that last denied a goal and stopped are
  remembered -/
  | both (first second : StopCondition) (deniedBy stoppedBy : Option Part)

namespace StopCondition

/-- A limit on significant steps. -/
def significant (limit : Nat) (significance : Significance) : StopCondition :=
  stepLimit { limit := limit, significance := significance }

/-- The compound of two conditions. -/
def and (first second : StopCondition) : StopCondition := both first second none none

/-- Change the limit of a limit on significant steps. Other conditions have none. -/
def setLimit (limit : Nat) : StopCondition → StopCondition
  | stepLimit s => stepLimit { s with limit := limit }
  | c => c

/-- Start a search, and estimate the number of its applications; zero if it is not known. -/
def maximalWork (b : Budget) : StopCondition → Nat × StopCondition
  | budget => (b.maxApplications.getD 0, budget)
  | stepLimit s => (0, stepLimit s.restart)
  | both first second d s =>
    let (m, first) := first.maximalWork b
    let (n, second) := second.maximalWork b
    (max m n, both first second d s)

/-- Whether the next application on a goal may be made. -/
def allows (p : Proof) (g : GoalId) (b : Budget) : StopCondition → Bool × StopCondition
  | budget => (!b.exhausted, budget)
  | stepLimit s =>
    let (allowed, s) := s.allows p g
    (allowed, stepLimit s)
  | both first second _ stoppedBy =>
    match first.allows p g b with
    | (false, first) => (false, both first second (some .first) stoppedBy)
    | (true, first) =>
      match second.allows p g b with
      | (false, second) => (false, both first second (some .second) stoppedBy)
      | (true, second) => (true, both first second none stoppedBy)

/-- Why a goal is not allowed. -/
def denial (b : Budget) : StopCondition → String
  | budget => b.message
  | stepLimit s => s.message
  | both first second deniedBy _ =>
    if deniedBy = some .second then second.denial b else first.denial b

/-- Whether the search should end after a step, if there was one. -/
def stops (p : Proof) (b : Budget) (step : Option AppliedStep) :
    StopCondition → Bool × StopCondition
  | budget => (b.exhausted, budget)
  | stepLimit s =>
    (false, stepLimit (match step with
      | some step => s.follow p step
      | none => s))
  | both first second deniedBy _ =>
    let (x, first) := first.stops p b step
    let (y, second) := second.stops p b step
    let stoppedBy := if x then some Part.first else if y then some Part.second else none
    (x || y, both first second deniedBy stoppedBy)

/-- Why the search ends. -/
def reason (b : Budget) : StopCondition → String
  | budget => b.message
  | stepLimit _ => ""
  | both first second _ stoppedBy =>
    if stoppedBy = some .second then second.reason b else first.reason b

/-- Forget the state of a search. -/
def clear : StopCondition → StopCondition
  | budget => budget
  | stepLimit s => stepLimit s.clear
  | both first second _ _ => both first.clear second.clear none none

end StopCondition

/-! ## Arbiters -/

/-- What a goal chooser needs of a stop condition. The answer may depend on all that happened
before, and a question may change what is remembered, but not the proof. -/
class Arbiter (σ : Type) where
  /-- whether the next application on a goal may be made, and the state after the question -/
  allows : Proof → GoalId → Budget → σ → Bool × σ

instance : Arbiter StopCondition := ⟨StopCondition.allows⟩

@[simp] theorem StopCondition.arbiter_allows (p : Proof) (g : GoalId) (b : Budget)
    (stop : StopCondition) : Arbiter.allows p g b stop = stop.allows p g b := rfl

end SequentSearch
