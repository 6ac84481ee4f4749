import SequentSearch.Calculus.Execution
import SequentSearch.Search.Chooser
import SequentSearch.Search.Report

/-!
# Automatic search

A search takes turns: a goal is chosen, the stop condition is asked, the cheapest application for
the goal is made, and the goals it leaves take the place of the goal. A goal without an application
is not chosen again. The search ends when no goal is left, when the stop condition or someone
outside ends it, or when an application fails.

`Search.step` makes one application and `Search.run` iterates it. What happens outside while a
search runs is given by `Surroundings`, so that a search is a function of its input. A `Searcher` is
a chooser and a stop condition that are used for one search after another.
-/

namespace SequentSearch

/-- What happens outside during a search. Time is told by the number of turns taken. -/
structure Surroundings where
  /-- the milliseconds that have passed -/
  elapsed : Nat → Nat := fun _ => 0
  /-- whether the search has been asked to end -/
  cancelled : Nat → Bool := fun _ => false

/-- The state of a search. -/
structure Search where
  /-- the proof -/
  proof : Proof
  /-- how goals are chosen -/
  chooser : Chooser
  /-- when to end -/
  stop : StopCondition
  /-- the limits -/
  budget : Budget
  /-- whether to end at the first goal without an application -/
  stopAtFirst : Bool
  /-- how often a goal was asked for -/
  turns : Nat := 0
  /-- how many goals were closed -/
  closedGoals : Nat := 0
  /-- how often each rule was applied -/
  perRule : List (String × Nat) := []

namespace Search

/-- The budget at this turn. -/
def budgetNow (env : Surroundings) (s : Search) : Budget :=
  { s.budget with elapsed := env.elapsed s.turns }

/-- No goal is left. -/
def exhausted : Ending where
  message := "No more rules automatically applicable to any goal."
  outcome := .finished .goalsExhausted

/-- The stop condition ends the search at a goal. -/
def stopped (message : String) (g : GoalId) : Ending where
  message := message
  outcome := .finished (.budgetExhausted message)
  goal := some g

/-- A goal has no application. -/
def nonCloseable (g : GoalId) : Ending where
  message := "Could not close goal."
  outcome := .finished (.nonCloseableGoal g)
  goal := some g

/-- The search was asked to end. -/
def interrupted : Ending where
  message := "Interrupted."
  outcome := .finished .cancelled

/-- An application failed. -/
def failed (e : ProofError) (g : GoalId) : Ending where
  message := "Error."
  outcome := .failed e
  goal := some g

/-- Ask for the next goal. -/
def nextGoal (s : Search) : Option GoalId × Search :=
  let (g, chooser, stop) := s.chooser.next s.proof s.stop
  (g, { s with chooser := chooser, stop := stop, turns := s.turns + 1 })

/-- Do not choose a goal any more. -/
def drop (g : GoalId) (s : Search) : Search := { s with chooser := s.chooser.remove g }

/-- Make an application on a goal at a node. -/
def applyTo (g : GoalId) (node : NodeId) (app : RuleApp) (s : Search) :
    Except Ending AppliedStep × Search :=
  match s.proof.apply g app with
  | (.error e, proof) => (.error (failed e g), { s with proof := proof })
  | (.ok new, proof) =>
    (.ok ⟨g, node, app, new⟩,
      { s with proof := proof, chooser := s.chooser.update proof node new })

/-- Make an application on the first goal that has one. At most `fuel` goals without an application
are passed over. -/
def attempt (env : Surroundings) : Nat → Search → Except Ending AppliedStep × Search
  | 0, s => (.error exhausted, s)
  | fuel + 1, s =>
    match s.nextGoal with
    | (none, s) => (.error exhausted, s)
    | (some g, s) =>
      match s.proof.goal? g with
      | none => attempt env fuel (s.drop g)
      | some goal =>
        match s.stop.allows s.proof g (s.budgetNow env) with
        | (false, stop) =>
          (.error (stopped (stop.denial (s.budgetNow env)) g), { s with stop := stop })
        | (true, stop) =>
          let s := { s with stop := stop }
          match s.proof.nextApp g with
          | (some app, proof) => applyTo g goal.node app { s with proof := proof }
          | (none, proof) =>
            let s := { s with proof := proof }
            if s.stopAtFirst then (.error (nonCloseable g), s) else attempt env fuel (s.drop g)

/-- The number of goals an attempt may pass over: every selected goal is passed over at most once,
and then no goal is left. -/
def patience (s : Search) : Nat := s.chooser.selected.length + 1

/-- Account for a step that was made. -/
def account (step : AppliedStep) (s : Search) : Search :=
  { s with
    budget := { s.budget with applied := s.budget.applied + 1 }
    closedGoals := if step.newGoals.isEmpty then s.closedGoals + 1 else s.closedGoals
    perRule := Report.count step.app.rule.name s.perRule }

/-- Make one application, or end. -/
def step (env : Surroundings) (s : Search) : Except Ending AppliedStep × Search :=
  if env.cancelled s.turns then (.error interrupted, s)
  else
    match s.attempt env s.patience with
    | (.error e, s) => (.error e, s)
    | (.ok made, s) =>
      let s := s.account made
      let (ends, stop) := s.stop.stops s.proof (s.budgetNow env) (some made)
      let s := { s with stop := stop }
      if ends then (.error (stopped (stop.reason (s.budgetNow env)) made.goal), s)
      else (.ok made, s)

/-- Make at most `fuel` applications; none if the search has not ended by then. -/
def run (env : Surroundings) : Nat → Search → Option (Ending × Search)
  | 0, _ => none
  | fuel + 1, s =>
    match s.step env with
    | (.error e, s) => some (e, s)
    | (.ok _, s) => run env fuel s

/-- The report of a search that has ended. -/
def report (env : Surroundings) (s : Search) (e : Ending) : Report where
  ending := e
  applied := s.budget.applied
  closedGoals := s.closedGoals
  elapsed := env.elapsed s.turns
  perRule := s.perRule

end Search

/-! ## Searchers -/

/-- A chooser and a stop condition for one search after another. -/
structure Searcher where
  /-- how goals are chosen -/
  chooser : Chooser
  /-- when to end -/
  stop : StopCondition
  /-- whether the search has been asked to end -/
  cancelled : Bool := false

/-- What a search works on, and how long. -/
structure Task where
  /-- the goals to work on -/
  goals : List GoalId
  /-- the greatest number of applications -/
  maxSteps : Nat
  /-- the time limit in milliseconds -/
  timeout : Option Nat := none
  /-- whether to end at the first goal without an application -/
  stopAtFirst : Bool := false

namespace Searcher

/-- Ask a search to end. A search that starts later does not heed it. -/
def cancel (d : Searcher) : Searcher := { d with cancelled := true }

/-- The chooser and the stop condition for given settings. -/
def ofSettings (settings : Settings) : Searcher where
  chooser := match settings.chooser with
    | .depthFirst => .newDepthFirst
    | .balanced => .newBalanced (.inRuleSet Calculus.executionSet)
  stop := match settings.stopMode with
    | .appliedRules => .budget
    | .significantSteps =>
      (StopCondition.significant settings.stepLimit (.inRuleSet Calculus.executionSet)).and .budget

/-- The state a search starts in. -/
def begin (d : Searcher) (p : Proof) (task : Task) : Search :=
  let budget : Budget := { maxApplications := some task.maxSteps, timeout := task.timeout }
  { proof := p
    chooser := d.chooser.select p task.goals
    stop := (d.stop.maximalWork budget).2
    budget := budget
    stopAtFirst := task.stopAtFirst }

/-- The searcher after a search has ended: chooser and stop condition forget about it. -/
def finish (env : Surroundings) (s : Search) : Searcher where
  chooser := s.chooser.clear
  stop := s.stop.clear
  cancelled := env.cancelled s.turns

/-- More steps than a search can make within its limit, or at all. -/
def fuel (task : Task) : Nat := task.maxSteps + 18446744073709551616

/-- Search for a proof. -/
def start (env : Surroundings) (d : Searcher) (p : Proof) (task : Task) :
    Option (Report × Searcher × Proof) :=
  ((d.begin p task).run env (fuel task)).map fun (e, s) => (s.report env e, finish env s, s.proof)

end Searcher

/-- The task of working on all open goals of a proof within the limits of settings. -/
def Settings.task (settings : Settings) (p : Proof) : Task where
  goals := p.openGoals
  maxSteps := settings.maxSteps
  timeout := settings.timeout
  stopAtFirst := settings.stopAtFirst

end SequentSearch
