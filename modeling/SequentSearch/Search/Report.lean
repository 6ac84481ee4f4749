import SequentSearch.Proof.Apply

/-!
# Reports

What a search tells when it has ended.
-/

namespace SequentSearch

/-- Why a search ended without an error. -/
inductive StopReason where
  /-- no goal with an application is left -/
  | goalsExhausted
  /-- the stop condition ended it -/
  | budgetExhausted (message : String)
  /-- a goal has no application, and the search was to end there -/
  | nonCloseableGoal (g : GoalId)
  /-- it was asked to end -/
  | cancelled

/-- How a search ended. -/
inductive Outcome where
  /-- for a reason -/
  | finished (reason : StopReason)
  /-- with an application that could not be made -/
  | failed (e : ProofError)

/-- The end of a search. -/
structure Ending where
  /-- what is said about it -/
  message : String
  /-- how it ended -/
  outcome : Outcome
  /-- the goal it ended at -/
  goal : Option GoalId := none

/-- What a search tells when it has ended. -/
structure Report where
  /-- how it ended -/
  ending : Ending
  /-- the number of applications made -/
  applied : Nat
  /-- the number of goals closed -/
  closedGoals : Nat
  /-- the milliseconds it took -/
  elapsed : Nat
  /-- how often each rule was applied, in order of first use -/
  perRule : List (String × Nat)

namespace Report

/-- The error a search ended with. -/
def error? (r : Report) : Option ProofError :=
  match r.ending.outcome with
  | .failed e => some e
  | .finished _ => none

/-- Count one more application of a rule. -/
def count (rule : String) : List (String × Nat) → List (String × Nat)
  | [] => [(rule, 1)]
  | e :: rest => if e.1 == rule then (e.1, e.2 + 1) :: rest else e :: count rule rest

/-- The rules by how often they were applied, the most frequent first, rules of equal frequency by
their names. -/
def byFrequency (r : Report) : List (String × Nat) :=
  r.perRule.mergeSort fun a b => b.2 < a.2 || (a.2 == b.2 && a.1 ≤ b.1)

/-- Milliseconds written as seconds with three places. -/
def renderSeconds (ms : Nat) : String :=
  let fraction := toString (1000 + ms % 1000)
  toString (ms / 1000) ++ "." ++ String.ofList (fraction.toList.drop 1)

/-- The lines of a report. -/
def lines (r : Report) : Except Fault (List String) := do
  let error ← match r.error? with
    | some e => do pure ["Error: " ++ (← e.message)]
    | none => .ok []
  let rules := r.byFrequency.map fun e =>
    "Rule " ++ e.1 ++ ": applied " ++ toString e.2 ++ " times"
  let last := "Applied " ++ toString r.applied ++ " rules, closed " ++ toString r.closedGoals ++
    " goals in " ++ renderSeconds r.elapsed ++ "s"
  return r.ending.message :: error ++ rules ++ [last]

/-- The text of a report. -/
def render (r : Report) : Except Fault String := do return joinWith "\n" (← r.lines)

end Report

end SequentSearch
