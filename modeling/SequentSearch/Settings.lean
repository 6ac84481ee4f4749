/-!
# Settings

What a user can choose about an automatic search: limits, the order in which goals are worked on,
and the weights that make up the costs of applications.
-/

namespace SequentSearch

/-- What bounds a search. -/
inductive StopMode where
  /-- the number of applications and the time -/
  | appliedRules
  /-- also the number of significant applications on each goal -/
  | significantSteps
deriving DecidableEq

namespace StopMode

/-- The name of a stop mode. -/
def name : StopMode → String
  | appliedRules => "applied-rules"
  | significantSteps => "significant-steps"

/-- The stop mode of a name, or a message. -/
def parse (s : String) : Except String StopMode :=
  if s == appliedRules.name then .ok appliedRules
  else if s == significantSteps.name then .ok significantSteps
  else .error ("Unknown stop mode: " ++ s)

end StopMode

/-- How the goal to work on is chosen. -/
inductive ChooserKind where
  /-- in the order of the tree -/
  | depthFirst
  /-- all goals take a significant step before one takes a second -/
  | balanced
deriving DecidableEq

namespace ChooserKind

/-- The name of a way to choose goals. -/
def name : ChooserKind → String
  | depthFirst => "depth-first"
  | balanced => "balanced"

/-- The way to choose goals of a name, or a message. -/
def parse (s : String) : Except String ChooserKind :=
  if s == depthFirst.name then .ok depthFirst
  else if s == balanced.name then .ok balanced
  else .error ("Unknown goal chooser: " ++ s)

end ChooserKind

/-- The choices of a user. The values given here are the defaults. -/
structure Settings where
  /-- the greatest number of applications -/
  maxSteps : Nat := 10000
  /-- the time limit in milliseconds -/
  timeout : Option Nat := none
  /-- what bounds the search -/
  stopMode : StopMode := .appliedRules
  /-- how goals are chosen -/
  chooser : ChooserKind := .depthFirst
  /-- the greatest number of significant applications on a goal -/
  stepLimit : Nat := 1000
  /-- whether to give up at the first goal without an application -/
  stopAtFirst : Bool := false
  /-- the cost of the applications of each rule set -/
  weights : List (String × Int) :=
    [("closure", -10000), ("simplify", -5000), ("alpha", -1000), ("delta", -800),
      ("symbolic_execution", -500), ("beta", -300), ("gamma", 100)]
  /-- the cost of each goal beyond the first that an application leaves -/
  branchingCost : Int := 50

namespace Settings

/-- Set a weight in a list of weights. A new rule set goes to the end. -/
def setWeight (set : String) (weight : Int) : List (String × Int) → List (String × Int)
  | [] => [(set, weight)]
  | e :: rest => if e.1 == set then (set, weight) :: rest else e :: setWeight set weight rest

/-- Give a rule set a weight, or take it away. -/
def weigh (s : Settings) (set : String) : Option Int → Settings
  | some weight => { s with weights := setWeight set weight s.weights }
  | none => { s with weights := s.weights.filter (·.1 != set) }

end Settings

end SequentSearch
