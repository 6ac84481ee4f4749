import SequentSearch.Application.Execution
import SequentSearch.Proof.IdTable
import SequentSearch.Proof.Queue
import SequentSearch.Strategy

/-!
# Proofs

A proof is a tree of **nodes**, which are never removed, and a table of open **goals**, each at a
leaf of the tree. A goal carries what search needs to know: its sequent, the applications that
matching found in it, the steps that led to it, and the queue of the applications that its strategy
offers.

The queue is a delayed value. What it holds is settled when the goal comes into being; it is
computed when it is first looked at.
-/

namespace SequentSearch

/-- A node of a proof. -/
structure Node where
  /-- the node above; none for the root -/
  parent : Option NodeId
  /-- the nodes below, in order -/
  children : List NodeId := []
  /-- the sequent to prove -/
  sequent : Sequent
  /-- the application made on it -/
  app : Option RuleApp := none
  /-- whether nothing is left to prove below -/
  closed : Bool := false
  /-- the name of the branch that starts with it -/
  label : Option String := none

/-- A step on a branch: the application that was made, and the node it was made on. -/
structure Step where
  /-- the node -/
  node : NodeId
  /-- the application -/
  app : RuleApp

/-- An open goal. -/
structure Goal where
  /-- its leaf -/
  node : NodeId
  /-- the sequent of the leaf -/
  sequent : Sequent
  /-- whether automatic search may work on it -/
  automatic : Bool := true
  /-- the applications found in the sequent -/
  index : MatchIndex
  /-- the steps that led to it, the last one first -/
  steps : List Step := []
  /-- the applications offered for it -/
  queue : Thunk (Queue RuleApp)

namespace Goal

/-- The applications that led to a goal, the last one first. -/
def trail (g : Goal) : Trail := g.steps.map Step.app

/-- What a strategy sees of a goal. -/
def context (g : Goal) : FeatureContext := ⟨g.node, g.trail⟩

/-- The queue of the applications that a strategy offers for a goal. -/
def offered (strategy : Strategy) (g : Goal) : Queue RuleApp :=
  .fill (strategy.offers g.context g.index g.sequent)

/-- Fill the queue of a goal by a strategy. -/
def fill (strategy : Strategy) (g : Goal) : Goal :=
  { g with queue := ⟨fun _ => g.offered strategy⟩ }

/-- The cheapest application. -/
def peek? (g : Goal) : Option RuleApp := g.queue.get.peek?.map (·.2)

/-- The cost of the cheapest application. -/
def peekCost? (g : Goal) : Option Cost := g.queue.get.peek?.map (·.1)

/-- The applications that can be chosen by hand at a place, or without a focus. Their assumes parts
are complete, though some of their variables may be open. -/
def applicable (g : Goal) (focus : Option Occurrence) : List RuleApp :=
  ((g.index.appsAt focus).filter (·.rule.interactive)).filterMap (·.findAssumed g.sequent)

end Goal

/-- A proof attempt. -/
structure Proof where
  /-- the nodes; the root is the first -/
  nodes : Array Node
  /-- the open goals -/
  goals : IdTable Goal
  /-- the open goals in the order of the tree -/
  openGoals : List GoalId
  /-- the number of the next new goal -/
  nextGoal : GoalId
  /-- the rules -/
  base : RuleBase
  /-- how applications are ranked -/
  strategy : Strategy
  /-- the names in use -/
  names : NameSupply

namespace Proof

/-- The proof attempt that has a sequent as its only goal. -/
def start (root : Sequent) (rules : List Rule) (strategy : Strategy) : Proof :=
  let base := RuleBase.ofRules rules
  let goal : Goal :=
    { node := 0, sequent := root, index := .ofSequent base root, queue := .pure .waiting }
  { nodes := #[{ parent := none, sequent := root }]
    goals := IdTable.empty.insert 0 (goal.fill strategy)
    openGoals := [0]
    nextGoal := 1
    base := base
    strategy := strategy
    names := NameSupply.empty.registerSequent root }

/-- The root. -/
def root : NodeId := 0

/-- The number of nodes. -/
def nodeCount (p : Proof) : Nat := p.nodes.size

/-- Whether the root is proved. -/
def isClosed (p : Proof) : Bool := p.nodes[root]?.any (·.closed)

/-- An open goal. -/
def goal? (p : Proof) (g : GoalId) : Option Goal := p.goals.get? g

/-- A goal that has to be open. -/
def goal (p : Proof) (g : GoalId) : Except Fault Goal :=
  match p.goal? g with
  | some goal => .ok goal
  | none => .error .goalNotOpen

/-- Whether a goal is open. -/
def isOpen (p : Proof) (g : GoalId) : Bool := (p.goal? g).isSome

/-- Whether automatic search may work on a goal. -/
def isAutomatic (p : Proof) (g : GoalId) : Bool := (p.goal? g).any (·.automatic)

/-- The cheapest application for a goal. -/
def peek? (p : Proof) (g : GoalId) : Option RuleApp := (p.goal? g).bind Goal.peek?

/-- The cost of the cheapest application for a goal. -/
def peekCost? (p : Proof) (g : GoalId) : Option Cost := (p.goal? g).bind Goal.peekCost?

/-- The applications that can be chosen by hand at a place of a goal. -/
def applicable (p : Proof) (g : GoalId) (focus : Option Occurrence) : List RuleApp :=
  match p.goal? g with
  | some goal => goal.applicable focus
  | none => []

/-- Take the cheapest application that the strategy approves of from the queue of a goal. -/
def nextApp (p : Proof) (g : GoalId) : Option RuleApp × Proof :=
  match p.goal? g with
  | none => (none, p)
  | some goal =>
    let queue := goal.queue.get.dropUntil (p.strategy.approves goal.context)
    (queue.peek?.map (·.2),
      { p with goals := p.goals.insert g { goal with queue := .pure queue.tail } })

/-- Rank applications by another strategy from now on. -/
def setStrategy (p : Proof) (strategy : Strategy) : Proof :=
  { p with strategy := strategy, goals := p.goals.map (Goal.fill strategy) }

end Proof

end SequentSearch
