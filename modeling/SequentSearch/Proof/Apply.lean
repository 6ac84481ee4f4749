import SequentSearch.Proof.Basic

/-!
# Steps of a proof

Applying a rule to a goal records the application on the leaf of the goal and replaces the goal by
one goal for each successor. The first of them keeps the number of the goal. An application without
successors closes the goal, and with it every node above all of whose branches are closed.
-/

namespace SequentSearch

/-- Why a step cannot be made. -/
inductive ProofError where
  /-- the goal is not open -/
  | goalNotOpen (g : GoalId)
  /-- the rule is not meant to be applied by hand -/
  | notInteractive (rule : String)
  /-- the application cannot be executed -/
  | exec (e : ExecError)

namespace ProofError

/-- The text of an error. -/
def message : ProofError → Except Fault String
  | goalNotOpen g => .ok ("goal " ++ renderId g ++ " is not open")
  | notInteractive rule => .ok ("rule " ++ rule ++ " may not be applied interactively")
  | exec e => e.message

end ProofError

/-- An application that was made. -/
structure AppliedStep where
  /-- the goal it was made on -/
  goal : GoalId
  /-- the leaf of the goal before -/
  node : NodeId
  /-- the application -/
  app : RuleApp
  /-- the goals that took the place of the goal -/
  newGoals : List GoalId

namespace Proof

/-- Whether a node is closed. -/
def nodeClosed (nodes : Array Node) (id : NodeId) : Bool := nodes[id]?.any (·.closed)

/-- Close the nodes of a branch from below as long as all of their children are closed. -/
def closeUp : List NodeId → Array Node → Array Node
  | [], nodes => nodes
  | id :: above, nodes =>
    if nodes[id]?.any fun n => n.children.all (nodeClosed nodes) then
      closeUp above (nodes.modify id fun n => { n with closed := true })
    else nodes

/-- Record the application made on a node. -/
def recordApp (p : Proof) (id : NodeId) (app : RuleApp) : Proof :=
  { p with nodes := p.nodes.modify id fun n => { n with app := some app } }

/-- Close a goal. -/
def close (p : Proof) (g : GoalId) (goal : Goal) : Proof :=
  { p with
    nodes := closeUp (goal.node :: goal.steps.map Step.node) p.nodes
    goals := p.goals.erase g
    openGoals := p.openGoals.filter (· != g) }

/-- The goal for a successor. -/
def successorGoal (p : Proof) (goal : Goal) (app : RuleApp) (node : NodeId)
    (s : Successor) : Goal :=
  Goal.fill p.strategy
    { goal with
      node := node
      sequent := s.change.sequent
      index := goal.index.update p.base s.change
      steps := ⟨goal.node, app⟩ :: goal.steps }

/-- Add the goal for a successor below the leaf of a goal. -/
def addSuccessor (goal : Goal) (app : RuleApp) (p : Proof) (entry : GoalId × Successor) : Proof :=
  let (id, s) := entry
  let node := p.nodes.size
  let nodes := p.nodes.push
    { parent := some goal.node, sequent := s.change.sequent, label := s.label }
  { p with
    nodes := nodes.modify goal.node fun n => { n with children := n.children ++ [node] }
    goals := p.goals.insert id (p.successorGoal goal app node s) }

/-- Replace a goal by the goals for successors, of which there is at least one. -/
def split (p : Proof) (g : GoalId) (goal : Goal) (app : RuleApp) (successors : List Successor) :
    List GoalId × Proof :=
  let new := successors.length - 1
  let ids := g :: List.range' p.nextGoal new
  let q := (ids.zip successors).foldl (addSuccessor goal app) p
  (ids,
    { q with
      nextGoal := p.nextGoal + new
      openGoals := p.openGoals.flatMap fun h => if h = g then ids else [h] })

/-- Apply an application to a goal, and return the goals that replace it. Names that were drawn stay
in use even if the step fails. -/
def apply (p : Proof) (g : GoalId) (app : RuleApp) : Except ProofError (List GoalId) × Proof :=
  match p.goal? g with
  | none => (.error (.goalNotOpen g), p)
  | some goal =>
    let (result, names) := app.execute goal.sequent p.names
    let p := { p with names := names }
    match result with
    | .error e => (.error (.exec e), p)
    | .ok [] => (.ok [], (p.recordApp goal.node app).close g goal)
    | .ok successors =>
      let (ids, q) := (p.recordApp goal.node app).split g goal app successors
      (.ok ids, q)

/-- Take the cheapest application for a goal and make it; none if there is none. -/
def stepOn (p : Proof) (g : GoalId) : Except ProofError (Option AppliedStep) × Proof :=
  match p.goal? g, p.nextApp g with
  | some goal, (some app, p) =>
    let (result, p) := p.apply g app
    (result.map fun new => some ⟨g, goal.node, app, new⟩, p)
  | _, (_, p) => (.ok none, p)

/-- Take up to `n` applications with their costs from the queue of a goal. -/
def drain (g : GoalId) : Nat → Proof → List (Cost × RuleApp) × Proof
  | 0, p => ([], p)
  | n + 1, p =>
    match p.peekCost? g, p.nextApp g with
    | some cost, (some app, p) =>
      let (rest, p) := drain g n p
      ((cost, app) :: rest, p)
    | _, (_, p) => ([], p)

/-- Take all applications with their costs from the queue of a goal. -/
def drainAll (p : Proof) (g : GoalId) : List (Cost × RuleApp) × Proof :=
  p.drain g (((p.goal? g).map fun goal => goal.queue.get.size).getD 0)

/-- Apply an application that was chosen by hand. -/
def applyInteractive (p : Proof) (g : GoalId) (app : RuleApp) :
    Except ProofError (List GoalId) × Proof :=
  if app.rule.interactive then p.apply g app else (.error (.notInteractive app.rule.name), p)

/-- Let automatic search work on a goal, or keep it from doing so. -/
def setAutomatic (p : Proof) (g : GoalId) (automatic : Bool) : Except ProofError Unit × Proof :=
  if p.isOpen g then
    (.ok (), { p with goals := p.goals.modify g fun goal => { goal with automatic := automatic } })
  else (.error (.goalNotOpen g), p)

end Proof

end SequentSearch
