import SequentSearch.Search.StopCondition

/-!
# Goal choosers

A chooser decides which goal a search works on next. **Depth first**, the selected goals are handed
out in the order of the list, again and again; the goals that replace a goal take its place in the
list, and choosing goes on with the goal after it.

The **balanced** chooser lets every goal take a significant step before one takes a second. Goals
whose next step is not significant are handed out as they come. A goal that the stop condition
denies is put off once, and handed out if it comes up again. The condition can be any `Arbiter`.
-/

namespace SequentSearch

/-! ## Depth first -/

/-- The goals to hand out. -/
structure DepthFirst where
  /-- the goals to choose from -/
  selected : List GoalId := []
  /-- the goals that are left to hand out in this pass over the list -/
  pending : List GoalId := []

namespace DepthFirst

/-- Start choosing among the open ones of some goals. -/
def select (p : Proof) (goals : List GoalId) : DepthFirst where
  selected := goals.filter p.isOpen

/-- The next goal that automatic search may work on. When a pass over the list is over, another one
begins. -/
def next (p : Proof) (c : DepthFirst) : Option GoalId × DepthFirst :=
  match c.pending.dropWhile (!p.isAutomatic ·) with
  | g :: rest => (some g, { c with pending := rest })
  | [] =>
    match c.selected.dropWhile (!p.isAutomatic ·) with
    | g :: rest => (some g, { c with pending := rest })
    | [] => (none, { c with pending := [] })

/-- Whether a goal of the list is one that a step at a node replaced. -/
def isReplaced (p : Proof) (node : NodeId) (new : List GoalId) (g : GoalId) : Bool :=
  (match p.goal? g with
    | none => true
    | some goal => (p.nodes[goal.node]?.bind Node.parent) == some node) || new.contains g

/-- The goals behind the last one of a list that passes a test; all if none does. -/
def behindLast (test : GoalId → Bool) (goals : List GoalId) : List GoalId :=
  (goals.reverse.takeWhile (!test ·)).reverse

/-- Put the goals that a step at a node has led to in the place of the goal the step was made on. -/
def update (p : Proof) (node : NodeId) (new : List GoalId) (c : DepthFirst) : DepthFirst :=
  let replaced := isReplaced p node new
  let opened := new.filter p.isOpen
  if c.selected.any replaced then
    { selected := c.selected.takeWhile (!replaced ·) ++ opened ++
        (c.selected.dropWhile (!replaced ·)).filter (!replaced ·)
      pending := behindLast replaced c.selected }
  else { selected := c.selected ++ opened, pending := [] }

/-- Stop choosing a goal. -/
def remove (g : GoalId) (c : DepthFirst) : DepthFirst where
  selected := c.selected.filter (· != g)
  pending := c.pending.filter (· != g)

/-- Move the first goal of the list to its end. -/
def rotate (c : DepthFirst) : DepthFirst :=
  match c.selected with
  | [] => c
  | g :: rest => { c with selected := rest ++ [g] }

end DepthFirst

/-! ## Balanced -/

/-- The goals to hand out, and those that are owed a significant step. -/
structure Balanced where
  /-- which applications count -/
  significance : Significance
  /-- the goals in the order of the list -/
  inner : DepthFirst := {}
  /-- the goals that are owed a significant step in this round -/
  preferred : List GoalId := []

namespace Balanced

variable {σ : Type} [Arbiter σ]

/-- Collect the goals of a list that a stop condition allows. -/
def allowedOf (p : Proof) : List GoalId → σ → List GoalId × σ
  | [], stop => ([], stop)
  | g :: rest, stop =>
    let (allowed, stop) := Arbiter.allows p g .probe stop
    let (gs, stop) := allowedOf p rest stop
    (if allowed then g :: gs else gs, stop)

/-- Start a round if all goals had their turn: the goals that the stop condition allows are owed a
step, or all if it allows none. -/
def refill (p : Proof) (c : Balanced) (stop : σ) : Balanced × σ :=
  if c.preferred.isEmpty then
    let candidates := c.inner.selected.filter p.isAutomatic
    let (allowed, stop) := allowedOf p candidates stop
    let goals := if allowed.isEmpty then candidates else allowed
    ({ c with preferred := goals.eraseDups }, stop)
  else (c, stop)

/-- Look at the goals one after another, at most `fuel` of them, until one can be handed out. If
none can, the first one that was looked at is. -/
def look (p : Proof) :
    Nat → List GoalId → Option GoalId → Balanced → σ → Option GoalId × Balanced × σ
  | 0, _, first, c, stop => (first, c, stop)
  | fuel + 1, denied, first, c, stop =>
    match c.inner.next p with
    | (none, inner) => (none, { c with inner := inner }, stop)
    | (some g, inner) =>
      let first := first.or (some g)
      if !c.significance.atGoal p g then (some g, { c with inner := inner }, stop)
      else
        let owed := c.preferred.contains g
        let c := { c with inner := inner, preferred := c.preferred.erase g }
        let later := { c with inner := inner.rotate }
        if owed || c.preferred.isEmpty then
          match Arbiter.allows p g .probe stop with
          | (true, stop) => (some g, c, stop)
          | (false, stop) =>
            if denied.contains g then (some g, c, stop)
            else look p fuel (g :: denied) first later stop
        else look p fuel denied first later stop

/-- The next goal. Every goal can be put off once and then comes up again, so two passes over the
list and one more goal are enough. -/
def next (p : Proof) (c : Balanced) (stop : σ) : Option GoalId × Balanced × σ :=
  if c.inner.selected.length < 2 then
    let (g, inner) := c.inner.next p
    (g, { c with inner := inner }, stop)
  else
    let c := { c with preferred := c.preferred.filter p.isAutomatic }
    let (c, stop) := c.refill p stop
    look p (2 * c.inner.selected.length + 1) [] none c stop

/-- Put the goals that a step has led to in the place of the goal the step was made on. -/
def update (p : Proof) (node : NodeId) (new : List GoalId) (c : Balanced) : Balanced :=
  { c with inner := c.inner.update p node new, preferred := c.preferred.filter p.isOpen }

/-- Stop choosing a goal. -/
def remove (g : GoalId) (c : Balanced) : Balanced :=
  { c with inner := c.inner.remove g, preferred := c.preferred.erase g }

end Balanced

/-! ## Choosers -/

/-- A way to choose goals, with its state. -/
inductive Chooser where
  /-- in the order of the list -/
  | depthFirst (c : DepthFirst)
  /-- every goal takes a significant step before one takes a second -/
  | balanced (c : Balanced)

namespace Chooser

/-- A chooser that goes depth first. -/
def newDepthFirst : Chooser := depthFirst {}

/-- A balanced chooser. -/
def newBalanced (significance : Significance) : Chooser :=
  balanced { significance := significance }

/-- The goals to choose from. -/
def selected : Chooser → List GoalId
  | depthFirst c => c.selected
  | balanced c => c.inner.selected

/-- Start choosing among goals. -/
def select (p : Proof) (goals : List GoalId) : Chooser → Chooser
  | depthFirst _ => depthFirst (.select p goals)
  | balanced c => balanced { c with inner := .select p goals, preferred := [] }

/-- The goal to work on next; none if no goal is left. The stop condition may be asked about
goals. -/
def next {σ : Type} [Arbiter σ] (p : Proof) (stop : σ) : Chooser → Option GoalId × Chooser × σ
  | depthFirst c =>
    let (g, c) := c.next p
    (g, depthFirst c, stop)
  | balanced c =>
    let (g, c, stop) := c.next p stop
    (g, balanced c, stop)

/-- Put the goals that a step at a node has led to in the place of the goal the step was made on. -/
def update (p : Proof) (node : NodeId) (new : List GoalId) : Chooser → Chooser
  | depthFirst c => depthFirst (c.update p node new)
  | balanced c => balanced (c.update p node new)

/-- Stop choosing a goal. -/
def remove (g : GoalId) : Chooser → Chooser
  | depthFirst c => depthFirst (c.remove g)
  | balanced c => balanced (c.remove g)

/-- Forget all goals. -/
def clear : Chooser → Chooser
  | depthFirst _ => depthFirst {}
  | balanced c => balanced { significance := c.significance }

end Chooser

end SequentSearch
