import SequentSearch.Application.Completion
import SequentSearch.Cost.Feature
import SequentSearch.MatchIndex
import SequentSearch.Settings

/-!
# Strategies

A strategy decides which applications a search makes on a goal, and it does so twice.

* When the queue of a goal is **filled**, the applications in its match index are looked at. Those
  of automatic rules that have a finite cost are made complete, and the complete ones that have a
  finite cost go into the queue (`Strategy.offers`).
* When an application of the queue comes up to be **handed out**, the strategy is asked whether it
  approves of it.

The queue of a goal is filled once while the goal stands still. But the strategy may look at the
rest of the proof too, and this can have changed in between. So a strategy is given here by what it
says at the one moment and what it says at the other, both for a goal, and the two need not agree.
They do if the strategy is **steady** (`Strategy.Steady`).

The **default strategy** ranks applications by a feature and completes them by trying the ground
terms of the sequent.
-/

namespace SequentSearch

/-- How applications are chosen. -/
structure Strategy where
  /-- the name of the strategy -/
  name : String := "default"
  /-- the cost of an application when the queue of a goal is filled -/
  cost : FeatureContext → RuleApp → Cost
  /-- whether an application may be made when it is to be handed out -/
  approves : FeatureContext → RuleApp → Bool
  /-- the complete applications that an application found by matching is turned into -/
  complete : FeatureContext → Sequent → RuleApp → List RuleApp

/-- The complete applications for a goal with their costs, in the order of the match index. -/
def Strategy.offers (s : Strategy) (ctx : FeatureContext) (index : MatchIndex) (seq : Sequent) :
    List (Cost × RuleApp) :=
  (index.apps.filter fun app => app.rule.automatic && !(s.cost ctx app).isTop).flatMap fun app =>
    ((s.complete ctx seq app).map fun c => (s.cost ctx c, c)).filter fun o => !o.1.isTop

/-- **A steady strategy** approves of what it gave a finite cost when the queue was filled. What it
says about an application does not change while the goal stands still. -/
def Strategy.Steady (s : Strategy) : Prop :=
  ∀ ctx app, (s.cost ctx app).isTop = false → s.approves ctx app

/-! ## The default strategy -/

/-- The strategy that ranks applications by a feature. What the feature says when the queue is
filled and what it says when an application is handed out are two features here. They are the same
if the feature depends on nothing but the goal. -/
structure DefaultStrategy where
  /-- the name of the strategy -/
  name : String := "default"
  /-- the costs of the applications of automatic rules when the queue of a goal is filled -/
  feature : Feature
  /-- their costs when an application is handed out -/
  later : Feature := feature

namespace DefaultStrategy

/-- The decisions of a default strategy: an application is approved of if its cost is finite, and is
completed by trying the ground terms of the sequent. -/
def toStrategy (s : DefaultStrategy) : Strategy where
  name := s.name
  cost := s.feature.automaticOnly
  approves ctx app := !(s.later.automaticOnly ctx app).isTop
  complete _ seq app := app.completions seq

instance : Coe DefaultStrategy Strategy := ⟨toStrategy⟩

/-- The feature of the usual strategy: the weights of the rule sets of the rule, a penalty for
branching and the depth of the focus. An application is not repeated on a branch, and rules of no
weighted rule set are not used. -/
def usualFeature (settings : Settings) : Feature :=
  .sum [.dispatch .top (settings.weights.map fun w => (w.1, .const (.number w.2))),
    .nonDuplicate, .branching settings.branchingCost, .focusDepth]

/-- The default strategy for a feature that depends on nothing but the goal. -/
def ofFeature (feature : Feature) : DefaultStrategy := { feature := feature }

/-- The usual strategy for given settings. -/
def ofSettings (settings : Settings) : DefaultStrategy := ofFeature (usualFeature settings)

end DefaultStrategy

/-- The strategy that ranks by a feature alone. -/
def Strategy.ofFeature (feature : Feature) : Strategy := DefaultStrategy.ofFeature feature

/-- The usual strategy for given settings. -/
def Strategy.ofSettings (settings : Settings) : Strategy := DefaultStrategy.ofSettings settings

end SequentSearch
