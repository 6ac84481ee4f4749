import SequentSearch.Exchange.Datum
import SequentSearch.Search.Chooser
import SequentSearch.Strategy

/-!
# Reading what guides a search

Costs, features, settings, strategies, choosers, stop conditions and budgets.
-/

namespace SequentSearch

namespace Datum

/-- Read a cost. -/
def cost : Reader Cost
  | text "Top" => .ok .top
  | d => do return .number (← d.int)

/-- Read a coefficient: the number of the format nearest to a decimal one, or the name of a value
that is not finite. -/
def coefficient : Reader Binary64
  | number m e => .ok (.round (mkRat m (Nat.pow 10 e)))
  | text "inf" => .ok (.infinite false)
  | text "-inf" => .ok (.infinite true)
  | text "nan" => .ok .undefined
  | _ => .error .malformed

/-- Put a feature together. Its parts are the given data, read as features. -/
def assembleFeature (form : String) (ds : List Datum) (fs : List (Except ReadError Feature)) :
    Except ReadError Feature :=
  match form, ds, fs with
  | "const", [c], _ => do return .const (← c.cost)
  | "scaled", [_, k], [f, _] => do return (← f).scaled (← k.coefficient)
  | "affine", [_, k, b], [f, _, _] => do return (← f).affine (← k.coefficient) (← b.int)
  | "points", [_, a, b, c, d], f :: _ => do
    ReadError.ofFault ((← f).throughPoints (← a.cost) (← b.cost) (← c.cost) (← d.cost))
  | "shannon", [_, v, _, _], [f, _, g, h] => do return (← f).cond (← v.cost) (← g) (← h)
  | "shannonConst", [_, v, a, b], f :: _ => do
    return (← f).condConst (← v.cost) (← a.cost) (← b.cost)
  | "binary", _, [f, g, h] => do return (← f).binary (← g) (← h)
  | "binaryConst", [_, a, b], f :: _ => do return (← f).binaryConst (← a.cost) (← b.cost)
  | "inRuleSet", [text set], _ => .ok (.inRuleSet set)
  | "nonDup", [], _ => .ok .nonDuplicate
  | "branching", [n], _ => do return .branching (← n.int)
  | "findDepth", [], _ => .ok .focusDepth
  | "nodeDepth", [], _ => .ok .branchLength
  | _, _, _ => .error .malformed

mutual

/-- Read a feature. -/
def feature : Datum → Except ReadError Feature
  | list [text "sum", summands] => do return .sum (← (featureItems summands).mapM id)
  | list [text "dispatch", c, weights] => do
    return .dispatch (← c.cost) (← (weightItems weights).mapM id)
  | list (text form :: ds) => assembleFeature form ds (featureEach ds)
  | _ => .error .malformed

/-- Read each item of a list as a feature. -/
def featureItems : Datum → List (Except ReadError Feature)
  | list ds => featureEach ds
  | _ => []

/-- Read each item of a list as a rule set with its feature or cost. -/
def weightItems : Datum → List (Except ReadError (String × Feature))
  | list ds => weightEach ds
  | _ => []

/-- Read each of some data as a feature. -/
def featureEach : List Datum → List (Except ReadError Feature)
  | [] => []
  | d :: ds => feature d :: featureEach ds

/-- Read each of some data as a rule set with its feature or cost. -/
def weightEach : List Datum → List (Except ReadError (String × Feature))
  | [] => []
  | list [text set, list f] :: ds => (feature (list f)).map (set, ·) :: weightEach ds
  | list [text set, c] :: ds => c.cost.map (fun c => (set, .const c)) :: weightEach ds
  | _ :: ds => .error .malformed :: weightEach ds

end

/-- Give a rule set a weight, or take it away. -/
def weigh (s : Settings) : Reader Settings
  | list [text set, w] => do return s.weigh set (← w.optional int)
  | _ => .error .malformed

/-- Read settings. What is missing has its default. -/
def settings : Reader Settings := fun d => do
  let usual : Settings := {}
  let maxSteps ← (d.field "max_steps").optional nat
  let timeout ← (d.field "timeout_ms").optional nat
  let stopMode ← (d.field "stop_mode").optional fun m => do
    ReadError.ofMessage (StopMode.parse (← m.string))
  let chooser ← (d.field "chooser").optional fun c => do
    ReadError.ofMessage (ChooserKind.parse (← c.string))
  let stepLimit ← (d.field "step_limit").optional nat
  let branchingCost ← (d.field "branching_cost").optional int
  (d.field "weights").items.foldlM weigh
    { maxSteps := maxSteps.getD usual.maxSteps
      timeout := timeout
      stopMode := stopMode.getD usual.stopMode
      chooser := chooser.getD usual.chooser
      stepLimit := stepLimit.getD usual.stepLimit
      stopAtFirst := (d.field "stop_at_first").flag
      branchingCost := branchingCost.getD usual.branchingCost }

/-- Read a strategy, given by a feature or by settings. -/
def strategy : Reader Strategy := fun d => do
  match ← (d.field "feature").optional feature with
  | some f => return .ofFeature f
  | none => return .ofSettings (← (d.field "settings").settings)

/-- Read which applications count as significant. -/
def significance : Datum → Significance
  | text set => .inRuleSet set
  | _ => .everyStep

/-- Read a chooser. -/
def chooser : Datum → Chooser
  | list [text "balanced", s] => .newBalanced s.significance
  | _ => .newDepthFirst

/-- Read a stop condition. -/
def stopCondition : Datum → Except ReadError StopCondition
  | list [text "sig", n, s] => do return .significant (← n.nat) s.significance
  | list [text "and", a, b] => do return (← stopCondition a).and (← stopCondition b)
  | null => .ok .budget
  | _ => .error .malformed

/-- Read a budget. -/
def budget : Reader Budget := fun d => do
  let limit ← (d.field "max").optional nat
  let timeout ← (d.field "timeout_ms").optional nat
  let applied ← (d.field "applied").optional nat
  return { maxApplications := limit, timeout := timeout, applied := applied.getD 0 }

/-- Read an identifier. -/
def ident : Reader Nat := fun d => do ReadError.ofFault (checkId (← d.nat))

end Datum

end SequentSearch
