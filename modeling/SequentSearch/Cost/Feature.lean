import SequentSearch.Application.Basic
import SequentSearch.Cost.Binary64
import SequentSearch.Proof.IdTable

/-!
# Features

A **feature** gives every application for a goal a cost. Features are plain functions, built from a
few basic ones by the combinators of this module: constants, sums, affine maps, case distinctions
and a dispatch over the rule sets of the rule.

All of these depend on nothing but the goal. A feature that looks at other parts of the proof is
left out: what it says may change while the goal stands still. Strategies that rank by such a
feature are covered all the same, since a strategy is asked twice about an application (see
`DefaultStrategy`).
-/

namespace SequentSearch

/-- The applications that led to a goal, the last one first. -/
abbrev Trail := List RuleApp

/-- What a feature sees of a goal. -/
structure FeatureContext where
  /-- its leaf -/
  node : NodeId
  /-- the applications that led to it -/
  trail : Trail

/-- A cost for every application for a goal. -/
abbrev Feature := FeatureContext → RuleApp → Cost

namespace Feature

/-- The same cost for every application. -/
def const (c : Cost) : Feature := fun _ _ => c

/-- A feature for automatic search: rules that are not meant for it are never chosen. -/
def automaticOnly (f : Feature) : Feature := fun ctx app =>
  if app.rule.automatic then f ctx app else .top

/-! ## Affine maps -/

/-- Coefficients nearer to zero than this count as zero. -/
def threshold : Binary64 := .round (mkRat 1 10000000)

/-- The image of a cost under `n ↦ coeff * n + offset`, rounded to an integer. `top` stays as it is,
unless the coefficient is zero. -/
def affineCost (coeff : Binary64) (offset : Int) : Cost → Cost
  | .top => if coeff.isWithin threshold then .number offset else .top
  | .number n =>
    let scaled := ((coeff.mul (.ofInt n)).add (.round (mkRat 1 2))).floor
    .number (saturate (scaled + offset))

/-- An affine map applied to a feature. -/
def affine (f : Feature) (coeff : Binary64) (offset : Int) : Feature := fun ctx app =>
  affineCost coeff offset (f ctx app)

/-- A multiple of a feature. -/
def scaled (f : Feature) (coeff : Binary64) : Feature := f.affine coeff 0

/-! ## Case distinctions -/

/-- One feature where a condition has the given cost, another one elsewhere. -/
def cond (f : Feature) (value : Cost) (yes no : Feature) : Feature := fun ctx app =>
  if f ctx app = value then yes ctx app else no ctx app

/-- One cost where a condition has the given cost, another one elsewhere. -/
def condConst (f : Feature) (value yes no : Cost) : Feature :=
  f.cond value (const yes) (const no)

/-- A case distinction on the cost zero. -/
def binary (f yes no : Feature) : Feature := f.cond .zero yes no

/-- A case distinction on the cost zero between two costs. -/
def binaryConst (f : Feature) (yes no : Cost) : Feature := f.condConst .zero yes no

/-- The map that sends `top` to `imgTop` and the number `dom` to `img`: a shift if `top` is to stay,
a test on the cost `top` if not. The difference that costs are shifted by is not saturated, so it
has to be in the range. -/
def throughTop (f : Feature) (dom : Int) (imgTop img : Cost) : Except Fault Feature :=
  match imgTop, img with
  | .top, .number i =>
    if inRange (i - dom) then .ok (f.affine (.ofInt 1) (i - dom)) else .error .overflow
  | .top, .top => .ok (const .top)
  | _, _ => .ok (f.condConst .top imgTop img)

/-- The affine map through two points with finite coordinates. -/
def throughNumbers (f : Feature) (dom₀ dom₁ img₀ img₁ : Int) : Feature :=
  let d₀ := Binary64.ofInt dom₀
  let i₀ := Binary64.ofInt img₀
  let coeff := ((Binary64.ofInt img₁).sub i₀).div ((Binary64.ofInt dom₁).sub d₀)
  f.affine coeff (i₀.sub (d₀.mul coeff)).truncate

/-- The map that sends the cost `dom₀` to `img₀` and `dom₁` to `img₁`. If the images are equal it is
constant. A point with a coordinate `top` makes it a case distinction or a shift. -/
def throughPoints (f : Feature) (dom₀ dom₁ img₀ img₁ : Cost) : Except Fault Feature :=
  if dom₀ = dom₁ then .error .equalPoints
  else if img₀ = img₁ then .ok (const img₀)
  else
    match dom₀, dom₁, img₀, img₁ with
    | .top, .number d₁, _, _ => f.throughTop d₁ img₀ img₁
    | .number d₀, .top, _, _ => f.throughTop d₀ img₁ img₀
    | _, _, .top, _ => .ok (f.condConst dom₁ img₁ .top)
    | _, _, _, .top => .ok (f.condConst dom₀ img₀ .top)
    | .number d₀, .number d₁, .number i₀, .number i₁ => .ok (f.throughNumbers d₀ d₁ i₀ i₁)
    | .top, .top, _, _ => .ok (const .top)

/-! ## Sums -/

/-- The sum of features. -/
def sum (fs : List Feature) : Feature := fun ctx app => .sum (fs.map fun f => f ctx app)

/-- The features of a table that are given for a rule set, added up; none if there are none. -/
def ofSet (table : List (String × Feature)) (set : String) : Option Feature :=
  match table.filter (·.1 == set) with
  | [] => none
  | given => some (sum (given.map (·.2)))

/-- The features given for the rule sets of the rule, added up. Rules for whose rule sets nothing is
given have the default cost. -/
def dispatch (default : Cost) (table : List (String × Feature)) : Feature := fun ctx app =>
  match app.rule.ruleSets.filterMap (ofSet table) with
  | [] => default
  | fs => sum fs ctx app

/-! ## Basic features -/

/-- Zero for the rules of a rule set, `top` for all others. -/
def inRuleSet (set : String) : Feature := fun _ app =>
  if app.rule.inRuleSet set then .zero else .top

/-- `top` for an application that was made on the branch before. -/
def nonDuplicate : Feature := fun ctx app =>
  if ctx.trail.any fun done => done.same app then .top else .zero

/-- A cost for each goal beyond the first that the rule leaves. -/
def branching (perGoal : Int) : Feature := fun _ app =>
  .number (saturate (((app.rule.templates.length - 1 : Nat) : Int) * perGoal))

/-- The depth of the focus in its formula. -/
def focusDepth : Feature := fun _ app =>
  .number (match app.focus with
    | some o => o.pos.length
    | none => 0)

/-- The number of applications that led to the goal. -/
def branchLength : Feature := fun ctx _ => .number ctx.trail.length

end Feature

end SequentSearch
