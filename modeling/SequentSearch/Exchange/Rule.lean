import SequentSearch.Calculus.Execution
import SequentSearch.Calculus.FirstOrder
import SequentSearch.Exchange.Term
import SequentSearch.Rule.Printer

/-!
# Reading rules

A rule is a record, or the name of a rule of the calculi of this library.
-/

namespace SequentSearch

namespace Datum

/-- The tests of custom conditions, by name. They look at the first variable of the condition. -/
def customTest (name : String) (vars : List SchemaVar) (σ : Instantiations) : Bool :=
  let value := vars.head?.bind σ.term?
  match name with
  | "always" => true
  | "ground" => value.any Term.isGround
  | "rigid" => value.any Term.isRigid
  | _ => false

/-- Read a side condition. -/
def condition : Reader Condition
  | list [text "notFreeIn", x, sv] => do return .notFreeIn (← x.schemaVar) (← sv.schemaVar)
  | list [text "different", a, b] => do return .different (← a.schemaVar) (← b.schemaVar)
  | list [text "custom", text name, svs, text test] => do
    let vars ← svs.each schemaVar
    return .custom name vars (customTest test vars)
  | _ => .error .malformed

/-- Read a find part. -/
def findPart : Reader FindPart
  | list [text kind, t] => do
    let t ← t.term
    match [FindPart.subterm t, .antec t, .succ t].find? (·.kind == kind) with
    | some find => return find
    | none => .error .malformed
  | _ => .ok .nothing

/-- Read what takes the place of the focus. -/
def replacement : Reader Replacement
  | list [text "term", t] => do return .term (← t.term)
  | list [text "seq", s] => do return .sequent (← s.pattern)
  | _ => .ok .keep

/-- Read a goal template. -/
def template : Reader GoalTemplate := fun d => do
  let label ← (d.field "label").optional string
  let replace ← (d.field "replace").replacement
  let add ← (d.field "add").pattern
  return ⟨label, replace, add⟩

/-- Read a draft of a rule. -/
def draft : Reader RuleDraft := fun d => do
  let name ← (d.field "name").string
  let find ← (d.field "find").findPart
  let assumes ← (d.field "assumes").pattern
  let conditions ← (d.field "conds").each condition
  let ruleSets ← (d.field "ruleSets").each string
  let templates ← (d.field "goals").each template
  let external ← (d.field "external").each schemaVar
  let shownAs ← (d.field "displayName").optional string
  return {
    name := name, find := find, assumes := assumes, conditions := conditions
    ruleSets := ruleSets, templates := templates, external := external
    automatic := !(d.field "interactiveOnly").flag
    interactive := !(d.field "nonInteractive").flag
    shownAs := shownAs }

/-- Read a rule. -/
def rule : Reader Rule
  | text name => (text name).word (Calculus.symbolicExecution.map fun r => (r.name, r))
  | d => do
    match (← d.draft).accept with
    | .ok r => .ok r
    | .error e => .error (.rule e)

/-- The calculi, by name. -/
def calculi : List (String × List Rule) :=
  [("propositional", Calculus.propositional), ("first_order", Calculus.firstOrder),
    ("symbolic_execution", Calculus.symbolicExecution)]

/-- Read a rule, or the name of a calculus, which stands for its rules. -/
def ruleOrCalculus : Reader (List Rule)
  | text name =>
    match calculi.lookup name with
    | some rs => .ok rs
    | none => do return [← (text name).rule]
  | d => do return [← d.rule]

/-- Read rules. -/
def rules : Reader (List Rule)
  | list ds => do return (← ds.mapM ruleOrCalculus).flatten
  | null => .ok []
  | d => d.ruleOrCalculus

end Datum

end SequentSearch
