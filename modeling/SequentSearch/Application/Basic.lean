import SequentSearch.Rule.Basic

/-!
# Rule applications

An application is a rule with instantiations and a place to apply it at. It is **complete**, ready
to be executed, once its assumes part is matched, all schema variables but those for fresh constants
have values, and all side conditions hold.
-/

namespace SequentSearch

/-- A rule, the values of its schema variables, and where it applies. -/
structure RuleApp where
  /-- the rule -/
  rule : Rule
  /-- the values of its schema variables -/
  insts : Instantiations
  /-- the focus, if the rule has one -/
  focus : Option Occurrence
  /-- the formulas found for the assumes part, once they are found -/
  assumed : Option (List Occurrence)

namespace RuleApp

/-- An application as matching the find part gives it. An empty assumes part is matched at once. -/
def ofMatch (rule : Rule) (insts : Instantiations) (focus : Option Occurrence) : RuleApp where
  rule := rule
  insts := insts
  focus := focus
  assumed := if rule.assumes.isEmpty then some [] else none

/-- The schema variables that need a value before the rule can be applied. -/
def openVars (app : RuleApp) : List SchemaVar :=
  app.rule.schemaVars.filter fun sv => !sv.isSkolem && !app.insts.has sv

/-- Whether the application can be executed. -/
def isComplete (app : RuleApp) : Bool :=
  app.assumed.isSome && app.openVars.isEmpty && app.rule.conditionsHold true app.insts

/-- Whether a term may be supplied for a schema variable from outside. -/
def accepts (sv : SchemaVar) (t : Term) : Bool :=
  (match sv.kind with
    | .formula => t.isFormula
    | .term s => !t.isFormula && t.sort.isSubsortOf s
    | _ => false) &&
  (!sv.rigid || t.isRigid)

/-- Supply a term for a schema variable; refused if it does not fit, or violates a condition. -/
def supply (app : RuleApp) (sv : SchemaVar) (t : Term) : Option RuleApp :=
  if accepts sv t then
    match app.insts.add sv (.term t) with
    | some σ => if app.rule.conditionsHold false σ then some { app with insts := σ } else none
    | none => none
  else none

/-- Complete the assumes part with formulas of a sequent. -/
def findAssumed (app : RuleApp) (seq : Sequent) : Option RuleApp :=
  if app.assumed.isSome then some app
  else
    (app.rule.matchAssumes .empty seq app.focus app.insts).map fun (σ, found) =>
      { app with insts := σ, assumed := some found }

/-- Whether two applications apply the rule of one name at the same place in the same way. -/
def same (a b : RuleApp) : Bool :=
  a.rule.name == b.rule.name && a.focus == b.focus && a.insts.same b.insts

/-- The written form of an application. -/
def render (app : RuleApp) : Except Fault String := do
  let place ← match app.focus with
    | some o => do pure (" at " ++ (← (← o.subterm).render))
    | none => .ok ""
  let values ←
    if app.insts.isEmpty then .ok "" else do pure (" with " ++ (← app.insts.render))
  return app.rule.displayName ++ place ++ values

end RuleApp

end SequentSearch
