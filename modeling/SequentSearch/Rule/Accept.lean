import SequentSearch.Rule.Basic

/-!
# Accepting rules

A draft becomes a rule if

* no fresh constant is asked for in a pattern that is matched,
* patterns and templates of formulas are formulas,
* each replacement fits the find part,
* conditions on bound variables name variables for them, and
* every schema variable that a template or condition uses is bound by matching, stands for a fresh
  constant, or is declared to be supplied from outside.

The checks are made in this order, and the first one that fails gives the error.
-/

namespace SequentSearch

/-- Why a draft is not accepted. -/
inductive RuleError where
  /-- a schema variable is used and never bound -/
  | unbound (rule sv : String)
  /-- a variable for a fresh constant occurs in a pattern -/
  | skolemInPattern (rule sv : String)
  /-- a goal replaces what the find part does not focus on -/
  | replacementMismatch (rule : String) (goal : Nat)
  /-- a condition on a bound variable names a schema variable of another kind -/
  | notAVariable (rule sv : String)
  /-- a term stands where a formula is needed -/
  | formulaExpected (rule : String) (term : Term)
  /-- a formula would be replaced by a term, or a term by a formula -/
  | sortMismatch (rule : String) (term : Term)

namespace RuleError

/-- The text of an error. -/
def message : RuleError → Except Fault String
  | unbound rule sv => .ok ("taclet " ++ rule ++ ": schema variable " ++ sv ++ " is never bound")
  | skolemInPattern rule sv =>
    .ok ("taclet " ++ rule ++ ": fresh schema variable " ++ sv ++ " occurs in a pattern")
  | replacementMismatch rule goal =>
    .ok ("taclet " ++ rule ++ ": goal " ++ toString goal ++
      " has a replacement that does not fit its find part")
  | notAVariable rule sv =>
    .ok ("taclet " ++ rule ++ ": not-free-in expects a variable schema variable, found " ++ sv)
  | formulaExpected rule t => do
    return "taclet " ++ rule ++ ": expected a formula, found " ++ (← t.render)
  | sortMismatch rule t => do
    return "taclet " ++ rule ++ ": replacement " ++ (← t.render) ++
      " does not have the sort of the find pattern"

end RuleError

/-- Whether a replacement can take the place of the focus of a find part. -/
def FindPart.fits : FindPart → Replacement → Bool
  | _, .keep => true
  | .subterm _, .term _ => true
  | .antec _, .sequent _ => true
  | .succ _, .sequent _ => true
  | _, _ => false

namespace RuleDraft

/-- The patterns that are matched: find part, then assumes part. -/
def patterns (d : RuleDraft) : List Term := d.find.pattern?.toList ++ d.assumes.formulas

/-- The schema variables that matching binds, one entry per occurrence. -/
def matchedVars (d : RuleDraft) : List SchemaVar := d.patterns.flatMap Term.schemaVars

/-- The schema variables that templates and conditions use, one entry per occurrence. -/
def usedVars (d : RuleDraft) : List SchemaVar :=
  (d.templates.flatMap GoalTemplate.terms).flatMap Term.schemaVars ++
    d.conditions.flatMap Condition.schemaVars

/-- No fresh constant is matched. -/
def checkPatterns (d : RuleDraft) : Except RuleError Unit :=
  match d.matchedVars.find? SchemaVar.isSkolem with
  | some sv => .error (.skolemInPattern d.name sv.name)
  | none => .ok ()

/-- Terms that have to be formulas are. -/
def checkFormulas (d : RuleDraft) (ts : List Term) : Except RuleError Unit :=
  match ts.find? fun t => !t.isFormula with
  | some t => .error (.formulaExpected d.name t)
  | none => .ok ()

/-- A replacement is of the kind and the sort of the focus: formulas for formulas, terms for
terms. -/
def checkReplacement (d : RuleDraft) (goal : Nat) (replace : Replacement) : Except RuleError Unit :=
  if d.find.fits replace then
    match d.find, replace with
    | .subterm p, .term t =>
      if p.isFormula = t.isFormula then .ok () else .error (.sortMismatch d.name t)
    | _, .sequent s => d.checkFormulas s.formulas
    | _, _ => .ok ()
  else .error (.replacementMismatch d.name goal)

/-- The templates, the first of which has number `goal`, fit the find part. -/
def checkTemplates (d : RuleDraft) : Nat → List GoalTemplate → Except RuleError Unit
  | _, [] => .ok ()
  | goal, g :: gs => do
    d.checkReplacement goal g.replace
    d.checkFormulas g.add.formulas
    d.checkTemplates (goal + 1) gs

/-- Conditions on bound variables name schema variables for them. -/
def checkConditions (d : RuleDraft) : List Condition → Except RuleError Unit
  | [] => .ok ()
  | .notFreeIn x _ :: cs =>
    match x.kind with
    | .logicVar _ => d.checkConditions cs
    | _ => .error (.notAVariable d.name x.name)
  | _ :: cs => d.checkConditions cs

/-- Whether a schema variable has a value by the time a rule is applied. -/
def isBound (d : RuleDraft) (sv : SchemaVar) : Bool :=
  d.matchedVars.contains sv || sv.isSkolem || d.external.contains sv

/-- Every schema variable that is used is bound. -/
def checkBound (d : RuleDraft) : Except RuleError Unit :=
  match d.usedVars.find? fun sv => !d.isBound sv with
  | some sv => .error (.unbound d.name sv.name)
  | none => .ok ()

/-- Accept a draft as a rule, or say why not. -/
def accept (d : RuleDraft) : Except RuleError Rule := do
  d.checkPatterns
  d.checkFormulas (d.find.formula?.toList ++ d.assumes.formulas)
  d.checkTemplates 0 d.templates
  d.checkConditions d.conditions
  d.checkBound
  return { d with schemaVars := (d.matchedVars ++ d.usedVars ++ d.external).eraseDups }

/-- The accepted ones of a list of drafts. -/
def acceptAll (ds : List RuleDraft) : List Rule := ds.filterMap fun d => d.accept.toOption

end RuleDraft

end SequentSearch
