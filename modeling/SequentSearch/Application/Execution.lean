import SequentSearch.Application.Basic
import SequentSearch.NameSupply
import SequentSearch.Sequent.Edit
import SequentSearch.Template

/-!
# Executing applications

Executing a complete application turns a sequent into one successor for each goal template of the
rule. Fresh constants are drawn from the name supply first. They stay in use if the execution fails
later on, so the name supply is returned in any case.
-/

namespace SequentSearch

/-- Why an application cannot be executed. -/
inductive ExecError where
  /-- it is not complete -/
  | incomplete (app : RuleApp)
  /-- the formula of its focus is not in the sequent -/
  | staleFocus (app : RuleApp)
  /-- its rule replaces a focus and it has none -/
  | noFocus (rule : String)
  /-- a template cannot be instantiated -/
  | template (e : TemplateError)
  /-- a promise was broken -/
  | fault (f : Fault)

namespace ExecError

/-- The text of an error. -/
def message : ExecError → Except Fault String
  | incomplete app => do return "rule application " ++ (← app.render) ++ " is not complete"
  | staleFocus app => do return "the focus of " ++ (← app.render) ++ " is not in the sequent"
  | noFocus rule => .ok ("the focus of " ++ rule ++ " is not in the sequent")
  | template (.missing sv) => .ok ("schema variable " ++ sv ++ " has no usable instantiation")
  | template (.notATerm sv) => .ok ("the instantiation of " ++ sv ++ " is not a term")
  | template (.noContext rule) =>
    .ok ("rule " ++ rule ++ " rebuilds a program context that was never matched")
  | template (.fault f) => .error f
  | fault f => .error f

/-- Pass a fault on. -/
def ofFault {α : Type} : Except Fault α → Except ExecError α
  | .ok a => .ok a
  | .error f => .error (.fault f)

/-- Pass an error of a template on. -/
def ofTemplate {α : Type} : Except TemplateError α → Except ExecError α
  | .ok a => .ok a
  | .error e => .error (.template e)

end ExecError

/-- A goal that an application leaves. -/
structure Successor where
  /-- the name of the branch -/
  label : Option String
  /-- what happened to the sequent -/
  change : Change

namespace RuleApp

/-- The stem of the names of fresh constants: the name of the schema variable without the hash marks
in front. -/
def stem (sv : SchemaVar) : String := String.ofList (sv.name.toList.dropWhile (· == '#'))

/-- Give fresh constants to the variables that stand for them and have no value. -/
def drawConstants : List SchemaVar → Instantiations → NameSupply → Instantiations × NameSupply
  | [], σ, ns => (σ, ns)
  | sv :: svs, σ, ns =>
    if sv.isSkolem && !σ.has sv then
      let (name, ns) := ns.fresh (stem sv)
      drawConstants svs ((σ.add sv (.term (.const name sv.sort))).getD σ) ns
    else drawConstants svs σ ns

/-- Instantiate the template of a formula of a successor. -/
def instantiateFormula (rule : String) (σ : Instantiations) (t : Term) :
    Except ExecError SeqFormula := do
  let u ← ExecError.ofTemplate (t.instantiateAndExecute rule σ)
  ExecError.ofFault (SeqFormula.ofTerm u)

/-- Put the replacement of a template in the place of the focus, the formula at index `idx`. -/
def replaceFocus (rule : String) (σ : Instantiations) (seq : Sequent) (o : Occurrence) (idx : Nat) :
    Replacement → Except ExecError Change
  | .keep => .ok (.unchanged seq)
  | .term t => do
    let new ← ExecError.ofTemplate (t.instantiateAndExecute rule σ)
    let formula ← ExecError.ofFault (o.formula.term.replaceAt o.pos new)
    let f ← ExecError.ofFault (SeqFormula.ofTerm formula)
    let step ← ExecError.ofFault (seq.replace o.side idx [f])
    return (Change.unchanged seq).combine step
  | .sequent s => do
    let here ← (s.side o.side).mapM (instantiateFormula rule σ)
    let step ← ExecError.ofFault (seq.replace o.side idx here)
    let change := (Change.unchanged seq).combine step
    let there ← (s.side o.side.other).mapM (instantiateFormula rule σ)
    return change.combine (change.sequent.insertAll o.side.other 0 there)

/-- Add the formulas of a template for a side in front of those that are there. -/
def addFormulas (rule : String) (σ : Instantiations) (side : Side) (ts : List Term)
    (change : Change) : Except ExecError Change := do
  let fs ← ts.mapM (instantiateFormula rule σ)
  return if fs.isEmpty then change else change.combine (change.sequent.insertAll side 0 fs)

/-- The change that a goal template makes to a sequent. -/
def applyTemplate (rule : String) (σ : Instantiations) (seq : Sequent)
    (focus : Option (Occurrence × Nat)) (g : GoalTemplate) : Except ExecError Change := do
  let change ← match g.replace, focus with
    | .keep, _ => .ok (.unchanged seq)
    | _, none => .error (.noFocus rule)
    | r, some (o, idx) => replaceFocus rule σ seq o idx r
  let change ← addFormulas rule σ .antec g.add.antec change
  addFormulas rule σ .succ g.add.succ change

/-- The focus of an application with the index of its formula in a sequent. -/
def locateFocus (app : RuleApp) (seq : Sequent) : Except ExecError (Option (Occurrence × Nat)) :=
  match app.focus with
  | none => .ok none
  | some o =>
    match Semisequent.indexOf? (seq.side o.side) o.formula with
    | some idx => .ok (some (o, idx))
    | none => .error (.staleFocus app)

/-- The successors for all templates of the rule. -/
def successors (app : RuleApp) (σ : Instantiations) (seq : Sequent)
    (focus : Option (Occurrence × Nat)) : Except ExecError (List Successor) :=
  app.rule.templates.mapM fun g => do
    return ⟨g.label, ← applyTemplate app.rule.name σ seq focus g⟩

/-- Execute an application on a sequent. No successors mean that the goal is closed. -/
def execute (app : RuleApp) (seq : Sequent) (ns : NameSupply) :
    Except ExecError (List Successor) × NameSupply :=
  if app.isComplete then
    match app.locateFocus seq with
    | .error e => (.error e, ns)
    | .ok focus =>
      let (σ, ns) := drawConstants app.rule.schemaVars app.insts ns
      (app.successors σ seq focus, ns)
  else (.error (.incomplete app), ns)

end RuleApp

end SequentSearch
