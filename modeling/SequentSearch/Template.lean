import SequentSearch.Instantiation
import SequentSearch.Term.OfProgram
import SequentSearch.Term.Subst

/-!
# Instantiating templates

The way back from instantiations to terms: every schema variable of a template is replaced by its
value. A variable for a program expression may stand in the place of a term and then gives the term
that the expression denotes. List variables are spliced into the sequence they stand in, and active
statements are put back into their context.
-/

namespace SequentSearch

/-- Why a template cannot be instantiated. -/
inductive TemplateError where
  /-- a schema variable has no value, or one of another kind than its place needs -/
  | missing (sv : String)
  /-- a schema variable in the place of a term has a value that denotes no term -/
  | notATerm (sv : String)
  /-- active statements are to be put into a context that was never matched -/
  | noContext (rule : String)
  /-- a value or the context is malformed -/
  | fault (f : Fault)
deriving DecidableEq

/-- Pass a fault on as a reason why a template cannot be instantiated. -/
def TemplateError.ofFault {α : Type} : Except Fault α → Except TemplateError α
  | .ok a => .ok a
  | .error f => .error (.fault f)

namespace Program

mutual

/-- Instantiate a program template of a rule. -/
def instantiate (rule : String) (σ : Instantiations) : Program → Except TemplateError Program
  | node .block [node .context active] =>
    match σ.context with
    | some ctx => do
      let stmts ← instantiateRun rule σ active
      TemplateError.ofFault (ctx.splice stmts)
    | none => .error (.noContext rule)
  | node (.schema sv) _ =>
    match σ.get? sv with
    | some (.program p) => .ok p
    | some (.programs [p]) => .ok p
    | _ => .error (.missing sv.name)
  | node kind children => do return node kind (← instantiateRun rule σ children)

/-- Instantiate a sequence of program templates. -/
def instantiateRun (rule : String) (σ : Instantiations) :
    List Program → Except TemplateError (List Program)
  | [] => .ok []
  | p :: ps =>
    match p.listVar? with
    | some sv =>
      match σ.get? sv with
      | some (.programs run) => do return run ++ (← instantiateRun rule σ ps)
      | _ => .error (.missing sv.name)
    | none => do
      let q ← instantiate rule σ p
      return q :: (← instantiateRun rule σ ps)

end

end Program

namespace Term

/-- Instantiate labels; a label variable gives all labels it is bound to. -/
def instantiateLabels (σ : Instantiations) : List Label → Except TemplateError (List Label)
  | [] => .ok []
  | .name n :: ls => do return .name n :: (← instantiateLabels σ ls)
  | .schema sv :: ls =>
    match σ.get? sv with
    | some (.labels found) => do return found ++ (← instantiateLabels σ ls)
    | _ => .error (.missing sv.name)

/-- Instantiate binders; a schema variable has to stand for a logic variable. -/
def instantiateBinders (σ : Instantiations) : List Binder → Except TemplateError (List Binder)
  | [] => .ok []
  | .logic x :: bs => do return .logic x :: (← instantiateBinders σ bs)
  | .schema sv :: bs =>
    match σ.logicVar? sv with
    | some x => do return .logic x :: (← instantiateBinders σ bs)
    | none => .error (.missing sv.name)

/-- The value of a schema variable that stands in the place of a term. -/
def instantiateVar (σ : Instantiations) (sv : SchemaVar) : Except TemplateError Term :=
  match σ.get? sv with
  | some (.term t) => .ok t
  | some (.program p) => do
    match ← TemplateError.ofFault p.toTerm with
    | some t => return t
    | none => .error (.notATerm sv.name)
  | some _ => .error (.notATerm sv.name)
  | none => .error (.missing sv.name)

/-- Instantiate an operator that is not a schema variable: only programs hold schema variables. -/
def instantiateOperator (rule : String) (σ : Instantiations) :
    Operator → Except TemplateError Operator
  | .modal m p => do return .modal m (← p.instantiate rule σ)
  | op => .ok op

/-- A term with the labels it does not have yet behind its own. -/
def addLabels (t : Term) (ls : List Label) : Term :=
  t.withLabels (t.labels ++ ls.filter fun l => !t.labels.contains l)

mutual

/-- Instantiate a template of a rule. Labels of the template on a schema variable are added to those
of its value. -/
def instantiate (rule : String) (σ : Instantiations) : Term → Except TemplateError Term
  | node (.schema sv) _ labels => do
    let ls ← instantiateLabels σ labels
    let t ← instantiateVar σ sv
    return t.addLabels ls
  | node op args labels => do
    let ls ← instantiateLabels σ labels
    let op' ← instantiateOperator rule σ op
    return node op' (← instantiateArgs rule σ args) ls

/-- Instantiate the arguments of a template, each subterm before its binders. -/
def instantiateArgs (rule : String) (σ : Instantiations) :
    List (List Binder × Term) → Except TemplateError (List (List Binder × Term))
  | [] => .ok []
  | (bound, t) :: rest => do
    let t' ← instantiate rule σ t
    let bound' ← instantiateBinders σ bound
    return (bound', t') :: (← instantiateArgs rule σ rest)

end

/-- Instantiate a template and execute the substitution operators of the result. -/
def instantiateAndExecute (rule : String) (σ : Instantiations) (template : Term) :
    Except TemplateError Term := do
  return (← template.instantiate rule σ).executeSubsts

end Term

end SequentSearch
