import SequentSearch.Exchange.Datum
import SequentSearch.Sequent.Edit

/-!
# Reading terms, programs and sequents

A variable is `["var", name, sort]`, an application `["fn", name, sort, args...]` and so on, one
form for each operator. Where a form lists the parts of a term freely, the term is put together by
`Term.build`, which checks the arity.
-/

namespace SequentSearch

namespace Datum

/-- Read a logic variable. -/
def logicVar : Reader LogicVar
  | list [text name, text sort] => .ok ⟨name, ⟨sort⟩⟩
  | _ => .error .malformed

/-- Read the kind of a schema variable that has a sort or a class. -/
def sortedKind (kind sort : String) : Except ReadError SchemaKind :=
  match kind, ProgramClass.ofName? sort with
  | "term", _ => .ok (.term ⟨sort⟩)
  | "variable", _ => .ok (.logicVar ⟨sort⟩)
  | "skolem", _ => .ok (.skolem ⟨sort⟩)
  | "program", some cls => .ok (.program cls)
  | "plist", some cls => .ok (.program cls)
  | _, _ => .error .malformed

/-- Read a schema variable. -/
def schemaVar : Datum → Except ReadError SchemaVar
  | list [text "rigid", sv] => do return (← schemaVar sv).asRigid
  | list [text "formula", text name] => .ok { name := name, kind := .formula }
  | list [text "label", text name] => .ok { name := name, kind := .label }
  | list [text kind, text name, text sort] => do
    return { name := name, kind := ← sortedKind kind sort, list := kind == "plist" }
  | _ => .error .malformed

/-- Read a binder. -/
def binder : Reader Binder
  | list ds => do return .logic (← logicVar (list ds))
  | d => do return .schema (← schemaVar (d.field "sv"))

/-- Read a label. -/
def label : Reader Label
  | text name => .ok (.name name)
  | d => do return .schema (← schemaVar (d.field "sv"))

/-! ## Programs -/

/-- The words for the kinds of program elements that have nothing but children. -/
def programKinds : List (String × ProgramKind) :=
  [("skip", .skip), ("assign", .assign), ("if", .ifElse), ("while", .loop), ("block", .block),
    ("return", .ret), ("rawctx", .context)]

/-- The words for binary operators. -/
def binaryOps : List (String × BinaryOp) :=
  [BinaryOp.add, .sub, .eq, .lt].map fun op => (op.glyph, op)

/-- Put a program element together. The children are the given data, read as programs. -/
def assembleProgram (form : String) (ds : List Datum) (ps : List (Except ReadError Program)) :
    Except ReadError Program :=
  match form, ds with
  | "var", [text name, text sort] => .ok (.var ⟨name, ⟨sort⟩⟩)
  | "int", [n] => do return .node (.lit (.int (← n.int))) []
  | "bool", [b] => .ok (.node (.lit (.bool b.flag)) [])
  | "binop", op :: _ => do return .node (.binary (← op.word binaryOps)) (← (ps.drop 1).mapM id)
  | "sv", [sv] => do return .schema (← sv.schemaVar)
  | "ctx", _ => do return .activeBlock (← ps.mapM id)
  | _, _ => do return .node (← (text form).word programKinds) (← ps.mapM id)

mutual

/-- Read a program element. -/
def program : Datum → Except ReadError Program
  | list (text form :: ds) => assembleProgram form ds (programEach ds)
  | _ => .error .malformed

/-- Read each of some data as a program element. -/
def programEach : List Datum → List (Except ReadError Program)
  | [] => []
  | d :: ds => program d :: programEach ds

end

/-! ## Terms -/

/-- The words for the operators that have nothing but subterms. -/
def operators : List (String × Operator) :=
  [("true", .connective .top), ("false", .connective .bot), ("not", .connective .neg),
    ("and", .connective .conj), ("or", .connective .disj), ("imp", .connective .impl),
    ("equiv", .connective .iff), ("all", .quantifier .all), ("ex", .quantifier .ex),
    ("eq", .equals), ("ite", .ifElse), ("subst", .subst)]

/-- The words for quantifiers. -/
def quantifiers : List (String × Quantifier) := [("all", .all), ("ex", .ex)]

/-- The words for modalities. -/
def modalities : List (String × Modality) := [("dia", .diamond), ("box", .box)]

/-- Read an operator. -/
def operator : Reader Operator
  | list [text "var", text name, text sort] => .ok (.var ⟨name, ⟨sort⟩⟩)
  | list [text "pv", text name, text sort] => .ok (.progVar ⟨name, ⟨sort⟩⟩)
  | list [text "fn", text name, text sort, arity, rigid] => do
    return .func { FunSym.function name ⟨sort⟩ (← arity.nat) with rigid := rigid.flag }
  | list [text "sv", sv] => do return .schema (← sv.schemaVar)
  | list [m, p] => do return .modal (← m.word modalities) (← p.program)
  | list [form] => form.word operators
  | _ => .error .malformed

/-- Put a term together from an operator and its subterms. -/
def buildTerm (op : Operator) (ts : List (Except ReadError Term)) : Except ReadError Term := do
  ReadError.ofFault (Term.build op (← ts.mapM id) [] [])

/-- Put a term together. The subterms are the given data, read as terms. -/
def assembleTerm (form : String) (ds : List Datum) (ts : List (Except ReadError Term)) :
    Except ReadError Term :=
  match form, ds, ts with
  | "var", [text name, text sort], _ => .ok (.var ⟨name, ⟨sort⟩⟩)
  | "pv", [text name, text sort], _ => .ok (.progVar ⟨name, ⟨sort⟩⟩)
  | "const", [text name, text sort], _ => .ok (.const name ⟨sort⟩)
  | "pred", text name :: _, _ :: ts => buildTerm (.func (.predicate name ts.length)) ts
  | "fn", text name :: text sort :: _, _ :: _ :: ts =>
    buildTerm (.func (.function name ⟨sort⟩ ts.length)) ts
  | "nrfn", text name :: text sort :: _, _ :: _ :: ts =>
    buildTerm (.func (FunSym.function name ⟨sort⟩ ts.length).flexible) ts
  | "fnx", text name :: text sort :: arity :: _, _ :: _ :: _ :: ts => do
    buildTerm (.func (.function name ⟨sort⟩ (← arity.nat))) ts
  | "subst", [x, _, _], [_, s, t] => do return .substOp (← x.binder) (← s) (← t)
  | "sv", [sv], _ => do return .schema (← sv.schemaVar)
  | "label", [_, ls], [t, _] => do return (← t).withLabels (← ls.each label)
  | "all", [xs, _], [_, t] => do return .quantify .all (← xs.each binder) (← t)
  | "ex", [xs, _], [_, t] => do return .quantify .ex (← xs.each binder) (← t)
  | "dia", [p, _], [_, t] => do return .modal .diamond (← p.program) (← t)
  | "box", [p, _], [_, t] => do return .modal .box (← p.program) (← t)
  | _, _, _ => do buildTerm (← (text form).word operators) ts

mutual

/-- Read a term. -/
def term : Datum → Except ReadError Term
  | list [text "build", op, subs, bound, ls] => do
    let op ← op.operator
    let ts ← (termItems subs).mapM id
    let bound ← bound.each (each binder)
    ReadError.ofFault (Term.build op ts bound (← ls.each label))
  | list (text form :: ds) => assembleTerm form ds (termEach ds)
  | _ => .error .malformed

/-- Read each item of a list as a term. -/
def termItems : Datum → List (Except ReadError Term)
  | list ds => termEach ds
  | _ => []

/-- Read each of some data as a term. -/
def termEach : List Datum → List (Except ReadError Term)
  | [] => []
  | d :: ds => term d :: termEach ds

end

/-! ## Sequents and positions -/

/-- Read a side. -/
def side : Reader Side := word [("antec", .antec), ("succ", .succ)]

/-- Read a formula of a sequent. -/
def formula : Reader SeqFormula := fun d => do ReadError.ofFault (SeqFormula.ofTerm (← d.term))

/-- Read formulas of a sequent. The first of them that cannot be read, or is none, decides the
error. -/
def formulas : Reader (List SeqFormula) := fun d => d.each formula

/-- Read a schematic sequent. -/
def pattern : Reader SequentPattern := fun d => do
  let antec ← (d.field "antec").each term
  let succ ← (d.field "succ").each term
  return ⟨antec, succ⟩

/-- Read a sequent as it stands. -/
def rawSequent : Reader Sequent := fun d => do
  let antec ← (d.field "antec").formulas
  let succ ← (d.field "succ").formulas
  return ⟨antec, succ⟩

/-- Read a sequent. Unless it is to be taken raw, all its terms are read before the first of them is
added, and redundant formulas are left out. -/
def sequent : Reader Sequent := fun d => do
  if (d.field "raw").flag then
    d.rawSequent
  else
    let s ← d.pattern
    ReadError.ofFault (Sequent.ofTerms s.antec s.succ)

/-- Read an edit of a sequent, if it is one. -/
def edit? : Datum → Except ReadError (Option Edit)
  | list [text "insert", s, i, t] => do return some (.insert (← s.side) (← i.nat) [← t.formula])
  | list [text "insertAll", s, i, ts] =>
    do return some (.insert (← s.side) (← i.nat) (← ts.formulas))
  | list [text "remove", s, i] => do return some (.remove (← s.side) (← i.nat))
  | list [text "replace", s, i, ts] => do
    return some (.replace (← s.side) (← i.nat) (← ts.formulas))
  | _ => .ok none

/-- Read a position in a term. -/
def position : Reader Position := fun d => do return Position.ofIndices (← d.each nat)

/-- Read a formula of a sequent, given by its index or by itself. -/
def formulaOn (fs : Semisequent) : Reader SeqFormula
  | number n e => do
    let idx ← (number n e).nat
    match fs[idx]? with
    | some f => .ok f
    | none => .error (.noSuchFormula idx)
  | d => d.formula

/-- Read a place in a sequent, if there is one. -/
def occurrence (seq : Sequent) : Reader (Option Occurrence)
  | list [s, f, p] => do
    let s ← s.side
    return some ⟨s, ← f.formulaOn (seq.side s), ← p.position⟩
  | _ => .ok none

/-! ## Instantiations -/

/-- Read the value of a schema variable. -/
def instantiation : Reader Instantiation
  | list [text "term", t] => do return .term (← t.term)
  | list [text "prog", p] => do return .program (← p.program)
  | list [text "plist", ps] => do return .programs (← ps.each program)
  | list [text "labels", ls] => do return .labels (← ls.each label)
  | _ => .error .malformed

/-- Read a program context. -/
def context : Reader ProgramContext
  | list [outer, depth, consumed] => do return ⟨← outer.program, ← depth.nat, ← consumed.nat⟩
  | _ => .error .malformed

/-- Add a binding to instantiations. -/
def addBinding (σ : Instantiations) : Reader Instantiations
  | list [sv, inst] => do
    let sv ← sv.schemaVar
    match σ.add sv (← inst.instantiation) with
    | some τ => .ok τ
    | none => .error (.rebound sv.name)
  | _ => .error .malformed

/-- Add the bindings and the context of a record to instantiations. -/
def extend (σ : Instantiations) : Reader Instantiations := fun d => do
  let τ ← (d.field "insts").items.foldlM addBinding σ
  match ← (d.field "context").optional context with
  | none => .ok τ
  | some ctx =>
    match τ.withContext ctx with
    | some υ => .ok υ
    | none => .error (.rebound "context")

/-- Add a pair of bound variables to a renaming. -/
def addPair (ρ : Renaming) : Reader Renaming
  | list [x, y] => do return ρ.push (← x.logicVar) (← y.logicVar)
  | _ => .error .malformed

/-- Read a renaming. -/
def renamings : Reader Renaming := fun d => d.items.foldlM addPair .empty

end Datum

end SequentSearch
