import SequentSearch.Instantiation

/-!
# Matching patterns

A pattern is a term or program with schema variables. Matching it against a candidate extends given
instantiations, or fails; failure carries no information beyond "no".

* `Renaming` pairs the logic variables bound by the pattern with those bound by the candidate. It is
  scoped: a subterm is matched under the pairs of the binders around it, and nothing comes back out.
* `Term.matchInto` matches terms. A schema variable never takes a term that mentions a variable
  bound by the candidate in the place of a variable bound by the pattern.
* `Program.matchInto` and `Program.matchRun` match program elements and sequences of them. A list
  variable takes the longest run of elements it may stand for and gives none back. Active statements
  are looked for at the level of the block first, then in each leading nested block, outermost
  first.
-/

namespace SequentSearch

/-- Pairs of a pattern variable and a candidate variable bound at the same place, innermost
first. -/
structure Renaming where
  /-- the pairs -/
  pairs : List (LogicVar × LogicVar) := []

namespace Renaming

/-- No binder entered. -/
def empty : Renaming := {}

/-- The number of binders entered. -/
def depth (ρ : Renaming) : Nat := ρ.pairs.length

/-- Enter a binder. -/
def push (ρ : Renaming) (pattern candidate : LogicVar) : Renaming :=
  ⟨(pattern, candidate) :: ρ.pairs⟩

/-- Leave all binders but the outermost `n`. -/
def truncate (ρ : Renaming) (n : Nat) : Except Fault Renaming :=
  if n ≤ ρ.depth then .ok ⟨ρ.pairs.drop (ρ.depth - n)⟩ else .error .outOfRange

/-- Whether an occurrence of `x` in the pattern may stand against one of `y` in the candidate: both
refer to the same pair of binders, or both are free and equal. -/
def corresponds (ρ : Renaming) (x y : LogicVar) : Bool :=
  match ρ.pairs.findIdx? (·.1 == x), ρ.pairs.findIdx? (·.2 == y) with
  | none, none => x == y
  | i, j => i == j

/-- Whether `y` is bound by the candidate in the place of a pattern binder. -/
def bindsCandidate (ρ : Renaming) (y : LogicVar) : Bool := ρ.pairs.any (·.2 == y)

end Renaming

namespace Program

/-- Bind a schema variable in the place of one program element. -/
def matchVar (sv : SchemaVar) (candidate : Program) (σ : Instantiations) : Option Instantiations :=
  match sv.kind with
  | .program cls =>
    if cls.admits candidate then
      σ.add sv (if sv.list then .programs [candidate] else .program candidate)
    else none
  | _ => none

/-- The first of the leading nested blocks, outermost first and numbered from `depth`, whose
children `find` accepts. -/
def findActive {α : Type} (find : List Program → Option α) (depth : Nat) :
    Program → Option (Nat × α)
  | node _ [] => (find []).map fun a => (depth, a)
  | node _ (first :: rest) =>
    match find (first :: rest) with
    | some a => some (depth, a)
    | none => if first.kind = .block then findActive find (depth + 1) first else none

/-- Find active statements in a block and record the context around them. -/
def matchActive (find : List Program → Option (Instantiations × Nat)) (candidate : Program) :
    Option Instantiations :=
  if candidate.kind = .block then
    match findActive find 0 candidate with
    | some (depth, σ, consumed) => σ.withContext ⟨candidate, depth, consumed⟩
    | none => none
  else none

mutual

/-- Match a program pattern against an element. -/
def matchInto : Program → Program → Instantiations → Option Instantiations
  | node .block [node .context active], candidate, σ =>
    matchActive (fun cs => matchRun active cs σ) candidate
  | node (.schema sv) _, candidate, σ => matchVar sv candidate σ
  | node .context _, _, _ => none
  | node kind children, candidate, σ =>
    if kind = candidate.kind then
      match matchRun children candidate.children σ with
      | some (τ, n) => if n = candidate.children.length then some τ else none
      | none => none
    else none

/-- Match a sequence of patterns against the front of a sequence of elements, and count the elements
taken. -/
def matchRun : List Program → List Program → Instantiations → Option (Instantiations × Nat)
  | [], _, σ => some (σ, 0)
  | p :: ps, cs, σ =>
    match p.listVar? with
    | some sv =>
      match sv.kind with
      | .program cls =>
        let run := cs.takeWhile cls.admits
        match σ.add sv (.programs run) with
        | some τ => (matchRun ps (cs.drop run.length) τ).map fun (υ, n) => (υ, run.length + n)
        | none => none
      | _ => none
    | none =>
      match cs with
      | [] => none
      | c :: cs =>
        match matchInto p c σ with
        | some τ => (matchRun ps cs τ).map fun (υ, n) => (υ, n + 1)
        | none => none

end

end Program

namespace Term

/-- Whether the kind of a schema variable allows a term. Fresh constants are made up when a rule is
applied, so a variable that stands for one matches nothing. -/
def fitsKind (sv : SchemaVar) (t : Term) : Bool :=
  match sv.kind with
  | .formula => t.isFormula
  | .term s => !t.isFormula && t.sort.isSubsortOf s
  | .logicVar s => t.logicVar?.any fun x => x.sort.isSubsortOf s
  | .skolem _ | .program _ | .label => false

/-- Bind a schema variable in the place of a term. -/
def matchVar (ρ : Renaming) (sv : SchemaVar) (candidate : Term) (σ : Instantiations) :
    Option Instantiations :=
  if fitsKind sv candidate && (!sv.rigid || candidate.isRigid) &&
      !candidate.freeVars.any ρ.bindsCandidate then
    σ.add sv (.term candidate)
  else none

/-- Match binder lists. A schema variable is bound to the variable of the candidate; a logic
variable of the pattern has to have the same sort and opens a scope. -/
def matchBinders : List Binder → List Binder → Renaming → Instantiations →
    Option (Renaming × Instantiations)
  | [], [], ρ, σ => some (ρ, σ)
  | .schema sv :: ps, .logic y :: cs, ρ, σ =>
    match sv.kind with
    | .logicVar s =>
      if y.sort.isSubsortOf s then
        match σ.add sv (.term (var y)) with
        | some τ => matchBinders ps cs ρ τ
        | none => none
      else none
    | _ => none
  | .logic x :: ps, .logic y :: cs, ρ, σ =>
    if x.sort = y.sort then matchBinders ps cs (ρ.push x y) σ else none
  | _, _, _, _ => none

/-- Bind the label variables of a pattern to the labels of the candidate. The other labels of the
pattern need not be there. -/
def matchLabels : List Label → List Label → Instantiations → Option Instantiations
  | [], _, σ => some σ
  | .name _ :: ls, cs, σ => matchLabels ls cs σ
  | .schema sv :: ls, cs, σ =>
    match σ.add sv (.labels cs) with
    | some τ => matchLabels ls cs τ
    | none => none

/-- Match an operator that is neither a schema variable nor a logic variable. -/
def matchOperator : Operator → Operator → Instantiations → Option Instantiations
  | .modal m p, .modal n q, σ => if m = n then p.matchInto q σ else none
  | o, o', σ => if o = o' then some σ else none

mutual

/-- Match a pattern against a term below the binder pairs `ρ`. -/
def matchInto (ρ : Renaming) : Term → Term → Instantiations → Option Instantiations
  | node (.schema sv) _ labels, candidate, σ =>
    match matchVar ρ sv candidate σ with
    | some τ => matchLabels labels candidate.labels τ
    | none => none
  | node (.var x) _ labels, candidate, σ =>
    match candidate.op with
    | .var y => if ρ.corresponds x y then matchLabels labels candidate.labels σ else none
    | _ => none
  | node op args labels, candidate, σ =>
    match matchOperator op candidate.op σ with
    | some τ =>
      match matchArgs ρ args candidate.args τ with
      | some υ => matchLabels labels candidate.labels υ
      | none => none
    | none => none

/-- Match argument lists of equal length, from left to right. -/
def matchArgs (ρ : Renaming) :
    List (List Binder × Term) → List (List Binder × Term) → Instantiations → Option Instantiations
  | [], [], σ => some σ
  | (xs, p) :: ps, (ys, c) :: cs, σ =>
    match matchBinders xs ys ρ σ with
    | some (ρ', τ) =>
      match matchInto ρ' p c τ with
      | some υ => matchArgs ρ ps cs υ
      | none => none
    | none => none
  | _, _, _ => none

end

end Term

end SequentSearch
