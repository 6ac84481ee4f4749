import SequentSearch.Program.Basic

/-!
# Terms

Terms and formulas share one type: an operator, its arguments, and a list of labels. Each argument
is a subterm together with the variables bound in it, so that an operator has one binder list per
subterm by construction. The arity of the operator is checked by `Term.build`, the only way in which
values from outside become terms.

The views below each have one recursion: `freeVars`, `sort`, and `subterms`, the subterms in
pre-order, from which the variables, the schema variables and the rigidity of a term are read off.
-/

namespace SequentSearch

/-- An entry of a bound-variable list. Patterns may bind schema variables; concrete terms bind logic
variables only. -/
inductive Binder where
  | logic (x : LogicVar)
  | schema (sv : SchemaVar)
deriving DecidableEq

namespace Binder

/-- The logic variable that is bound, if it is one. -/
def logic? : Binder → Option LogicVar
  | logic x => some x
  | schema _ => none

/-- The schema variable that is bound, if it is one. -/
def schema? : Binder → Option SchemaVar
  | logic _ => none
  | schema sv => some sv

/-- The written form of a binder. -/
def render : Binder → String
  | logic x => x.name
  | schema sv => sv.render

end Binder

/-- A label of a term. Labels carry no meaning. -/
inductive Label where
  | name (n : String)
  | schema (sv : SchemaVar)
deriving DecidableEq

namespace Label

/-- The schema variable a label consists of, if it is one. -/
def schema? : Label → Option SchemaVar
  | name _ => none
  | schema sv => some sv

/-- The written form of a label. -/
def render : Label → String
  | name n => n
  | schema sv => sv.render

end Label

/-- The operators that terms are built with. -/
inductive Operator where
  | var (x : LogicVar)
  | func (f : FunSym)
  | progVar (v : ProgVar)
  | connective (c : Connective)
  | quantifier (q : Quantifier)
  | equals
  | ifElse
  /-- replaces the variable bound in the second subterm by the first subterm -/
  | subst
  /-- a modality over a program, with the post condition as its only subterm -/
  | modal (m : Modality) (p : Program)
  | schema (sv : SchemaVar)
deriving DecidableEq

namespace Operator

/-- The number of subterms an operator takes. -/
def arity : Operator → Nat
  | var _ | progVar _ | schema _ => 0
  | func f => f.arity.toNat
  | connective c => c.arity
  | quantifier _ | modal _ _ => 1
  | equals | subst => 2
  | ifElse => 3

/-- Whether the operator itself has the same value in all states. -/
def rigid : Operator → Bool
  | progVar _ | modal _ _ => false
  | func f => f.rigid
  | _ => true

/-- The subterm whose binder list an operator uses, if it uses one. -/
def bindingPosition? : Operator → Option Nat
  | quantifier _ => some 0
  | subst => some 1
  | _ => none

/-- The schema variables in an operator itself, those of its program included. -/
def schemaVars : Operator → List SchemaVar
  | schema sv => [sv]
  | modal _ p => p.schemaVars
  | _ => []

end Operator

/-- A term or formula: an operator, its arguments with the variables bound in them, and labels. -/
inductive Term where
  | node (op : Operator) (args : List (List Binder × Term)) (labels : List Label)

namespace Term

/-! ## Parts -/

/-- The top operator. -/
def op : Term → Operator
  | node o _ _ => o

/-- The subterms with the variables bound in them. -/
def args : Term → List (List Binder × Term)
  | node _ as _ => as

/-- The labels. -/
def labels : Term → List Label
  | node _ _ ls => ls

@[simp] theorem op_node (o : Operator) (as : List (List Binder × Term)) (ls : List Label) :
    (node o as ls).op = o := rfl

@[simp] theorem args_node (o : Operator) (as : List (List Binder × Term)) (ls : List Label) :
    (node o as ls).args = as := rfl

@[simp] theorem labels_node (o : Operator) (as : List (List Binder × Term)) (ls : List Label) :
    (node o as ls).labels = ls := rfl

/-- The same term with other labels. -/
def withLabels (t : Term) (ls : List Label) : Term := node t.op t.args ls

/-! ## Equality -/

mutual

/-- Structural equality of terms, labels included, is decidable. -/
def decEq : (a b : Term) → Decidable (a = b)
  | node o as ls, node p bs ms =>
    if ho : o = p then
      if hl : ls = ms then
        match decEqArgs as bs with
        | .isTrue h => .isTrue (by rw [ho, hl, h])
        | .isFalse h => .isFalse (by simp [h])
      else .isFalse (by simp [hl])
    else .isFalse (by simp [ho])

/-- Structural equality of argument lists is decidable. -/
def decEqArgs : (as bs : List (List Binder × Term)) → Decidable (as = bs)
  | [], [] => .isTrue rfl
  | [], _ :: _ => .isFalse (by simp)
  | _ :: _, [] => .isFalse (by simp)
  | (xs, a) :: as, (ys, b) :: bs =>
    if hx : xs = ys then
      match decEq a b with
      | .isTrue h =>
        match decEqArgs as bs with
        | .isTrue hs => .isTrue (by rw [hx, h, hs])
        | .isFalse hs => .isFalse (by simp [hs])
      | .isFalse h => .isFalse (by simp [h])
    else .isFalse (by simp [hx])

end

instance : DecidableEq Term := decEq

/-! ## Building -/

/-- Binder lists for `n` subterms: the given ones, then empty ones. -/
def padBinders (n : Nat) (bound : List (List Binder)) : List (List Binder) :=
  bound ++ List.replicate (n - bound.length) []

/-- Build a term. The number of subterms has to be the arity of the operator, and there are at most
as many binder lists as subterms; missing ones are empty. The arity is looked at first. -/
def build (op : Operator) (subs : List Term) (bound : List (List Binder)) (labels : List Label) :
    Except Fault Term :=
  if op.arity = subs.length then
    if bound.length ≤ subs.length then
      .ok (node op ((padBinders subs.length bound).zip subs) labels)
    else .error .boundLists
  else .error .arity

/-- An operator over subterms in which it binds nothing. -/
def plain (op : Operator) (subs : List Term) : Term := node op (subs.map fun t => ([], t)) []

/-- A logic variable. -/
def var (x : LogicVar) : Term := plain (.var x) []

/-- A function or predicate symbol over its arguments. -/
def app (f : FunSym) (subs : List Term) : Term := plain (.func f) subs

/-- A constant. -/
def const (name : String) (sort : SortName) : Term := app (.constant name sort) []

/-- An atom without arguments. -/
def atom (name : String) : Term := app (.predicate name 0) []

/-- A program variable. -/
def progVar (v : ProgVar) : Term := plain (.progVar v) []

/-- A schema variable. -/
def schema (sv : SchemaVar) : Term := plain (.schema sv) []

/-- The true formula. -/
def top : Term := plain (.connective .top) []

/-- The false formula. -/
def bot : Term := plain (.connective .bot) []

/-- A negation. -/
def neg (a : Term) : Term := plain (.connective .neg) [a]

/-- A conjunction. -/
def conj (a b : Term) : Term := plain (.connective .conj) [a, b]

/-- A disjunction. -/
def disj (a b : Term) : Term := plain (.connective .disj) [a, b]

/-- An implication. -/
def impl (a b : Term) : Term := plain (.connective .impl) [a, b]

/-- An equivalence. -/
def iff (a b : Term) : Term := plain (.connective .iff) [a, b]

/-- An equation. -/
def equals (a b : Term) : Term := plain .equals [a, b]

/-- A conditional term. -/
def ifElse (c a b : Term) : Term := plain .ifElse [c, a, b]

/-- A quantified formula. -/
def quantify (q : Quantifier) (bound : List Binder) (body : Term) : Term :=
  node (.quantifier q) [(bound, body)] []

/-- A universally quantified formula. -/
def all (x : LogicVar) (body : Term) : Term := quantify .all [.logic x] body

/-- An existentially quantified formula. -/
def ex (x : LogicVar) (body : Term) : Term := quantify .ex [.logic x] body

/-- The term that stands for `body` with `by'` in place of the bound variable. -/
def substOp (x : Binder) (by' body : Term) : Term := node .subst [([], by'), ([x], body)] []

/-- A program formula. -/
def modal (m : Modality) (p : Program) (post : Term) : Term := plain (.modal m p) [post]

/-! ## Views -/

/-- The sort of a term. A conditional and a substitution have the sort of their second subterm. -/
def sort : Term → SortName
  | node (.var x) _ _ => x.sort
  | node (.func f) _ _ => f.sort
  | node (.progVar v) _ _ => v.sort
  | node (.schema sv) _ _ => sv.sort
  | node .ifElse (_ :: (_, t) :: _) _ => t.sort
  | node .subst (_ :: (_, t) :: _) _ => t.sort
  | node _ _ _ => .formula

/-- Whether a term is a formula. -/
def isFormula (t : Term) : Bool := t.sort.isFormula

mutual

/-- The variables with a free occurrence, one entry per occurrence. -/
def freeVars : Term → List LogicVar
  | node (.var x) _ _ => [x]
  | node _ args _ => freeVarsArgs args

/-- The variables that occur free in some argument and are not bound there. -/
def freeVarsArgs : List (List Binder × Term) → List LogicVar
  | [] => []
  | (bound, t) :: rest =>
    (t.freeVars.filter fun x => !bound.contains (.logic x)) ++ freeVarsArgs rest

end

/-- Whether a term has no free variable. -/
def isGround (t : Term) : Bool := t.freeVars.isEmpty

mutual

/-- The term and all its subterms, in pre-order. -/
def subterms : Term → List Term
  | node op args labels => node op args labels :: subtermsArgs args

/-- The subterms of the arguments, from left to right. -/
def subtermsArgs : List (List Binder × Term) → List Term
  | [] => []
  | (_, t) :: rest => t.subterms ++ subtermsArgs rest

end

/-- Whether a term has the same value in all states. -/
def isRigid (t : Term) : Bool := t.subterms.all fun u => u.op.rigid

/-- The variables bound by the top operator. -/
def boundHere (t : Term) : List Binder := t.args.flatMap Prod.fst

/-- The logic variable the term is, if it is one. -/
def logicVar? (t : Term) : Option LogicVar :=
  match t.op with
  | .var x => some x
  | _ => none

/-- The logic variables of a term, free or bound, one entry per occurrence. -/
def vars (t : Term) : List LogicVar :=
  t.subterms.flatMap fun u => u.logicVar?.toList ++ u.boundHere.filterMap Binder.logic?

/-- The schema variables of a term in operators, programs, binders and labels, one entry per
occurrence. -/
def schemaVars (t : Term) : List SchemaVar :=
  t.subterms.flatMap fun u =>
    u.op.schemaVars ++ u.boundHere.filterMap Binder.schema? ++ u.labels.filterMap Label.schema?

mutual

/-- The number of operators in a term, counting each argument once more. -/
def size : Term → Nat
  | node _ args _ => sizeArgs args + 1

/-- The size of an argument list. -/
def sizeArgs : List (List Binder × Term) → Nat
  | [] => 0
  | (_, t) :: rest => t.size + sizeArgs rest + 1

end

end Term

end SequentSearch
