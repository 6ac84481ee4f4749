import SequentSearch.Application.Basic

/-!
# Rule bases

A rule base holds the rules of a proof in the order they were added, no two of one name. To find the
rules that may match a term, it looks at the **head** of the term: the rules whose pattern has the
same head come first, then those whose pattern is a variable and so has no head.
-/

namespace SequentSearch

/-- What a term and every pattern that matches it have in common. -/
inductive Head where
  /-- a function or predicate, by its name -/
  | func (name : String)
  /-- a program variable, by its name -/
  | progVar (name : String)
  /-- a propositional connective -/
  | connective (c : Connective)
  /-- a quantifier -/
  | quantifier (q : Quantifier)
  /-- equality -/
  | equals
  /-- a conditional -/
  | ifElse
  /-- the substitution operator -/
  | subst
  /-- a modality, with any program -/
  | modal (m : Modality)
deriving DecidableEq

/-- The head of an operator; variables of all kinds have none. -/
def Operator.head? : Operator → Option Head
  | .var _ | .schema _ => none
  | .func f => some (.func f.name)
  | .progVar v => some (.progVar v.name)
  | .connective c => some (.connective c)
  | .quantifier q => some (.quantifier q)
  | .equals => some .equals
  | .ifElse => some .ifElse
  | .subst => some .subst
  | .modal m _ => some (.modal m)

/-- The rules of a proof. -/
structure RuleBase where
  /-- the rules, in the order they were added -/
  rules : List Rule := []

namespace RuleBase

/-- No rules. -/
def empty : RuleBase := {}

/-- The rule of a name. -/
def get? (base : RuleBase) (name : String) : Option Rule := base.rules.find? (·.name == name)

/-- Remove the rule of a name, if there is one. -/
def erase (base : RuleBase) (name : String) : RuleBase where
  rules := base.rules.filter (·.name != name)

/-- Add a rule at the end. It takes the place of a rule of the same name, though not its
position. -/
def insert (base : RuleBase) (rule : Rule) : RuleBase where
  rules := (base.erase rule.name).rules ++ [rule]

/-- The rule base of given rules, added one after another. -/
def ofRules (rules : List Rule) : RuleBase := rules.foldl insert empty

/-- The number of rules. -/
def size (base : RuleBase) : Nat := base.rules.length

/-- Whether there are no rules. -/
def isEmpty (base : RuleBase) : Bool := base.rules.isEmpty

/-- The rules without a focus. -/
def withoutFocus (base : RuleBase) : List Rule :=
  base.rules.filter fun r => r.find.pattern?.isNone

/-- The rules whose pattern has a given head; those without a head for none. -/
def withHead (base : RuleBase) (head : Option Head) : List Rule :=
  base.rules.filter fun r => r.find.pattern?.any fun p => p.op.head? == head

/-- The rules whose pattern may match a term: those of its head, then those without a head. -/
def candidates (base : RuleBase) (t : Term) : List Rule :=
  (match t.op.head? with
    | some head => base.withHead (some head)
    | none => []) ++ base.withHead none

/-- The applications with a focus at a position of a formula, where `sub` is the subterm there. -/
def matchesAt (base : RuleBase) (side : Side) (f : SeqFormula) (pos : Position) (sub : Term) :
    List RuleApp :=
  (base.candidates sub).filterMap fun rule =>
    if rule.find.admits side pos.isEmpty then
      (rule.matchFind sub).map fun σ => RuleApp.ofMatch rule σ (some ⟨side, f, pos⟩)
    else none

/-- The applications with a focus in a formula, position by position. -/
def matchesIn (base : RuleBase) (side : Side) (f : SeqFormula) : List RuleApp :=
  f.term.positions.flatMap fun (pos, sub) => base.matchesAt side f pos sub

end RuleBase

end SequentSearch
