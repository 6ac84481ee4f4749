import SequentSearch.Matching
import SequentSearch.Sequent.Basic

/-!
# Schematic rules

A rule has a **find** part, the pattern of its focus; an **assumes** part, patterns of formulas that
have to be in the sequent; side conditions; and one template for each goal it leaves. A rule without
templates closes the goal it is applied to.

A `RuleDraft` is what an author writes down. A `Rule` is a draft that was accepted (see
`RuleDraft.accept`), together with its schema variables in order of first occurrence.
-/

namespace SequentSearch

/-- The focus of a rule. -/
inductive FindPart where
  /-- no focus -/
  | nothing
  /-- a subterm at any position on either side -/
  | subterm (pattern : Term)
  /-- a formula of the antecedent -/
  | antec (pattern : Term)
  /-- a formula of the succedent -/
  | succ (pattern : Term)

namespace FindPart

/-- The pattern of the focus. -/
def pattern? : FindPart → Option Term
  | nothing => none
  | subterm t | antec t | succ t => some t

/-- The pattern of the focus, if it has to be a whole formula. -/
def formula? : FindPart → Option Term
  | antec t | succ t => some t
  | _ => none

/-- Whether a place on a side, a whole formula or not, can be the focus. -/
def admits (find : FindPart) (side : Side) (topLevel : Bool) : Bool :=
  match find with
  | nothing => false
  | subterm _ => true
  | antec _ => topLevel && side == .antec
  | succ _ => topLevel && side == .succ

end FindPart

/-- The formulas that a rule requires or adds on each side. -/
structure SequentPattern where
  /-- patterns for the antecedent -/
  antec : List Term := []
  /-- patterns for the succedent -/
  succ : List Term := []

namespace SequentPattern

/-- Whether there is no pattern. -/
def isEmpty (s : SequentPattern) : Bool := s.antec.isEmpty && s.succ.isEmpty

/-- The patterns for a side. -/
def side (s : SequentPattern) : Side → List Term
  | .antec => s.antec
  | .succ => s.succ

/-- All patterns, the antecedent first. -/
def formulas (s : SequentPattern) : List Term := s.antec ++ s.succ

/-- All patterns with their sides, the antecedent first. -/
def sided (s : SequentPattern) : List (Side × Term) :=
  s.antec.map (Side.antec, ·) ++ s.succ.map (Side.succ, ·)

end SequentPattern

/-- What takes the place of the focus. -/
inductive Replacement where
  /-- the focus stays -/
  | keep
  /-- a term in the place of a focus that is a subterm -/
  | term (t : Term)
  /-- formulas: those on the side of the focus take its place, the others are added -/
  | sequent (s : SequentPattern)

/-- The terms of a replacement. -/
def Replacement.terms : Replacement → List Term
  | keep => []
  | term t => [t]
  | sequent s => s.formulas

/-- How to build one of the goals that a rule leaves. -/
structure GoalTemplate where
  /-- the name of the branch -/
  label : Option String := none
  /-- what takes the place of the focus -/
  replace : Replacement := .keep
  /-- the formulas to add -/
  add : SequentPattern := {}

/-- The terms of a template. -/
def GoalTemplate.terms (g : GoalTemplate) : List Term := g.replace.terms ++ g.add.formulas

/-! ## Side conditions -/

/-- A side condition on the values of schema variables. -/
inductive Condition where
  /-- the variable that `x` stands for is not free in the value of `sv` -/
  | notFreeIn (x sv : SchemaVar)
  /-- the values say different things -/
  | different (a b : SchemaVar)
  /-- any other test, with the variables it looks at -/
  | custom (name : String) (vars : List SchemaVar) (test : Instantiations → Bool)

namespace Condition

/-- The schema variables of a condition. -/
def schemaVars : Condition → List SchemaVar
  | notFreeIn x sv => [x, sv]
  | different a b => [a, b]
  | custom _ vars _ => vars

/-- The verdict of the condition itself; none if a value is not of the kind it needs. -/
def verdict (σ : Instantiations) : Condition → Option Bool
  | notFreeIn x sv =>
    match σ.logicVar? x, σ.get? sv with
    | some v, some (.term t) => some (!t.freeVars.contains v)
    | some _, some _ => some true
    | _, _ => none
  | different a b =>
    match σ.get? a, σ.get? b with
    | some u, some v => some (!u.equivalent v)
    | _, _ => none
  | custom _ _ test => some (test σ)

/-- Whether a condition holds; none as long as one of its variables has no value. -/
def check (c : Condition) (σ : Instantiations) : Option Bool :=
  if c.schemaVars.all σ.has then c.verdict σ else none

/-- The written form of a condition. -/
def render : Condition → String
  | notFreeIn x sv => "\\notFreeIn(" ++ x.render ++ ", " ++ sv.render ++ ")"
  | different a b => "\\different(" ++ a.render ++ ", " ++ b.render ++ ")"
  | custom name vars _ => "\\" ++ name ++ "(" ++ joinWith ", " (vars.map SchemaVar.render) ++ ")"

end Condition

/-! ## Drafts and rules -/

/-- A rule as an author writes it down. -/
structure RuleDraft where
  /-- its name, by which rules are told apart -/
  name : String
  /-- the focus -/
  find : FindPart := .nothing
  /-- formulas that have to be in the sequent -/
  assumes : SequentPattern := {}
  /-- side conditions -/
  conditions : List Condition := []
  /-- the rule sets it belongs to -/
  ruleSets : List String := []
  /-- the goals it leaves -/
  templates : List GoalTemplate := []
  /-- schema variables that matching leaves open -/
  external : List SchemaVar := []
  /-- whether automatic search may apply it -/
  automatic : Bool := true
  /-- whether it may be applied by hand -/
  interactive : Bool := true
  /-- the name it is shown with, if it is not its own -/
  shownAs : Option String := none

/-- An accepted rule. -/
structure Rule extends RuleDraft where
  /-- its schema variables, in order of first occurrence -/
  schemaVars : List SchemaVar

namespace Rule

/-- The name a rule is shown with. -/
def displayName (r : Rule) : String := r.shownAs.getD r.name

/-- Whether a rule closes the goal it is applied to. -/
def isClosing (r : Rule) : Bool := r.templates.isEmpty

/-- Whether a rule belongs to a rule set. -/
def inRuleSet (r : Rule) (set : String) : Bool := r.ruleSets.contains set

/-- Whether no side condition is violated. A condition without verdict counts as violated if the
instantiations are meant to be complete, and is put off otherwise. -/
def conditionsHold (r : Rule) (complete : Bool) (σ : Instantiations) : Bool :=
  r.conditions.all fun c => (c.check σ).getD (!complete)

/-- Match the find part against a term. -/
def matchFind (r : Rule) (candidate : Term) : Option Instantiations :=
  match r.find.pattern? with
  | none => none
  | some p =>
    match p.matchInto .empty candidate .empty with
    | some σ => if r.conditionsHold false σ then some σ else none
    | none => none

/-- Find formulas of a sequent for patterns, one after another, leaving out the formula of the
focus. The first combination counts, formulas in order. A match gives the renaming table back as it
found it, so all patterns are matched under the same one. -/
def matchFormulas (ρ : Renaming) (seq : Sequent) (focus : Option Occurrence) :
    List (Side × Term) → Instantiations → Option (Instantiations × List Occurrence)
  | [], σ => some (σ, [])
  | (side, p) :: rest, σ =>
    (seq.side side).findSome? fun f =>
      if focus.any fun o => o.side == side && o.formula == f then none
      else
        match p.matchInto ρ f.term σ with
        | some τ =>
          (matchFormulas ρ seq focus rest τ).map fun (υ, found) => (υ, ⟨side, f, []⟩ :: found)
        | none => none

/-- Find formulas for the assumes part. Side conditions are looked at once a combination is
found. -/
def matchAssumes (r : Rule) (ρ : Renaming) (seq : Sequent) (focus : Option Occurrence)
    (σ : Instantiations) : Option (Instantiations × List Occurrence) :=
  match matchFormulas ρ seq focus r.assumes.sided σ with
  | some (τ, found) => if r.conditionsHold false τ then some (τ, found) else none
  | none => none

end Rule

end SequentSearch
