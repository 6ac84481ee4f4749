import SequentSearch.Term.Alpha
import SequentSearch.Term.Position
import SequentSearch.Term.Printer

/-!
# Sequents

A sequent has an antecedent and a succedent, two lists of formulas. That an entry is a formula is
part of its type. An **occurrence** is a place in a sequent: a side, a formula and a position in it.
-/

namespace SequentSearch

/-- The two sides of a sequent. -/
inductive Side where
  | antec
  | succ
deriving DecidableEq

namespace Side

/-- The name of a side. -/
def name : Side → String
  | antec => "antec"
  | succ => "succ"

/-- The other side. -/
def other : Side → Side
  | antec => succ
  | succ => antec

end Side

/-- A formula of a sequent. -/
structure SeqFormula where
  /-- the formula -/
  term : Term
  /-- it is one -/
  isFormula : term.isFormula = true

namespace SeqFormula

/-- Formulas of sequents are equal if their terms are. -/
theorem ext {f g : SeqFormula} (h : f.term = g.term) : f = g := by
  cases f
  cases g
  subst h
  rfl

instance : DecidableEq SeqFormula := fun f g =>
  if h : f.term = g.term then .isTrue (ext h) else .isFalse fun e => h (e ▸ rfl)

/-- A term as a formula of a sequent. -/
def ofTerm (t : Term) : Except Fault SeqFormula :=
  if h : t.isFormula = true then .ok ⟨t, h⟩ else .error .notAFormula

/-- The written form of a formula. -/
def render (f : SeqFormula) : Except Fault String := f.term.render

/-- `true` in the antecedent and `false` in the succedent say nothing. -/
def isTrivialOn (side : Side) (f : SeqFormula) : Bool :=
  match side, f.term.op with
  | .antec, .connective .top => true
  | .succ, .connective .bot => true
  | _, _ => false

end SeqFormula

/-- One side of a sequent. -/
abbrev Semisequent := List SeqFormula

/-- A sequent: if all formulas of the antecedent hold, one of the succedent does. -/
structure Sequent where
  /-- the assumptions -/
  antec : Semisequent := []
  /-- the alternatives -/
  succ : Semisequent := []
deriving DecidableEq

namespace Sequent

/-- The sequent without formulas. -/
def empty : Sequent := {}

/-- The formulas on a side. -/
def side (s : Sequent) : Side → Semisequent
  | .antec => s.antec
  | .succ => s.succ

/-- The sequent with other formulas on one side. -/
def withSide (s : Sequent) (side : Side) (fs : Semisequent) : Sequent :=
  match side with
  | .antec => { s with antec := fs }
  | .succ => { s with succ := fs }

/-- Every formula with its side, the antecedent first. -/
def formulas (s : Sequent) : List (Side × SeqFormula) :=
  s.antec.map (Side.antec, ·) ++ s.succ.map (Side.succ, ·)

/-- Whether there is no formula. -/
def isEmpty (s : Sequent) : Bool := s.antec.isEmpty && s.succ.isEmpty

/-- The written form of a sequent. -/
def render (s : Sequent) : Except Fault String := do
  let left ← s.antec.mapM SeqFormula.render
  let right ← s.succ.mapM SeqFormula.render
  return joinWith ", " left ++ (if left.isEmpty then "" else " ") ++ "==>" ++
    (if right.isEmpty then "" else " ") ++ joinWith ", " right

end Sequent

/-- A place in a sequent. -/
structure Occurrence where
  /-- the side of the formula -/
  side : Side
  /-- the formula -/
  formula : SeqFormula
  /-- the position in the formula -/
  pos : Position := []
deriving DecidableEq

namespace Occurrence

/-- Whether the occurrence is a whole formula. -/
def isTopLevel (o : Occurrence) : Bool := o.pos.isEmpty

/-- The subterm at the occurrence. -/
def subterm (o : Occurrence) : Except Fault Term := o.formula.term.subtermAt o.pos

/-- The written form of an occurrence. -/
def render (o : Occurrence) : Except Fault String := do
  let sub ← (← o.subterm).render
  let formula ← o.formula.render
  return sub ++ " in " ++ o.side.name ++ " formula " ++ formula ++ Position.render o.pos

end Occurrence

end SequentSearch
