import SequentSearch.Calculus.Execution
import SequentSearch.Calculus.FirstOrder
import SequentSearch.Sequent.Edit

/-!
# Bundled problems

Three small problems to try the search on, one for each calculus.
-/

namespace SequentSearch

/-- A problem to prove. -/
inductive Problem where
  /-- implication is transitive -/
  | propositional
  /-- what holds of some `x`, and implies something else for all, leads to some `x` of that -/
  | quantifier
  /-- a program with a conditional, after which nothing is asserted -/
  | symbolic
deriving DecidableEq

namespace Problem

/-- The name of a problem. -/
def name : Problem → String
  | propositional => "propositional"
  | quantifier => "quantifier"
  | symbolic => "symbolic"

/-- The problem of a name, or a message. -/
def parse (s : String) : Except String Problem :=
  match [propositional, quantifier, symbolic].find? (·.name == s) with
  | some p => .ok p
  | none => .error ("Unknown problem: " ++ s)

/-- `((p -> q) & (q -> r)) -> (p -> r)`. -/
def transitivity : SeqFormula :=
  let p := Term.atom "p"
  let q := Term.atom "q"
  let r := Term.atom "r"
  ⟨((p.impl q).conj (q.impl r)).impl (p.impl r), rfl⟩

/-- Some `x` has `p`, and all that has `p` has `q`; so some `x` has `q`. -/
def instantiation : SeqFormula :=
  let x : LogicVar := ⟨"x", ⟨"s"⟩⟩
  let y : LogicVar := ⟨"y", ⟨"s"⟩⟩
  let holds (name : String) (v : LogicVar) := Term.app (.predicate name 1) [.var v]
  ⟨((Term.ex x (holds "p" x)).conj (Term.all y ((holds "p" y).impl (holds "q" y)))).impl
    (Term.ex x (holds "q" x)), rfl⟩

/-- A conditional with a block of one statement and a block of two. -/
def branches : SeqFormula :=
  let cond := Program.var ⟨"b", .boolean⟩
  let stmt := Program.ifElse cond (.block [.skip]) (.block [.skip, .skip])
  ⟨Term.modal .box (.block [stmt]) .top, rfl⟩

/-- The formula to prove. -/
def formula : Problem → SeqFormula
  | propositional => transitivity
  | quantifier => instantiation
  | symbolic => branches

/-- The sequent to prove. -/
def sequent (p : Problem) : Sequent := .ofFormulas [] [p.formula]

/-- The rules to prove it with. -/
def rules : Problem → List Rule
  | propositional => Calculus.propositional
  | quantifier => Calculus.firstOrder
  | symbolic => Calculus.symbolicExecution

end Problem

end SequentSearch
