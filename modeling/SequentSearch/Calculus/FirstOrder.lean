import SequentSearch.Calculus.Propositional

/-!
# First-order rules

The propositional rules and four rules for quantifiers. Where a witness or counterexample has to be
named it becomes a fresh constant (rule set `delta`). Where a quantifier may be instantiated its
formula stays and an instance is added (rule set `gamma`); the instance is supplied from outside.
-/

namespace SequentSearch

namespace Calculus

/-- The drafts of the quantifier rules. -/
def quantifierDrafts : List RuleDraft :=
  let x : SchemaVar := { name := "#x", kind := .logicVar .any }
  let phi := Term.schema (formulaVar "#phi")
  let sk : SchemaVar := { name := "#sk", kind := .skolem .any }
  let t := termVar "#t"
  let all := Term.quantify .all [.schema x] phi
  let ex := Term.quantify .ex [.schema x] phi
  let instanceAt (sv : SchemaVar) : Term := .substOp (.schema x) (.schema sv) phi
  [ { name := "allRight", find := .succ all, ruleSets := ["delta"]
      templates := [replacing [] [instanceAt sk]] },
    { name := "exLeft", find := .antec ex, ruleSets := ["delta"]
      templates := [replacing [instanceAt sk] []] },
    { name := "allLeft", find := .antec all, ruleSets := ["gamma"], external := [t]
      templates := [{ add := { antec := [instanceAt t] } }] },
    { name := "exRight", find := .succ ex, ruleSets := ["gamma"], external := [t]
      templates := [{ add := { succ := [instanceAt t] } }] } ]

/-- The first-order rules. -/
def firstOrder : List Rule := propositional ++ RuleDraft.acceptAll quantifierDrafts

end Calculus

end SequentSearch
