import SequentSearch.Rule.Accept

/-!
# Propositional rules

Closure, the connectives on either side, two simplifications, and cut. Rule sets group the rules for
scheduling: `closure` closes goals, `simplify` makes terms simpler, `alpha` leaves one goal
and `beta` several. Cut belongs to no rule set and is applied by hand only.
-/

namespace SequentSearch

namespace Calculus

/-- The pattern for an arbitrary formula. -/
def formulaVar (name : String) : SchemaVar := { name, kind := .formula }

/-- The pattern for an arbitrary term. -/
def termVar (name : String) : SchemaVar := { name, kind := .term .any }

/-- A goal in which formulas take the place of the focus. -/
def replacing (antec succ : List Term) (label : Option String := none) : GoalTemplate where
  label := label
  replace := .sequent { antec, succ }

/-- A goal in which a term takes the place of the focus. -/
def replacingTerm (t : Term) : GoalTemplate where
  replace := .term t

/-- The drafts of the propositional rules. -/
def propositionalDrafts : List RuleDraft :=
  let a := Term.schema (formulaVar "#a")
  let b := Term.schema (formulaVar "#b")
  let phi := Term.schema (formulaVar "#phi")
  let t := Term.schema (termVar "#t")
  let cutFormula := formulaVar "#cutFormula"
  [ { name := "close", assumes := { antec := [phi] }, find := .succ phi, ruleSets := ["closure"] },
    { name := "closeTrue", find := .succ .top, ruleSets := ["closure"] },
    { name := "closeFalse", find := .antec .bot, ruleSets := ["closure"] },
    { name := "andLeft", find := .antec (.conj a b), ruleSets := ["alpha"]
      templates := [replacing [a, b] []] },
    { name := "andRight", find := .succ (.conj a b), ruleSets := ["beta"]
      templates := [replacing [] [a] "left", replacing [] [b] "right"] },
    { name := "orLeft", find := .antec (.disj a b), ruleSets := ["beta"]
      templates := [replacing [a] [] "left", replacing [b] [] "right"] },
    { name := "orRight", find := .succ (.disj a b), ruleSets := ["alpha"]
      templates := [replacing [] [a, b]] },
    { name := "impLeft", find := .antec (.impl a b), ruleSets := ["beta"]
      templates := [replacing [] [a] "premise", replacing [b] [] "conclusion"] },
    { name := "impRight", find := .succ (.impl a b), ruleSets := ["alpha"]
      templates := [replacing [a] [b]] },
    { name := "notLeft", find := .antec (.neg a), ruleSets := ["alpha"]
      templates := [replacing [] [a]] },
    { name := "notRight", find := .succ (.neg a), ruleSets := ["alpha"]
      templates := [replacing [a] []] },
    { name := "equivLeft", find := .antec (.iff a b), ruleSets := ["beta"]
      templates := [replacing [a, b] [] "both", replacing [] [a, b] "neither"] },
    { name := "equivRight", find := .succ (.iff a b), ruleSets := ["beta"]
      templates := [replacing [a] [b] "forward", replacing [b] [a] "backward"] },
    { name := "and_true", find := .subterm (.conj phi .top), ruleSets := ["simplify"]
      templates := [replacingTerm phi] },
    { name := "equal_refl", find := .subterm (.equals t t), ruleSets := ["simplify"]
      templates := [replacingTerm .top] },
    { name := "cut", automatic := false, external := [cutFormula]
      templates :=
        [ { label := "TRUE", add := { antec := [.schema cutFormula] } },
          { label := "FALSE", add := { succ := [.schema cutFormula] } } ] } ]

/-- The propositional rules. -/
def propositional : List Rule := RuleDraft.acceptAll propositionalDrafts

end Calculus

end SequentSearch
