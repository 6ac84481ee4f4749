import SequentSearch.Calculus.FirstOrder
import SequentSearch.Term.OfProgram

/-!
# Symbolic execution rules

For each modality, rules that execute the active statements of its program: an empty program leaves
the post condition, `skip` and nested blocks are taken apart, a conditional splits the goal, and a
loop is unwound once. All belong to the rule set `symbolic_execution`.
-/

namespace SequentSearch

namespace Calculus

/-- The rule set of the symbolic execution rules. -/
def executionSet : String := "symbolic_execution"

/-- What the names of the rules for a modality end in. -/
def modalitySuffix : Modality → String
  | .diamond => "Diamond"
  | .box => "Box"

/-- The drafts of the symbolic execution rules for a modality. -/
def executionDrafts (m : Modality) : List RuleDraft :=
  let post := Term.schema (formulaVar "#post")
  let cond : SchemaVar := { name := "#cond", kind := .program .expression }
  let statement (name : String) : SchemaVar := { name, kind := .program .statement }
  let condP := Program.schema cond
  let thenP := Program.schema (statement "#then")
  let elseP := Program.schema (statement "#else")
  let bodyP := Program.schema (statement "#body")
  let stmtsP := Program.schema { statement "#stmts" with list := true }
  let after (p : Program) : Term := .modal m p post
  let active (ps : List Program) : Term := after (.activeBlock ps)
  let condHolds := Term.equals (.schema cond) (Literal.bool true).toTerm
  let draft (base : String) (find : FindPart) (templates : List GoalTemplate) : RuleDraft :=
    { name := base ++ modalitySuffix m, shownAs := base, find, templates
      ruleSets := [executionSet] }
  [ draft "emptyModality" (.subterm (after (.block []))) [replacingTerm post],
    draft "skip" (.subterm (active [.skip])) [replacingTerm (active [])],
    draft "blockFlatten" (.subterm (active [.block [stmtsP]])) [replacingTerm (active [stmtsP])],
    draft "ifSplit" (.succ (active [.ifElse condP thenP elseP]))
      [ replacing [condHolds] [active [thenP]] "then",
        replacing [] [active [elseP], condHolds] "else" ],
    draft "loopUnwind" (.subterm (active [.loop condP bodyP]))
      [replacingTerm (active [.ifElse condP (.block [bodyP, .loop condP bodyP]) (.block [])])] ]

/-- The first-order rules and the symbolic execution rules for both modalities. -/
def symbolicExecution : List Rule :=
  firstOrder ++ RuleDraft.acceptAll (executionDrafts .diamond) ++
    RuleDraft.acceptAll (executionDrafts .box)

end Calculus

end SequentSearch
