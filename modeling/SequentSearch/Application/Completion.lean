import SequentSearch.Application.Basic

/-!
# Completing applications

Automatic search completes an application by itself: it finds formulas for the assumes part, and
tries every ground term of the sequent for each term variable that is still open. An application
with an open variable of another kind has no completions.
-/

namespace SequentSearch

/-- The ground terms of a sequent that are not formulas, in order of first occurrence. -/
def Sequent.groundTerms (seq : Sequent) : List Term :=
  ((seq.formulas.flatMap fun f => f.2.term.subterms).filter fun t =>
    !t.isFormula && t.isGround).eraseDups

namespace RuleApp

/-- Whether a schema variable stands for terms. -/
def standsForTerm (sv : SchemaVar) : Bool :=
  match sv.kind with
  | .term _ => true
  | _ => false

/-- The applications that arise by supplying each of the candidates for a variable, candidate by
candidate. -/
def supplyEach (sv : SchemaVar) (candidates : List Term) (apps : List RuleApp) : List RuleApp :=
  (candidates.filter fun t => t.sort.isSubsortOf sv.sort).flatMap fun t =>
    apps.filterMap fun app => app.supply sv t

/-- The applications that arise by supplying candidates for all variables of a list. -/
def supplyAll (candidates : List Term) : List SchemaVar → List RuleApp → List RuleApp
  | [], apps => apps
  | sv :: svs, apps => supplyAll candidates svs (supplyEach sv candidates apps)

/-- The complete applications that an application can be completed to in a sequent. -/
def completions (app : RuleApp) (seq : Sequent) : List RuleApp :=
  match app.findAssumed seq with
  | none => []
  | some app =>
    if app.openVars.all standsForTerm then
      (supplyAll seq.groundTerms app.openVars [app]).filter isComplete
    else []

end RuleApp

end SequentSearch
