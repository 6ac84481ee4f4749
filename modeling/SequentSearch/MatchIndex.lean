import SequentSearch.RuleBase
import SequentSearch.Sequent.Edit

/-!
# Match indices

A goal keeps the applications that matching finds in its sequent, formula by formula. When the
sequent changes, only the formulas that came or went are looked at again.
-/

namespace SequentSearch

/-- The applications found in a sequent. -/
structure MatchIndex where
  /-- for each formula, the applications with a focus in it -/
  entries : List ((Side × SeqFormula) × List RuleApp) := []
  /-- the applications without a focus -/
  unfocused : List RuleApp := []

namespace MatchIndex

/-- Set the entry of a key. A new key goes to the end, an old one keeps its position. -/
def setEntry (key : Side × SeqFormula) (apps : List RuleApp) :
    List ((Side × SeqFormula) × List RuleApp) → List ((Side × SeqFormula) × List RuleApp)
  | [] => [(key, apps)]
  | e :: rest => if e.1 = key then (key, apps) :: rest else e :: setEntry key apps rest

/-- Look for applications in a formula. -/
def insert (base : RuleBase) (index : MatchIndex) (key : Side × SeqFormula) : MatchIndex :=
  { index with entries := setEntry key (base.matchesIn key.1 key.2) index.entries }

/-- Forget the applications in a formula. -/
def erase (index : MatchIndex) (key : Side × SeqFormula) : MatchIndex :=
  { index with entries := index.entries.filter (·.1 != key) }

/-- The applications found in a sequent. -/
def ofSequent (base : RuleBase) (seq : Sequent) : MatchIndex :=
  seq.formulas.foldl (insert base)
    { unfocused := base.withoutFocus.map fun rule => RuleApp.ofMatch rule .empty none }

/-- Follow a change of the sequent. -/
def update (base : RuleBase) (index : MatchIndex) (change : Change) : MatchIndex :=
  change.added.foldl (insert base) (change.removed.foldl erase index)

/-- All applications, those with a focus first. -/
def apps (index : MatchIndex) : List RuleApp :=
  index.entries.flatMap (·.2) ++ index.unfocused

/-- The applications with a given focus, or those without one. -/
def appsAt (index : MatchIndex) (focus : Option Occurrence) : List RuleApp :=
  index.apps.filter fun app => app.focus == focus

/-- The number of applications. -/
def size (index : MatchIndex) : Nat := index.apps.length

/-- Whether there are no applications. -/
def isEmpty (index : MatchIndex) : Bool := index.apps.isEmpty

end MatchIndex

end SequentSearch
