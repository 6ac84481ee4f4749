import SequentSearch.Rule.Basic

/-!
# The written form of rules
-/

namespace SequentSearch

namespace SequentPattern

/-- The written form of a schematic sequent. The arrow has a blank on both sides. -/
def render (s : SequentPattern) : Except Fault String := do
  let left ← s.antec.mapM Term.render
  let right ← s.succ.mapM Term.render
  return joinWith ", " left ++ " ==> " ++ joinWith ", " right

end SequentPattern

namespace FindPart

/-- The name of the kind of a find part. -/
def kind : FindPart → String
  | nothing => "none"
  | subterm _ => "rewrite"
  | antec _ => "antec"
  | succ _ => "succ"

/-- The written form of a find part, behind a blank. -/
def render : FindPart → Except Fault String
  | nothing => .ok ""
  | subterm t => do return " \\find(" ++ (← t.render) ++ ")"
  | antec t => do return " \\find(" ++ (← t.render) ++ " ==>)"
  | succ t => do return " \\find(==> " ++ (← t.render) ++ ")"

end FindPart

namespace GoalTemplate

/-- The written form of a goal template, behind a blank. -/
def render (g : GoalTemplate) : Except Fault String := do
  let label := match g.label with
    | some l => " \"" ++ l ++ "\":"
    | none => ""
  let replace ← match g.replace with
    | .keep => .ok ""
    | .term t => do pure (" \\replacewith(" ++ (← t.render) ++ ")")
    | .sequent s => do pure (" \\replacewith(" ++ (← s.render) ++ ")")
  let add ← if g.add.isEmpty then .ok "" else do pure (" \\add(" ++ (← g.add.render) ++ ")")
  return label ++ replace ++ add

end GoalTemplate

namespace Rule

/-- The written form of a rule. -/
def render (r : Rule) : Except Fault String := do
  let assumes ←
    if r.assumes.isEmpty then .ok "" else do pure (" \\assumes(" ++ (← r.assumes.render) ++ ")")
  let find ← r.find.render
  let conditions := String.join (r.conditions.map fun c => " \\varcond(" ++ c.render ++ ")")
  let goals ← r.templates.mapM GoalTemplate.render
  let body := if r.templates.isEmpty then " \\closegoal" else joinWith ";" goals
  let sets :=
    if r.ruleSets.isEmpty then "" else " \\heuristics(" ++ joinWith ", " r.ruleSets ++ ")"
  return r.name ++ " \x7b" ++ assumes ++ find ++ conditions ++ body ++ sets ++ " \x7d"

end Rule

end SequentSearch
