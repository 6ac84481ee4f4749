import SequentSearch.Program.Printer
import SequentSearch.Term.Basic

/-!
# The written form of terms

Binary connectives are put in parentheses and nothing else is, so the written form is for reading
and not for reading back. Labels follow a term in double angle brackets. A term has a written form
if its programs have one.
-/

namespace SequentSearch

namespace Term

/-- Binders, separated by commas. -/
def renderBinders (bound : List Binder) : String := joinWith ", " (bound.map Binder.render)

/-- The labels behind a term; nothing if there are none. -/
def renderLabels : List Label → String
  | [] => ""
  | ls => "<<" ++ joinWith ", " (ls.map Label.render) ++ ">>"

/-- The written form of an operator over subterms whose written forms are given. -/
def renderNode (op : Operator) (bound : List (List Binder)) (parts : List (Except Fault String)) :
    Except Fault String :=
  match op with
  | .var x => .ok x.name
  | .progVar v => .ok v.name
  | .schema sv => .ok sv.render
  | .func f => do
    let texts ← parts.mapM id
    match texts with
    | [] => return f.name
    | _ => return f.name ++ "(" ++ joinWith ", " texts ++ ")"
  | .connective c =>
    match c.arity with
    | 0 => .ok c.glyph
    | 1 => do return c.glyph ++ (← nth parts 0)
    | _ => do
      let a ← nth parts 0
      let b ← nth parts 1
      return "(" ++ a ++ " " ++ c.glyph ++ " " ++ b ++ ")"
  | .quantifier q => do
    let body ← nth parts 0
    return q.keyword ++ " " ++ renderBinders (bound.headD []) ++ "; " ++ body
  | .equals => do
    let a ← nth parts 0
    let b ← nth parts 1
    return a ++ " = " ++ b
  | .ifElse => do
    let c ← nth parts 0
    let a ← nth parts 1
    let b ← nth parts 2
    return "\\if (" ++ c ++ ") \\then (" ++ a ++ ") \\else (" ++ b ++ ")"
  | .subst => do
    let s ← nth parts 0
    let body ← nth parts 1
    return "\x7b\\subst " ++ renderBinders (bound.getD 1 []) ++ "; " ++ s ++ "\x7d" ++ body
  | .modal m p => do
    let prog ← p.render
    let post ← nth parts 0
    match m with
    | .diamond => return "\\<" ++ prog ++ "\\>" ++ post
    | .box => return "\\[" ++ prog ++ "\\]" ++ post

mutual

/-- The written form of a term. -/
def render : Term → Except Fault String
  | node op args labels => do
    let text ← renderNode op (args.map Prod.fst) (renderArgs args)
    return text ++ renderLabels labels

/-- The written forms of the subterms. -/
def renderArgs : List (List Binder × Term) → List (Except Fault String)
  | [] => []
  | (_, t) :: rest => t.render :: renderArgs rest

end

end Term

end SequentSearch
