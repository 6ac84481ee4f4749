import SequentSearch.Program.Basic

/-!
# The written form of programs

Statements end in a semicolon, blocks are put in braces with a blank after each side, and the active
statements of a pattern stand between `..` and `...`. A malformed element has no written form;
children beyond those that a kind needs are not written.
-/

namespace SequentSearch

namespace Literal

/-- The written form of a literal. -/
def render : Literal → String
  | bool true => "true"
  | bool false => "false"
  | int n => toString n

end Literal

namespace Program

/-- Statements one after another, each behind a blank. -/
def joinStatements (parts : List (Except Fault String)) : Except Fault String := do
  let texts ← parts.mapM id
  return String.join (texts.map (" " ++ ·))

mutual

/-- The written form of an element. -/
def render : Program → Except Fault String
  | node kind children =>
    let parts := renderEach children
    match kind with
    | .skip => .ok "skip;"
    | .var v => .ok v.name
    | .lit l => .ok l.render
    | .assign => do
      let lhs ← nth parts 0
      let rhs ← nth parts 1
      return lhs ++ " = " ++ rhs ++ ";"
    | .binary op => do
      let lhs ← nth parts 0
      let rhs ← nth parts 1
      return lhs ++ " " ++ op.glyph ++ " " ++ rhs
    | .ifElse => do
      let cond ← nth parts 0
      let thenPart ← nth parts 1
      let elsePart ← nth parts 2
      return "if (" ++ cond ++ ") " ++ thenPart ++ " else " ++ elsePart
    | .loop => do
      let cond ← nth parts 0
      let body ← nth parts 1
      return "while (" ++ cond ++ ") " ++ body
    | .block => do
      let body ← joinStatements parts
      return "\x7b" ++ body ++ " \x7d"
    | .ret =>
      match parts with
      | [] => .ok "return;"
      | value :: _ => do return "return " ++ (← value) ++ ";"
    | .schema sv => .ok sv.render
    | .context => do
      let body ← joinStatements parts
      return ".." ++ body ++ " ..."

/-- The written forms of a list of elements. -/
def renderEach : List Program → List (Except Fault String)
  | [] => []
  | p :: ps => render p :: renderEach ps

end

end Program

end SequentSearch
