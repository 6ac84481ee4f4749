import SequentSearch.Program.Basic
import SequentSearch.Term.Basic

/-!
# Expressions as terms

A program expression denotes a term: a variable the program variable, a literal a constant, a binary
operation a function symbol over the terms of its operands. Statements denote nothing.
-/

namespace SequentSearch

/-- The function symbol of a binary operator. -/
def BinaryOp.funSym : BinaryOp → FunSym
  | add => .function "add" .int 2
  | sub => .function "sub" .int 2
  | eq => .function "eq" .boolean 2
  | lt => .function "lt" .boolean 2

/-- The constant that a literal denotes. -/
def Literal.toTerm : Literal → Term
  | bool true => .const "TRUE" .boolean
  | bool false => .const "FALSE" .boolean
  | int n => .const (toString n) .int

namespace Program

mutual

/-- The term that an expression denotes, if it is one. A second operand is looked at only if the
first one denotes a term. -/
def toTerm : Program → Except Fault (Option Term)
  | node kind children =>
    let parts := toTermEach children
    match kind with
    | .var v => .ok (some (.progVar v))
    | .lit l => .ok (some l.toTerm)
    | .binary op => do
      match ← nth parts 0 with
      | none => return none
      | some a =>
        match ← nth parts 1 with
        | none => return none
        | some b => return some (.app op.funSym [a, b])
    | _ => .ok none

/-- The terms that a list of expressions denotes. -/
def toTermEach : List Program → List (Except Fault (Option Term))
  | [] => []
  | p :: ps => toTerm p :: toTermEach ps

end

end Program

end SequentSearch
