import SequentSearch.SchemaVar

/-!
# Programs

The small statement language that modalities range over. A program element is a kind with a list of
children. The type does not fix the number of children, so an element can be *malformed*: it can
have fewer children than its kind needs. Such an element can be built, compared and matched, but it
has no written form.

In rule patterns a block whose only child is a context element stands for "the active statements of
this block": see `Program.activePattern?` and `ProgramContext`.
-/

namespace SequentSearch

/-- A literal of the program language. -/
inductive Literal where
  | bool (b : Bool)
  | int (n : Int)
deriving DecidableEq

/-- The binary operators of program expressions. -/
inductive BinaryOp where
  | add
  | sub
  | eq
  | lt
deriving DecidableEq

/-- The written form of a binary operator. -/
def BinaryOp.glyph : BinaryOp → String
  | add => "+"
  | sub => "-"
  | eq => "=="
  | lt => "<"

/-- The kinds of program elements, with what they need of their children. -/
inductive ProgramKind where
  | skip
  | var (v : ProgVar)
  | lit (l : Literal)
  /-- assigns child 1 to the variable child 0 -/
  | assign
  | binary (op : BinaryOp)
  /-- branches on child 0 to child 1 or child 2 -/
  | ifElse
  /-- repeats child 1 while child 0 holds -/
  | loop
  | block
  /-- ends the program, with child 0 as its value if there is one -/
  | ret
  | schema (sv : SchemaVar)
  /-- in patterns only: the active statements of the enclosing block -/
  | context
deriving DecidableEq

/-- A program element: a kind and its children. -/
inductive Program where
  | node (kind : ProgramKind) (children : List Program)

namespace Program

/-- The kind of an element. -/
def kind : Program → ProgramKind
  | node k _ => k

/-- The children of an element. -/
def children : Program → List Program
  | node _ cs => cs

@[simp] theorem kind_node (k : ProgramKind) (cs : List Program) : (node k cs).kind = k := rfl

@[simp] theorem children_node (k : ProgramKind) (cs : List Program) :
    (node k cs).children = cs := rfl

mutual

/-- Structural equality of elements is decidable. -/
def decEq : (a b : Program) → Decidable (a = b)
  | node k cs, node l ds =>
    if hk : k = l then
      match decEqList cs ds with
      | .isTrue h => .isTrue (by rw [hk, h])
      | .isFalse h => .isFalse (by simp [h])
    else .isFalse (by simp [hk])

/-- Structural equality of element lists is decidable. -/
def decEqList : (as bs : List Program) → Decidable (as = bs)
  | [], [] => .isTrue rfl
  | [], _ :: _ => .isFalse (by simp)
  | _ :: _, [] => .isFalse (by simp)
  | a :: as, b :: bs =>
    match decEq a b with
    | .isTrue h =>
      match decEqList as bs with
      | .isTrue hs => .isTrue (by rw [h, hs])
      | .isFalse hs => .isFalse (by simp [hs])
    | .isFalse h => .isFalse (by simp [h])

end

instance : DecidableEq Program := decEq

/-! ## Constructors -/

/-- The statement that does nothing. -/
def skip : Program := node .skip []

/-- An occurrence of a program variable. -/
def var (v : ProgVar) : Program := node (.var v) []

/-- A block of statements. -/
def block (stmts : List Program) : Program := node .block stmts

/-- A conditional statement. -/
def ifElse (cond thenPart elsePart : Program) : Program := node .ifElse [cond, thenPart, elsePart]

/-- A while loop. -/
def loop (cond body : Program) : Program := node .loop [cond, body]

/-- A schema variable standing for program elements. -/
def schema (sv : SchemaVar) : Program := node (.schema sv) []

/-- The pattern for a block whose active statements have the given form. -/
def activeBlock (active : List Program) : Program := block [node .context active]

/-! ## Views -/

/-- The active statements of a block whose only child is a context element. -/
def activePattern? : Program → Option (List Program)
  | node .block [node .context active] => some active
  | _ => none

/-- The list variable an element consists of, if it is one. -/
def listVar? (p : Program) : Option SchemaVar :=
  match p.kind with
  | .schema sv => if sv.list then some sv else none
  | _ => none

mutual

/-- The schema variables of an element, parents before children, one entry per occurrence. -/
def schemaVars : Program → List SchemaVar
  | node (.schema sv) cs => sv :: schemaVarsList cs
  | node _ cs => schemaVarsList cs

/-- The schema variables of a list of elements, from left to right. -/
def schemaVarsList : List Program → List SchemaVar
  | [] => []
  | p :: ps => schemaVars p ++ schemaVarsList ps

end

end Program

/-- Whether a program schema variable of the class may stand for an element. Only the kind of the
element counts. -/
def ProgramClass.admits (c : ProgramClass) (p : Program) : Bool :=
  match c, p.kind with
  | .statement, .skip | .statement, .assign | .statement, .ifElse | .statement, .loop
  | .statement, .block | .statement, .ret => true
  | .statement, _ => false
  | .expression, .var _ | .expression, .lit _ | .expression, .binary _ => true
  | .expression, _ => false
  | .simpleExpression, .var _ | .simpleExpression, .lit _ => true
  | .simpleExpression, _ => false
  | .progVar, .var _ => true
  | .progVar, _ => false
  | .anything, .schema _ | .anything, .context => false
  | .anything, _ => true

end SequentSearch
