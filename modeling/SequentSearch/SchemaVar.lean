import SequentSearch.Symbol

/-!
# Schema variables

Schema variables are the typed placeholders of rule patterns. Their identity is structural: two of
them are the same if name, kind and flags agree.
-/

namespace SequentSearch

/-- Which program elements a program schema variable may stand for. -/
inductive ProgramClass where
  | statement
  | expression
  /-- a variable or a literal -/
  | simpleExpression
  | progVar
  /-- everything concrete -/
  | anything
deriving DecidableEq

namespace ProgramClass

/-- All classes. -/
def all : List ProgramClass := [statement, expression, simpleExpression, progVar, anything]

/-- The name of a class. -/
def name : ProgramClass → String
  | statement => "Statement"
  | expression => "Expression"
  | simpleExpression => "SimpleExpression"
  | progVar => "Variable"
  | anything => "Any"

/-- The class of a name. -/
def ofName? (s : String) : Option ProgramClass := all.find? (·.name == s)

end ProgramClass

/-- What a schema variable stands for. -/
inductive SchemaKind where
  /-- a term that is not a formula, of a sort below the given one -/
  | term (sort : SortName)
  /-- a formula -/
  | formula
  /-- a logic variable, typically in binder position -/
  | logicVar (sort : SortName)
  /-- a constant that is made up when the rule is applied -/
  | skolem (sort : SortName)
  /-- a program element of the given class -/
  | program (cls : ProgramClass)
  /-- the labels of a term -/
  | label
deriving DecidableEq

/-- What a schema variable stands for, in words. -/
def SchemaKind.describe : SchemaKind → String
  | term s => "term(" ++ s.name ++ ")"
  | formula => "formula"
  | logicVar s => "variable(" ++ s.name ++ ")"
  | skolem s => "skolem(" ++ s.name ++ ")"
  | program cls => "program(" ++ cls.name ++ ")"
  | label => "label"

/-- A placeholder of a rule pattern. -/
structure SchemaVar where
  /-- its name -/
  name : String
  /-- what it stands for -/
  kind : SchemaKind
  /-- whether it stands for a run of zero or more program elements -/
  list : Bool := false
  /-- whether it stands for rigid terms only -/
  rigid : Bool := false
deriving DecidableEq

namespace SchemaVar

/-- Whether the variable is instantiated by a fresh constant. -/
def isSkolem (sv : SchemaVar) : Bool :=
  match sv.kind with
  | .skolem _ => true
  | _ => false

/-- The sort of the terms the variable stands for. -/
def sort (sv : SchemaVar) : SortName :=
  match sv.kind with
  | .formula => .formula
  | .term s | .logicVar s | .skolem s => s
  | .program _ | .label => .any

/-- The written form: the name, with a star behind list variables. -/
def render (sv : SchemaVar) : String :=
  if sv.list then sv.name ++ "*" else sv.name

/-- The written form of a variable with what it stands for. -/
def describe (sv : SchemaVar) : String :=
  sv.render ++ " " ++ sv.kind.describe ++ (if sv.rigid then " rigid" else "")

/-- The same variable, standing for rigid terms only. -/
def asRigid (sv : SchemaVar) : SchemaVar := { sv with rigid := true }

end SchemaVar

end SequentSearch
