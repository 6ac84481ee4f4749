import SequentSearch.Program.Context
import SequentSearch.Program.Printer
import SequentSearch.Term.Alpha
import SequentSearch.Term.Printer

/-!
# Instantiations

What matching produces: values for schema variables, and the context around the active statements of
a program. Both are assigned once. A second value for a variable is accepted only if it says the
same as the first, where terms are compared up to renaming of bound variables; the first value
stays.
-/

namespace SequentSearch

/-- The value of a schema variable. -/
inductive Instantiation where
  | term (t : Term)
  | program (p : Program)
  | programs (ps : List Program)
  | labels (ls : List Label)
deriving DecidableEq

namespace Instantiation

/-- Whether two values say the same. -/
def equivalent : Instantiation → Instantiation → Bool
  | term a, term b => a.alphaEq b
  | a, b => a == b

/-- The term a value is, if it is one. -/
def term? : Instantiation → Option Term
  | term t => some t
  | _ => none

/-- The program element a value is, if it is one. -/
def program? : Instantiation → Option Program
  | program p => some p
  | _ => none

/-- The written form of a value. -/
def render : Instantiation → Except Fault String
  | term t => t.render
  | program p => p.render
  | programs ps => do
    let texts ← ps.mapM Program.render
    return "[" ++ joinWith " " texts ++ "]"
  | labels ls => .ok ("<<" ++ joinWith ", " (ls.map Label.render) ++ ">>")

end Instantiation

/-- Values for schema variables and a program context. The latest binding comes first; no variable
is bound twice. -/
structure Instantiations where
  /-- the bound variables with their values -/
  bindings : List (SchemaVar × Instantiation) := []
  /-- the context of the active statements, once one was matched -/
  context : Option ProgramContext := none

namespace Instantiations

/-- No variable bound and no context. -/
def empty : Instantiations := {}

/-- The value of a variable. -/
def get? (σ : Instantiations) (sv : SchemaVar) : Option Instantiation := σ.bindings.lookup sv

/-- Whether a variable has a value. -/
def has (σ : Instantiations) (sv : SchemaVar) : Bool := (σ.get? sv).isSome

/-- The value of a variable that stands for a term. -/
def term? (σ : Instantiations) (sv : SchemaVar) : Option Term :=
  (σ.get? sv).bind Instantiation.term?

/-- The value of a variable that stands for one program element. -/
def program? (σ : Instantiations) (sv : SchemaVar) : Option Program :=
  (σ.get? sv).bind Instantiation.program?

/-- The logic variable that a variable stands for. -/
def logicVar? (σ : Instantiations) (sv : SchemaVar) : Option LogicVar :=
  (σ.term? sv).bind Term.logicVar?

/-- The number of variables with a value. -/
def size (σ : Instantiations) : Nat := σ.bindings.length

/-- Whether there is neither a value nor a context. -/
def isEmpty (σ : Instantiations) : Bool := σ.bindings.isEmpty && σ.context.isNone

/-- Bind a variable; fails if it has a value that says something else. -/
def add (σ : Instantiations) (sv : SchemaVar) (inst : Instantiation) : Option Instantiations :=
  match σ.get? sv with
  | some old => if old.equivalent inst then some σ else none
  | none => some { σ with bindings := (sv, inst) :: σ.bindings }

/-- Record the context; fails if there is a different one. -/
def withContext (σ : Instantiations) (ctx : ProgramContext) : Option Instantiations :=
  match σ.context with
  | some old => if old = ctx then some σ else none
  | none => some { σ with context := some ctx }

/-- Whether two instantiations give the same variables the same values and record the same context,
whatever the order in which they were bound. -/
def same (σ τ : Instantiations) : Bool :=
  σ.context == τ.context && σ.size == τ.size &&
    σ.bindings.all fun (sv, inst) => τ.get? sv == some inst

/-- The written form: the bindings, sorted by the names of the variables. -/
def render (σ : Instantiations) : Except Fault String := do
  let sorted := σ.bindings.mergeSort fun a b => !(b.1.name < a.1.name)
  let texts ← sorted.mapM fun (sv, inst) => return sv.render ++ " := " ++ (← inst.render)
  return "\x7b" ++ joinWith ", " texts ++ "\x7d"

end Instantiations

end SequentSearch
