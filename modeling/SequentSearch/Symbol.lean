import SequentSearch.Fault

/-!
# Sorts and symbols

The alphabet of the logic: sorts, logic variables, program variables, function symbols, connectives,
quantifiers and modalities. Sorts are names; two of them are special. `Formula` is the sort of truth
values, and `any` lies above every other sort.
-/

namespace SequentSearch

/-- A sort, given by its name. -/
structure SortName where
  /-- the name it is written with -/
  name : String
deriving DecidableEq

namespace SortName

/-- The sort of formulas. -/
def formula : SortName := ⟨"Formula"⟩

/-- The top sort of all terms that are not formulas. -/
def any : SortName := ⟨"any"⟩

/-- The sort of the values of conditions. -/
def boolean : SortName := ⟨"boolean"⟩

/-- The sort of integer expressions. -/
def int : SortName := ⟨"int"⟩

/-- Whether the sort is `Formula`. -/
def isFormula (s : SortName) : Bool := s == formula

/-- Every sort lies below itself, and every sort but `Formula` lies below `any`. -/
def isSubsortOf (s t : SortName) : Bool := s == t || (t == any && !s.isFormula)

end SortName

/-- A variable that quantifiers and substitutions can bind. -/
structure LogicVar where
  /-- its name -/
  name : String
  /-- its sort; variables of one name and two sorts are different variables -/
  sort : SortName
deriving DecidableEq

/-- A variable of a program. Its value depends on the state. -/
structure ProgVar where
  /-- its name -/
  name : String
  /-- the sort of its values -/
  sort : SortName
deriving DecidableEq

/-- A function or predicate symbol. -/
structure FunSym where
  /-- its name -/
  name : String
  /-- the sort of its values, `Formula` for a predicate -/
  sort : SortName
  /-- the number of arguments, a 32-bit word -/
  arity : UInt32
  /-- whether its value is the same in all states -/
  rigid : Bool := true
deriving DecidableEq

namespace FunSym

/-- A rigid function symbol; an arity beyond 32 bits is cut down to its low bits. -/
def function (name : String) (sort : SortName) (arity : Nat) : FunSym :=
  ⟨name, sort, UInt32.ofNat arity, true⟩

/-- A rigid constant. -/
def constant (name : String) (sort : SortName) : FunSym := function name sort 0

/-- A rigid predicate symbol. -/
def predicate (name : String) (arity : Nat) : FunSym := function name .formula arity

/-- The same symbol with a value that depends on the state. -/
def flexible (f : FunSym) : FunSym := { f with rigid := false }

end FunSym

/-- The propositional connectives. -/
inductive Connective where
  | top
  | bot
  | neg
  | conj
  | disj
  | impl
  | iff
deriving DecidableEq

namespace Connective

/-- The number of formulas a connective joins. -/
def arity : Connective → Nat
  | top | bot => 0
  | neg => 1
  | conj | disj | impl | iff => 2

/-- The written form of a connective. -/
def glyph : Connective → String
  | top => "true"
  | bot => "false"
  | neg => "!"
  | conj => "&"
  | disj => "|"
  | impl => "->"
  | iff => "<->"

end Connective

/-- The two quantifiers. -/
inductive Quantifier where
  | all
  | ex
deriving DecidableEq

/-- The keyword of a quantifier. -/
def Quantifier.keyword : Quantifier → String
  | all => "\\forall"
  | ex => "\\exists"

/-- The two modalities: some run of the program, or every run. -/
inductive Modality where
  | diamond
  | box
deriving DecidableEq

end SequentSearch
