/-!
# Faults

A **fault** is a broken promise of a caller: a value was put together or asked for in a way that its
type cannot rule out. Faults are kept apart from the errors of the calculus (a rule that is not
accepted, an application that is not complete), which are ordinary answers. An operation that can
meet a fault returns `Except Fault`, so the promise it relies on is visible in its type.
-/

namespace SequentSearch

/-- The promises an operation can find broken. -/
inductive Fault where
  /-- an operator got a number of subterms other than its arity -/
  | arity
  /-- a term got more bound-variable lists than subterms -/
  | boundLists
  /-- a term that is not of sort `Formula` was put into a sequent -/
  | notAFormula
  /-- an affine map was asked for through two equal domain points -/
  | equalPoints
  /-- a goal was asked for that is not open -/
  | goalNotOpen
  /-- an index is too large to be an identifier -/
  | idOverflow
  /-- an index or a count points past the end of what it refers to -/
  | outOfRange
  /-- a difference of two costs is out of the range of costs -/
  | overflow
deriving DecidableEq

/-- Entry `i` of a list of results, or the fault of looking past its end. -/
def nth {α : Type} (xs : List (Except Fault α)) (i : Nat) : Except Fault α :=
  xs[i]?.getD (.error .outOfRange)

/-- The values of a list, joined by a separator. -/
def joinWith (sep : String) : List String → String
  | [] => ""
  | [x] => x
  | x :: y :: rest => x ++ sep ++ joinWith sep (y :: rest)

end SequentSearch
