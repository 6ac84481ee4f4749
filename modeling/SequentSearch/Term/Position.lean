import SequentSearch.Term.Basic

/-!
# Positions in terms

A position is a path of argument indices from a term to one of its subterms. Indices are 16-bit
words, so an operator with more than 65536 arguments has arguments that share an index.
-/

namespace SequentSearch

/-- A path from a term to one of its subterms. -/
abbrev Position := List UInt16

namespace Position

/-- A path of indices, each cut down to its low 16 bits. -/
def ofIndices (is : List Nat) : Position := is.map UInt16.ofNat

/-- The written form of a position. -/
def render (p : Position) : String :=
  "[" ++ joinWith "," (p.map fun i => toString i.toNat) ++ "]"

end Position

namespace Term

/-- The subterm at a position. -/
def subtermAt : Term → Position → Except Fault Term
  | t, [] => .ok t
  | t, i :: rest =>
    match t.args[i.toNat]? with
    | some (_, u) => u.subtermAt rest
    | none => .error .outOfRange

/-- The term with the subterm at a position replaced by `new`. -/
def replaceAt : Term → Position → Term → Except Fault Term
  | _, [], new => .ok new
  | t, i :: rest, new =>
    match t.args[i.toNat]? with
    | some (bound, u) => do
      let u' ← u.replaceAt rest new
      return node t.op (t.args.set i.toNat (bound, u')) t.labels
    | none => .error .outOfRange

mutual

/-- The term and all its subterms with their positions, in pre-order. -/
def positions : Term → List (Position × Term)
  | node op args labels => ([], node op args labels) :: positionsArgs 0 args

/-- The subterms of the arguments, the first of which has index `i`, with their positions. -/
def positionsArgs (i : Nat) : List (List Binder × Term) → List (Position × Term)
  | [] => []
  | (_, t) :: rest =>
    (t.positions.map fun (p, u) => (UInt16.ofNat i :: p, u)) ++ positionsArgs (i + 1) rest

end

end Term

end SequentSearch
