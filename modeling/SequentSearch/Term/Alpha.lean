import SequentSearch.Term.Basic

/-!
# Equality up to renaming of bound variables

Two terms are compared under two stacks of binders, innermost first. A variable refers to the
nearest binder of its name and sort on its own stack; two bound occurrences agree if they refer to
the same depth, two free ones if they are the same variable. Labels are ignored, and so are the
sorts of binders.
-/

namespace SequentSearch

namespace Term

/-- Whether occurrences of `x` and `y` agree below the binders `left` and `right`. -/
def sameReference (left right : List Binder) (x y : LogicVar) : Bool :=
  match left.idxOf? (.logic x), right.idxOf? (.logic y) with
  | none, none => x == y
  | i, j => i == j

mutual

/-- Equality up to renaming below the binders `left` and `right`. -/
def alphaEqUnder (left right : List Binder) : Term → Term → Bool
  | node o as _, node p bs _ =>
    match o, p with
    | .var x, .var y => sameReference left right x y
    | _, _ => o == p && alphaEqArgs left right as bs

/-- Equality up to renaming of argument lists: binder lists of equal length, and subterms that agree
below them. -/
def alphaEqArgs (left right : List Binder) :
    List (List Binder × Term) → List (List Binder × Term) → Bool
  | [], [] => true
  | (xs, a) :: as, (ys, b) :: bs =>
    xs.length == ys.length && alphaEqUnder (xs.reverse ++ left) (ys.reverse ++ right) a b &&
      alphaEqArgs left right as bs
  | _, _ => false

end

/-- Equality up to consistent renaming of bound variables. -/
def alphaEq (a b : Term) : Bool := alphaEqUnder [] [] a b

end Term

end SequentSearch
