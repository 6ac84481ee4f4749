import SequentSearch.Term.Basic

/-!
# Capture-avoiding substitution

`Term.subst x s t` puts `s` in place of the free occurrences of `x` in `t`. A binder of `t` that
would capture a free variable of `s` is renamed first, to its own name with the smallest positive
number behind it that names no variable in sight. `Term.executeSubsts` runs the substitution
operators that a term contains, innermost first.

The recursion of `subst` is on the size of the term: the body below a binder is renamed before the
substitution goes on in it, and renaming does not enlarge it (`size_avoidCapture_le`).
-/

namespace SequentSearch

/-- The numbered variants `stem1`, `stem2`, … of a name, as many as there are names to avoid and one
more. -/
def numberedNames (stem : String) (used : List String) : List String :=
  (List.range (used.length + 1)).map fun i => stem ++ toString (i + 1)

/-- The first numbered variant of a name that is not in use. -/
def freshVariant (stem : String) (used : List String) : String :=
  ((numberedNames stem used).find? fun n => !used.contains n).getD stem

namespace Term

mutual

/-- The term with `y` for the free occurrences of `x`. No binder is renamed, so `y` must not be
bound in the term. -/
def rename (x y : LogicVar) : Term → Term
  | node (.var z) args labels => if z = x then var y else node (.var z) args labels
  | node op args labels => node op (renameArgs x y args) labels

/-- The arguments with `y` for the free occurrences of `x`. -/
def renameArgs (x y : LogicVar) : List (List Binder × Term) → List (List Binder × Term)
  | [] => []
  | (bound, t) :: rest =>
    (bound, if bound.contains (.logic x) then t else t.rename x y) :: renameArgs x y rest

end

/-- The names that a renamed binder has to stay away from: those of the variables of the body, of
the replacement and of the binder list. -/
def namesInSight (s body : Term) (bound : List Binder) : List String :=
  (body.vars ++ s.vars ++ bound.filterMap Binder.logic?).map LogicVar.name

/-- Rename the binders of a list that would capture a free variable of `s`, from left to right, and
their occurrences in the body with them. `done` are the binders that were dealt with. A binder that
is bound again further to the right has no occurrences in the body. -/
def avoidCapture (s : Term) : List Binder → List Binder → Term → List Binder × Term
  | done, [], body => (done, body)
  | done, .schema sv :: later, body => avoidCapture s (done ++ [.schema sv]) later body
  | done, .logic y :: later, body =>
    if s.freeVars.contains y then
      let z : LogicVar :=
        ⟨freshVariant y.name (namesInSight s body (done ++ .logic y :: later)), y.sort⟩
      avoidCapture s (done ++ [.logic z]) later
        (if later.contains (.logic y) then body else body.rename y z)
    else avoidCapture s (done ++ [.logic y]) later body

mutual

/-- **Renaming does not enlarge a term.** -/
theorem size_rename_le (x y : LogicVar) : (t : Term) → (t.rename x y).size ≤ t.size
  | node op args labels => by
    have hargs := sizeArgs_renameArgs_le x y args
    cases op
    case var z =>
      rw [rename]
      split
      · simp [var, plain, size, sizeArgs]
      · exact Nat.le_refl _
    all_goals
      rw [rename]
      · simp only [size]
        omega
      · intro z h
        cases h

/-- Renaming does not enlarge an argument list. -/
theorem sizeArgs_renameArgs_le (x y : LogicVar) :
    (args : List (List Binder × Term)) → sizeArgs (renameArgs x y args) ≤ sizeArgs args
  | [] => by simp [renameArgs]
  | (bound, t) :: rest => by
    have ht := size_rename_le x y t
    have hrest := sizeArgs_renameArgs_le x y rest
    simp only [renameArgs, sizeArgs]
    split <;> omega

end

/-- **Avoiding capture does not enlarge the body**: all it does to it is to rename variables. -/
theorem size_avoidCapture_le (s : Term) (done later : List Binder) (body : Term) :
    (avoidCapture s done later body).2.size ≤ body.size := by
  fun_induction avoidCapture s done later body with
  | case1 => exact Nat.le_refl _
  | case2 _ _ _ _ ih => exact ih
  | case3 done y later body _ z ih =>
    refine Nat.le_trans ih ?_
    split
    · exact Nat.le_refl _
    · exact size_rename_le _ _ _
  | case4 _ _ _ _ _ ih => exact ih

mutual

/-- The term with `s` for the free occurrences of `x`, no free variable of `s` being captured. An
occurrence takes its labels with it. -/
def subst (x : LogicVar) (s : Term) : Term → Term
  | node (.var y) args labels => if y = x then s else node (.var y) args labels
  | node op args labels => node op (substArgs x s args) labels
termination_by t => t.size
decreasing_by
  simp only [size]
  omega

/-- The arguments with `s` for the free occurrences of `x`. Nothing happens below a binder of `x`,
and below binders whose scope does not mention `x`. -/
def substArgs (x : LogicVar) (s : Term) : List (List Binder × Term) → List (List Binder × Term)
  | [] => []
  | (bound, t) :: rest =>
    (if bound.contains (.logic x) || !t.freeVars.contains x then (bound, t)
      else
        ((avoidCapture s [] bound t).1, subst x s (avoidCapture s [] bound t).2)) ::
      substArgs x s rest
termination_by args => sizeArgs args
decreasing_by
  · have h := size_avoidCapture_le s [] bound t
    simp only [sizeArgs]
    omega
  · simp only [sizeArgs]
    omega

end

/-! ## Executing substitution operators -/

/-- Whether a term is a substitution operator that binds exactly one logic variable. Only such an
operator can be executed. -/
def isRedex : Term → Bool
  | node .subst [_, ([.logic _], _)] _ => true
  | _ => false

/-- Whether some substitution operator in a term can be executed. -/
def hasRedex (t : Term) : Bool := t.subterms.any isRedex

/-- Execute the top operator if it is a substitution operator that can be executed. -/
def contract : Term → Term
  | node .subst [(_, s), ([.logic x], body)] _ => subst x s body
  | t => t

mutual

/-- Execute every substitution operator of a term, innermost first. -/
def executeSubsts : Term → Term
  | node op args labels => contract (node op (executeSubstsArgs args) labels)

/-- Execute every substitution operator in the arguments. -/
def executeSubstsArgs : List (List Binder × Term) → List (List Binder × Term)
  | [] => []
  | (bound, t) :: rest => (bound, t.executeSubsts) :: executeSubstsArgs rest

end

end Term

end SequentSearch
