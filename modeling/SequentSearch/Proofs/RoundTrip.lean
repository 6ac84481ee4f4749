import SequentSearch.Proofs.Matching

/-!
# The round trip through a match

`Term.matchInto` passes the renaming of binders down and takes nothing back up. A matcher can as
well carry the renaming along as part of its state: enter the binders of an argument, match below
them, and cut the renaming back to the depth it had. `Term.matchThreading` is that matcher, and
`matchThreading_eq` says that the two agree: the cut never fails, and it leaves exactly the renaming
that was there before.

With the reproduction laws this gives the round trip: what matching finds out about a candidate is
enough to build the candidate again.
-/

namespace SequentSearch

/-- The state of a match: the values found so far, and the binders entered. -/
structure MatchState where
  /-- the values found so far -/
  insts : Instantiations
  /-- the binders entered -/
  scope : Renaming

/-- The same binders with other values. -/
def MatchState.withInsts (s : MatchState) (σ : Instantiations) : MatchState := { s with insts := σ }

namespace Renaming

/-- Matching binders enters binders and leaves none. -/
theorem exists_append_of_matchBinders {ps cs : List Binder} {ρ ρ' : Renaming}
    {σ τ : Instantiations} (h : Term.matchBinders ps cs ρ σ = some (ρ', τ)) :
    ∃ entered, ρ'.pairs = entered ++ ρ.pairs := by
  fun_induction Term.matchBinders ps cs ρ σ with
  | case1 ρ σ =>
    cases h
    exact ⟨[], rfl⟩
  | case2 sv ps y cs ρ σ s hkind hsort υ hadd ih => exact ih h
  | case6 x ps y cs ρ σ hsort ih =>
    obtain ⟨entered, hentered⟩ := ih h
    exact ⟨entered ++ [(x, y)], by rw [hentered, push, List.append_assoc]; rfl⟩
  | case3 | case4 | case5 | case7 | case8 => cases h

/-- Cutting back to the depth at which binders were entered undoes entering them. -/
theorem truncate_append {ρ ρ' : Renaming} {entered : List (LogicVar × LogicVar)}
    (h : ρ'.pairs = entered ++ ρ.pairs) : ρ'.truncate ρ.depth = .ok ρ := by
  have hlen : ρ'.depth = entered.length + ρ.depth := by rw [depth, h, List.length_append, depth]
  rw [truncate, if_pos (by omega), hlen, Nat.add_sub_cancel, h, List.drop_left]

end Renaming

namespace Term

mutual

/-- Match a pattern against a term, carrying the renaming of binders in the state. -/
def matchThreading : Term → Term → MatchState → Except Fault (Option MatchState)
  | node (.schema sv) _ labels, candidate, s =>
    match matchVar s.scope sv candidate s.insts with
    | some τ => .ok ((matchLabels labels candidate.labels τ).map s.withInsts)
    | none => .ok none
  | node (.var x) _ labels, candidate, s =>
    match candidate.op with
    | .var y =>
      if s.scope.corresponds x y then
        .ok ((matchLabels labels candidate.labels s.insts).map s.withInsts)
      else .ok none
    | _ => .ok none
  | node op args labels, candidate, s =>
    match matchOperator op candidate.op s.insts with
    | some τ => do
      match ← matchArgsThreading args candidate.args (s.withInsts τ) with
      | some s' => return (matchLabels labels candidate.labels s'.insts).map s'.withInsts
      | none => return none
    | none => .ok none

/-- Match argument lists. The binders of an argument are entered before it and left after it. -/
def matchArgsThreading : List (List Binder × Term) → List (List Binder × Term) → MatchState →
    Except Fault (Option MatchState)
  | [], [], s => .ok (some s)
  | (xs, p) :: ps, (ys, c) :: cs, s =>
    match matchBinders xs ys s.scope s.insts with
    | some (ρ, τ) => do
      match ← matchThreading p c ⟨τ, ρ⟩ with
      | some s' => matchArgsThreading ps cs ⟨s'.insts, ← s'.scope.truncate s.scope.depth⟩
      | none => return none
    | none => .ok none
  | _, _, _ => .ok none

end

/-- The state after a match below the binders `ρ`, if it succeeded. -/
def inScope (ρ : Renaming) (result : Option Instantiations) : Except Fault (Option MatchState) :=
  .ok (result.map fun τ => ⟨τ, ρ⟩)

theorem matchArgsThreading_eq {ps : List (List Binder × Term)}
    (hps : ∀ a ∈ ps, ∀ c σ ρ, a.2.matchThreading c ⟨σ, ρ⟩ = inScope ρ (a.2.matchInto ρ c σ))
    (cs : List (List Binder × Term)) (σ : Instantiations) (ρ : Renaming) :
    matchArgsThreading ps cs ⟨σ, ρ⟩ = inScope ρ (matchArgs ρ ps cs σ) := by
  induction ps generalizing cs σ with
  | nil => cases cs <;> rfl
  | cons p ps ih =>
    obtain ⟨xs, p⟩ := p
    cases cs with
    | nil => rfl
    | cons c cs =>
      obtain ⟨ys, c⟩ := c
      have ih := ih fun a ha => hps a (List.mem_cons_of_mem _ ha)
      have hp := hps (xs, p) (List.mem_cons_self ..)
      rw [matchArgsThreading, matchArgs]
      cases hbinders : matchBinders xs ys ρ σ with
      | none => rfl
      | some out =>
        obtain ⟨ρ', τ⟩ := out
        obtain ⟨entered, hentered⟩ := Renaming.exists_append_of_matchBinders hbinders
        simp only [hp]
        cases matchInto ρ' p c τ with
        | none => rfl
        | some υ =>
          simp only [inScope, Option.map_some]
          show (do matchArgsThreading ps cs ⟨υ, ← ρ'.truncate ρ.depth⟩) = _
          rw [Renaming.truncate_append hentered]
          exact ih cs υ

/-- **The two matchers agree**: carrying the renaming along never fails, finds the same values, and
ends with the renaming it started with. -/
theorem matchThreading_eq (p c : Term) (σ : Instantiations) (ρ : Renaming) :
    p.matchThreading c ⟨σ, ρ⟩ = inScope ρ (p.matchInto ρ c σ) := by
  induction p generalizing c σ ρ with
  | node op args labels ih =>
    by_cases hsv : ∃ sv, op = .schema sv
    · obtain ⟨sv, rfl⟩ := hsv
      rw [matchThreading, matchInto]
      cases matchVar ρ sv c σ <;> rfl
    by_cases hvar : ∃ x, op = .var x
    · obtain ⟨x, rfl⟩ := hvar
      rw [matchThreading, matchInto]
      cases c.op with
      | var y =>
        by_cases hxy : ρ.corresponds x y
        · simp only [hxy]
          rfl
        · simp only [hxy]
          rfl
      | _ => rfl
    rw [matchThreading, matchInto]
    · cases matchOperator op c.op σ with
      | none => rfl
      | some τ =>
        simp only [MatchState.withInsts, matchArgsThreading_eq fun a ha c σ ρ => ih a ha c σ ρ]
        cases matchArgs ρ args c.args τ <;> rfl
    · exact not_exists.mp hsv
    · exact not_exists.mp hvar
    · exact not_exists.mp hsv
    · exact not_exists.mp hvar

/-- **Round trip.** Matching a pattern that binds schema variables only keeps all values and the
context it is given and ends outside all binders again; and instantiating the pattern with what it
found succeeds and gives the candidate up to renaming of bound variables. -/
theorem instantiate_of_matchInto (rule : String) {pattern candidate : Term} {σ τ : Instantiations}
    (hwf : pattern.WellFormed) (hbinds : pattern.BindsSchematically)
    (h : pattern.matchInto .empty candidate σ = some τ) :
    (∀ sv v, σ.get? sv = some v → τ.get? sv = some v) ∧
      (∀ ctx, σ.context = some ctx → τ.context = some ctx) ∧
      pattern.matchThreading candidate ⟨σ, .empty⟩ = .ok (some ⟨τ, .empty⟩) ∧
      ∃ r, pattern.instantiate rule τ = .ok r ∧ r.alphaEq candidate := by
  obtain ⟨hle, hback⟩ := reproduces hwf hbinds candidate σ τ h
  obtain ⟨r, hr, halpha⟩ := hback τ (Instantiations.le_refl τ)
  refine ⟨hle.1, hle.2, ?_, r, hr, halpha []⟩
  rw [matchThreading_eq, h]
  rfl

/-- `\<{.. skip; #s* ..}\> #phi & \forall #x; (#phi -> #psi)`, a pattern with a context, a list
variable, a binder and a formula that occurs twice. -/
private def roundTripPattern : Term :=
  let phi : SchemaVar := ⟨"#phi", .formula, false, false⟩
  let run : SchemaVar := ⟨"#s", .program .statement, true, false⟩
  conj (modal .diamond (.activeBlock [.skip, .schema run]) (schema phi))
    (quantify .all [.schema ⟨"#x", .logicVar .any, false, false⟩]
      (impl (schema phi) (schema ⟨"#psi", .formula, false, false⟩)))

/-- A candidate: the active statements are in a nested block, and the two formulas in the place of
`#phi` bind different variables. -/
private def roundTripCandidate : Term :=
  let x : LogicVar := ⟨"x", .any⟩
  let y : LogicVar := ⟨"y", .any⟩
  let p (z : LogicVar) : Term := app (.predicate "p" 1) [var z]
  conj (modal .diamond (.block [.block [.skip, .skip, .skip], .skip]) (all x (p x)))
    (all x (impl (all y (p y)) (p x)))

theorem instantiate_of_matchInto_roundTripPattern :
    roundTripPattern.WellFormed ∧ roundTripPattern.BindsSchematically ∧
      ∃ τ, roundTripPattern.matchInto .empty roundTripCandidate .empty = some τ ∧
        roundTripPattern.matchThreading roundTripCandidate ⟨.empty, .empty⟩ =
          .ok (some ⟨τ, .empty⟩) ∧
        ∃ r, roundTripPattern.instantiate "example" τ = .ok r ∧ r.alphaEq roundTripCandidate := by
  have hwf : roundTripPattern.WellFormed := by decide +kernel
  have hbinds : roundTripPattern.BindsSchematically := by decide +kernel
  have hmatch : (roundTripPattern.matchInto .empty roundTripCandidate .empty).isSome := by
    decide +kernel
  obtain ⟨τ, hτ⟩ := Option.isSome_iff_exists.mp hmatch
  obtain ⟨-, -, hscope, hback⟩ := instantiate_of_matchInto "example" hwf hbinds hτ
  exact ⟨hwf, hbinds, τ, hτ, hscope, hback⟩

end Term

end SequentSearch
