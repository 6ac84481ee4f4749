import Mathlib.Data.List.Lex
import SequentSearch.Calculus.Propositional
import SequentSearch.Proofs.Applications

/-!
# Which formulas are found for the assumes part

The assumes part of a rule is matched by choosing a formula for each of its patterns. A **choice**
is written as the list of the numbers of the chosen formulas on their sides (`Rule.Picks`), and
choices are compared as words are in a dictionary. The search looks at them in this order.

* `Rule.matchFormulas_cases`: it fails only if no choice matches.
* `Rule.matchFormulas_eq_some_iff`: otherwise it returns what the first choice that matches gives.

Side conditions are looked at after the search, for the choice it returned
(`Rule.matchAssumes_eq_some_iff`). So a rule is not applied if its first choice violates a
condition, even if a later one would not (`Rule.matchAssumes_misses`).
-/

namespace SequentSearch

namespace Rule

/-! ## Choices -/

/-- **A choice of formulas that matches**: the formulas with the given numbers, none of them that of
the focus, match the patterns one after another, below the binder pairs `ρ`. -/
inductive Picks (ρ : Renaming) (seq : Sequent) (focus : Option Occurrence) :
    List (Side × Term) → Instantiations → List Nat → List Occurrence → Instantiations → Prop
  /-- no pattern, no formula -/
  | nil {σ} : Picks ρ seq focus [] σ [] [] σ
  /-- a formula for the first pattern, and formulas for the others under the values that it gives -/
  | cons {side rest σ i f is found τ υ} {p : Term} (hf : (seq.side side)[i]? = some f)
      (hfocus : ∀ o, focus = some o → ¬(o.side = side ∧ o.formula = f))
      (hmatch : p.matchInto ρ f.term σ = some τ) (hrest : Picks ρ seq focus rest τ is found υ) :
      Picks ρ seq focus ((side, p) :: rest) σ (i :: is) (⟨side, f, []⟩ :: found) υ

/-- **The first choice that matches**, in the order of dictionaries. -/
structure PicksFirst (ρ : Renaming) (seq : Sequent) (focus : Option Occurrence)
    (es : List (Side × Term)) (σ : Instantiations) (is : List Nat) (found : List Occurrence)
    (υ : Instantiations) : Prop where
  /-- it matches -/
  picks : Picks ρ seq focus es σ is found υ
  /-- no choice before it does -/
  first : ∀ {js found' υ'}, Picks ρ seq focus es σ js found' υ' → is ≤ js

variable {ρ : Renaming} {seq : Sequent} {focus : Option Occurrence} {es : List (Side × Term)}
  {σ υ υ' : Instantiations} {is js : List Nat} {found found' : List Occurrence}

/-- The numbers of a choice determine its formulas and values. -/
theorem Picks.unique (h : Picks ρ seq focus es σ is found υ)
    (h' : Picks ρ seq focus es σ is found' υ') :
    found = found' ∧ υ = υ' := by
  induction h generalizing found' with
  | nil =>
    cases h'
    exact ⟨rfl, rfl⟩
  | cons hf _ hmatch _ ih =>
    obtain _ | ⟨hf', _, hmatch', hrest'⟩ := h'
    obtain rfl := Option.some.inj (hf.symm.trans hf')
    obtain rfl := Option.some.inj (hmatch.symm.trans hmatch')
    obtain ⟨rfl, rfl⟩ := ih hrest'
    exact ⟨rfl, rfl⟩

/-! ## The search -/

/-- What the search does with one formula for the first pattern. -/
def tryFormula (ρ : Renaming) (seq : Sequent) (focus : Option Occurrence) (side : Side) (p : Term)
    (rest : List (Side × Term)) (σ : Instantiations) (f : SeqFormula) :
    Option (Instantiations × List Occurrence) :=
  if focus.any fun o => o.side == side && o.formula == f then none
  else
    match p.matchInto ρ f.term σ with
    | some τ => (matchFormulas ρ seq focus rest τ).map fun (υ, found) => (υ, ⟨side, f, []⟩ :: found)
    | none => none

theorem matchFormulas_cons (side : Side) (p : Term) (rest : List (Side × Term)) :
    matchFormulas ρ seq focus ((side, p) :: rest) σ =
      (seq.side side).findSome? (tryFormula ρ seq focus side p rest σ) := rfl

theorem tryFormula_eq_some {side : Side} {p : Term} {rest : List (Side × Term)} {f : SeqFormula} :
    tryFormula ρ seq focus side p rest σ f = some (υ, found) ↔
      (∀ o, focus = some o → ¬(o.side = side ∧ o.formula = f)) ∧
      ∃ τ, p.matchInto ρ f.term σ = some τ ∧
        ∃ found', matchFormulas ρ seq focus rest τ = some (υ, found') ∧
          ⟨side, f, []⟩ :: found' = found := by
  have hskip : (focus.any fun o => o.side == side && o.formula == f) = true ↔
      ¬∀ o, focus = some o → ¬(o.side = side ∧ o.formula = f) := by
    cases focus <;> simp
  unfold tryFormula
  constructor
  · intro h
    split at h <;> rename_i hany
    · cases h
    · split at h <;> rename_i hmatch
      · obtain ⟨⟨υ', found'⟩, hrest, heq⟩ := Option.map_eq_some_iff.mp h
        obtain ⟨rfl, rfl⟩ := Prod.mk.inj heq
        exact ⟨not_not.mp (mt hskip.mpr hany), _, hmatch, found', hrest, rfl⟩
      · cases h
  · rintro ⟨hfocus, τ, hmatch, found', hrest, rfl⟩
    rw [if_neg (mt hskip.mp (not_not.mpr hfocus)), hmatch]
    exact Option.map_eq_some_iff.mpr ⟨_, hrest, rfl⟩

/-- **The search returns what the first choice that matches gives**, and fails only if there is
none. -/
theorem matchFormulas_cases (ρ : Renaming) (seq : Sequent) (focus : Option Occurrence)
    (es : List (Side × Term)) (σ : Instantiations) :
    (matchFormulas ρ seq focus es σ = none ∧ ∀ is found υ, ¬Picks ρ seq focus es σ is found υ) ∨
      ∃ is found υ, matchFormulas ρ seq focus es σ = some (υ, found) ∧
        PicksFirst ρ seq focus es σ is found υ := by
  induction es generalizing σ with
  | nil =>
    refine .inr ⟨[], [], σ, rfl, .nil, ?_⟩
    rintro _ _ _ ⟨⟩
    exact le_rfl
  | cons e rest ih =>
    obtain ⟨side, p⟩ := e
    -- a formula that is passed over begins no choice
    have hskipped : ∀ {i f is found υ}, (seq.side side)[i]? = some f →
        tryFormula ρ seq focus side p rest σ f = none →
        ¬Picks ρ seq focus ((side, p) :: rest) σ (i :: is) found υ := by
      rintro i f is _ υ hi hnone (_ | ⟨hf, hfocus, hmatch, hrest⟩)
      obtain rfl := Option.some.inj (hi.symm.trans hf)
      rcases ih _ with ⟨-, hnot⟩ | ⟨is', found', υ', hsome, -⟩
      · exact hnot _ _ _ hrest
      · have htry := tryFormula_eq_some.mpr ⟨hfocus, _, hmatch, found', hsome, rfl⟩
        cases hnone.symm.trans htry
    rw [matchFormulas_cons]
    cases hsearch : (seq.side side).findSome? (tryFormula ρ seq focus side p rest σ) with
    | none =>
      refine .inl ⟨rfl, fun is found υ hpicks => ?_⟩
      cases hpicks with
      | cons hf hfocus hmatch hrest =>
        have hnone := List.findSome?_eq_none_iff.mp hsearch _ (List.mem_of_getElem? hf)
        exact hskipped hf hnone (.cons hf hfocus hmatch hrest)
    | some result =>
      obtain ⟨υ, found⟩ := result
      obtain ⟨before, f, after, hside, htry, hbefore⟩ := List.findSome?_eq_some_iff.mp hsearch
      obtain ⟨hfocus, τ, hmatch, found', hrest, rfl⟩ := tryFormula_eq_some.mp htry
      rcases ih τ with ⟨hnone, -⟩ | ⟨is, _, _, hsome, hfirst⟩
      · cases hrest.symm.trans hnone
      obtain ⟨rfl, rfl⟩ := Prod.mk.inj (Option.some.inj (hrest.symm.trans hsome))
      have hf : (seq.side side)[before.length]? = some f := by simp [hside]
      refine .inr ⟨before.length :: is, _, _, rfl, .cons hf hfocus hmatch hfirst.picks, ?_⟩
      intro js _ _ hpicks
      cases hpicks with
      | @cons _ _ _ j f' js _ _ _ _ hf' hfocus' hmatch' hrest' =>
        rcases lt_trichotomy before.length j with hlt | rfl | hlt
        · exact le_of_lt (List.Lex.rel hlt)
        · obtain rfl := Option.some.inj (hf.symm.trans hf')
          obtain rfl := Option.some.inj (hmatch.symm.trans hmatch')
          exact List.cons_le_cons _ (hfirst.first hrest')
        · have hmem : f' ∈ before := by
            rw [hside, List.getElem?_append_left hlt] at hf'
            exact List.mem_of_getElem? hf'
          exact absurd (.cons hf' hfocus' hmatch' hrest') (hskipped hf' (hbefore f' hmem))

/-- **The search returns what the first choice that matches gives.** -/
theorem matchFormulas_eq_some_iff :
    matchFormulas ρ seq focus es σ = some (υ, found) ↔
    ∃ is, PicksFirst ρ seq focus es σ is found υ := by
  constructor
  · intro h
    rcases matchFormulas_cases ρ seq focus es σ with ⟨hnone, -⟩ | ⟨is, _, _, hsome, hfirst⟩
    · cases h.symm.trans hnone
    · obtain ⟨rfl, rfl⟩ := Prod.mk.inj (Option.some.inj (h.symm.trans hsome))
      exact ⟨is, hfirst⟩
  · rintro ⟨is, hfirst⟩
    rcases matchFormulas_cases ρ seq focus es σ with ⟨-, hnot⟩ | ⟨js, _, _, hsome, hfirst'⟩
    · exact absurd hfirst.picks (hnot _ _ _)
    · obtain rfl := le_antisymm (hfirst.first hfirst'.picks) (hfirst'.first hfirst.picks)
      obtain ⟨rfl, rfl⟩ := hfirst.picks.unique hfirst'.picks
      exact hsome

/-- A side condition is violated once all its variables have values and its verdict is negative. -/
theorem conditionsHold_false_iff {r : Rule} :
    r.conditionsHold false σ ↔ ∀ c ∈ r.conditions, c.check σ ≠ some false := by
  unfold conditionsHold
  rw [List.all_eq_true]
  refine forall₂_congr fun c _ => ?_
  cases c.check σ <;> simp

/-! ## The assumes part -/

/-- **The assumes part is matched by the first choice that matches, if that violates no side
condition.** Whether a later choice would violate none is not looked at. -/
theorem matchAssumes_eq_some_iff {r : Rule} :
    r.matchAssumes ρ seq focus σ = some (υ, found) ↔
      ∃ is, PicksFirst ρ seq focus r.assumes.sided σ is found υ ∧
        ∀ c ∈ r.conditions, c.check υ ≠ some false := by
  rw [RuleApp.matchAssumes_iff_matchFormulas, matchFormulas_eq_some_iff, conditionsHold_false_iff,
    exists_and_right]

/-- Closes a goal in which two properties hold, of different objects. -/
private def apart : RuleDraft where
  name := "apart"
  find := .antec (.app (.predicate "q" 1) [.schema (Calculus.termVar "#x")])
  assumes := { antec := [.app (.predicate "p" 1) [.schema (Calculus.termVar "#y")]] }
  conditions := [.different (Calculus.termVar "#x") (Calculus.termVar "#y")]

/-- A property of a constant. -/
private def holdsOf (predicate constant : String) : SeqFormula :=
  ⟨.app (.predicate predicate 1) [.const constant .any], rfl⟩

/-- `p(a), p(b), q(a) ==>` -/
private def twoObjects : Sequent := { antec := [holdsOf "p" "a", holdsOf "p" "b", holdsOf "q" "a"] }

/-- **A choice that is missed.** In `p(a), p(b), q(a) ==>` the rule applies to `q(a)` with `p(b)`.
But `p(a)` matches first, and with it the side condition is violated. -/
theorem matchAssumes_misses : ∃ r focus σ is found υ, apart.accept = .ok r ∧
    focus.formula = holdsOf "q" "a" ∧ r.matchFind focus.formula.term = some σ ∧
    Picks .empty twoObjects (some focus) r.assumes.sided σ is found υ ∧
    (∀ c ∈ r.conditions, c.check υ ≠ some false) ∧
    r.matchAssumes .empty twoObjects (some focus) σ = none := by
  let x := Calculus.termVar "#x"
  let y := Calculus.termVar "#y"
  let a : Instantiation := .term (.const "a" .any)
  let b : Instantiation := .term (.const "b" .any)
  refine ⟨{ apart with schemaVars := [x, y] }, ⟨.antec, holdsOf "q" "a", []⟩, ⟨[(x, a)], none⟩, [1],
    [⟨.antec, holdsOf "p" "b", []⟩], ⟨[(y, b), (x, a)], none⟩, rfl, rfl, rfl, ?_, by decide, rfl⟩
  exact .cons rfl (by decide) rfl .nil

end Rule

end SequentSearch
