import Mathlib.Data.List.Forall2
import SequentSearch.Proofs.Term
import SequentSearch.Template

/-!
# Equality up to renaming as a congruence

`Term.alphaEqUnder` compares two terms below two stacks of binders. Its list half is
`List.Forall₂ (AlphaArg left right)`: arguments are compared one by one, each below its own binders.

Two facts carry everything else. A term equals itself below any one stack (`alphaEqUnder_self`), and
what is equal below two stacks stays equal when the same binders are put around both
(`alphaEqUnder_append`): so a value that was found equal to a candidate on its own can be put back
below the binders of the candidate.
-/

namespace SequentSearch

namespace Term

/-- Two arguments agree below two stacks: as many binders, and subterms that agree below them. -/
def AlphaArg (left right : List Binder) (a b : List Binder × Term) : Prop :=
  a.1.length = b.1.length ∧ alphaEqUnder (a.1.reverse ++ left) (b.1.reverse ++ right) a.2 b.2

theorem alphaEqArgs_iff {left right : List Binder} {as bs : List (List Binder × Term)} :
    alphaEqArgs left right as bs ↔ List.Forall₂ (AlphaArg left right) as bs := by
  induction as generalizing bs with
  | nil => cases bs <;> simp [alphaEqArgs]
  | cons a as ih =>
    cases bs with
    | nil => simp [alphaEqArgs]
    | cons b bs => simp [alphaEqArgs, AlphaArg, ih, and_assoc]

theorem alphaEqUnder_var {left right : List Binder} {x y : LogicVar}
    {as bs : List (List Binder × Term)} {ls ms : List Label} :
    alphaEqUnder left right (node (.var x) as ls) (node (.var y) bs ms) =
      sameReference left right x y := by
  rw [alphaEqUnder]

/-- Below an operator that is not a variable, the operators are equal and the arguments agree. -/
theorem alphaEqUnder_node {left right : List Binder} {o p : Operator}
    {as bs : List (List Binder × Term)} {ls ms : List Label} (ho : ∀ x, o ≠ .var x) :
    alphaEqUnder left right (node o as ls) (node p bs ms) ↔
      o = p ∧ List.Forall₂ (AlphaArg left right) as bs := by
  rw [← alphaEqArgs_iff, alphaEqUnder]
  · simp
  · intro x _ hx
    exact absurd hx (ho x)

/-- **The two ways to agree**: variables that refer to the same place, or the same operator over
arguments that agree. -/
theorem alphaEqUnder_cases {left right : List Binder} {a b : Term}
    (h : alphaEqUnder left right a b) :
    (∃ x y, a.op = .var x ∧ b.op = .var y ∧ sameReference left right x y) ∨
      ((∀ x, a.op ≠ .var x) ∧ a.op = b.op ∧
        List.Forall₂ (AlphaArg left right) a.args b.args) := by
  obtain ⟨o, as, ls⟩ := a
  obtain ⟨p, bs, ms⟩ := b
  by_cases ho : ∃ x, o = .var x
  · obtain ⟨x, rfl⟩ := ho
    by_cases hp : ∃ y, p = .var y
    · obtain ⟨y, rfl⟩ := hp
      exact .inl ⟨x, y, rfl, rfl, alphaEqUnder_var ▸ h⟩
    · rw [alphaEqUnder] at h
      · obtain ⟨rfl, -⟩ : Operator.var x = p ∧ _ := by simpa using h
        exact absurd ⟨x, rfl⟩ hp
      · intro _ y _ hy
        exact absurd ⟨y, hy⟩ hp
  · have ho := not_exists.mp ho
    exact .inr ⟨ho, (alphaEqUnder_node ho).mp h⟩

/-! ## Labels are ignored -/

@[simp] theorem alphaEqUnder_withLabels {left right : List Binder} {a b : Term} {ls : List Label} :
    alphaEqUnder left right (a.withLabels ls) b = alphaEqUnder left right a b := by
  obtain ⟨o, as, ms⟩ := a
  obtain ⟨p, bs, ns⟩ := b
  simp [withLabels, alphaEqUnder]

@[simp] theorem alphaEqUnder_addLabels {left right : List Binder} {a b : Term} {ls : List Label} :
    alphaEqUnder left right (a.addLabels ls) b = alphaEqUnder left right a b :=
  alphaEqUnder_withLabels

/-! ## Stacks -/

@[simp] theorem sameReference_self (stack : List Binder) (x : LogicVar) :
    sameReference stack stack x x := by
  unfold sameReference
  cases stack.idxOf? (.logic x) <;> simp

/-- **A term equals itself** below any stack of binders. -/
theorem alphaEqUnder_self (t : Term) (stack : List Binder) : alphaEqUnder stack stack t t := by
  induction t generalizing stack with
  | node op args labels ih =>
    by_cases hop : ∃ x, op = .var x
    · obtain ⟨x, rfl⟩ := hop
      rw [alphaEqUnder_var]
      exact sameReference_self stack x
    · refine (alphaEqUnder_node (not_exists.mp hop)).mpr ⟨rfl, List.forall₂_same.mpr ?_⟩
      exact fun a ha => ⟨rfl, ih a ha _⟩

theorem alphaEq_self (t : Term) : t.alphaEq t := alphaEqUnder_self t []

theorem sameReference_comm (left right : List Binder) (x y : LogicVar) :
    sameReference left right x y = sameReference right left y x := by
  unfold sameReference
  cases left.idxOf? (.logic x) <;> cases right.idxOf? (.logic y) <;> simp [Bool.beq_comm]

/-- What agrees below two stacks agrees below them the other way round. -/
theorem alphaEqUnder_symm {a b : Term} {left right : List Binder}
    (h : alphaEqUnder left right a b) :
    alphaEqUnder right left b a := by
  induction a generalizing b left right with
  | node o as ls ih =>
    obtain ⟨p, bs, ms⟩ := b
    rcases alphaEqUnder_cases h with ⟨x, y, rfl, rfl, hxy⟩ | ⟨ho, rfl, hargs⟩
    · rw [alphaEqUnder_var, sameReference_comm]
      exact hxy
    · refine (alphaEqUnder_node ho).mpr ⟨rfl, List.Forall₂.flip ?_⟩
      refine ((List.forall₂_and_left _ _).mpr ⟨ih, hargs⟩).imp ?_
      rintro a b ⟨iha, hlen, hab⟩
      exact ⟨hlen.symm, iha hab⟩

theorem alphaEq_symm {a b : Term} (h : a.alphaEq b) : b.alphaEq a := alphaEqUnder_symm h

theorem sameReference_append {left right : List Binder} (stack : List Binder) {x y : LogicVar}
    (hlen : left.length = right.length) (h : sameReference left right x y) :
    sameReference (left ++ stack) (right ++ stack) x y := by
  unfold sameReference List.idxOf? at h ⊢
  rw [List.findIdx?_append, List.findIdx?_append, hlen]
  cases hx : left.findIdx? (· == .logic x) <;> cases hy : right.findIdx? (· == .logic y) <;>
    simp_all
  cases stack.findIdx? (· == .logic y) <;> simp

/-- **Weakening**: what agrees below two stacks still agrees when the same binders are put around
both. -/
theorem alphaEqUnder_append {a b : Term} {left right : List Binder} (stack : List Binder)
    (hlen : left.length = right.length) (h : alphaEqUnder left right a b) :
    alphaEqUnder (left ++ stack) (right ++ stack) a b := by
  induction a generalizing b left right with
  | node o as ls ih =>
    obtain ⟨p, bs, ms⟩ := b
    rcases alphaEqUnder_cases h with ⟨x, y, rfl, rfl, hxy⟩ | ⟨ho, rfl, hargs⟩
    · rw [alphaEqUnder_var]
      exact sameReference_append stack hlen hxy
    · refine (alphaEqUnder_node ho).mpr ⟨rfl, ?_⟩
      refine ((List.forall₂_and_left _ _).mpr ⟨ih, hargs⟩).imp ?_
      rintro a b ⟨iha, hlen', hab⟩
      refine ⟨hlen', ?_⟩
      have := iha (by simp [hlen, hlen']) hab
      rwa [List.append_assoc, List.append_assoc] at this

/-- Terms that are equal up to renaming are so below any stack of binders. -/
theorem alphaEqUnder_of_alphaEq {a b : Term} (h : a.alphaEq b) (stack : List Binder) :
    alphaEqUnder stack stack a b := by
  simpa using alphaEqUnder_append stack rfl h

/-- Terms that are equal up to renaming have the same operator: at the top there is nothing to
rename. -/
theorem op_eq_of_alphaEq {a b : Term} (h : a.alphaEq b) : a.op = b.op := by
  rcases alphaEqUnder_cases h with ⟨x, y, hx, hy, hxy⟩ | ⟨-, heq, -⟩
  · obtain rfl : x = y := by simpa [sameReference] using hxy
    rw [hx, hy]
  · exact heq

end Term

end SequentSearch
