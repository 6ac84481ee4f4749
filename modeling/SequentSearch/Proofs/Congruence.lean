import SequentSearch.Proofs.Alpha
import SequentSearch.Proofs.Positions

/-!
# Equality up to renaming is a congruence

`Term.alphaEq` is reflexive and symmetric by the laws for stacks of binders. Here it is shown to be
transitive, to keep free variables, and to be respected by replacement of subterms. All three are
stated for arbitrary stacks first, as the comparison below a binder is one below longer stacks.

* A variable refers to a depth, and depths are compared, so references can be chained
  (`Term.sameReference_trans`). What the binders are called and whether they are repeated does not
  matter.
* Of the free variables of a term, those that its stack does not bind are kept, in order
  (`Term.freeVars_eq_of_alphaEqUnder`).
* Terms that are equal below no binder are so below every stack, hence also in the place of a
  subterm (`Term.alphaEqUnder_replaceAt`).
-/

namespace SequentSearch

namespace Term

variable {left middle right : List Binder} {a b c t u v w : Term}

/-! ## Transitivity -/

theorem sameReference_trans {x y z : LogicVar} (h : sameReference left middle x y)
    (h' : sameReference middle right y z) : sameReference left right x z := by
  unfold sameReference at *
  cases hx : left.idxOf? (.logic x) <;> cases hy : middle.idxOf? (.logic y) <;>
    cases hz : right.idxOf? (.logic z) <;> simp_all

/-- What agrees below the first and second of three stacks, and below the second and third, agrees
below the first and third. -/
theorem alphaEqUnder_trans (h : alphaEqUnder left middle a b) (h' : alphaEqUnder middle right b c) :
    alphaEqUnder left right a c := by
  induction a generalizing b c left middle right with
  | node o as ls ih =>
    obtain ⟨p, bs, ms⟩ := b
    obtain ⟨q, cs, ns⟩ := c
    rcases alphaEqUnder_cases h with ⟨x, y, rfl, rfl, hxy⟩ | ⟨ho, rfl, hargs⟩
    · rcases alphaEqUnder_cases h' with ⟨y', z, hy, rfl, hyz⟩ | ⟨hnot, -⟩
      · cases hy
        rw [alphaEqUnder_var]
        exact sameReference_trans hxy hyz
      · exact absurd rfl (hnot y)
    · obtain ⟨rfl, hargs'⟩ := (alphaEqUnder_node ho).mp h'
      refine (alphaEqUnder_node ho).mpr ⟨rfl, ?_⟩
      refine forall₂_comp ?_ ((List.forall₂_and_left _ _).mpr ⟨ih, hargs⟩) hargs'
      rintro a b c ⟨iha, hlen, hab⟩ ⟨hlen', hbc⟩
      exact ⟨hlen.trans hlen', iha hab hbc⟩

theorem alphaEq_trans (h : a.alphaEq b) (h' : b.alphaEq c) : a.alphaEq c := alphaEqUnder_trans h h'

/-! ## Free variables -/

/-- Two variables that refer to the same place are both bound, or are the same free variable. -/
theorem bound_or_eq_of_sameReference {x y : LogicVar} (h : sameReference left right x y) :
    Binder.logic x ∈ left ∧ Binder.logic y ∈ right ∨
      Binder.logic x ∉ left ∧ Binder.logic y ∉ right ∧ x = y := by
  have hmem : ∀ {stack : List Binder} {z : LogicVar} {i : Nat},
      stack.idxOf? (.logic z) = some i → Binder.logic z ∈ stack := fun hi =>
    List.isSome_idxOf?.mp (by rw [hi]; rfl)
  unfold sameReference at h
  cases hx : left.idxOf? (.logic x) with
  | none =>
    cases hy : right.idxOf? (.logic y) with
    | none =>
      simp only [hx, hy, beq_iff_eq] at h
      exact .inr ⟨List.idxOf?_eq_none_iff.mp hx, List.idxOf?_eq_none_iff.mp hy, h⟩
    | some j => simp [hx, hy] at h
  | some i =>
    cases hy : right.idxOf? (.logic y) with
    | none => simp [hx, hy] at h
    | some j => exact .inl ⟨hmem hx, hmem hy⟩

/-- What an argument contributes is bound neither by its own binders nor by the stack around
them. -/
theorem filter_freeVarsArgs {as bs : List (List Binder × Term)}
    (ih : ∀ a ∈ as, ∀ {left right : List Binder} {b : Term}, alphaEqUnder left right a.2 b →
      (a.2.freeVars.filter fun x => Binder.logic x ∉ left) =
        b.freeVars.filter fun x => Binder.logic x ∉ right)
    (h : List.Forall₂ (AlphaArg left right) as bs) :
    ((freeVarsArgs as).filter fun x => Binder.logic x ∉ left) =
      (freeVarsArgs bs).filter fun x => Binder.logic x ∉ right := by
  induction h with
  | nil => rfl
  | @cons a b as bs hab _ ihs =>
    obtain ⟨iha, ih⟩ := List.forall_mem_cons.mp ih
    have hfirst := iha hab.2
    simp only [List.mem_append, List.mem_reverse, not_or, Bool.decide_and] at hfirst
    simp only [freeVarsArgs, List.filter_append, List.filter_filter, ihs ih]
    congr 1
    simpa [Bool.and_comm] using hfirst

/-- **Terms that agree below two stacks have the same free variables** apart from those that the
stacks bind, in the same order. -/
theorem freeVars_eq_of_alphaEqUnder (h : alphaEqUnder left right a b) :
    (a.freeVars.filter fun x => Binder.logic x ∉ left) =
      b.freeVars.filter fun x => Binder.logic x ∉ right := by
  induction a generalizing b left right with
  | node o as ls ih =>
    obtain ⟨p, bs, ms⟩ := b
    rcases alphaEqUnder_cases h with ⟨x, y, rfl, rfl, hxy⟩ | ⟨ho, rfl, hargs⟩
    · rcases bound_or_eq_of_sameReference hxy with ⟨hx, hy⟩ | ⟨hx, hy, rfl⟩ <;>
          simp [freeVars, hx, hy]
    · rw [freeVars, freeVars]
      · exact filter_freeVarsArgs ih hargs
      · exact ho
      · exact ho

theorem freeVars_eq_of_alphaEq (h : a.alphaEq b) : a.freeVars = b.freeVars := by
  simpa using freeVars_eq_of_alphaEqUnder h

/-! ## Replacement -/

/-- **Replacement respects equality up to renaming**, also below the binders that the place is in
the scope of: the replacing terms agree below every stack. -/
theorem alphaEqUnder_replaceAt {pos : Position} {t₁ t₂ : Term} (huv : u.alphaEq v)
    (hu : t.replaceAt pos u = .ok t₁) (hv : t.replaceAt pos v = .ok t₂) (stack : List Binder) :
    alphaEqUnder stack stack t₁ t₂ := by
  induction pos generalizing t t₁ t₂ stack with
  | nil =>
    cases hu
    cases hv
    exact alphaEqUnder_of_alphaEq huv stack
  | cons i rest ih =>
    obtain ⟨bound, w, w₁, hw, hw₁, rfl⟩ := replaceAt_cons hu
    obtain ⟨bound', w', w₂, hw', hw₂, rfl⟩ := replaceAt_cons hv
    obtain ⟨rfl, rfl⟩ : bound = bound' ∧ w = w' := by simpa [hw] using hw'
    by_cases hvar : ∃ x, t.op = .var x
    · obtain ⟨x, hx⟩ := hvar
      rw [hx, alphaEqUnder_var]
      exact sameReference_self stack x
    · refine (alphaEqUnder_node (not_exists.mp hvar)).mpr ⟨rfl, ?_⟩
      have hi : i.toNat < t.args.length := (List.getElem?_eq_some_iff.mp hw).1
      -- the second replacement changes the argument that the first has left there
      have hset : t.args.set i.toNat (bound, w₂) =
          (t.args.set i.toNat (bound, w₁)).set i.toNat (bound, w₂) := by rw [List.set_set]
      rw [hset]
      refine forall₂_set (fun c _ => ⟨rfl, alphaEqUnder_self _ _⟩) (List.getElem?_set_self hi) ?_
      exact ⟨rfl, ih hw₁ hw₂ _⟩

/-- **Equality up to renaming is a congruence**: an equivalence that keeps the free variables, one
entry per occurrence, and is respected by replacement at every position a term has. -/
theorem alphaEq_congruence :
    Equivalence (fun a b : Term => a.alphaEq b = true) ∧
      (∀ a b : Term, a.alphaEq b → a.freeVars = b.freeVars) ∧
      ∀ (t w u v : Term) (pos : Position), t.subtermAt pos = .ok w → u.alphaEq v →
        ∃ t₁ t₂, t.replaceAt pos u = .ok t₁ ∧ t.replaceAt pos v = .ok t₂ ∧ t₁.alphaEq t₂ := by
  refine ⟨⟨alphaEq_self, alphaEq_symm, alphaEq_trans⟩, fun a b => freeVars_eq_of_alphaEq, ?_⟩
  intro t w u v pos hpos huv
  obtain ⟨t₁, h₁⟩ := exists_replaceAt hpos u
  obtain ⟨t₂, h₂⟩ := exists_replaceAt hpos v
  exact ⟨t₁, t₂, h₁, h₂, alphaEqUnder_replaceAt huv h₁ h₂ []⟩

/-- `\forall outer, x; r(x, z)`, where `outer` may be `x` once more. -/
private def twiceBound (outer : LogicVar) : Term :=
  quantify .all [.logic outer, .logic ⟨"x", .any⟩]
    (app (.predicate "r" 2) [var ⟨"x", .any⟩, var ⟨"z", .any⟩])

/-- Repeated binders agree with different ones, also where the variable `z` that is free in them
gets bound. -/
theorem alphaEq_congruence_twiceBound :
    (all ⟨"z", .any⟩ (neg (atom "q"))).subtermAt [0, 0] = .ok (atom "q") ∧
      (twiceBound ⟨"x", .any⟩).alphaEq (twiceBound ⟨"y", .any⟩) ∧
      (twiceBound ⟨"x", .any⟩).freeVars = (twiceBound ⟨"y", .any⟩).freeVars ∧
      ∃ t₁ t₂, (all ⟨"z", .any⟩ (neg (atom "q"))).replaceAt [0, 0]
        (twiceBound ⟨"x", .any⟩) = .ok t₁ ∧
        (all ⟨"z", .any⟩ (neg (atom "q"))).replaceAt [0, 0] (twiceBound ⟨"y", .any⟩) = .ok t₂ ∧
        t₁.alphaEq t₂ := by
  have hpos : (all ⟨"z", .any⟩ (neg (atom "q"))).subtermAt [0, 0] = .ok (atom "q") := rfl
  have halpha : (twiceBound ⟨"x", .any⟩).alphaEq (twiceBound ⟨"y", .any⟩) := by decide
  exact ⟨hpos, halpha, alphaEq_congruence.2.1 _ _ halpha,
    alphaEq_congruence.2.2 _ _ _ _ _ hpos halpha⟩

end Term

end SequentSearch
