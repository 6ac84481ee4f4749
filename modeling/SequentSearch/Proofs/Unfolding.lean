import SequentSearch.Proofs.SchemaFree

/-!
# Executing substitutions unfolds them

In a nameless term a substitution operator can be **unfolded** without any renaming: the body is
read with the replacement in the place of the variable. `Nameless.unfold` does that for all
operators of a term in one pass from the outside in. It carries along what each binder around a
place stands for, the binders of substitution operators for their replacements and all others for
themselves.

`Term.executeSubsts` goes the other way: it executes the innermost operators first, one after
another, and renames binders that are in the way. What it makes of a term has the nameless form that
unfolding gives (`Term.executeSubsts_unfolds`). The step is `Term.unfold_nameless_subst`: to unfold
the result of one substitution is to unfold its body with the variable standing for the unfolded
replacement.
-/

namespace SequentSearch

/-! ## Unfolding -/

namespace Nameless

/-- The change `f` of references, below `n` binders: references to those stay. -/
def passing (n : Nat) (f : Nat → Nat) (i : Nat) : Nat := if i < n then i else f (i - n) + n

mutual

/-- The term with `f` applied to the references that lead out of it. -/
def shift : Nameless → (Nat → Nat) → Nameless
  | bound i, f => bound (f i)
  | free x, _ => free x
  | node op args, f => node op (shiftArgs args f)

/-- The arguments with `f` applied to the references that lead out of them. -/
def shiftArgs : List (List Slot × Nameless) → (Nat → Nat) → List (List Slot × Nameless)
  | [], _ => []
  | (slots, t) :: rest, f => (slots, t.shift (passing slots.length f)) :: shiftArgs rest f

end

/-- What references stand for below `n` more binders, which stand for themselves. -/
def under (n : Nat) (ρ : Nat → Nameless) (i : Nat) : Nameless :=
  if i < n then bound i else (ρ (i - n)).shift (· + n)

/-- What references stand for below one more binder, which stands for `u`. -/
def extend (u : Nameless) (ρ : Nat → Nameless) : Nat → Nameless
  | 0 => u
  | i + 1 => ρ i

mutual

/-- **The term with its substitution operators unfolded**, where `ρ` is what the references that
lead out of it stand for. The body of a substitution operator is read with the replacement for its
variable. -/
def unfold : Nameless → (Nat → Nameless) → Nameless
  | bound i, ρ => ρ i
  | free x, _ => free x
  | node .subst [([], s), ([.logic _], body)], ρ => body.unfold (extend (s.unfold ρ) ρ)
  | node op args, ρ => node op (unfoldArgs args ρ)

/-- The arguments with their substitution operators unfolded. -/
def unfoldArgs : List (List Slot × Nameless) → (Nat → Nameless) → List (List Slot × Nameless)
  | [], _ => []
  | (slots, t) :: rest, ρ => (slots, t.unfold (under slots.length ρ)) :: unfoldArgs rest ρ

end

variable {f g : Nat → Nat} {ρ : Nat → Nameless} {n : Nat}

theorem shiftArgs_eq_map (args : List (List Slot × Nameless)) :
    shiftArgs args f = args.map fun a => (a.1, a.2.shift (passing a.1.length f)) := by
  induction args with
  | nil => rfl
  | cons a args ih => rw [shiftArgs, ih, List.map_cons]

theorem unfoldArgs_eq_map (args : List (List Slot × Nameless)) :
    unfoldArgs args ρ = args.map fun a => (a.1, a.2.unfold (under a.1.length ρ)) := by
  induction args with
  | nil => rfl
  | cons a args ih => rw [unfoldArgs, ih, List.map_cons]

theorem unfold_node {op : Operator} (hop : op ≠ .subst) (args : List (List Slot × Nameless)) :
    (node op args).unfold ρ = node op (args.map fun a =>
      (a.1, a.2.unfold (under a.1.length ρ))) := by
  rw [unfold, unfoldArgs_eq_map]
  exact fun _ _ _ h _ => hop h

theorem passing_comp (n : Nat) (f g : Nat → Nat) :
    passing n g ∘ passing n f = passing n (g ∘ f) := by
  funext i
  simp only [Function.comp, passing]
  split <;> rename_i hi
  · rfl
  · rw [if_neg (by omega), Nat.add_sub_cancel]

theorem passing_id (n : Nat) : passing n id = id := by
  funext i
  simp only [passing, id]
  split <;> omega

theorem under_bound (n : Nat) : under n bound = bound := by
  funext i
  simp only [under, shift]
  split
  · rfl
  · congr 1
    omega

mutual

/-- Two changes of references one after the other. -/
theorem shift_shift : (t : Nameless) → (f g : Nat → Nat) → (t.shift f).shift g = t.shift (g ∘ f)
  | bound i, f, g => rfl
  | free x, f, g => rfl
  | node op args, f, g => by rw [shift, shift, shift, shiftArgs_shiftArgs]

theorem shiftArgs_shiftArgs : (args : List (List Slot × Nameless)) → (f g : Nat → Nat) →
    shiftArgs (shiftArgs args f) g = shiftArgs args (g ∘ f)
  | [], f, g => rfl
  | (slots, t) :: rest, f, g => by
    rw [shiftArgs, shiftArgs, shiftArgs, shift_shift, passing_comp, shiftArgs_shiftArgs]

end

mutual

theorem shift_id : (t : Nameless) → t.shift id = t
  | bound i => rfl
  | free x => rfl
  | node op args => by rw [shift, shiftArgs_id]

theorem shiftArgs_id : (args : List (List Slot × Nameless)) → shiftArgs args id = args
  | [] => rfl
  | (slots, t) :: rest => by rw [shiftArgs, passing_id, shift_id, shiftArgs_id]

end

/-- A change of references can be made before or after entering binders. -/
theorem shift_passing (t : Nameless) (n : Nat) (f : Nat → Nat) :
    (t.shift (· + n)).shift (passing n f) = (t.shift f).shift (· + n) := by
  rw [shift_shift, shift_shift]
  congr 1
  funext i
  simp [passing]

end Nameless

namespace Term

open Nameless (under extend passing)

variable {stack stack' : List Binder} {x y : LogicVar} {ρ ρ' : Nat → Nameless}

/-! ## What variables stand for -/

/-- A variable that is bound at the top stands for itself there. -/
theorem unfold_resolve_of_mem {bs : List Binder} (h : Binder.logic x ∈ bs) :
    ∃ i < bs.length, ∀ (stack : List Binder) (ρ : Nat → Nameless),
      (resolve (bs ++ stack) x).unfold (under bs.length ρ) = .bound i := by
  obtain ⟨i, hi⟩ := Option.isSome_iff_exists.mp (List.isSome_idxOf?.mpr h)
  have hlt : i < bs.length := (List.idxOf?_eq_some_iff.mp hi).1
  refine ⟨i, hlt, fun stack ρ => ?_⟩
  have hresolve : resolve (bs ++ stack) x = .bound i := by
    unfold resolve List.idxOf? at *
    rw [List.findIdx?_append, hi]
    rfl
  rw [hresolve, Nameless.unfold, under, if_pos hlt]

/-- Below binders that do not bind it, a variable stands for what it stands for outside. -/
theorem unfold_resolve_of_not_mem {bs : List Binder} (h : Binder.logic x ∉ bs) :
    (resolve (bs ++ stack) x).unfold (under bs.length ρ) =
      ((resolve stack x).unfold ρ).shift (· + bs.length) := by
  have hnone := List.idxOf?_eq_none_iff.mpr h
  unfold resolve List.idxOf? at *
  rw [List.findIdx?_append, hnone]
  cases hi : stack.findIdx? (· == .logic x) with
  | none => rfl
  | some i =>
    show under bs.length ρ (i + bs.length) = (ρ i).shift (· + bs.length)
    rw [under, if_neg (by omega), Nat.add_sub_cancel]

theorem unfold_resolve_self (u : Nameless) :
    (resolve (.logic x :: stack) x).unfold (extend u ρ) = u := by
  simp [resolve, List.idxOf?_cons, Nameless.unfold, extend]

theorem unfold_resolve_of_ne (h : y ≠ x) (u : Nameless) :
    (resolve (.logic x :: stack) y).unfold (extend u ρ) = (resolve stack y).unfold ρ := by
  have hne : (Binder.logic x == Binder.logic y) = false := by simpa using Ne.symm h
  unfold resolve
  rw [List.idxOf?_cons, hne]
  cases stack.idxOf? (.logic y) <;> rfl

/-- A variable that stands for something may be entered before or after binders that do not bind
it. -/
theorem unfold_resolve_swap {bs : List Binder} (hx : Binder.logic x ∉ bs) (u : Nameless) :
    (resolve (.logic x :: (bs ++ stack)) y).unfold
      (extend (u.shift (· + bs.length)) (under bs.length ρ)) =
        (resolve (bs ++ .logic x :: stack) y).unfold (under bs.length (extend u ρ)) := by
  by_cases hyx : y = x
  · subst hyx
    rw [unfold_resolve_self, unfold_resolve_of_not_mem hx, unfold_resolve_self]
  · rw [unfold_resolve_of_ne hyx]
    by_cases hmem : Binder.logic y ∈ bs
    · obtain ⟨i, -, hself⟩ := unfold_resolve_of_mem hmem
      rw [hself, hself]
    · rw [unfold_resolve_of_not_mem hmem, unfold_resolve_of_not_mem hmem, unfold_resolve_of_ne hyx]

/-! ## Terms without substitution operators -/

/-- No operator of the term is a substitution operator. -/
def SubstFree (t : Term) : Prop := ∀ u ∈ t.subterms, u.op ≠ .subst

theorem substFree_node {op : Operator} {args : List (List Binder × Term)} {labels : List Label} :
    (node op args labels).SubstFree ↔ op ≠ .subst ∧ ∀ a ∈ args, a.2.SubstFree :=
  forall_subterms_node

theorem SubstFree.rename {t : Term} (ht : t.SubstFree) (x y : LogicVar) :
    (t.rename x y).SubstFree := by
  induction t with
  | node op args labels ih =>
    obtain ⟨hop, hargs⟩ := substFree_node.mp ht
    by_cases hvar : ∃ z, op = .var z
    · obtain ⟨z, rfl⟩ := hvar
      rw [Term.rename]
      split
      · exact substFree_node.mpr ⟨by simp, by simp⟩
      · exact ht
    · rw [rename_node (not_exists.mp hvar)]
      refine substFree_node.mpr ⟨hop, fun a' ha' => ?_⟩
      obtain ⟨a, ha, rfl⟩ := List.mem_map.mp ha'
      rw [renameArg]
      split
      · exact hargs a ha
      · exact ih a ha (hargs a ha)

theorem SubstFree.avoidCapture {body : Term} (h : body.SubstFree) (s : Term)
    (done later : List Binder) :
    (avoidCapture s done later body).2.SubstFree := by
  induction later generalizing done body with
  | nil => exact h
  | cons b later ih =>
    cases b with
    | schema sv => exact ih h _
    | logic y =>
      by_cases hy : y ∈ s.freeVars
      · rw [avoidCapture_captured hy]
        refine ih ?_ _
        rw [renamedBody]
        split
        · exact h
        · exact h.rename _ _
      · rw [avoidCapture_harmless hy]
        exact ih h _

theorem SubstFree.subst {s t : Term} (ht : t.SubstFree) (hs : s.SubstFree) (x : LogicVar) :
    (subst x s t).SubstFree := by
  induction t using substInduct (s := s) with
  | var y args labels =>
    rw [Term.subst]
    split
    · exact hs
    · exact ht
  | node op args labels hvar ih =>
    obtain ⟨hop, hargs⟩ := substFree_node.mp ht
    rw [subst_node hvar]
    refine substFree_node.mpr ⟨hop, fun a' ha' => ?_⟩
    obtain ⟨a, ha, rfl⟩ := List.mem_map.mp ha'
    rcases substArg_cases x s a with ⟨-, heq⟩ | ⟨-, -, heq⟩
    · rw [heq]
      exact hargs a ha
    · rw [heq]
      exact ih a ha ((hargs a ha).avoidCapture s [] a.1)

/-- Unfolding below an operator that is neither a variable nor a substitution operator. -/
theorem unfold_nameless_node {op : Operator} {args : List (List Binder × Term)}
    {labels : List Label} (hvar : ∀ x, op ≠ .var x) (hop : op ≠ .subst) :
    ((node op args labels).nameless stack).unfold ρ =
      .node op (args.map fun a =>
        (a.1.map Binder.slot, (a.2.nameless (a.1.reverse ++ stack)).unfold
          (under a.1.length ρ))) := by
  rw [nameless_node hvar, Nameless.unfold_node hop, List.map_map]
  simp only [Function.comp_def, namelessArg, List.length_map]

/-- Where there is no substitution operator, nothing is unfolded. -/
theorem SubstFree.unfold_nameless {t : Term} (ht : t.SubstFree) (stack : List Binder) :
    (t.nameless stack).unfold .bound = t.nameless stack := by
  induction t generalizing stack with
  | node op args labels ih =>
    by_cases hvar : ∃ x, op = .var x
    · obtain ⟨x, rfl⟩ := hvar
      rw [nameless_var, resolve]
      cases stack.idxOf? (.logic x) <;> rfl
    · obtain ⟨hop, hargs⟩ := substFree_node.mp ht
      rw [unfold_nameless_node (not_exists.mp hvar) hop, nameless_node (not_exists.mp hvar)]
      refine congrArg _ (List.map_congr_left fun a ha => ?_)
      rw [Nameless.under_bound, ih a ha (hargs a ha), namelessArg]

/-- **The unfolded form depends on what the free variables stand for**: a change of the references
in that is a change of the references in the whole form. -/
theorem SubstFree.unfold_nameless_shift {t : Term} (ht : t.SubstFree) {f : Nat → Nat}
    (h : ∀ y ∈ t.freeVars, (resolve stack' y).unfold ρ' = ((resolve stack y).unfold ρ).shift f) :
    (t.nameless stack').unfold ρ' = ((t.nameless stack).unfold ρ).shift f := by
  induction t generalizing stack stack' ρ ρ' f with
  | node op args labels ih =>
    by_cases hvar : ∃ x, op = .var x
    · obtain ⟨x, rfl⟩ := hvar
      rw [nameless_var, nameless_var]
      exact h x (by rw [freeVars, List.mem_singleton])
    · obtain ⟨hop, hargs⟩ := substFree_node.mp ht
      have hvar := not_exists.mp hvar
      rw [unfold_nameless_node hvar hop, unfold_nameless_node hvar hop, Nameless.shift,
        Nameless.shiftArgs_eq_map, List.map_map]
      refine congrArg _ (List.map_congr_left fun a ha => congrArg (Prod.mk _) ?_)
      rw [List.length_map]
      refine ih a ha (hargs a ha) fun y hy => ?_
      -- `y` is bound here and stands for itself, or it is free outside
      rw [← List.length_reverse]
      by_cases hbound : Binder.logic y ∈ a.1.reverse
      · obtain ⟨i, hi, hself⟩ := unfold_resolve_of_mem hbound
        rw [hself, hself, Nameless.shift, passing, if_pos hi]
      · have hfree : y ∈ (node op args labels).freeVars :=
          (mem_freeVars_node hvar).mpr ⟨a, ha, hy, mt List.mem_reverse.mpr hbound⟩
        rw [unfold_resolve_of_not_mem hbound, unfold_resolve_of_not_mem hbound, h y hfree,
          Nameless.shift_passing]

theorem SubstFree.unfold_nameless_congr {t : Term} (ht : t.SubstFree)
    (h : ∀ y ∈ t.freeVars, (resolve stack' y).unfold ρ' = (resolve stack y).unfold ρ) :
    (t.nameless stack').unfold ρ' = (t.nameless stack).unfold ρ := by
  rw [← ((t.nameless stack).unfold ρ).shift_id]
  refine ht.unfold_nameless_shift fun y hy => ?_
  rw [Nameless.shift_id, h y hy]

/-! ## Substitution -/

/-- **Unfolding after a substitution**: the body is unfolded with the variable standing for the
unfolded replacement. The binders around an occurrence that are left by the substitution bind
neither the variable nor a free variable of the replacement, so both stand there for what they stand
for outside. -/
theorem unfold_nameless_subst {s t : Term} (hs : s.SubstFree) (ht : t.SubstFree)
    (stack : List Binder) (ρ : Nat → Nameless) :
    ((subst x s t).nameless stack).unfold ρ =
      (t.nameless (.logic x :: stack)).unfold (extend ((s.nameless stack).unfold ρ) ρ) := by
  induction t using substInduct (s := s) generalizing stack ρ with
  | var y args labels =>
    rw [subst, nameless_var]
    split <;> rename_i hy
    · rw [hy, unfold_resolve_self]
    · rw [nameless_var, unfold_resolve_of_ne hy]
  | node op args labels hvar ih =>
    obtain ⟨hop, hargs⟩ := substFree_node.mp ht
    rw [subst_node hvar, unfold_nameless_node hvar hop, unfold_nameless_node hvar hop, List.map_map]
    refine congrArg _ (List.map_congr_left fun a ha => ?_)
    rcases substArg_cases x s a with ⟨hbound, heq⟩ | ⟨hfree, hbound, heq⟩
    · -- nothing happens, and `x` does not occur
      simp only [Function.comp, heq]
      refine congrArg _ ((hargs a ha).unfold_nameless_congr fun y hy => ?_)
      rw [← List.length_reverse]
      by_cases hmem : Binder.logic y ∈ a.1.reverse
      · obtain ⟨i, -, hself⟩ := unfold_resolve_of_mem hmem
        rw [hself, hself]
      · have hyx : y ≠ x := by
          rintro rfl
          exact hmem (List.mem_reverse.mpr (hbound hy))
        rw [unfold_resolve_of_not_mem hmem, unfold_resolve_of_not_mem hmem,
          unfold_resolve_of_ne hyx]
    · simp only [Function.comp, heq]
      have hslots := map_slot_avoidCapture s [] a.1 a.2
      have hform := nameless_avoidCapture s [] a.1 a.2 (.logic x :: stack)
      have hlen : (avoidCapture s [] a.1 a.2).1.length = a.1.length := by
        simpa using congrArg List.length hslots
      -- all below is about the binders that are left
      obtain ⟨bs, hbs⟩ : ∃ bs, bs = (avoidCapture s [] a.1 a.2).1.reverse := ⟨_, rfl⟩
      have hn : a.1.length = bs.length := by rw [hbs, List.length_reverse, hlen]
      have hx' : Binder.logic x ∉ bs := by
        rw [hbs, List.mem_reverse]
        exact not_mem_avoidCapture_of_free hfree List.not_mem_nil hbound
      have hreplacement : (s.nameless (bs ++ stack)).unfold (under bs.length ρ) =
          ((s.nameless stack).unfold ρ).shift (· + bs.length) := by
        refine hs.unfold_nameless_shift fun y hy => unfold_resolve_of_not_mem ?_
        rw [hbs, List.mem_reverse]
        exact not_mem_avoidCapture_of_mem_freeVars hy List.not_mem_nil a.1 a.2
      have hbody := (hargs a ha).avoidCapture s [] a.1
      rw [List.nil_append] at hslots hform
      rw [hslots, hlen, ← hform, ← hbs, hn, ih a ha hbody, hreplacement]
      exact congrArg _ (hbody.unfold_nameless_congr fun y _ => unfold_resolve_swap hx' _)

/-! ## Executing substitutions -/

/-- Every substitution operator of the term binds exactly one logic variable, in its second argument
only. -/
def SubstitutesOne (t : Term) : Prop :=
  ∀ u ∈ t.subterms, u.op = .subst → ∃ s x body, u.args = [([], s), ([.logic x], body)]

theorem substitutesOne_node {op : Operator} {args : List (List Binder × Term)}
    {labels : List Label} :
    (node op args labels).SubstitutesOne ↔
      (op = .subst → ∃ s x body, args = [([], s), ([.logic x], body)]) ∧
        ∀ a ∈ args, a.2.SubstitutesOne :=
  forall_subterms_node

theorem SubstitutesOne.replacementsOpen {t : Term} (h : t.SubstitutesOne) : t.ReplacementsOpen := by
  intro u hu hop a ha
  obtain ⟨s, x, body, hargs⟩ := h u hu hop
  obtain rfl : ([], s) = a := by simpa [hargs] using ha
  rfl

/-- **The two ways in which a term is executed**: a substitution operator puts the executed
replacement into the executed body, and every other operator keeps its place above the executed
arguments. -/
theorem SubstitutesOne.executeSubsts_cases {op : Operator} {args : List (List Binder × Term)}
    {labels : List Label} (h : (node op args labels).SubstitutesOne) :
    (∃ s x body, op = .subst ∧ args = [([], s), ([.logic x], body)] ∧
      (node op args labels).executeSubsts = subst x s.executeSubsts body.executeSubsts) ∨
    (op ≠ .subst ∧ (node op args labels).executeSubsts =
      node op (args.map fun a => (a.1, a.2.executeSubsts)) labels) := by
  by_cases hop : op = .subst
  · obtain ⟨s, x, body, rfl⟩ := (substitutesOne_node.mp h).1 hop
    subst hop
    exact .inl ⟨s, x, body, rfl, rfl, rfl⟩
  · refine .inr ⟨hop, ?_⟩
    rw [executeSubsts, executeSubstsArgs_eq_map, contract_of_not_isRedex]
    intro hredex
    obtain ⟨-, -, -, hsubst, -⟩ := isRedex_iff.mp hredex
    exact hop hsubst

/-- **After the substitutions were executed there is no substitution operator.** -/
theorem SubstitutesOne.substFree_executeSubsts {t : Term} (h : t.SubstitutesOne) :
    t.executeSubsts.SubstFree := by
  induction t with
  | node op args labels ih =>
    have hargs := (substitutesOne_node.mp h).2
    rcases h.executeSubsts_cases with ⟨s, x, body, rfl, rfl, heq⟩ | ⟨hop, heq⟩
    · rw [heq]
      have hs := ih ([], s) (by simp) (hargs _ (by simp))
      exact SubstFree.subst (ih ([.logic x], body) (by simp) (hargs _ (by simp))) hs x
    · rw [heq]
      refine substFree_node.mpr ⟨hop, fun a' ha' => ?_⟩
      obtain ⟨a, ha, rfl⟩ := List.mem_map.mp ha'
      exact ih a ha (hargs a ha)

/-- **Executing substitutions does not change the unfolded form.** -/
theorem SubstitutesOne.unfold_nameless_executeSubsts {t : Term} (h : t.SubstitutesOne)
    (stack : List Binder) (ρ : Nat → Nameless) :
    (t.executeSubsts.nameless stack).unfold ρ = (t.nameless stack).unfold ρ := by
  induction t generalizing stack ρ with
  | node op args labels ih =>
    have hargs := (substitutesOne_node.mp h).2
    rcases h.executeSubsts_cases with ⟨s, x, body, rfl, rfl, heq⟩ | ⟨hop, heq⟩
    · have hs : s.SubstitutesOne := hargs ([], s) (by simp)
      have hbody : body.SubstitutesOne := hargs ([.logic x], body) (by simp)
      have ihs := ih ([], s) (by simp) hs
      have ihbody := ih ([.logic x], body) (by simp) hbody
      rw [heq, unfold_nameless_subst hs.substFree_executeSubsts hbody.substFree_executeSubsts,
        ihs, ihbody]
      rfl
    · rw [heq]
      by_cases hvar : ∃ x, op = .var x
      · obtain ⟨x, rfl⟩ := hvar
        rw [nameless_var, nameless_var]
      · have hvar := not_exists.mp hvar
        rw [unfold_nameless_node hvar hop, unfold_nameless_node hvar hop, List.map_map]
        refine congrArg _ (List.map_congr_left fun a ha => congrArg (Prod.mk _) ?_)
        exact ih a ha (hargs a ha) _ _

/-- **Executing substitutions eliminates them without changing the meaning.** No substitution
operator is left and no variable has become free. Up to bound names and labels, the result is the
term with all its substitution operators unfolded. To execute it once more changes nothing, and
neither does executing a term without substitution operators. -/
theorem executeSubsts_unfolds {t : Term} (h : t.SubstitutesOne) :
    t.executeSubsts.SubstFree ∧ t.executeSubsts.freeVars ⊆ t.freeVars ∧
      t.executeSubsts.nameless [] = (t.nameless []).unfold .bound ∧
      t.executeSubsts.executeSubsts = t.executeSubsts ∧ (t.SubstFree → t.executeSubsts = t) := by
  have hfree := h.substFree_executeSubsts
  refine ⟨hfree, freeVars_executeSubsts h.replacementsOpen, ?_,
    executeSubsts_executeSubsts t, fun ht => ?_⟩
  · calc t.executeSubsts.nameless []
      _ = (t.executeSubsts.nameless []).unfold .bound := (hfree.unfold_nameless []).symm
      _ = (t.nameless []).unfold .bound := h.unfold_nameless_executeSubsts [] .bound
  · refine executeSubsts_of_hasRedex_eq_false
      (hasRedex_eq_false_iff.mpr fun u hu hredex => ht u hu ?_)
    obtain ⟨-, -, -, hop, -⟩ := isRedex_iff.mp hredex
    exact hop

/-- `{\subst x; {\subst z; y} f(z)} \forall y; q(x, {\subst x; y} g(x))` -/
private def entangled : Term :=
  substOp (.logic ⟨"x", .any⟩)
    (substOp (.logic ⟨"z", .any⟩) (var ⟨"y", .any⟩) (app (.function "f" .any 1) [var ⟨"z", .any⟩]))
    (all ⟨"y", .any⟩ (app (.predicate "q" 2) [var ⟨"x", .any⟩,
      substOp (.logic ⟨"x", .any⟩) (var ⟨"y", .any⟩)
        (app (.function "g" .any 1) [var ⟨"x", .any⟩])]))

/-- There are substitutions in the replacement and in the body, and a binder of `y` is in the way.
What comes out is `\forall y1; q(f(y), g(y1))`, whatever the name of the bound variable. -/
theorem executeSubsts_unfolds_entangled :
    entangled.SubstitutesOne ∧ entangled.executeSubsts.SubstFree ∧
      entangled.executeSubsts.freeVars ⊆ entangled.freeVars ∧
      entangled.executeSubsts.nameless [] =
        .node (.quantifier .all) [([.logic .any], .node (.func (.predicate "q" 2))
          [([], .node (.func (.function "f" .any 1)) [([], .free ⟨"y", .any⟩)]),
            ([], .node (.func (.function "g" .any 1)) [([], .bound 0)])])] := by
  have hone : entangled.SubstitutesOne := by
    simp [SubstitutesOne, entangled, substOp, var, app, all, quantify, plain,
      subterms, subtermsArgs]
  obtain ⟨hfree, hvars, hform, -, -⟩ := executeSubsts_unfolds hone
  exact ⟨hone, hfree, hvars, hform.trans rfl⟩

end Term

end SequentSearch
