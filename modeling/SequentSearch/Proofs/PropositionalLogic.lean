import SequentSearch.Proofs.RuleSoundness

/-!
# Formulas of propositional logic

A formula of propositional logic consists of connectives over **atoms**, predicates without
arguments. A valuation gives each predicate a truth value, and with it every such formula has one
(`Term.truthUnder`). Labels do not matter.

The formulas are formulas of first-order logic, and a valuation is an interpretation over a domain
of one object, so all that is known about the calculus holds of them
(`Interpretation.counters_ofValuation`). What is special about them is the **weight**, the number of
operators: it does not see renaming, and it becomes less when a subformula takes the place of a
formula (`Term.IsPropositional.replaceAt`).
-/

namespace SequentSearch

universe u

/-- A predicate without arguments. -/
def Operator.isAtom : Operator → Bool
  | .func f => f.sort.isFormula && f.arity == 0
  | _ => false

namespace Term

/-- A formula of propositional logic. -/
abbrev IsPropositional (t : Term) : Prop := t.Propositional Operator.isAtom

variable {t u : Term}

theorem IsPropositional.of_mem_subterms (h : t.IsPropositional) (hu : u ∈ t.subterms) :
    u.IsPropositional := fun w hw => h w (mem_subterms_trans hu hw)

theorem isPropositional_node {op : Operator} {args : List (List Binder × Term)}
    {labels : List Label} :
    (node op args labels).IsPropositional ↔
      joins Operator.isAtom op args ∧ ∀ a ∈ args, a.2.IsPropositional :=
  forall_subterms_node

/-- The operators of formulas of propositional logic. -/
theorem IsPropositional.op_cases (h : t.IsPropositional) :
    (∃ f : FunSym, t.op = .func f ∧ f.sort.isFormula ∧ f.arity = 0 ∧ t.args = []) ∨
      ∃ (c : Connective) (ts : List Term), t.op = .connective c ∧ ts.length = c.arity ∧
        t.args = ts.map (fun t => ([], t)) ∧
        ∀ t ∈ ts, t.IsPropositional := by
  refine h.induction (fun op labels hop _ => ?_) fun c ts labels hlen ih => ?_
  · cases op with
    | func f =>
      obtain ⟨hsort, harity⟩ := Bool.and_eq_true_iff.mp hop
      exact .inl ⟨f, rfl, hsort, by simpa using harity, rfl⟩
    | _ => cases hop
  · exact .inr ⟨c, ts, rfl, hlen, rfl, fun t ht => (ih t ht).1⟩

theorem IsPropositional.isFormula (h : t.IsPropositional) : t.isFormula := by
  obtain ⟨op, args, labels⟩ := t
  rw [isFormula_node]
  rcases h.op_cases with ⟨f, hop, hsort, -⟩ | ⟨c, ts, hop, -⟩
  · obtain rfl : op = .func f := hop
    exact hsort
  · obtain rfl : op = .connective c := hop
    rfl

/-- **Formulas of propositional logic are formulas of first-order logic.** -/
theorem IsPropositional.firstOrder (h : t.IsPropositional) : t.FirstOrder := by
  refine h.induction (fun op labels hop _ => ?_) fun c ts labels hlen ih => ?_
  · refine firstOrder_node.mpr ⟨?_, by simp⟩
    cases op with
    | func f =>
      obtain ⟨-, harity⟩ := Bool.and_eq_true_iff.mp hop
      have harity : f.arity = 0 := by simpa using harity
      simp [Operator.admits, harity]
    | _ => cases hop
  · refine firstOrder_node.mpr ⟨?_, ?_⟩
    · simp only [Operator.admits, Bool.and_eq_true, List.all_map, List.all_eq_true]
      refine ⟨by simpa using hlen, fun t ht => ?_⟩
      simp [argShape, ArgShape.isPlainFormula, IsPropositional.isFormula (ih t ht).1]
    · intro a ha
      obtain ⟨t, ht, rfl⟩ := List.mem_map.mp ha
      exact (ih t ht).2

/-- Formulas of propositional logic have no substitutions to execute. -/
theorem IsPropositional.executeSubsts_eq (h : t.IsPropositional) : t.executeSubsts = t := by
  have hcontract : ∀ {op args labels}, op ≠ .subst →
      contract (node op args labels) = node op args labels := by
    intro op args labels hop
    rcases contract_cases (node op args labels) with heq | ⟨bound, s, x, body, ls, heq, -⟩
    · exact heq
    · cases heq
      exact absurd rfl hop
  refine h.induction (fun op labels hop _ => ?_) fun c ts labels hlen ih => ?_
  · rw [executeSubsts, executeSubstsArgs_eq_map, hcontract]
    · rfl
    · rintro rfl
      cases hop
  · rw [executeSubsts, executeSubstsArgs_eq_map, hcontract Operator.noConfusion, List.map_map]
    congr 1
    exact List.map_congr_left fun t ht => congrArg (Prod.mk []) (ih t ht).2

/-- What an operator may stand over depends on the number of arguments and of their binders. -/
theorem joins_congr {leaf : Operator → Bool} {op : Operator}
    {args args' : List (List Binder × Term)}
    (h : List.Forall₂ (fun a b => a.1.length = b.1.length) args args') :
    joins leaf op args = joins leaf op args' := by
  have hempty : ∀ {α : Type} {xs ys : List α}, xs.length = ys.length → xs.isEmpty = ys.isEmpty := by
    intro α xs ys hlen
    cases xs <;> cases ys <;> simp_all
  have hbinders : args.all (fun a => a.1.isEmpty) = args'.all fun a => a.1.isEmpty := by
    induction h with
    | nil => rfl
    | cons hab _ ih => rw [List.all_cons, List.all_cons, ih, hempty hab]
  unfold joins
  split
  · rw [hbinders, h.length_eq]
  · rw [hempty h.length_eq]

/-- What is equal to a formula of propositional logic up to renaming is one. -/
theorem IsPropositional.of_alphaEqUnder {left right : List Binder} (h : u.IsPropositional)
    (halpha : alphaEqUnder left right t u) : t.IsPropositional := by
  induction t generalizing u left right with
  | node op args labels ih =>
    obtain ⟨op', args', labels'⟩ := u
    obtain ⟨hjoins, hargs⟩ := isPropositional_node.mp h
    rcases alphaEqUnder_cases halpha with ⟨x, y, -, rfl, -⟩ | ⟨-, rfl, hall⟩
    · cases hjoins
    · refine isPropositional_node.mpr ⟨?_, fun a ha => ?_⟩
      · rw [← hjoins]
        exact joins_congr (hall.imp fun a b hab => hab.1)
      · obtain ⟨b, hb, hab⟩ := exists_right_of_forall₂ hall ha
        exact ih a ha (hargs b hb) hab.2

/-! ## Weight -/

mutual

/-- The number of operators in a term; a variable has no arguments that count. -/
def weight : Term → Nat
  | node (.var _) _ _ => 1
  | node _ args _ => weightArgs args + 1

/-- The number of operators in arguments. -/
def weightArgs : List (List Binder × Term) → Nat
  | [] => 0
  | (_, t) :: rest => t.weight + weightArgs rest

end

theorem weightArgs_eq_sum (args : List (List Binder × Term)) :
    weightArgs args = (args.map fun a => a.2.weight).sum := by
  induction args with
  | nil => rfl
  | cons a args ih => rw [weightArgs, ih, List.map_cons, List.sum_cons]

theorem weight_node {op : Operator} (hop : ∀ x, op ≠ .var x) (args : List (List Binder × Term))
    (labels : List Label) :
    (node op args labels).weight = (args.map fun a => a.2.weight).sum + 1 := by
  rw [weight, weightArgs_eq_sum]
  exact fun x => hop x

/-- **Renaming does not change the weight.** -/
theorem weight_eq_of_alphaEqUnder {left right : List Binder} (h : alphaEqUnder left right t u) :
    t.weight = u.weight := by
  induction t generalizing u left right with
  | node op args labels ih =>
    obtain ⟨op', args', labels'⟩ := u
    rcases alphaEqUnder_cases h with ⟨x, y, rfl, rfl, -⟩ | ⟨hop, rfl, hall⟩
    · rfl
    · have hweights : List.Forall₂ (fun a b => a.2.weight = b.2.weight) args args' :=
        ((List.forall₂_and_left _ _).mpr ⟨ih, hall⟩).imp fun a b hab => hab.1 hab.2.2
      have hmap : args.map (fun a => a.2.weight) = args'.map fun a => a.2.weight := by
        rw [← List.forall₂_eq_eq_eq, List.forall₂_map_left_iff, List.forall₂_map_right_iff]
        exact hweights
      have hop : ∀ x, op ≠ .var x := hop
      rw [weight_node hop, hmap]
      exact (weight_node hop args' labels').symm

/-- A subformula weighs no more than the formula. -/
theorem IsPropositional.weight_le (h : t.IsPropositional) (hu : u ∈ t.subterms) :
    u.weight ≤ t.weight := by
  induction t with
  | node op args labels ih =>
    obtain ⟨hjoins, hargs⟩ := isPropositional_node.mp h
    rcases mem_subterms_node.mp hu with rfl | ⟨a, ha, hu⟩
    · exact Nat.le_refl _
    · have hop : ∀ x, op ≠ .var x := by
        rintro x rfl
        cases hjoins
      calc u.weight ≤ a.2.weight := ih a ha (hargs a ha) hu
        _ ≤ (args.map fun a => a.2.weight).sum :=
          List.le_sum_of_mem (List.mem_map_of_mem ha)
        _ ≤ (node op args labels).weight := by
          rw [weight_node hop]
          exact Nat.le_succ _

/-- Changing one entry of a list changes a sum over it by the difference. -/
theorem sum_map_set {α : Type} {f : α → Nat} {l : List α} {i : Nat} {a : α} (b : α)
    (h : l[i]? = some a) :
    ((l.set i b).map f).sum + f a = (l.map f).sum + f b := by
  induction l generalizing i with
  | nil => simp at h
  | cons c l ih =>
    cases i with
    | zero =>
      obtain rfl : c = a := by simpa using h
      simp only [List.set_cons_zero, List.map_cons, List.sum_cons]
      omega
    | succ i =>
      have hrest := ih (by simpa using h)
      simp only [List.set_cons_succ, List.map_cons, List.sum_cons]
      omega

/-- **Replacing a subformula.** The result is a formula of propositional logic again, and the
difference in weight is that of the subformulas. -/
theorem IsPropositional.replaceAt {t u v t' : Term} {pos : Position} (ht : t.IsPropositional)
    (hu : t.subtermAt pos = .ok u) (ht' : t.replaceAt pos v = .ok t') (hv : v.IsPropositional) :
    t'.IsPropositional ∧ t'.weight + u.weight = t.weight + v.weight := by
  induction pos generalizing t t' with
  | nil =>
    obtain rfl : t = u := Except.ok.inj hu
    obtain rfl : v = t' := Except.ok.inj ht'
    exact ⟨hv, Nat.add_comm ..⟩
  | cons i rest ih =>
    obtain ⟨op, args, labels⟩ := t
    obtain ⟨bound, w, w', hw, hw', rfl⟩ := replaceAt_cons ht'
    have hwu := subtermAt_cons hw hu
    rw [args_node] at hw ⊢
    rw [op_node, labels_node]
    obtain ⟨hjoins, hargs⟩ := isPropositional_node.mp ht
    obtain ⟨hprop, hweight⟩ := ih (hargs _ (List.mem_of_getElem? hw)) hwu hw'
    have hop : ∀ x, op ≠ .var x := by
      rintro x rfl
      cases hjoins
    refine ⟨isPropositional_node.mpr ⟨?_, fun a ha => ?_⟩, ?_⟩
    · rw [← hjoins]
      refine (joins_congr (forall₂_set (fun _ _ => rfl) hw ?_)).symm
      rfl
    · rcases List.mem_or_eq_of_mem_set ha with ha | rfl
      · exact hargs a ha
      · exact hprop
    · have hset := sum_map_set (f := fun a => a.2.weight) (bound, w') hw
      rw [weight_node hop, weight_node hop]
      simp only at hset hweight
      omega

/-! ## Valuations -/

/-- The truth value of a formula of propositional logic under a valuation of the predicates. -/
def truthUnder (v : FunSym → Bool) (t : Term) : Bool :=
  t.truth fun
    | .func f => v f
    | _ => false

end Term

/-- A sequent that is true under a valuation: if everything on the left is true then something on
the right is. -/
def Sequent.TrueUnder (v : FunSym → Bool) (s : Sequent) : Prop :=
  (∀ f ∈ s.antec, f.term.truthUnder v) → ∃ f ∈ s.succ, f.term.truthUnder v

namespace Interpretation

/-- A valuation as an interpretation over a domain of one object. -/
def ofValuation (v : FunSym → Bool) : Interpretation Unit where
  func _ _ := ()
  pred f _ := v f
  progVar _ := ()
  progProp _ := False

variable {v : FunSym → Bool}

/-- A formula of propositional logic holds if it is true under the valuation. -/
theorem holds_ofValuation {t : Term} (ht : t.IsPropositional) (β : Env Unit) :
    (t.eval (ofValuation v) β).Holds ↔ t.truthUnder v := by
  refine ht.holds_iff fun op labels hop => ?_
  cases op with
  | func f =>
    obtain ⟨hsort, -⟩ := Bool.and_eq_true_iff.mp hop
    rw [Term.eval_node fun _ => Operator.noConfusion]
    simp [Operator.denote, hsort, ofValuation]
  | _ => cases hop

/-- **A sequent of propositional logic is false under a valuation if and only if the valuation
refutes it.** -/
theorem counters_ofValuation {s : Sequent} (hs : s.All fun _ f => f.term.IsPropositional)
    (β : Env Unit) :
    (ofValuation v).Counters β s ↔ ¬s.TrueUnder v := by
  unfold Sequent.TrueUnder
  push Not
  constructor
  · intro h
    refine ⟨fun f hf => (holds_ofValuation (hs .antec f hf) β).mp (h .antec f hf),
      fun f hf htrue => ?_⟩
    exact h .succ f hf ((holds_ofValuation (hs .succ f hf) β).mpr htrue)
  · rintro ⟨hantec, hsucc⟩ side f hf
    cases side with
    | antec => exact (holds_ofValuation (hs .antec f hf) β).mpr (hantec f hf)
    | succ => exact fun hholds => hsucc f hf ((holds_ofValuation (hs .succ f hf) β).mp hholds)

end Interpretation

end SequentSearch
