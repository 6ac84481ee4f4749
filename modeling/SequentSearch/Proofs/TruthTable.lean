import SequentSearch.Proofs.Bindings
import SequentSearch.Proofs.FirstOrder
import SequentSearch.Proofs.Instances

/-!
# Truth tables

A term that consists of connectives over **leaves** has a truth table: its truth value is computed
from truth values for its leaves (`Term.truth`). Formulas of propositional logic are of this kind,
their leaves are atoms. So are the patterns and templates of the rules for connectives, their leaves
are schema variables for formulas.

The two are connected by `Term.Propositional.holds_instance`: an instance of a pattern holds if the
truth table of the pattern says so for the truth values of what its schema variables stand for. With
it, facts about all instances of a rule become facts about finitely many rows of a truth table.
-/

namespace SequentSearch

universe u

/-- The truth table of a connective. -/
def Connective.truth : Connective → List Bool → Bool
  | .top, _ => true
  | .neg, [a] => !a
  | .conj, [a, b] => a && b
  | .disj, [a, b] => a || b
  | .impl, [a, b] => !a || b
  | .iff, [a, b] => a == b
  | _, _ => false

namespace Term

mutual

/-- The truth value of a term for truth values of the operators that are not connectives. -/
def truth (v : Operator → Bool) : Term → Bool
  | node (.connective c) args _ => c.truth (truthArgs v args)
  | node op _ _ => v op

/-- The truth values of arguments. -/
def truthArgs (v : Operator → Bool) : List (List Binder × Term) → List Bool
  | [] => []
  | (_, t) :: rest => t.truth v :: truthArgs v rest

end

theorem truthArgs_eq_map (v : Operator → Bool) (args : List (List Binder × Term)) :
    truthArgs v args = args.map fun a => a.2.truth v := by
  induction args with
  | nil => rfl
  | cons a args ih => rw [truthArgs, ih, List.map_cons]

/-- Whether an operator may stand over arguments in a term of connectives over leaves. -/
def joins (leaf : Operator → Bool) (op : Operator) (args : List (List Binder × Term)) : Bool :=
  match op with
  | .connective c => args.length == c.arity && args.all fun a => a.1.isEmpty
  | op => leaf op && args.isEmpty

/-- A term of connectives over leaves. -/
def Propositional (leaf : Operator → Bool) (t : Term) : Prop :=
  ∀ u ∈ t.subterms, joins leaf u.op u.args

instance (leaf : Operator → Bool) (t : Term) : Decidable (t.Propositional leaf) :=
  inferInstanceAs (Decidable (∀ u ∈ t.subterms, joins leaf u.op u.args))

variable {leaf : Operator → Bool} {t : Term}

/-- Induction over terms of connectives over leaves. -/
@[elab_as_elim]
theorem Propositional.induction {motive : Term → Prop} (h : t.Propositional leaf)
    (hleaf : ∀ op labels, leaf op → (∀ c, op ≠ .connective c) → motive (node op [] labels))
    (hjoin : ∀ c (ts : List Term) labels, ts.length = c.arity →
      (∀ t ∈ ts, Propositional leaf t ∧ motive t) →
      motive (node (.connective c) (ts.map fun t => ([], t)) labels)) :
    motive t := by
  induction t with
  | node op args labels ih =>
    obtain ⟨htop, hargs⟩ := forall_subterms_node.mp h
    by_cases hop : ∃ c, op = .connective c
    · obtain ⟨c, rfl⟩ := hop
      obtain ⟨hlen, hplain⟩ : args.length = c.arity ∧ ∀ a ∈ args, a.1 = [] := by
        simpa [joins] using htop
      have hmap : (args.map Prod.snd).map (fun t => (([] : List Binder), t)) = args := by
        rw [List.map_map]
        refine (List.map_congr_left fun a ha => ?_).trans (List.map_id args)
        exact Prod.ext (hplain a ha).symm rfl
      rw [← hmap]
      refine hjoin c _ labels (by simpa using hlen) fun t ht => ?_
      obtain ⟨a, ha, rfl⟩ := List.mem_map.mp ht
      exact ⟨hargs a ha, ih a ha (hargs a ha)⟩
    · obtain ⟨hl, hnil⟩ : leaf op ∧ args = [] := by
        cases op <;> simp_all [joins]
      subst hnil
      exact hleaf op labels hl (not_exists.mp hop)

theorem Propositional.mono {leaf' : Operator → Bool} (h : t.Propositional leaf)
    (hleaf : ∀ op, leaf op → leaf' op) : t.Propositional leaf' := by
  intro u hu
  have hjoins := h u hu
  unfold joins at hjoins ⊢
  split at hjoins
  · exact hjoins
  · obtain ⟨hop, hargs⟩ := Bool.and_eq_true_iff.mp hjoins
    exact Bool.and_eq_true_iff.mpr ⟨hleaf _ hop, hargs⟩

/-- The truth value depends on the leaves only. -/
theorem Propositional.truth_congr {v w : Operator → Bool} (h : t.Propositional leaf)
    (hvw : ∀ op, leaf op → v op = w op) : t.truth v = t.truth w := by
  refine h.induction (fun op labels hop hnot => ?_) fun c ts labels _ ih => ?_
  · rw [truth, truth]
    · exact hvw op hop
    · exact fun c => hnot c
    · exact fun c => hnot c
  · rw [truth, truth, truthArgs_eq_map, truthArgs_eq_map, List.map_map, List.map_map]
    refine congrArg c.truth (List.map_congr_left fun t ht => ?_)
    exact (ih t ht).2

end Term

/-! ## Truth values and meanings -/

section Meaning

variable {D : Type u} [Nonempty D] {M : Interpretation D} {β : Env D}

/-- A connective means what its truth table says. -/
theorem Connective.holds_denote {c : Connective} {ms : List (Meaning D)} {bs : List Bool}
    (hlen : ms.length = c.arity) (h : List.Forall₂ (fun m b => m.Holds ↔ b = true) ms bs) :
    ((Operator.connective c).denote M ms).Holds ↔ c.truth bs = true := by
  cases c <;> simp only [Connective.arity] at hlen
  case top | bot =>
    obtain rfl := List.length_eq_zero_iff.mp hlen
    cases h
    simp [Operator.denote, truth]
  case neg =>
    obtain ⟨a, rfl⟩ := List.length_eq_one_iff.mp hlen
    obtain ⟨b, _, ha, ⟨⟩, rfl⟩ := List.forall₂_cons_left_iff.mp h
    simp [Operator.denote, truth, ha]
  all_goals
    obtain ⟨a₁, a₂, rfl⟩ := List.length_eq_two.mp hlen
    obtain ⟨b₁, _, h₁, hrest, rfl⟩ := List.forall₂_cons_left_iff.mp h
    obtain ⟨b₂, _, h₂, ⟨⟩, rfl⟩ := List.forall₂_cons_left_iff.mp hrest
    simp only [Operator.denote, Value.holds_truth, truth, h₁, h₂]
    cases b₁ <;> cases b₂ <;> simp

namespace Term

/-- A connective over formulas holds if its truth table says so. -/
theorem holds_connective_node {c : Connective} {ts : List Term} {bs : List Bool}
    {labels : List Label} (hlen : ts.length = c.arity)
    (h : List.Forall₂ (fun t b => (eval M t β).Holds ↔ b = true) ts bs) :
    (eval M (node (.connective c) (ts.map fun t => ([], t)) labels) β).Holds ↔
    c.truth bs = true := by
  rw [eval_node (fun _ => Operator.noConfusion), evalArgs_eq_map, List.map_map]
  refine Connective.holds_denote (by simpa using hlen) (List.forall₂_map_left_iff.mpr ?_)
  exact h

/-- **A formula holds if its truth table says so** for the truth values of its leaves. -/
theorem Propositional.holds_iff {leaf : Operator → Bool} {t : Term} (h : t.Propositional leaf)
    {v : Operator → Bool}
    (hv : ∀ op labels, leaf op → ((eval M (node op [] labels) β).Holds ↔ v op = true)) :
    (eval M t β).Holds ↔ t.truth v = true := by
  refine h.induction (fun op labels hleaf hop => ?_) fun c ts labels hlen ih => ?_
  · rw [hv op labels hleaf, truth]
    exact fun c => hop c
  · rw [truth, truthArgs_eq_map, List.map_map]
    refine holds_connective_node hlen (List.forall₂_map_right_iff.mpr ?_)
    exact List.forall₂_same.mpr fun t ht => (ih t ht).2

end Term

end Meaning

/-! ## Instances -/

namespace Term

variable {rule : String} {σ : Instantiations} {r : Term}

/-- **A connective is instantiated by instantiating what it joins.** -/
theorem instantiate_connective {c : Connective} {ts : List Term} {labels : List Label}
    (h : (node (.connective c) (ts.map fun t => ([], t)) labels).instantiate rule σ = .ok r) :
    ∃ rs ls, List.Forall₂ (fun t r => t.instantiate rule σ = .ok r) ts rs ∧
      r = node (.connective c) (rs.map fun r => ([], r)) ls := by
  obtain ⟨ls, op', args', -, hop, hargs, rfl⟩ :=
    (instantiate_node_eq_ok fun _ => Operator.noConfusion).mp h
  obtain rfl : .connective c = op' := Except.ok.inj hop
  obtain ⟨rs, hrs, rfl⟩ := instantiateArgs_plain hargs
  exact ⟨rs, ls, hrs, rfl⟩

/-- A schema variable for formulas. -/
def isFormulaVar : Operator → Bool
  | .schema sv => sv.kind = .formula
  | _ => false

end Term

/-- Values that are terms, and formulas for the variables that stand for formulas. -/
def Instantiations.TermValued (σ : Instantiations) : Prop :=
  ∀ sv v, σ.get? sv = some v → ∃ u, v = .term u ∧ (sv.kind = .formula → u.isFormula)

open Classical in
/-- The truth values of the formulas that schema variables stand for. -/
noncomputable def Instantiations.truth {D : Type u} [Nonempty D] (M : Interpretation D) (β : Env D)
    (σ : Instantiations) : Operator → Bool
  | .schema sv => decide (∃ t, σ.get? sv = some (.term t) ∧ (t.eval M β).Holds)
  | _ => false

open Classical in
theorem Instantiations.truth_of_get? {D : Type u} [Nonempty D] {M : Interpretation D} {β : Env D}
    {σ : Instantiations} {sv : SchemaVar} {t : Term} (h : σ.get? sv = some (.term t)) :
    σ.truth M β (.schema sv) = true ↔ (t.eval M β).Holds := by
  rw [truth, decide_eq_true_iff]
  constructor
  · rintro ⟨u, hu, hholds⟩
    cases h.symm.trans hu
    exact hholds
  · intro hholds
    exact ⟨t, h, hholds⟩

namespace Term

variable {rule : String} {σ : Instantiations} {r t : Term}

/-- An instance of a schema variable is its value, up to labels. -/
theorem instance_leaf {op : Operator} {labels : List Label} (hop : isFormulaVar op)
    (hσ : σ.TermValued) (h : (node op [] labels).instantiate rule σ = .ok r) :
    ∃ sv u ls, op = .schema sv ∧ sv.kind = .formula ∧ σ.get? sv = some (.term u) ∧
      r = u.addLabels ls := by
  cases op with
  | schema sv =>
    obtain ⟨ls, t, -, ht, rfl⟩ := instantiate_schema_eq_ok.mp h
    cases hv : σ.get? sv with
    | none =>
      rw [instantiateVar, hv] at ht
      cases ht
    | some v =>
      obtain ⟨u, rfl, -⟩ := hσ sv v hv
      obtain rfl : u = t := Except.ok.inj ((instantiateVar_of_term hv).symm.trans ht)
      exact ⟨sv, u, ls, rfl, of_decide_eq_true hop, hv, rfl⟩
  | _ => cases hop

/-- **An instance of a pattern holds if the truth table of the pattern says so.** -/
theorem Propositional.holds_instance {D : Type u} [Nonempty D] {M : Interpretation D} {β : Env D}
    (h : t.Propositional isFormulaVar) (hσ : σ.TermValued) (hr : t.instantiate rule σ = .ok r) :
    (eval M r β).Holds ↔ t.truth (σ.truth M β) = true := by
  suffices key : ∀ r, t.instantiate rule σ = .ok r →
      ((eval M r β).Holds ↔ t.truth (σ.truth M β) = true) from key r hr
  refine h.induction (fun op labels hleaf hop r hr => ?_) fun c ts labels hlen ih r hr => ?_
  · obtain ⟨sv, u, ls, rfl, -, hv, rfl⟩ := instance_leaf hleaf hσ hr
    rw [eval_addLabels, truth, Instantiations.truth_of_get? hv]
    exact fun c => Operator.noConfusion
  · obtain ⟨rs, ls, hrs, rfl⟩ := instantiate_connective hr
    rw [truth, truthArgs_eq_map, List.map_map]
    refine holds_connective_node (hrs.length_eq.symm.trans hlen) ?_
    clear hr hlen
    induction hrs with
    | nil => exact .nil
    | cons hr _ ihs =>
      obtain ⟨hfirst, hrest⟩ := List.forall_mem_cons.mp ih
      exact .cons (hfirst.2 _ hr) (ihs hrest)

/-- An instance of a pattern is a formula of first-order logic if the values are. -/
theorem Propositional.firstOrder_instance (h : t.Propositional isFormulaVar) (hσ : σ.TermValued)
    (hfo : σ.All fun _ v => ∀ u, v = .term u → u.FirstOrder) (hr : t.instantiate rule σ = .ok r) :
    r.FirstOrder ∧ r.isFormula := by
  suffices key : ∀ r, t.instantiate rule σ = .ok r → r.FirstOrder ∧ r.isFormula from key r hr
  refine h.induction (fun op labels hleaf hop r hr => ?_) fun c ts labels hlen ih r hr => ?_
  · obtain ⟨sv, u, ls, rfl, hkind, hv, rfl⟩ := instance_leaf hleaf hσ hr
    obtain ⟨u', hu', hformula⟩ := hσ sv _ hv
    cases hu'
    obtain ⟨hlabelled, hsame⟩ := (hfo sv _ hv u rfl).addLabels ls
    exact ⟨hlabelled, hsame.trans (hformula hkind)⟩
  · obtain ⟨rs, ls, hrs, rfl⟩ := instantiate_connective hr
    have hall : ∀ r ∈ rs, r.FirstOrder ∧ r.isFormula := by
      intro r hr
      obtain ⟨t, ht, hinst⟩ := exists_left_of_forall₂ hrs hr
      exact (ih t ht).2 r hinst
    refine ⟨firstOrder_node.mpr ⟨?_, ?_⟩, rfl⟩
    · simp only [Operator.admits, Bool.and_eq_true, List.all_map, List.all_eq_true]
      refine ⟨by simpa using hrs.length_eq.symm.trans hlen, fun r hr => ?_⟩
      simp [argShape, ArgShape.isPlainFormula, (hall r hr).2]
    · intro a ha
      obtain ⟨r, hr, rfl⟩ := List.mem_map.mp ha
      exact (hall r hr).1

end Term

end SequentSearch
