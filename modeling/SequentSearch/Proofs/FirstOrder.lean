import SequentSearch.Proofs.Positions
import SequentSearch.Proofs.Substitution

/-!
# First-order terms

The type of terms is wider than first-order logic: it has schema variables and modalities, and
nothing in it keeps formulas and terms apart. `Term.FirstOrder` picks out the terms of first-order
logic: every operator has as many arguments as it takes, formulas where it wants formulas, other
terms where it wants those, and binders only where it binds. Logic variables never stand for
formulas.

What an operator can see of an argument is its `ArgShape`, so whether a term is first-order, and
whether it is a formula, is a matter of the shapes of its arguments (`firstOrder_congr`). Renaming,
substitution and replacement keep shapes, and therefore keep terms first-order. The value of a
first-order formula is a truth value in every environment (`FirstOrder.eval_eq_truth`), and the
value of any other first-order term is an object if all variables are objects
(`FirstOrder.eval_eq_object`).
-/

namespace SequentSearch

/-- What an operator sees of an argument. -/
structure ArgShape where
  /-- the sorts of the variables bound in it; none for a schema variable -/
  binders : List (Option SortName)
  /-- whether it is a formula -/
  isFormula : Bool
deriving DecidableEq

namespace ArgShape

/-- A formula in which nothing is bound. -/
def isPlainFormula (a : ArgShape) : Bool := a.binders.isEmpty && a.isFormula

/-- A term that is not a formula, in which nothing is bound. -/
def isPlainTerm (a : ArgShape) : Bool := a.binders.isEmpty && !a.isFormula

/-- All binders are logic variables for objects. -/
def bindsObjects (a : ArgShape) : Bool := a.binders.all fun s => s.any fun s => !s.isFormula

end ArgShape

namespace Operator

/-- Whether first-order logic has the operator over arguments of the given shapes. Positions are
paths of 16-bit words, so no operator may have more than 65536 arguments. -/
def admits : Operator → List ArgShape → Bool
  | .var x, as => !x.sort.isFormula && as.isEmpty
  | .func f, as =>
    as.length == f.arity.toNat && as.length ≤ 65536 && as.all ArgShape.isPlainTerm
  | .progVar _, as => as.isEmpty
  | .connective c, as => as.length == c.arity && as.all ArgShape.isPlainFormula
  | .quantifier _, [a] => a.isFormula && a.bindsObjects
  | .equals, [a, b] => a.isPlainTerm && b.isPlainTerm
  | .ifElse, [c, a, b] =>
    c.isPlainFormula && a.binders.isEmpty && b.binders.isEmpty && a.isFormula == b.isFormula
  | .subst, [a, b] => a.isPlainTerm && b.bindsObjects && b.binders.length == 1
  | _, _ => false

/-- Whether the operator over arguments of the given shapes is a formula. -/
def yieldsFormula : Operator → List ArgShape → Bool
  | .var x, _ => x.sort.isFormula
  | .func f, _ => f.sort.isFormula
  | .progVar v, _ => v.sort.isFormula
  | .schema sv, _ => sv.sort.isFormula
  | .ifElse, _ :: a :: _ => a.isFormula
  | .subst, _ :: a :: _ => a.isFormula
  | _, _ => true

end Operator

namespace Term

/-- The sort of the variable that a binder binds, if it is a logic variable. -/
def binderSort (b : Binder) : Option SortName := b.logic?.map LogicVar.sort

/-- The shape of an argument. -/
def argShape (a : List Binder × Term) : ArgShape := ⟨a.1.map binderSort, a.2.isFormula⟩

/-- A term of first-order logic. -/
def FirstOrder (t : Term) : Prop := ∀ u ∈ t.subterms, u.op.admits (u.args.map argShape)

instance (t : Term) : Decidable t.FirstOrder :=
  inferInstanceAs (Decidable (∀ u ∈ t.subterms, u.op.admits (u.args.map argShape)))

theorem firstOrder_node {op : Operator} {args : List (List Binder × Term)} {labels : List Label} :
    (node op args labels).FirstOrder ↔
      op.admits (args.map argShape) ∧ ∀ a ∈ args, a.2.FirstOrder :=
  forall_subterms_node

theorem FirstOrder.of_mem_subterms {t u : Term} (h : t.FirstOrder) (hu : u ∈ t.subterms) :
    u.FirstOrder := fun v hv => h v (mem_subterms_trans hu hv)

theorem isFormula_node (op : Operator) (args : List (List Binder × Term)) (labels : List Label) :
    (node op args labels).isFormula = op.yieldsFormula (args.map argShape) := by
  cases op with
  | ifElse => rcases args with _ | ⟨a, _ | ⟨b, rest⟩⟩ <;> rfl
  | subst => rcases args with _ | ⟨a, _ | ⟨b, rest⟩⟩ <;> rfl
  | _ => rfl

/-- **Shapes decide**: a term over arguments of the same shapes is as first-order, and as much a
formula, as the original. -/
theorem firstOrder_congr {op : Operator} {args args' : List (List Binder × Term)}
    {labels labels' : List Label} (h : (node op args labels).FirstOrder)
    (hshapes : args'.map argShape = args.map argShape) (hargs : ∀ a ∈ args', a.2.FirstOrder) :
    (node op args' labels').FirstOrder ∧
      (node op args' labels').isFormula = (node op args labels).isFormula := by
  constructor
  · refine firstOrder_node.mpr ⟨?_, hargs⟩
    rw [hshapes]
    exact (firstOrder_node.mp h).1
  · rw [isFormula_node, isFormula_node, hshapes]

/-- An operation on arguments that keeps shapes keeps terms first-order. -/
theorem firstOrder_map {op : Operator} {args : List (List Binder × Term)}
    {labels labels' : List Label} (g : List Binder × Term → List Binder × Term)
    (h : (node op args labels).FirstOrder)
    (hg : ∀ a ∈ args, (g a).2.FirstOrder ∧ argShape (g a) = argShape a) :
    (node op (args.map g) labels').FirstOrder ∧
      (node op (args.map g) labels').isFormula = (node op args labels).isFormula := by
  refine firstOrder_congr h ?_ fun b hb => ?_
  · rw [List.map_map]
    exact List.map_congr_left fun a ha => (hg a ha).2
  · obtain ⟨a, ha, rfl⟩ := List.mem_map.mp hb
    exact (hg a ha).1

/-- Labels carry no meaning. -/
theorem FirstOrder.addLabels {t : Term} (h : t.FirstOrder) (ls : List Label) :
    (t.addLabels ls).FirstOrder ∧ (t.addLabels ls).isFormula = t.isFormula := by
  obtain ⟨op, args, labels⟩ := t
  exact firstOrder_congr h rfl (firstOrder_node.mp h).2

/-! ## Renaming, substitution and replacement keep terms first-order -/

theorem FirstOrder.rename {t : Term} {x y : LogicVar} (h : t.FirstOrder) (hsort : y.sort = x.sort) :
    (t.rename x y).FirstOrder ∧ (t.rename x y).isFormula = t.isFormula := by
  induction t with
  | node op args labels ih =>
    by_cases hop : ∃ z, op = .var z
    · obtain ⟨z, rfl⟩ := hop
      rw [Term.rename]
      split <;> rename_i hz
      · subst hz
        obtain ⟨hadmits, -⟩ := firstOrder_node.mp h
        have hz : z.sort.isFormula = false := by
          simpa [Operator.admits] using (Bool.and_eq_true_iff.mp hadmits).1
        refine ⟨firstOrder_node.mpr ⟨by simp [Operator.admits, hsort, hz], by simp⟩, ?_⟩
        rw [isFormula_node]
        exact congrArg SortName.isFormula hsort
      · exact ⟨h, rfl⟩
    · rw [rename_node (not_exists.mp hop)]
      refine firstOrder_map _ h fun a ha => ?_
      have ha' := (firstOrder_node.mp h).2 a ha
      unfold renameArg argShape
      split
      · exact ⟨ha', rfl⟩
      · exact ⟨(ih a ha ha').1, by rw [(ih a ha ha').2]⟩

theorem FirstOrder.avoidCapture {body : Term} (h : body.FirstOrder) (s : Term)
    (done later : List Binder) :
    (avoidCapture s done later body).2.FirstOrder ∧
      argShape (avoidCapture s done later body) = argShape (done ++ later, body) := by
  induction later generalizing done body with
  | nil => rw [Term.avoidCapture, List.append_nil]; exact ⟨h, rfl⟩
  | cons b later ih =>
    cases b with
    | schema sv =>
      rw [Term.avoidCapture, List.append_cons done _ later]
      exact ih h _
    | logic y =>
      by_cases hy : y ∈ s.freeVars
      · rw [avoidCapture_captured hy]
        obtain ⟨hbody, hformula⟩ : (renamedBody y (freshBinder s body (done ++ .logic y :: later) y)
            later body).FirstOrder ∧ (renamedBody y _ later body).isFormula = body.isFormula := by
          unfold renamedBody
          split
          · exact ⟨h, rfl⟩
          · exact h.rename rfl
        refine ⟨(ih hbody _).1, (ih hbody _).2.trans ?_⟩
        rw [argShape, hformula, argShape]
        simp [binderSort, freshBinder, Binder.logic?]
      · rw [avoidCapture_harmless hy, List.append_cons done _ later]
        exact ih h _

/-- **Substituting a first-order term that is not a formula keeps a term first-order**, and a
formula a formula. -/
theorem FirstOrder.subst {x : LogicVar} {s t : Term} (ht : t.FirstOrder) (hs : s.FirstOrder)
    (hformula : s.isFormula = false) :
    (subst x s t).FirstOrder ∧ (subst x s t).isFormula = t.isFormula := by
  induction t using substInduct (s := s) with
  | var y args labels =>
    rw [Term.subst]
    split <;> rename_i hy
    · have hadmits := (firstOrder_node.mp ht).1
      have hy' : y.sort.isFormula = false := by
        simpa [Operator.admits] using (Bool.and_eq_true_iff.mp hadmits).1
      exact ⟨hs, hformula.trans hy'.symm⟩
    · exact ⟨ht, rfl⟩
  | node op args labels hop ih =>
    rw [subst_node hop]
    refine firstOrder_map _ ht fun a ha => ?_
    have ha' := (firstOrder_node.mp ht).2 a ha
    rcases substArg_cases x s a with ⟨-, heq⟩ | ⟨-, -, heq⟩
    · rw [heq]
      exact ⟨ha', rfl⟩
    · obtain ⟨hbody, hshape⟩ := ha'.avoidCapture s [] a.1
      obtain ⟨hsubst, hsame⟩ := ih a ha hbody
      rw [heq]
      refine ⟨hsubst, ?_⟩
      rw [argShape, hsame]
      exact hshape

/-- The arguments of a substitution operator: a replacement that is not a formula, in which nothing
is bound, and a body in which one variable is bound. -/
theorem FirstOrder.subst_args {args : List (List Binder × Term)} {labels : List Label}
    (h : (node .subst args labels).FirstOrder) :
    ∃ s x body, args = [([], s), ([.logic x], body)] ∧ s.FirstOrder ∧ body.FirstOrder ∧
      s.isFormula = false := by
  obtain ⟨hadmits, hargs⟩ := firstOrder_node.mp h
  rcases args with _ | ⟨⟨bs, s⟩, _ | ⟨⟨cs, body⟩, _ | ⟨a, rest⟩⟩⟩ <;>
    simp [Operator.admits, ArgShape.isPlainTerm, ArgShape.bindsObjects, argShape] at hadmits
  obtain ⟨⟨⟨rfl, hs⟩, hbinds⟩, hlen⟩ := hadmits
  obtain ⟨b, rfl⟩ := List.length_eq_one_iff.mp hlen
  cases b with
  | schema sv => simp [binderSort, Binder.logic?] at hbinds
  | logic x =>
    exact ⟨s, x, body, rfl, hargs ([], s) (by simp), hargs ([.logic x], body) (by simp), hs⟩

theorem FirstOrder.replacementsOpen {t : Term} (h : t.FirstOrder) : t.ReplacementsOpen := by
  rintro ⟨op, args, labels⟩ hu rfl a ha
  obtain ⟨s, x, body, rfl, -⟩ := (h.of_mem_subterms hu).subst_args
  obtain rfl : ([], s) = a := by simpa using ha
  rfl

theorem FirstOrder.contract {t : Term} (h : t.FirstOrder) :
    t.contract.FirstOrder ∧ t.contract.isFormula = t.isFormula := by
  rcases contract_cases t with heq | ⟨bound, s, x, body, labels, rfl, heq⟩
  · rw [heq]
    exact ⟨h, rfl⟩
  · obtain ⟨s', x', body', hargs, hs, hbody, hformula⟩ := h.subst_args
    obtain ⟨⟨-, rfl⟩, -, rfl⟩ : (bound = [] ∧ s = s') ∧ x = x' ∧ body = body' := by
      simpa using hargs
    rw [heq]
    obtain ⟨hfo, hsame⟩ := hbody.subst (x := x) hs hformula
    exact ⟨hfo, hsame⟩

/-- **Executing substitution operators keeps a term first-order**, and a formula a formula. -/
theorem FirstOrder.executeSubsts {t : Term} (h : t.FirstOrder) :
    t.executeSubsts.FirstOrder ∧ t.executeSubsts.isFormula = t.isFormula := by
  induction t with
  | node op args labels ih =>
    rw [Term.executeSubsts, executeSubstsArgs_eq_map]
    obtain ⟨hfo, hsame⟩ : (node op (args.map fun a => (a.1, a.2.executeSubsts)) labels).FirstOrder ∧
        (node op (args.map fun a => (a.1, a.2.executeSubsts)) labels).isFormula =
          (node op args labels).isFormula := by
      refine firstOrder_map _ h fun a ha => ?_
      obtain ⟨hfo, hsame⟩ := ih a ha ((firstOrder_node.mp h).2 a ha)
      exact ⟨hfo, by rw [argShape, hsame, argShape]⟩
    exact ⟨hfo.contract.1, hfo.contract.2.trans hsame⟩

/-- **Replacing a subterm by a first-order term of the same kind keeps a term first-order**, and a
formula a formula. -/
theorem FirstOrder.replaceAt {t u v t' : Term} {pos : Position} (ht : t.FirstOrder)
    (hu : t.subtermAt pos = .ok u) (ht' : t.replaceAt pos v = .ok t') (hv : v.FirstOrder)
    (huv : v.isFormula = u.isFormula) : t'.FirstOrder ∧ t'.isFormula = t.isFormula := by
  induction pos generalizing t t' with
  | nil =>
    obtain rfl : t = u := Except.ok.inj hu
    obtain rfl : v = t' := Except.ok.inj ht'
    exact ⟨hv, huv⟩
  | cons i rest ih =>
    obtain ⟨op, args, labels⟩ := t
    obtain ⟨bound, w, w', hw, hw', rfl⟩ := replaceAt_cons ht'
    have hargs := (firstOrder_node.mp ht).2
    have hmem : (bound, w) ∈ args := List.mem_of_getElem? hw
    obtain ⟨hfo, hsame⟩ := ih (hargs _ hmem) (subtermAt_cons hw hu) hw'
    refine firstOrder_congr ht ?_ fun a ha => ?_
    · -- the argument that changes keeps its shape
      have hshape : argShape (bound, w') = argShape (bound, w) := by rw [argShape, hsame, argShape]
      exact map_set_of_eq hw hshape
    · rcases List.mem_or_eq_of_mem_set ha with ha | rfl
      · exact hargs a ha
      · exact hfo

theorem symbols_replaceAt {t v t' : Term} {pos : Position} (h : t.replaceAt pos v = .ok t')
    {f : FunSym} (hf : f ∈ t'.symbols) : f ∈ t.symbols ∨ f ∈ v.symbols := by
  induction pos generalizing t t' with
  | nil =>
    obtain rfl : v = t' := Except.ok.inj h
    exact .inr hf
  | cons i rest ih =>
    obtain ⟨op, args, labels⟩ := t
    obtain ⟨bound, w, w', hw, hw', rfl⟩ := replaceAt_cons h
    rcases mem_symbols_node.mp hf with hf | ⟨a, ha, hf⟩
    · exact .inl (mem_symbols_node.mpr (.inl hf))
    · rcases List.mem_or_eq_of_mem_set ha with ha | rfl
      · exact .inl (mem_symbols_node.mpr (.inr ⟨a, ha, hf⟩))
      · refine (ih hw' hf).imp (fun hf => ?_) id
        exact mem_symbols_node.mpr (.inr ⟨(bound, w), List.mem_of_getElem? hw, hf⟩)

/-! ## Positions -/

theorem length_le_of_admits {op : Operator} {as : List ArgShape} (h : op.admits as) :
    as.length ≤ 65536 := by
  unfold Operator.admits at h
  split at h
  case h_2 =>
    simp only [Bool.and_eq_true, decide_eq_true_eq] at h
    exact h.1.2
  case h_4 _ c =>
    simp only [Bool.and_eq_true, beq_iff_eq] at h
    rw [h.1]
    cases c <;> decide
  all_goals simp_all

/-- A first-order term is narrow. -/
theorem FirstOrder.narrow {t : Term} (ht : t.FirstOrder) : t.Narrow := by
  induction t with
  | node op args labels ih =>
    obtain ⟨hadmits, hargs⟩ := firstOrder_node.mp ht
    refine narrow_node.mpr ⟨?_, fun a ha => ih a ha (hargs a ha)⟩
    simpa using length_le_of_admits hadmits

end Term

/-! ## Kinds of values -/

universe u

variable {D : Type u}

/-- All variables stand for objects. -/
def Env.IsObjects (β : Env D) : Prop := ∀ x, ∃ d, β x = .object d

theorem Env.IsObjects.set {β : Env D} (hβ : β.IsObjects) {b : Binder} {v : Value D}
    (hv : ∃ d, v = .object d) : (β.set b v).IsObjects := by
  intro x
  unfold Env.set
  split
  · exact hv
  · exact hβ x

namespace Term

variable [Nonempty D] {M : Interpretation D}

theorem FirstOrder.ifElse_args {args : List (List Binder × Term)} {labels : List Label}
    (h : (node .ifElse args labels).FirstOrder) :
    ∃ c a b, args = [([], c), ([], a), ([], b)] ∧ a.FirstOrder ∧ b.FirstOrder ∧
      a.isFormula = b.isFormula := by
  obtain ⟨hadmits, hargs⟩ := firstOrder_node.mp h
  rcases args with _ | ⟨⟨bs, c⟩, _ | ⟨⟨cs, a⟩, _ | ⟨⟨ds, b⟩, _ | ⟨e, rest⟩⟩⟩⟩ <;>
    simp [Operator.admits, ArgShape.isPlainFormula, argShape] at hadmits
  obtain ⟨⟨⟨⟨rfl, -⟩, rfl⟩, rfl⟩, hsame⟩ := hadmits
  exact ⟨c, a, b, rfl, hargs ([], a) (by simp), hargs ([], b) (by simp), hsame⟩

/-- Operators other than symbols, conditionals and substitutions give truth values only. -/
theorem denote_eq_truth {op : Operator} (ms : List (Meaning D)) (hfunc : ∀ f, op ≠ .func f)
    (hprog : ∀ v, op ≠ .progVar v) (hif : op ≠ .ifElse) (hsubst : op ≠ .subst) :
    ∃ p, op.denote M ms = .truth p := by
  unfold Operator.denote
  split
  case h_1 => exact absurd rfl (hfunc _)
  case h_2 => exact absurd rfl (hprog _)
  case h_13 => exact absurd rfl hif
  case h_14 => exact absurd rfl hsubst
  all_goals exact ⟨_, rfl⟩

/-- **A first-order formula has a truth value**, whatever the variables stand for. -/
theorem FirstOrder.eval_eq_truth {t : Term} (ht : t.FirstOrder) (hformula : t.isFormula)
    (β : Env D) : ∃ p, eval M t β = .truth p := by
  induction t generalizing β with
  | node op args labels ih =>
    obtain ⟨hadmits, hargs⟩ := firstOrder_node.mp ht
    rw [isFormula_node] at hformula
    cases op with
    | var x =>
      have hx := (Bool.and_eq_true_iff.mp hadmits).1
      simp [Operator.yieldsFormula] at hformula
      simp [hformula] at hx
    | func f => exact ⟨_, if_pos hformula⟩
    | progVar v => exact ⟨_, if_pos hformula⟩
    | ifElse =>
      obtain ⟨c, a, b, rfl, ha, hb, hsame⟩ := ht.ifElse_args
      have hfa : a.isFormula := hformula
      by_cases hc : (eval M c β).Holds
      · rw [eval_ifElse_node_of_holds hc]
        exact ih ([], a) (by simp) ha hfa β
      · rw [eval_ifElse_node_of_not_holds hc]
        exact ih ([], b) (by simp) hb (hsame ▸ hfa) β
    | subst =>
      obtain ⟨s, x, body, rfl, -, hbody, -⟩ := ht.subst_args
      exact ih ([.logic x], body) (by simp) hbody hformula _
    | _ =>
      rw [eval_node (by simp)]
      exact denote_eq_truth _ (by simp) (by simp) (by simp) (by simp)

/-- **Any other first-order term has an object as its value**, if all variables stand for
objects. -/
theorem FirstOrder.eval_eq_object {t : Term} (ht : t.FirstOrder) (hterm : t.isFormula = false)
    {β : Env D} (hβ : β.IsObjects) : ∃ d, eval M t β = .object d := by
  induction t generalizing β with
  | node op args labels ih =>
    obtain ⟨hadmits, hargs⟩ := firstOrder_node.mp ht
    rw [isFormula_node] at hterm
    cases op with
    | var x => exact hβ x
    | func f => exact ⟨_, if_neg (by simpa [Operator.yieldsFormula] using hterm)⟩
    | progVar v => exact ⟨_, if_neg (by simpa [Operator.yieldsFormula] using hterm)⟩
    | ifElse =>
      obtain ⟨c, a, b, rfl, ha, hb, hsame⟩ := ht.ifElse_args
      have hfa : a.isFormula = false := hterm
      by_cases hc : (eval M c β).Holds
      · rw [eval_ifElse_node_of_holds hc]
        exact ih ([], a) (by simp) ha hfa hβ
      · rw [eval_ifElse_node_of_not_holds hc]
        exact ih ([], b) (by simp) hb (hsame ▸ hfa) hβ
    | subst =>
      obtain ⟨s, x, body, rfl, hs, hbody, hterm'⟩ := ht.subst_args
      rw [eval_subst_node]
      exact ih ([.logic x], body) (by simp) hbody hterm (hβ.set (ih ([], s) (by simp) hs hterm' hβ))
    | schema sv => simp [Operator.admits] at hadmits
    | _ => simp [Operator.yieldsFormula] at hterm

end Term

end SequentSearch
