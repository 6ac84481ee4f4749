import SequentSearch.Proofs.Alpha
import SequentSearch.Sequent.Basic

/-!
# What terms mean

Terms and formulas share one type, so a term means a `Value`: an object of the domain or a truth
value. An interpretation gives meaning to function symbols, predicates and program variables over
one domain for all sorts that are not `Formula`.

An operator does not see the values of its arguments but their **meanings**: an argument below
binders is a function of what the binders stand for, given as a stream of values. A quantifier asks
for all streams of objects, a substitution puts the value of its first argument into the second, and
every other operator looks at an argument under no particular stream. In this form a fact about
terms under binders is proved once, for all operators:

* `Term.eval_congr`: the value depends on the free variables only;
* `Term.eval_eq_of_alphaEqUnder`: terms that are equal up to renaming have the same value;
* `Term.eval_replaceAt`: a subterm can be replaced by one of the same value.
-/

namespace SequentSearch

universe u

variable {D : Type u}

/-- What a term stands for. -/
inductive Value (D : Type u) where
  /-- an object of the domain -/
  | object (d : D)
  /-- a truth value -/
  | truth (p : Prop)

namespace Value

/-- A value that is true. -/
def Holds : Value D → Prop
  | object _ => False
  | truth p => p

/-- The object a value is; some object if it is a truth value. -/
noncomputable def toObject [Nonempty D] : Value D → D
  | object d => d
  | truth _ => Classical.choice inferInstance

@[simp] theorem holds_truth {p : Prop} : (truth p : Value D).Holds ↔ p := Iff.rfl

@[simp] theorem toObject_object [Nonempty D] {d : D} : (object d).toObject = d := rfl

end Value

/-- The meaning of the symbols. Program variables have a value in the one state that is looked
at. -/
structure Interpretation (D : Type u) where
  /-- the function symbols -/
  func : FunSym → List D → D
  /-- the predicates, which are the function symbols of sort `Formula` -/
  pred : FunSym → List D → Prop
  /-- the program variables -/
  progVar : ProgVar → D
  /-- the program variables of sort `Formula` -/
  progProp : ProgVar → Prop

/-- The interpretation in which the constant `c` is `d`, and all else is as before. -/
def Interpretation.assign (M : Interpretation D) (c : FunSym) (d : D) : Interpretation D :=
  { M with func := fun f ds => if f = c then d else M.func f ds }

/-- Values for the logic variables. -/
abbrev Env (D : Type u) := LogicVar → Value D

namespace Env

/-- Let a binder stand for a value. -/
def set (β : Env D) (b : Binder) (v : Value D) : Env D := fun x => if b = .logic x then v else β x

/-- Let binders stand for the values of a stream, the first binder for the first value. -/
def bind (β : Env D) : List Binder → (Nat → Value D) → Env D
  | [], _ => β
  | b :: bs, s => (β.set b (s 0)).bind bs fun i => s (i + 1)

@[simp] theorem bind_nil (β : Env D) (s : Nat → Value D) : β.bind [] s = β := rfl

theorem bind_append (β : Env D) (bs cs : List Binder) (s : Nat → Value D) :
    β.bind (bs ++ cs) s = (β.bind bs s).bind cs fun i => s (i + bs.length) := by
  induction bs generalizing β s with
  | nil => rfl
  | cons b bs ih =>
    rw [List.cons_append, bind, ih, bind]
    simp only [List.length_cons, Nat.add_assoc]

/-- Below binders, two environments agree on a variable if it is bound or they agreed before. -/
theorem bind_congr {β γ : Env D} {bs : List Binder} {s : Nat → Value D} {x : LogicVar}
    (h : Binder.logic x ∉ bs → β x = γ x) : β.bind bs s x = γ.bind bs s x := by
  induction bs generalizing β γ s with
  | nil => exact h (by simp)
  | cons b bs ih =>
    rw [bind, bind]
    refine ih fun hbs => ?_
    unfold set
    split <;> rename_i hb
    · rfl
    · exact h (by simp [hbs, Ne.symm hb])

theorem bind_of_not_mem {β : Env D} {bs : List Binder} {s : Nat → Value D} {x : LogicVar}
    (h : Binder.logic x ∉ bs) : β.bind bs s x = β x := by
  induction bs generalizing β s with
  | nil => rfl
  | cons b bs ih =>
    obtain ⟨hb, hbs⟩ := not_or.mp (mt List.mem_cons.mpr h)
    rw [bind, ih hbs, set, if_neg (Ne.symm hb)]

/-! ## Related environments -/

/-- Environments that give the same value to occurrences that refer to the same place. -/
def Related (left right : List Binder) (β γ : Env D) : Prop :=
  ∀ x y, Term.sameReference left right x y → β x = γ y

theorem Related.set {β γ : Env D} {left right : List Binder} (h : Related left right β γ)
    (b c : Binder) (v : Value D) : Related (b :: left) (c :: right) (β.set b v) (γ.set c v) := by
  intro x y hxy
  unfold Term.sameReference at hxy
  rw [List.idxOf?_cons, List.idxOf?_cons] at hxy
  unfold Env.set
  by_cases hb : b = .logic x <;> by_cases hc : c = .logic y
  · rw [if_pos hb, if_pos hc]
  · cases hy : right.idxOf? (.logic y) <;> simp [hb, hc, hy] at hxy
  · cases hx : left.idxOf? (.logic x) <;> simp [hb, hc, hx] at hxy
  · rw [if_neg hb, if_neg hc]
    refine h x y ?_
    unfold Term.sameReference
    cases hx : left.idxOf? (.logic x) <;> cases hy : right.idxOf? (.logic y) <;>
      simp_all

theorem Related.bind {β γ : Env D} {left right xs ys : List Binder} (h : Related left right β γ)
    (hlen : xs.length = ys.length) (s : Nat → Value D) :
    Related (xs.reverse ++ left) (ys.reverse ++ right) (β.bind xs s) (γ.bind ys s) := by
  induction xs generalizing ys left right β γ s with
  | nil =>
    obtain rfl : ys = [] := List.length_eq_zero_iff.mp hlen.symm
    exact h
  | cons x xs ih =>
    cases ys with
    | nil => simp at hlen
    | cons y ys =>
      simp only [List.reverse_cons, List.append_assoc, List.singleton_append]
      exact ih (h.set x y (s 0)) (Nat.succ.inj hlen) fun i => s (i + 1)

theorem related_self (β : Env D) : Related [] [] β β := by
  intro x y hxy
  obtain rfl : x = y := by simpa [Term.sameReference] using hxy
  rfl

end Env

/-- The meaning of an argument: its value for each choice of values for its binders. -/
abbrev Meaning (D : Type u) := (Nat → Value D) → Value D

namespace Meaning

/-- The value of an argument that the operator binds nothing in. -/
def value (m : Meaning D) : Value D := m fun _ => .truth False

/-- An argument that is true. -/
def Holds (m : Meaning D) : Prop := m.value.Holds

/-- The object that an argument is. -/
noncomputable def toObject [Nonempty D] (m : Meaning D) : D := m.value.toObject

/-- An argument that is true whatever objects its binders stand for. -/
def HoldsForAll (m : Meaning D) : Prop := ∀ ds : Nat → D, (m fun i => .object (ds i)).Holds

/-- An argument that is true for some objects that its binders stand for. -/
def HoldsForSome (m : Meaning D) : Prop := ∃ ds : Nat → D, (m fun i => .object (ds i)).Holds

end Meaning

open Classical in
/-- The value of an operator over the meanings of its arguments. Modalities and schema variables
have no meaning here, and neither has an operator with a wrong number of arguments; they count as
false. -/
noncomputable def Operator.denote [Nonempty D] (M : Interpretation D) :
    Operator → List (Meaning D) → Value D
  | .func f, ms =>
    if f.sort.isFormula then .truth (M.pred f (ms.map Meaning.toObject))
    else .object (M.func f (ms.map Meaning.toObject))
  | .progVar v, _ => if v.sort.isFormula then .truth (M.progProp v) else .object (M.progVar v)
  | .connective .top, _ => .truth True
  | .connective .bot, _ => .truth False
  | .connective .neg, [a] => .truth (¬a.Holds)
  | .connective .conj, [a, b] => .truth (a.Holds ∧ b.Holds)
  | .connective .disj, [a, b] => .truth (a.Holds ∨ b.Holds)
  | .connective .impl, [a, b] => .truth (a.Holds → b.Holds)
  | .connective .iff, [a, b] => .truth (a.Holds ↔ b.Holds)
  | .quantifier .all, [a] => .truth a.HoldsForAll
  | .quantifier .ex, [a] => .truth a.HoldsForSome
  | .equals, [a, b] => .truth (a.toObject = b.toObject)
  | .ifElse, [c, a, b] => if c.Holds then a.value else b.value
  | .subst, [a, b] => b fun _ => a.value
  | _, _ => .truth False

namespace Term

variable [Nonempty D]

mutual

/-- The value of a term. -/
noncomputable def eval (M : Interpretation D) : Term → Env D → Value D
  | node (.var x) _ _, β => β x
  | node op args _, β => op.denote M (evalArgs M args β)

/-- The meanings of arguments. -/
noncomputable def evalArgs (M : Interpretation D) :
    List (List Binder × Term) → Env D → List (Meaning D)
  | [], _ => []
  | (bound, t) :: rest, β => (fun s => eval M t (β.bind bound s)) :: evalArgs M rest β

end

variable {M : Interpretation D} {β γ : Env D}

theorem evalArgs_eq_map (args : List (List Binder × Term)) :
    evalArgs M args β = args.map fun a s => eval M a.2 (β.bind a.1 s) := by
  induction args with
  | nil => rfl
  | cons a args ih => rw [evalArgs, ih, List.map_cons]

theorem eval_node {op : Operator} {args : List (List Binder × Term)} {labels : List Label}
    (hop : ∀ x, op ≠ .var x) :
    eval M (node op args labels) β = op.denote M (evalArgs M args β) := by
  rw [eval]
  exact hop

@[simp] theorem eval_withLabels (t : Term) (ls : List Label) :
    eval M (t.withLabels ls) β = eval M t β := by
  obtain ⟨op, args, labels⟩ := t
  by_cases hop : ∃ x, op = .var x
  · obtain ⟨x, rfl⟩ := hop
    rfl
  · rw [withLabels, op_node, args_node, eval_node (not_exists.mp hop),
      eval_node (not_exists.mp hop)]

@[simp] theorem eval_addLabels (t : Term) (ls : List Label) :
    eval M (t.addLabels ls) β = eval M t β := eval_withLabels t _

/-! ## The clauses of the definition -/

section Clauses

variable {a b c s body : Term} {x : LogicVar} {ls : List Label}

@[simp] theorem eval_top_node : eval M (node (.connective .top) [] ls) β = .truth True := rfl

@[simp] theorem eval_bot_node : eval M (node (.connective .bot) [] ls) β = .truth False := rfl

@[simp] theorem eval_neg_node :
    eval M (node (.connective .neg) [([], a)] ls) β = .truth (¬(eval M a β).Holds) := rfl

@[simp] theorem eval_conj_node :
    eval M (node (.connective .conj) [([], a), ([], b)] ls) β =
      .truth ((eval M a β).Holds ∧ (eval M b β).Holds) := rfl

@[simp] theorem eval_disj_node :
    eval M (node (.connective .disj) [([], a), ([], b)] ls) β =
      .truth ((eval M a β).Holds ∨ (eval M b β).Holds) := rfl

@[simp] theorem eval_impl_node :
    eval M (node (.connective .impl) [([], a), ([], b)] ls) β =
      .truth ((eval M a β).Holds → (eval M b β).Holds) := rfl

@[simp] theorem eval_iff_node :
    eval M (node (.connective .iff) [([], a), ([], b)] ls) β =
      .truth ((eval M a β).Holds ↔ (eval M b β).Holds) := rfl

@[simp] theorem eval_equals_node :
    eval M (node .equals [([], a), ([], b)] ls) β =
      .truth ((eval M a β).toObject = (eval M b β).toObject) := rfl

theorem eval_ifElse_node_of_holds (h : (eval M c β).Holds) :
    eval M (node .ifElse [([], c), ([], a), ([], b)] ls) β = eval M a β := if_pos h

theorem eval_ifElse_node_of_not_holds (h : ¬(eval M c β).Holds) :
    eval M (node .ifElse [([], c), ([], a), ([], b)] ls) β = eval M b β := if_neg h

@[simp] theorem eval_subst_node :
    eval M (node .subst [([], s), ([.logic x], body)] ls) β =
      eval M body (β.set (.logic x) (eval M s β)) := rfl

/-- A universal formula says what its body says of every object. -/
theorem holds_all_node :
    (eval M (node (.quantifier .all) [([.logic x], body)] ls) β).Holds ↔
      ∀ d, (eval M body (β.set (.logic x) (.object d))).Holds :=
  ⟨fun h d => h fun _ => d, fun h ds => h (ds 0)⟩

/-- An existential formula says what its body says of some object. -/
theorem holds_ex_node :
    (eval M (node (.quantifier .ex) [([.logic x], body)] ls) β).Holds ↔
      ∃ d, (eval M body (β.set (.logic x) (.object d))).Holds :=
  ⟨fun ⟨ds, h⟩ => ⟨ds 0, h⟩, fun ⟨d, h⟩ => ⟨fun _ => d, h⟩⟩

end Clauses

/-- **Congruence**: terms with the same operator and arguments of the same meaning have the same
value. -/
theorem eval_node_congr {op : Operator} {args args' : List (List Binder × Term)}
    {labels labels' : List Label} (hop : ∀ x, op ≠ .var x)
    (h : List.Forall₂ (fun a b => ∀ s, eval M a.2 (β.bind a.1 s) = eval M b.2 (γ.bind b.1 s))
      args args') :
    eval M (node op args labels) β = eval M (node op args' labels') γ := by
  rw [eval_node hop, eval_node hop, evalArgs_eq_map, evalArgs_eq_map]
  congr 1
  induction h with
  | nil => rfl
  | cons hab _ ih => rw [List.map_cons, List.map_cons, ih, funext hab]

/-! ## The value depends on free variables, not on names -/

/-- **Coincidence**: environments that agree on the free variables give the same value. -/
theorem eval_congr {t : Term} (h : ∀ x ∈ t.freeVars, β x = γ x) : eval M t β = eval M t γ := by
  induction t generalizing β γ with
  | node op args labels ih =>
    by_cases hop : ∃ x, op = .var x
    · obtain ⟨x, rfl⟩ := hop
      exact h x (by simp [freeVars])
    · have hop := not_exists.mp hop
      refine eval_node_congr hop (List.forall₂_same.mpr fun a ha s => ih a ha fun x hx => ?_)
      exact Env.bind_congr fun hbound => h x ((mem_freeVars_node hop).mpr ⟨a, ha, hx, hbound⟩)

/-- **Equality up to renaming keeps the value**, below binders that stand for the same values. -/
theorem eval_eq_of_alphaEqUnder {a b : Term} {left right : List Binder}
    (h : alphaEqUnder left right a b) (hβγ : Env.Related left right β γ) :
    eval M a β = eval M b γ := by
  induction a generalizing b left right β γ with
  | node o as ls ih =>
    obtain ⟨p, bs, ms⟩ := b
    rcases alphaEqUnder_cases h with ⟨x, y, rfl, rfl, hxy⟩ | ⟨ho, rfl, hargs⟩
    · exact hβγ x y hxy
    · refine eval_node_congr ho (((List.forall₂_and_left _ _).mpr ⟨ih, hargs⟩).imp ?_)
      rintro a b ⟨iha, hlen, hab⟩ s
      exact iha hab (hβγ.bind hlen s)

theorem eval_eq_of_alphaEq {a b : Term} (h : a.alphaEq b) (β : Env D) : eval M a β = eval M b β :=
  eval_eq_of_alphaEqUnder h (Env.related_self β)

/-! ## Replacing subterms -/

/-- **Replacement**: a subterm can be replaced by a term that has the same value in every
environment. -/
theorem eval_replaceAt {t u v t' : Term} {pos : Position} (hu : t.subtermAt pos = .ok u)
    (ht' : t.replaceAt pos v = .ok t') (huv : ∀ β, eval M u β = eval M v β) (β : Env D) :
    eval M t β = eval M t' β := by
  induction pos generalizing t t' β with
  | nil =>
    obtain rfl : t = u := Except.ok.inj hu
    obtain rfl : v = t' := Except.ok.inj ht'
    exact huv β
  | cons i rest ih =>
    obtain ⟨op, args, labels⟩ := t
    obtain ⟨bound, w, w', hw, hw', rfl⟩ := replaceAt_cons ht'
    have hwu := subtermAt_cons hw hu
    by_cases hop : ∃ x, op = .var x
    · obtain ⟨x, rfl⟩ := hop
      rfl
    · refine eval_node_congr (not_exists.mp hop) ?_
      exact forall₂_set (fun _ _ _ => rfl) hw fun s => ih hwu hw' _

/-! ## Symbols that do not occur -/

theorem denote_assign {op : Operator} {c : FunSym} (hop : op ≠ .func c) (d : D)
    (ms : List (Meaning D)) : op.denote (M.assign c d) ms = op.denote M ms := by
  by_cases hf : ∃ f, op = .func f
  · obtain ⟨f, rfl⟩ := hf
    have hfc : f ≠ c := fun h => hop (h ▸ rfl)
    simp [Operator.denote, Interpretation.assign, hfc]
  · unfold Operator.denote
    split
    · exact absurd ⟨_, rfl⟩ hf
    all_goals rfl

/-- What a constant stands for does not matter to a term in which it does not occur. -/
theorem eval_assign {t : Term} {c : FunSym} (hc : c ∉ t.symbols) (d : D) (β : Env D) :
    eval (M.assign c d) t β = eval M t β := by
  induction t generalizing β with
  | node op args labels ih =>
    by_cases hop : ∃ x, op = .var x
    · obtain ⟨x, rfl⟩ := hop
      rfl
    · have hop := not_exists.mp hop
      rw [eval_node hop, eval_node hop, denote_assign fun h => hc (mem_symbols_node.mpr (.inl h)),
        evalArgs_eq_map, evalArgs_eq_map]
      congr 1
      refine List.map_congr_left fun a ha => funext fun s => ih a ha (fun h => hc ?_) _
      exact mem_symbols_node.mpr (.inr ⟨a, ha, h⟩)

end Term

end SequentSearch
