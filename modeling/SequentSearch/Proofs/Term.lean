import Mathlib.Data.List.Forall2
import SequentSearch.Term.Position

/-!
# Terms: induction and membership

A term keeps its arguments in a list, so each view of terms is one recursion over terms and lists of
arguments together. Here the list half is taken out once and for all: `Term.induct` is induction
with one hypothesis for *every* argument, and each view gets its membership law.

Terms come from `Term.build`, which checks the number of arguments; `Term.WellFormed` says that it
is right at every place of a term. `Term.BindsSchematically` is the property of rule patterns to
bind schema variables only.
-/

namespace SequentSearch

/-- Two relations between lists, one after the other. -/
theorem forall₂_comp {α β γ : Type} {R : α → β → Prop} {S : β → γ → Prop} {T : α → γ → Prop}
    (h : ∀ a b c, R a b → S b c → T a c) {as : List α} {bs : List β} {cs : List γ}
    (hR : List.Forall₂ R as bs) (hS : List.Forall₂ S bs cs) : List.Forall₂ T as cs := by
  induction hR generalizing cs with
  | nil =>
    cases hS
    exact .nil
  | cons hab _ ih =>
    cases hS with
    | cons hbc hS => exact .cons (h _ _ _ hab hbc) (ih hS)

/-- Induction over program elements. -/
theorem Program.induct {motive : Program → Prop}
    (node : ∀ kind children, (∀ c ∈ children, motive c) → motive (.node kind children)) :
    (p : Program) → motive p
  | .node kind children => node kind children fun c _ => Program.induct node c

namespace Term

theorem size_lt_sizeArgs {args : List (List Binder × Term)} {a : List Binder × Term}
    (ha : a ∈ args) :
    a.2.size < sizeArgs args := by
  induction args with
  | nil => exact nomatch ha
  | cons b rest ih =>
    obtain ⟨bound, t⟩ := b
    rw [sizeArgs]
    rcases List.mem_cons.mp ha with rfl | ha
    · exact Nat.lt_succ_of_le (Nat.le_add_right _ _)
    · have := ih ha
      omega

/-- An argument is smaller than the term. -/
theorem size_arg_lt {op : Operator} {args : List (List Binder × Term)} {labels : List Label}
    {a : List Binder × Term} (ha : a ∈ args) : a.2.size < (node op args labels).size :=
  Nat.lt_succ_of_lt (size_lt_sizeArgs ha)

/-- **Induction over terms**: what holds of a term as soon as it holds of all its arguments holds of
every term. -/
@[induction_eliminator]
theorem induct {motive : Term → Prop}
    (node : ∀ op args labels, (∀ a ∈ args, motive a.2) → motive (.node op args labels)) :
    (t : Term) → motive t
  | .node op args labels => node op args labels fun a _ => induct node a.2
termination_by t => t.size
decreasing_by exact size_arg_lt ‹_›

/-! ## Free variables -/

theorem mem_freeVarsArgs {args : List (List Binder × Term)} {x : LogicVar} :
    x ∈ freeVarsArgs args ↔ ∃ a ∈ args, x ∈ a.2.freeVars ∧ Binder.logic x ∉ a.1 := by
  induction args with
  | nil => simp [freeVarsArgs]
  | cons a rest ih =>
    obtain ⟨bound, t⟩ := a
    simp [freeVarsArgs, ih]

/-- The free variables below an operator that is not a variable. -/
theorem mem_freeVars_node {op : Operator} {args : List (List Binder × Term)} {labels : List Label}
    {x : LogicVar} (hop : ∀ y, op ≠ .var y) :
    x ∈ (node op args labels).freeVars ↔ ∃ a ∈ args, x ∈ a.2.freeVars ∧ Binder.logic x ∉ a.1 := by
  rw [freeVars, mem_freeVarsArgs]
  exact hop

/-! ## Subterms -/

theorem mem_subtermsArgs {args : List (List Binder × Term)} {u : Term} :
    u ∈ subtermsArgs args ↔ ∃ a ∈ args, u ∈ a.2.subterms := by
  induction args with
  | nil => simp [subtermsArgs]
  | cons a rest ih =>
    obtain ⟨bound, t⟩ := a
    simp [subtermsArgs, ih]

theorem mem_subterms_node {op : Operator} {args : List (List Binder × Term)} {labels : List Label}
    {u : Term} :
    u ∈ (node op args labels).subterms ↔
      u = node op args labels ∨ ∃ a ∈ args, u ∈ a.2.subterms := by
  rw [subterms, List.mem_cons, mem_subtermsArgs]

theorem self_mem_subterms (t : Term) : t ∈ t.subterms := by
  cases t
  exact mem_subterms_node.mpr (.inl rfl)

theorem mem_subterms_of_arg {op : Operator} {args : List (List Binder × Term)} {labels : List Label}
    {a : List Binder × Term} {u : Term} (ha : a ∈ args) (hu : u ∈ a.2.subterms) :
    u ∈ (node op args labels).subterms :=
  mem_subterms_node.mpr (.inr ⟨a, ha, hu⟩)

/-- A subterm of a subterm is a subterm. -/
theorem mem_subterms_trans {t u v : Term} (hu : u ∈ t.subterms) (hv : v ∈ u.subterms) :
    v ∈ t.subterms := by
  induction t with
  | node op args labels ih =>
    rcases mem_subterms_node.mp hu with rfl | ⟨a, ha, hu⟩
    · exact hv
    · exact mem_subterms_of_arg ha (ih a ha hu)

/-- The subterms that are listed with their positions are the subterms. -/
theorem map_snd_positions (t : Term) : t.positions.map Prod.snd = t.subterms := by
  induction t with
  | node op args labels ih =>
    rw [positions, subterms, List.map_cons]
    congr 1
    generalize 0 = i
    induction args generalizing i with
    | nil => rfl
    | cons a args iha =>
      obtain ⟨ha, hargs⟩ := List.forall_mem_cons.mp ih
      rw [positionsArgs, subtermsArgs, List.map_append, List.map_map, ← ha, iha hargs]
      rfl

theorem mem_subterms_of_mem_positions {t u : Term} {pos : Position} (h : (pos, u) ∈ t.positions) :
    u ∈ t.subterms :=
  map_snd_positions t ▸ List.mem_map_of_mem h

/-- What all subterms of a term satisfy is said of the term itself and of its arguments. -/
theorem forall_subterms_node {P : Term → Prop} {op : Operator}
    {args : List (List Binder × Term)} {labels : List Label} :
    (∀ u ∈ (node op args labels).subterms, P u) ↔
      P (node op args labels) ∧ ∀ a ∈ args, ∀ u ∈ a.2.subterms, P u := by
  constructor
  · intro h
    exact ⟨h _ (self_mem_subterms _), fun a ha u hu => h u (mem_subterms_of_arg ha hu)⟩
  · rintro ⟨htop, hargs⟩ u hu
    rcases mem_subterms_node.mp hu with rfl | ⟨a, ha, hu⟩
    · exact htop
    · exact hargs a ha u hu

/-! ## All variables -/

theorem mem_vars_node {op : Operator} {args : List (List Binder × Term)} {labels : List Label}
    {x : LogicVar} :
    x ∈ (node op args labels).vars ↔
      op = .var x ∨ (∃ a ∈ args, Binder.logic x ∈ a.1) ∨ ∃ a ∈ args, x ∈ a.2.vars := by
  have hhere : ∀ b : Binder, b.logic? = some x ↔ b = .logic x := by
    intro b
    cases b <;> simp [Binder.logic?]
  have hvar : (node op args labels).logicVar? = some x ↔ op = .var x := by
    cases op <;> simp [logicVar?]
  simp only [vars, subterms, List.flatMap_cons, List.mem_append, Option.mem_toList, hvar,
    List.mem_filterMap, boundHere, args_node, List.mem_flatMap, hhere, mem_subtermsArgs]
  constructor
  · rintro ((h | ⟨b, ⟨a, ha, hb⟩, rfl⟩) | ⟨u, ⟨a, ha, hu⟩, hx⟩)
    · exact .inl h
    · exact .inr (.inl ⟨a, ha, hb⟩)
    · exact .inr (.inr ⟨a, ha, u, hu, hx⟩)
  · rintro (h | ⟨a, ha, hb⟩ | ⟨a, ha, u, hu, hx⟩)
    · exact .inl (.inl h)
    · exact .inl (.inr ⟨_, ⟨a, ha, hb⟩, rfl⟩)
    · exact .inr ⟨u, ⟨a, ha, hu⟩, hx⟩

/-- A free variable is a variable. -/
theorem freeVars_subset_vars {t : Term} {x : LogicVar} (hx : x ∈ t.freeVars) : x ∈ t.vars := by
  induction t with
  | node op args labels ih =>
    by_cases hop : ∃ y, op = .var y
    · obtain ⟨y, rfl⟩ := hop
      rw [freeVars, List.mem_singleton] at hx
      exact mem_vars_node.mpr (.inl (by rw [hx]))
    · obtain ⟨a, ha, hxa, -⟩ := (mem_freeVars_node (not_exists.mp hop)).mp hx
      exact mem_vars_node.mpr (.inr (.inr ⟨a, ha, ih a ha hxa⟩))

/-! ## Function symbols -/

end Term

/-- The function symbol an operator is, if it is one. -/
def Operator.symbol? : Operator → Option FunSym
  | func f => some f
  | _ => none

theorem Operator.symbol?_eq_some {op : Operator} {f : FunSym} :
    op.symbol? = some f ↔ op = .func f := by
  cases op <;> simp [symbol?]

namespace Term

/-- The function symbols and predicates of a term, one entry per occurrence. Programs are not looked
into. -/
def symbols (t : Term) : List FunSym := t.subterms.filterMap fun u => u.op.symbol?

theorem mem_symbols {t : Term} {f : FunSym} : f ∈ t.symbols ↔ ∃ u ∈ t.subterms, u.op = .func f := by
  simp only [symbols, List.mem_filterMap, Operator.symbol?_eq_some]

theorem mem_symbols_node {op : Operator} {args : List (List Binder × Term)} {labels : List Label}
    {f : FunSym} :
    f ∈ (node op args labels).symbols ↔ op = .func f ∨ ∃ a ∈ args, f ∈ a.2.symbols := by
  simp only [mem_symbols, mem_subterms_node]
  constructor
  · rintro ⟨u, rfl | ⟨a, ha, hu⟩, hf⟩
    · exact .inl hf
    · exact .inr ⟨a, ha, u, hu, hf⟩
  · rintro (hf | ⟨a, ha, u, hu, hf⟩)
    · exact ⟨_, .inl rfl, hf⟩
    · exact ⟨u, .inr ⟨a, ha, hu⟩, hf⟩

/-! ## Positions -/

theorem subtermAt_cons {t w u : Term} {i : UInt16} {rest : Position} {bound : List Binder}
    (hw : t.args[i.toNat]? = some (bound, w)) (h : t.subtermAt (i :: rest) = .ok u) :
    w.subtermAt rest = .ok u := by
  rw [subtermAt, hw] at h
  exact h

/-- Replacing below an argument replaces that argument. -/
theorem replaceAt_cons {t v t' : Term} {i : UInt16} {rest : Position}
    (h : t.replaceAt (i :: rest) v = .ok t') :
    ∃ bound w w', t.args[i.toNat]? = some (bound, w) ∧ w.replaceAt rest v = .ok w' ∧
      t' = node t.op (t.args.set i.toNat (bound, w')) t.labels := by
  rw [replaceAt] at h
  split at h
  · rename_i bound w hw
    cases hw' : w.replaceAt rest v with
    | error f =>
      rw [hw'] at h
      cases h
    | ok w' =>
      rw [hw'] at h
      exact ⟨bound, w, w', hw, hw', (Except.ok.inj h).symm⟩
  · cases h

/-- A list agrees with itself after a change of one entry, if the entries before and after the
change agree. -/
theorem forall₂_set {α : Type*} {R : α → α → Prop} {l : List α} {i : Nat} {a b : α}
    (hrefl : ∀ c ∈ l, R c c) (ha : l[i]? = some a) (hab : R a b) :
    List.Forall₂ R l (l.set i b) := by
  induction l generalizing i with
  | nil => simp at ha
  | cons c l ih =>
    have hl : ∀ c ∈ l, R c c := fun d hd => hrefl d (List.mem_cons_of_mem _ hd)
    cases i with
    | zero =>
      obtain rfl : c = a := by simpa using ha
      exact .cons hab (List.forall₂_same.mpr hl)
    | succ i => exact .cons (hrefl c (List.mem_cons_self ..)) (ih hl (by simpa using ha))

/-- Changing an entry to one with the same image does not change the images. -/
theorem map_set_of_eq {α : Type*} {β : Type*} {f : α → β} {l : List α} {i : Nat} {a b : α}
    (ha : l[i]? = some a) (hab : f b = f a) : (l.set i b).map f = l.map f := by
  obtain ⟨hi, rfl⟩ := List.getElem?_eq_some_iff.mp ha
  rw [List.map_set, hab, ← List.map_set, List.set_getElem_self]

/-! ## Well-formed terms and schematic patterns -/

/-- Every operator of the term has as many arguments as it takes. -/
def WellFormed (t : Term) : Prop := ∀ u ∈ t.subterms, u.args.length = u.op.arity

instance (t : Term) : Decidable t.WellFormed :=
  inferInstanceAs (Decidable (∀ u ∈ t.subterms, u.args.length = u.op.arity))

/-- All binders in the term are schema variables. -/
def BindsSchematically (t : Term) : Prop :=
  ∀ u ∈ t.subterms, ∀ b ∈ u.boundHere, b.schema?.isSome

instance (t : Term) : Decidable t.BindsSchematically :=
  inferInstanceAs (Decidable (∀ u ∈ t.subterms, ∀ b ∈ u.boundHere, b.schema?.isSome))

theorem wellFormed_node {op : Operator} {args : List (List Binder × Term)} {labels : List Label} :
    (node op args labels).WellFormed ↔
      args.length = op.arity ∧ ∀ a ∈ args, a.2.WellFormed :=
  forall_subterms_node

theorem bindsSchematically_node {op : Operator} {args : List (List Binder × Term)}
    {labels : List Label} :
    (node op args labels).BindsSchematically ↔
      ∀ a ∈ args, (∀ b ∈ a.1, b.schema?.isSome) ∧ a.2.BindsSchematically := by
  refine forall_subterms_node.trans ⟨?_, ?_⟩
  · rintro ⟨hhere, hargs⟩ a ha
    exact ⟨fun b hb => hhere b (List.mem_flatMap.mpr ⟨a, ha, hb⟩), hargs a ha⟩
  · intro h
    refine ⟨fun b hb => ?_, fun a ha => (h a ha).2⟩
    obtain ⟨a, ha, hb⟩ := List.mem_flatMap.mp hb
    exact (h a ha).1 b hb

end Term

end SequentSearch
