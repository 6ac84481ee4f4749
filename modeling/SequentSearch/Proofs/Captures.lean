import SequentSearch.Matching
import SequentSearch.Proofs.Instances

/-!
# Which variables an instance captures

Instantiating a template replaces schema variables by their values and leaves everything else where
it is. No binder is renamed on the way, so a variable that is free in a value may end up below a
binder of it. This module says exactly when it does.

`Term.Occurs t bs w` says that `w` stands in `t` below the binders `bs`. A binder of a template
**stands for** a logic variable, be it the one it is or the one that its schema variable has for a
value. A variable is free in the instance if and only if the template shows it, or has a schema
variable whose value shows it, in a place where no binder above stands for it
(`Term.mem_freeVars_instantiate`).

So binders capture, whether they are schema variables or not: a template that binds a fixed variable
captures it in every value that it surrounds.
-/

namespace SequentSearch

/-- The logic variable that a binder of a template stands for. -/
def Instantiations.standsFor? (σ : Instantiations) : Binder → Option LogicVar
  | .logic x => some x
  | .schema sv => σ.logicVar? sv

namespace Term

/-! ## Places below binders -/

/-- A term stands in another one below binders, the outermost first. -/
inductive Occurs : Term → List Binder → Term → Prop
  /-- at the top nothing is bound -/
  | here (t : Term) : Occurs t [] t
  /-- an argument is below what is bound in it -/
  | arg {op : Operator} {args : List (List Binder × Term)} {labels : List Label}
      {a : List Binder × Term} {bs : List Binder} {w : Term} (ha : a ∈ args)
      (hw : Occurs a.2 bs w) :
      Occurs (node op args labels) (a.1 ++ bs) w

theorem occurs_node {op : Operator} {args : List (List Binder × Term)} {labels : List Label}
    {bs : List Binder} {w : Term} :
    Occurs (node op args labels) bs w ↔ (bs = [] ∧ w = node op args labels) ∨
      ∃ a ∈ args, ∃ cs, bs = a.1 ++ cs ∧ Occurs a.2 cs w := by
  constructor
  · intro h
    cases h with
    | here => exact .inl ⟨rfl, rfl⟩
    | arg ha hw => exact .inr ⟨_, ha, _, rfl, hw⟩
  · rintro (⟨rfl, rfl⟩ | ⟨a, ha, cs, rfl, hw⟩)
    · exact .here _
    · exact .arg ha hw

/-! ## The variables of the parts of an instance -/

section Parts

variable {rule : String} {σ : Instantiations}

theorem freeVars_addLabels (t : Term) (ls : List Label) :
    (t.addLabels ls).freeVars = t.freeVars := by
  obtain ⟨op, args, labels⟩ := t
  cases op <;> rfl

/-- A binder is instantiated by the logic variable that it stands for. -/
theorem instantiateBinders_cons_eq_ok {b : Binder} {bs bs' : List Binder}
    (h : instantiateBinders σ (b :: bs) = .ok bs') :
    ∃ x rest, σ.standsFor? b = some x ∧ instantiateBinders σ bs = .ok rest ∧
      bs' = .logic x :: rest := by
  cases b with
  | logic x =>
    obtain ⟨rest, hrest, h⟩ := bind_eq_ok.mp h
    exact ⟨x, rest, rfl, hrest, (Except.ok.inj h).symm⟩
  | schema sv =>
    rw [instantiateBinders] at h
    split at h <;> rename_i hx
    · obtain ⟨rest, hrest, h⟩ := bind_eq_ok.mp h
      exact ⟨_, rest, hx, hrest, (Except.ok.inj h).symm⟩
    · cases h

/-- The binders of an instance bind what the binders of the template stand for. -/
theorem mem_instantiateBinders {bs bs' : List Binder} (h : instantiateBinders σ bs = .ok bs')
    {v : LogicVar} : .logic v ∈ bs' ↔ ∃ b ∈ bs, σ.standsFor? b = some v := by
  induction bs generalizing bs' with
  | nil =>
    cases h
    simp
  | cons b bs ih =>
    obtain ⟨x, rest, hx, hrest, rfl⟩ := instantiateBinders_cons_eq_ok h
    rw [List.mem_cons, ih hrest, List.exists_mem_cons_iff, hx]
    simp [eq_comm]

/-- Arguments are instantiated one by one, with their binders. -/
theorem forall₂_instantiateArgs {args args' : List (List Binder × Term)}
    (h : instantiateArgs rule σ args = .ok args') :
    List.Forall₂ (fun a a' => a.2.instantiate rule σ = .ok a'.2 ∧
      instantiateBinders σ a.1 = .ok a'.1)
      args args' := by
  induction args generalizing args' with
  | nil =>
    cases h
    exact .nil
  | cons a args ih =>
    obtain ⟨t', bound', rest', ht', hbound', hrest', rfl⟩ := instantiateArgs_cons_eq_ok.mp h
    exact .cons ⟨ht', hbound'⟩ (ih hrest')

/-- Only programs change in an operator, so a variable stays one and nothing else becomes one. -/
theorem instantiateOperator_eq_var {op op' : Operator} (h : instantiateOperator rule σ op = .ok op')
    {x : LogicVar} : op' = .var x ↔ op = .var x := by
  cases op with
  | modal m p =>
    obtain ⟨p', -, heq⟩ := bind_eq_ok.mp h
    cases heq
    simp
  | _ =>
    obtain rfl := Except.ok.inj h
    rfl

end Parts

/-! ## The free variables of an instance -/

/-- What a part of a template brings into an instance: a variable itself, or what is free in the
value of a schema variable. -/
def Brings (σ : Instantiations) (v : LogicVar) (w : Term) : Prop :=
  w.op = .var v ∨ ∃ sv u, w.op = .schema sv ∧ instantiateVar σ sv = .ok u ∧ v ∈ u.freeVars

/-- A variable is brought in somewhere below no binder that stands for it. -/
def Uncaptured (σ : Instantiations) (v : LogicVar) (t : Term) : Prop :=
  ∃ bs w, Occurs t bs w ∧ (∀ b ∈ bs, σ.standsFor? b ≠ some v) ∧ w.Brings σ v

theorem uncaptured_node {σ : Instantiations} {v : LogicVar} {op : Operator}
    {args : List (List Binder × Term)} {labels : List Label} :
    (node op args labels).Uncaptured σ v ↔ (node op args labels).Brings σ v ∨
      ∃ a ∈ args, a.2.Uncaptured σ v ∧ ∀ b ∈ a.1, σ.standsFor? b ≠ some v := by
  constructor
  · rintro ⟨bs, w, hw, hbs, hv⟩
    rcases occurs_node.mp hw with ⟨rfl, rfl⟩ | ⟨a, ha, cs, rfl, hwa⟩
    · exact .inl hv
    · obtain ⟨hhere, hbelow⟩ := List.forall_mem_append.mp hbs
      exact .inr ⟨a, ha, ⟨cs, w, hwa, hbelow, hv⟩, hhere⟩
  · rintro (hv | ⟨a, ha, ⟨cs, w, hw, hbelow, hv⟩, hhere⟩)
    · exact ⟨[], _, .here _, by simp, hv⟩
    · exact ⟨a.1 ++ cs, w, .arg ha hw, List.forall_mem_append.mpr ⟨hhere, hbelow⟩, hv⟩

/-- **The free variables of an instance** are those that the template brings in uncaptured. -/
theorem mem_freeVars_instantiate {rule : String} {σ : Instantiations} {t r : Term}
    (ht : t.WellFormed) (h : t.instantiate rule σ = .ok r) {v : LogicVar} :
    v ∈ r.freeVars ↔ t.Uncaptured σ v := by
  induction t generalizing r with
  | node op args labels ih =>
    obtain ⟨harity, hargs⟩ := wellFormed_node.mp ht
    rw [uncaptured_node]
    by_cases hsv : ∃ sv, op = .schema sv
    · -- a schema variable has no arguments, so its value is all there is
      obtain ⟨sv, rfl⟩ := hsv
      obtain ⟨ls, u, -, hu, rfl⟩ := instantiate_schema_eq_ok.mp h
      obtain rfl : args = [] := List.eq_nil_of_length_eq_zero harity
      rw [freeVars_addLabels]
      simp [Brings, hu]
    obtain ⟨ls, op', args', -, hop', hargs', rfl⟩ :=
      (instantiate_node_eq_ok (not_exists.mp hsv)).mp h
    by_cases hvar : ∃ x, op = .var x
    · obtain ⟨x, rfl⟩ := hvar
      obtain rfl := (instantiateOperator_eq_var hop').mpr rfl
      obtain rfl : args = [] := List.eq_nil_of_length_eq_zero harity
      simp [freeVars, Brings, eq_comm]
    · -- everything else brings in what its arguments do, below their binders
      have hnot : ¬(node op args labels).Brings σ v := by
        rintro (hop | ⟨sv, u, hop, -⟩)
        · exact hvar ⟨v, hop⟩
        · exact hsv ⟨sv, hop⟩
      have hop : ∀ y, op' ≠ .var y := fun y hy => hvar ⟨y, (instantiateOperator_eq_var hop').mp hy⟩
      have hall := forall₂_instantiateArgs hargs'
      have hbound : ∀ {bs bs'}, instantiateBinders σ bs = .ok bs' →
          (.logic v ∉ bs' ↔ ∀ b ∈ bs, σ.standsFor? b ≠ some v) := by
        intro bs bs' hbs
        simp only [mem_instantiateBinders hbs, not_exists, not_and, ne_eq]
      rw [mem_freeVars_node hop, or_iff_right hnot]
      constructor
      · rintro ⟨a', ha', hv, hfree⟩
        obtain ⟨a, ha, hinst, hbs⟩ := exists_left_of_forall₂ hall ha'
        exact ⟨a, ha, (ih a ha (hargs a ha) hinst).mp hv, (hbound hbs).mp hfree⟩
      · rintro ⟨a, ha, hv, hfree⟩
        obtain ⟨a', ha', hinst, hbs⟩ := exists_right_of_forall₂ hall ha
        exact ⟨a', ha', (ih a ha (hargs a ha) hinst).mpr hv, (hbound hbs).mpr hfree⟩

/-- **What instantiation captures.** A free variable of the value of a schema variable is free in
the instance, unless the schema variable stands below a binder that stands for it: one that is the
variable, or a schema variable with the variable for its value. Conversely, a free variable of the
instance is brought in by the template somewhere below no such binder. -/
theorem instantiate_captures_below_binders {rule : String} {σ : Instantiations} {template r : Term}
    (ht : template.WellFormed) (h : template.instantiate rule σ = .ok r) :
    (∀ {bs w sv u v}, template.Occurs bs w → w.op = .schema sv → σ.get? sv = some (.term u) →
      v ∈ u.freeVars → (∀ b ∈ bs, σ.standsFor? b ≠ some v) → v ∈ r.freeVars) ∧
    ∀ v ∈ r.freeVars, ∃ bs w, template.Occurs bs w ∧ (∀ b ∈ bs, σ.standsFor? b ≠ some v) ∧
      (w.op = .var v ∨
        ∃ sv u, w.op = .schema sv ∧ instantiateVar σ sv = .ok u ∧ v ∈ u.freeVars) := by
  constructor
  · intro bs w sv u v hw hsv hu hv hbs
    have hbrings : w.Brings σ v := .inr ⟨sv, u, hsv, instantiateVar_of_term hu, hv⟩
    exact (mem_freeVars_instantiate ht h).mpr ⟨bs, w, hw, hbs, hbrings⟩
  · intro v hv
    exact (mem_freeVars_instantiate ht h).mp hv

/-- `\forall x; q(x, z)`, which binds a fixed variable around `z`. -/
private def surrounding (z : Term) : Term :=
  let x : LogicVar := ⟨"x", .int⟩
  all x (app (.predicate "q" 2) [var x, z])

/-- The schema variable `#t` that stands in it. -/
private def surrounded : SchemaVar := ⟨"#t", .term .any, false, false⟩

/-- Around another variable than its own, the binder captures nothing. -/
theorem instantiate_captures_below_binders_surrounding :
    ∃ r, (surrounding (schema surrounded)).instantiate "example"
        ⟨[(surrounded, .term (var ⟨"y", .int⟩))], none⟩ = .ok r ∧ ⟨"y", .int⟩ ∈ r.freeVars := by
  have hwf : (surrounding (schema surrounded)).WellFormed := by decide +kernel
  have hinst : (surrounding (schema surrounded)).instantiate "example"
      ⟨[(surrounded, .term (var ⟨"y", .int⟩))], none⟩ = .ok (surrounding (var ⟨"y", .int⟩)) := rfl
  refine ⟨_, hinst, (instantiate_captures_below_binders hwf hinst).1
    (.arg (List.mem_singleton_self _) (.arg (List.mem_of_getElem? (i := 1) rfl) (.here _))) rfl rfl
    (List.mem_singleton_self _) ?_⟩
  intro b hb
  obtain rfl := List.mem_singleton.mp hb
  decide

/-- **A binder of a template can capture.** The pattern `\forall x; q(x, #t)` matches
`\forall y; q(y, x)` and finds `x` for `#t`. Its instance is `\forall x; q(x, x)`: it is not what
was matched, and `x` is no longer free, though no schema variable is bound above `#t`. -/
theorem exists_captured : ∃ (pattern candidate r : Term) (σ : Instantiations),
    pattern.WellFormed ∧ pattern.matchInto .empty candidate .empty = some σ ∧
      pattern.instantiate "example" σ = .ok r ∧ ¬r.alphaEq candidate ∧
      ∃ bs w sv u v, pattern.Occurs bs w ∧ w.op = .schema sv ∧ σ.get? sv = some (.term u) ∧
        v ∈ u.freeVars ∧ (∀ sv', .schema sv' ∈ bs → σ.logicVar? sv' ≠ some v) ∧ v ∉ r.freeVars := by
  refine ⟨surrounding (schema surrounded),
    all ⟨"y", .int⟩ (app (.predicate "q" 2) [var ⟨"y", .int⟩, var ⟨"x", .int⟩]),
    surrounding (var ⟨"x", .int⟩), ⟨[(surrounded, .term (var ⟨"x", .int⟩))], none⟩,
    by decide +kernel, rfl, rfl, by decide +kernel, _, schema surrounded, surrounded,
    var ⟨"x", .int⟩, ⟨"x", .int⟩,
    .arg (List.mem_singleton_self _) (.arg (List.mem_of_getElem? (i := 1) rfl) (.here _)),
    rfl, rfl, List.mem_singleton_self _, ?_, by decide +kernel⟩
  intro sv' hsv
  cases List.mem_singleton.mp hsv

end Term

end SequentSearch
