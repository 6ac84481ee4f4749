import SequentSearch.Proofs.Editing
import SequentSearch.Proofs.Term
import SequentSearch.Template

/-!
# Instances of templates

A template is instantiated part by part: each schema variable becomes its value, binders become the
logic variables they stand for, and the rest stays. Every part has its inversion lemma here. A
function symbol of an instance therefore comes from the template, from a value, or from a program
expression that was turned into a term (`Term.mem_symbols_instantiate`). Facts about the terms of
all expressions are proved along the recursion that makes them (`Program.toTerm_forall`).
-/

namespace SequentSearch

@[simp] theorem TemplateError.ofFault_eq_ok {α : Type} {x : Except Fault α} {a : α} :
    ofFault x = .ok a ↔ x = .ok a := by
  cases x <;> simp [ofFault]

/-! ## The terms of expressions -/

theorem Program.exists_of_nth_toTermEach {ps : List Program} {i : Nat} {t : Option Term}
    (h : nth (toTermEach ps) i = .ok t) : ∃ p ∈ ps, p.toTerm = .ok t := by
  induction ps generalizing i with
  | nil => cases h
  | cons p ps ih =>
    cases i with
    | zero => exact ⟨p, List.mem_cons_self .., h⟩
    | succ i =>
      obtain ⟨q, hq, hqt⟩ := ih h
      exact ⟨q, List.mem_cons_of_mem _ hq, hqt⟩

/-- **What holds of the terms of all expressions**: what holds of program variables and literals and
is passed on by binary operators. -/
theorem Program.toTerm_forall {P : Term → Prop} (var : ∀ v, P (.progVar v))
    (lit : ∀ l : Literal, P l.toTerm)
    (binary : ∀ (op : BinaryOp) (a b : Term), P a → P b → P (.app op.funSym [a, b])) {p : Program}
    {t : Term} (h : p.toTerm = .ok (some t)) : P t := by
  induction p using Program.induct generalizing t with
  | node kind children ih =>
    have hchild : ∀ {i : Nat} {u : Term}, nth (toTermEach children) i = .ok (some u) → P u := by
      intro i u hu
      obtain ⟨c, hc, hcu⟩ := exists_of_nth_toTermEach hu
      exact ih c hc hcu
    cases kind with
    | var v =>
      rw [toTerm] at h
      cases h
      exact var v
    | lit l =>
      rw [toTerm] at h
      cases h
      exact lit l
    | binary op =>
      rw [toTerm] at h
      obtain ⟨a, ha, h⟩ := bind_eq_ok.mp h
      cases a with
      | none => cases h
      | some a =>
        obtain ⟨b, hb, h⟩ := bind_eq_ok.mp h
        cases b with
        | none => cases h
        | some b =>
          cases h
          exact binary op a b (hchild ha) (hchild hb)
    | _ => simp [toTerm] at h

/-! ## The parts of an instance -/

namespace Program

variable {rule : String} {σ : Instantiations} {p q : Program} {ps qs : List Program}

theorem instantiateRun_cons_eq_ok (hp : p.listVar? = none) :
    instantiateRun rule σ (p :: ps) = .ok qs ↔ ∃ q rest, p.instantiate rule σ = .ok q ∧
      instantiateRun rule σ ps = .ok rest ∧ qs = q :: rest := by
  rw [instantiateRun, hp]
  constructor
  · intro h
    obtain ⟨q, hq, h⟩ := bind_eq_ok.mp h
    obtain ⟨rest, hrest, h⟩ := bind_eq_ok.mp h
    exact ⟨q, rest, hq, hrest, (Except.ok.inj h).symm⟩
  · rintro ⟨q, rest, hq, hrest, rfl⟩
    simp only [hq, hrest]
    rfl

theorem instantiateRun_singleton_eq_ok (hp : p.listVar? = none) :
    instantiateRun rule σ [p] = .ok qs ↔ ∃ q, p.instantiate rule σ = .ok q ∧ qs = [q] := by
  rw [instantiateRun_cons_eq_ok hp]
  simp [instantiateRun]

theorem instantiate_node_eq_ok {kind : ProgramKind} (hsv : ∀ sv, kind ≠ .schema sv)
    (hactive : ∀ active, ps ≠ [node .context active]) :
    (node kind ps).instantiate rule σ = .ok q ↔
      ∃ qs, instantiateRun rule σ ps = .ok qs ∧ q = node kind qs := by
  rw [instantiate]
  · constructor
    · intro h
      obtain ⟨qs, hqs, h⟩ := bind_eq_ok.mp h
      exact ⟨qs, hqs, (Except.ok.inj h).symm⟩
    · rintro ⟨qs, hqs, rfl⟩
      rw [hqs]
      rfl
  · exact fun active _ => hactive active
  · exact hsv

theorem listVar?_schema {sv : SchemaVar} (h : sv.list = false) :
    (Program.schema sv).listVar? = none := by
  simp [Program.schema, listVar?, kind, h]

end Program

namespace Term

variable {rule : String} {σ : Instantiations} {r : Term}

theorem instantiate_schema_eq_ok {sv : SchemaVar} {args : List (List Binder × Term)}
    {labels : List Label} :
    (node (.schema sv) args labels).instantiate rule σ = .ok r ↔ ∃ ls t,
      instantiateLabels σ labels = .ok ls ∧ instantiateVar σ sv = .ok t ∧ r = t.addLabels ls := by
  rw [instantiate]
  constructor
  · intro h
    obtain ⟨ls, hls, h⟩ := bind_eq_ok.mp h
    obtain ⟨t, ht, h⟩ := bind_eq_ok.mp h
    exact ⟨ls, t, hls, ht, (Except.ok.inj h).symm⟩
  · rintro ⟨ls, t, hls, ht, rfl⟩
    exact bind_eq_ok.mpr ⟨ls, hls, bind_eq_ok.mpr ⟨t, ht, rfl⟩⟩

theorem instantiate_node_eq_ok {op : Operator} {args : List (List Binder × Term)}
    {labels : List Label} (hop : ∀ sv, op ≠ .schema sv) :
    (node op args labels).instantiate rule σ = .ok r ↔ ∃ ls op' args',
      instantiateLabels σ labels = .ok ls ∧ instantiateOperator rule σ op = .ok op' ∧
      instantiateArgs rule σ args = .ok args' ∧ r = node op' args' ls := by
  rw [instantiate]
  · constructor
    · intro h
      obtain ⟨ls, hls, h⟩ := bind_eq_ok.mp h
      obtain ⟨op', hop', h⟩ := bind_eq_ok.mp h
      obtain ⟨args', hargs', h⟩ := bind_eq_ok.mp h
      exact ⟨ls, op', args', hls, hop', hargs', (Except.ok.inj h).symm⟩
    · rintro ⟨ls, op', args', hls, hop', hargs', rfl⟩
      exact bind_eq_ok.mpr ⟨ls, hls,
        bind_eq_ok.mpr ⟨op', hop', bind_eq_ok.mpr ⟨args', hargs', rfl⟩⟩⟩
  · exact hop

theorem instantiateArgs_cons_eq_ok {bound : List Binder} {t : Term}
    {rest : List (List Binder × Term)} {args' : List (List Binder × Term)} :
    instantiateArgs rule σ ((bound, t) :: rest) = .ok args' ↔ ∃ t' bound' rest',
      t.instantiate rule σ = .ok t' ∧ instantiateBinders σ bound = .ok bound' ∧
      instantiateArgs rule σ rest = .ok rest' ∧ args' = (bound', t') :: rest' := by
  rw [instantiateArgs]
  constructor
  · intro h
    obtain ⟨t', ht', h⟩ := bind_eq_ok.mp h
    obtain ⟨bound', hbound', h⟩ := bind_eq_ok.mp h
    obtain ⟨rest', hrest', h⟩ := bind_eq_ok.mp h
    exact ⟨t', bound', rest', ht', hbound', hrest', (Except.ok.inj h).symm⟩
  · rintro ⟨t', bound', rest', ht', hbound', hrest', rfl⟩
    exact bind_eq_ok.mpr ⟨t', ht',
      bind_eq_ok.mpr ⟨bound', hbound', bind_eq_ok.mpr ⟨rest', hrest', rfl⟩⟩⟩

theorem exists_of_mem_instantiateArgs {args args' : List (List Binder × Term)}
    {a : List Binder × Term} (h : instantiateArgs rule σ args = .ok args') (ha : a ∈ args') :
    ∃ b ∈ args, b.2.instantiate rule σ = .ok a.2 := by
  induction args generalizing args' with
  | nil =>
    cases h
    cases ha
  | cons b args ih =>
    obtain ⟨t', bound', rest', ht', -, hrest', rfl⟩ := instantiateArgs_cons_eq_ok.mp h
    rcases List.mem_cons.mp ha with rfl | ha
    · exact ⟨b, List.mem_cons_self .., ht'⟩
    · obtain ⟨b', hb', hinst⟩ := ih hrest' ha
      exact ⟨b', List.mem_cons_of_mem _ hb', hinst⟩

/-- Arguments in which nothing is bound are instantiated one by one. -/
theorem instantiateArgs_plain {ts : List Term} {args' : List (List Binder × Term)}
    (h : instantiateArgs rule σ (ts.map fun t => ([], t)) = .ok args') :
    ∃ rs, List.Forall₂ (fun t r => t.instantiate rule σ = .ok r) ts rs ∧
      args' = rs.map fun r => ([], r) := by
  induction ts generalizing args' with
  | nil =>
    obtain rfl : [] = args' := Except.ok.inj h
    exact ⟨[], .nil, rfl⟩
  | cons t ts ih =>
    obtain ⟨r, bound', rest', hr, hbound', hrest', rfl⟩ := instantiateArgs_cons_eq_ok.mp h
    obtain rfl : [] = bound' := Except.ok.inj hbound'
    obtain ⟨rs, hrs, rfl⟩ := ih hrest'
    exact ⟨r :: rs, .cons hr hrs, rfl⟩

theorem instantiateVar_of_term {sv : SchemaVar} {u : Term} (h : σ.get? sv = some (.term u)) :
    instantiateVar σ sv = .ok u := by
  rw [instantiateVar, h]

/-- A schema variable in the place of a term gives the term it stands for, or the term of a program
expression. -/
theorem instantiateVar_eq_ok {sv : SchemaVar} {u : Term} (h : instantiateVar σ sv = .ok u) :
    σ.get? sv = some (.term u) ∨ ∃ p, σ.get? sv = some (.program p) ∧ p.toTerm = .ok (some u) := by
  unfold instantiateVar at h
  split at h <;> rename_i hv
  · cases h
    exact .inl hv
  · obtain ⟨t, ht, h⟩ := bind_eq_ok.mp h
    cases t with
    | none => cases h
    | some t =>
      cases h
      exact .inr ⟨_, hv, TemplateError.ofFault_eq_ok.mp ht⟩
  · cases h
  · cases h

theorem addLabels_nil (t : Term) : t.addLabels [] = t := by
  obtain ⟨op, args, ls⟩ := t
  simp [addLabels, withLabels, labels]

/-- An instance of a schema variable without labels is its value. -/
theorem instantiate_unlabelled_eq_ok {sv : SchemaVar} :
    (schema sv).instantiate rule σ = .ok r ↔ instantiateVar σ sv = .ok r := by
  constructor
  · intro h
    obtain ⟨ls, t, hls, ht, rfl⟩ := instantiate_schema_eq_ok.mp h
    cases hls
    rwa [addLabels_nil]
  · exact fun h => instantiate_schema_eq_ok.mpr ⟨[], r, rfl, h, (addLabels_nil r).symm⟩

theorem symbols_addLabels (t : Term) (ls : List Label) : (t.addLabels ls).symbols = t.symbols := by
  obtain ⟨op, args, labels⟩ := t
  rfl

/-- A symbol that the value of a schema variable brings in. -/
def BroughtBy (σ : Instantiations) (f : FunSym) : Prop :=
  ∃ sv u, instantiateVar σ sv = .ok u ∧ f ∈ u.symbols

/-- **A symbol of an instance is a symbol of the template or of a value.** -/
theorem mem_symbols_instantiate {t : Term} {f : FunSym} (h : t.instantiate rule σ = .ok r)
    (hf : f ∈ r.symbols) : f ∈ t.symbols ∨ BroughtBy σ f := by
  induction t generalizing r with
  | node op args labels ih =>
    by_cases hop : ∃ sv, op = .schema sv
    · obtain ⟨sv, rfl⟩ := hop
      obtain ⟨ls, u, -, hu, rfl⟩ := instantiate_schema_eq_ok.mp h
      rw [symbols_addLabels] at hf
      exact .inr ⟨sv, u, hu, hf⟩
    · obtain ⟨ls, op', args', -, hop', hargs, rfl⟩ :=
        (instantiate_node_eq_ok (not_exists.mp hop)).mp h
      rcases mem_symbols_node.mp hf with rfl | ⟨a, ha, hfa⟩
      · -- only programs change in an operator
        have hsame : op = .func f := by
          cases op with
          | modal m p =>
            obtain ⟨p', -, heq⟩ := bind_eq_ok.mp hop'
            cases heq
          | _ => exact Except.ok.inj hop'
        exact .inl (mem_symbols_node.mpr (.inl hsame))
      · obtain ⟨a', ha', hinst⟩ := exists_of_mem_instantiateArgs hargs ha
        rcases ih a' ha' hinst hfa with hfa | hvalue
        · exact .inl (mem_symbols_node.mpr (.inr ⟨a', ha', hfa⟩))
        · exact .inr hvalue

end Term

end SequentSearch
