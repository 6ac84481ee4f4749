import SequentSearch.Proofs.Execution
import SequentSearch.Proofs.Applications
import SequentSearch.Proofs.FirstOrder
import SequentSearch.Proofs.Instances

/-!
# Where function symbols come from

A function symbol of a successor is in the sequent before, in the goal template, or in a value
(`RuleApp.Origin`). Values are read off the sequent by matching, are drawn, or are supplied; where a
program expression stands for a term, its operators and literals become function symbols too.

So if a kind of names is closed under all this, then executing an application leads to names of the
kind only (`RuleApp.execute_namedIn`). The names that program expressions bring in are told apart
from drawn ones by their form: drawn names are numbered behind an underscore
(`Program.toTerm_unnumbered`).
-/

namespace SequentSearch

/-! ## Names of function symbols -/

/-- All function symbols of a term have names of a kind. -/
def Term.NamedIn (A : String → Prop) (t : Term) : Prop := ∀ f ∈ t.symbols, A f.name

/-- So have those of a value, if it is a term. -/
def Instantiation.NamedIn (A : String → Prop) (v : Instantiation) : Prop :=
  ∀ u, v.term? = some u → u.NamedIn A

theorem Term.NamedIn.mono {A B : String → Prop} {t : Term} (h : t.NamedIn A)
    (hAB : ∀ n, A n → B n) :
    t.NamedIn B := fun f hf => hAB _ (h f hf)

theorem Instantiation.NamedIn.mono {A B : String → Prop} {v : Instantiation} (h : v.NamedIn A)
    (hAB : ∀ n, A n → B n) : v.NamedIn B := fun u hu => (h u hu).mono hAB

theorem Term.hereditary_namedIn (A : String → Prop) : Hereditary (NamedIn A) where
  arg := by
    rintro ⟨op, args, labels⟩ a ht ha f hf
    exact ht f (mem_symbols_node.mpr (.inr ⟨a, ha, hf⟩))
  binder := by
    intro t y _ _ f hf
    rcases mem_symbols_node.mp hf with hop | ⟨a, ha, -⟩
    · cases hop
    · cases ha

/-- Values that matching reads off terms have no other names. -/
theorem RuleBase.sources_namedIn (base : RuleBase) (A : String → Prop) :
    base.Sources (Term.NamedIn A) fun _ v => v.NamedIn A where
  hereditary := Term.hereditary_namedIn A
  fits sv u hu _ := by
    rintro _ ⟨⟩
    exact hu
  parts r _ p _ u _ := by
    -- labels and program elements are no terms, so nothing is asked of them
    refine ⟨fun sv _ ls => ?_, fun m q _ sv v hnone => ?_⟩
    · rintro w ⟨⟩
    · intro w hw
      cases hnone.symm.trans hw

/-! ## Names that are never drawn -/

/-- Not of the form of a drawn name, which is numbered behind an underscore. -/
def Unnumbered (name : String) : Prop := '_' ∉ name.toList

instance : DecidablePred Unnumbered := fun name => inferInstanceAs (Decidable ('_' ∉ name.toList))

theorem NameGen.not_unnumbered (stem : String) (n : Nat) : ¬ Unnumbered (numbered stem n) := by
  simp [Unnumbered, numbered]

theorem unnumbered_nat (n : Nat) : Unnumbered n.repr := by
  simp [Unnumbered]

theorem unnumbered_int (n : Int) : Unnumbered (toString n) := by
  rw [Int.toString_eq_repr]
  cases n with
  | ofNat m => exact unnumbered_nat m
  | negSucc m =>
    have hsucc := unnumbered_nat m.succ
    simp only [Unnumbered, Int.repr, String.toList_append, List.mem_append, not_or] at hsucc ⊢
    exact ⟨by decide, hsucc⟩

theorem Term.namedIn_app {A : String → Prop} {f : FunSym} {ts : List Term} (hf : A f.name)
    (hts : ∀ t ∈ ts, t.NamedIn A) : (app f ts).NamedIn A := by
  intro c hc
  rcases mem_symbols_node.mp hc with hop | ⟨a, ha, hc⟩
  · cases hop
    exact hf
  · obtain ⟨t, ht, rfl⟩ := List.mem_map.mp ha
    exact hts t ht c hc

theorem Literal.toTerm_unnumbered (l : Literal) : l.toTerm.NamedIn Unnumbered := by
  have hconst : ∀ {n : String} {s : SortName}, Unnumbered n → (Term.const n s).NamedIn Unnumbered :=
    fun hn => Term.namedIn_app hn fun t ht => (nomatch ht)
  rcases l with (_ | _) | n
  · exact hconst (by decide)
  · exact hconst (by decide)
  · exact hconst (unnumbered_int n)

theorem BinaryOp.funSym_unnumbered (op : BinaryOp) : Unnumbered op.funSym.name := by
  cases op <;> decide

/-- **The term of a program expression has no numbered names.** -/
theorem Program.toTerm_unnumbered {p : Program} {t : Term} (h : p.toTerm = .ok (some t)) :
    t.NamedIn Unnumbered := by
  refine toTerm_forall (fun v => ?_) Literal.toTerm_unnumbered (fun op a b ha hb => ?_) h
  · intro f hf
    rcases Term.mem_symbols_node.mp hf with hop | ⟨a, ha, -⟩
    · cases hop
    · cases ha
  · exact Term.namedIn_app op.funSym_unnumbered (by simp [ha, hb])

/-! ## Where the symbols of a successor come from -/

namespace RuleApp

variable {rule : String} {σ : Instantiations} {seq : Sequent} {g : GoalTemplate} {f : FunSym}
  {A : String → Prop}

/-- **Where a function symbol of a new formula comes from.** -/
inductive Origin (seq : Sequent) (g : GoalTemplate) (σ : Instantiations) (f : FunSym) : Prop where
  /-- it is in the sequent -/
  | sequent {side : Side} {φ : SeqFormula} (hφ : φ ∈ seq.side side) (hf : f ∈ φ.term.symbols)
  /-- the goal template has it -/
  | template {t : Term} (ht : t ∈ g.terms) (hf : f ∈ t.symbols)
  /-- a value brings it -/
  | value (hf : Term.BroughtBy σ f)

theorem origin_of_instantiate {t r : Term} (ht : t ∈ g.terms) (hr : t.instantiate rule σ = .ok r)
    (hf : f ∈ r.executeSubsts.symbols) : Origin seq g σ f := by
  rcases Term.mem_symbols_instantiate hr (Term.symbols_executeSubsts hf) with hf | hf
  · exact .template ht hf
  · exact .value hf

theorem origin_of_instances {ts : List Term} {fs : Semisequent} {side : Side}
    (hts : ∀ t ∈ ts, t ∈ g.terms) (h : Instances rule σ ts fs) :
    ∀ e ∈ fs.map (side, ·), ∀ f ∈ e.2.term.symbols, Origin seq g σ f := by
  intro e he f hf
  obtain ⟨φ, hφ, rfl⟩ := List.mem_map.mp he
  obtain ⟨t, ht, hinst⟩ := exists_left_of_forall₂ h hφ
  obtain ⟨r, hr, heq⟩ := instantiateFormula_eq_ok.mp hinst
  exact origin_of_instantiate (hts t ht) hr (heq ▸ hf)

theorem applyTemplate_origin {focus : Option (Occurrence × Nat)} {change : Change}
    (hfocus : ∀ o idx, focus = some (o, idx) → o.formula ∈ seq.side o.side)
    (h : applyTemplate rule σ seq focus g = .ok change) :
    ∃ kept new, change.Adds seq kept new ∧ ∀ e ∈ new, ∀ f ∈ e.2.term.symbols, Origin seq g σ f := by
  obtain ⟨kept, new, antec, succ, hreplaced, hantec, hsucc, hadds⟩ := applyTemplate_spec h
  refine ⟨kept, _, hadds, ?_⟩
  have hadd : ∀ side, ∀ t ∈ g.add.side side, t ∈ g.terms := fun side t ht =>
    List.mem_append_right _ (SequentPattern.mem_formulas_of_mem_side ht)
  simp only [List.forall_mem_append]
  refine ⟨⟨?_, origin_of_instances (hadd .antec) hantec⟩, origin_of_instances (hadd .succ) hsucc⟩
  generalize hreplace : g.replace = replace at hreplaced
  cases hreplaced with
  | keep => exact fun e he => (nomatch he)
  | @term o idx t new φ hnew hφ =>
    -- the only new formula that keeps part of an old one, that of the focus
    rw [List.forall_mem_singleton]
    intro f hf
    rcases Term.symbols_replaceAt hφ hf with hf | hf
    · exact .sequent (hfocus o idx rfl) hf
    · have ht : t ∈ g.terms := List.mem_append_left _
          (by rw [hreplace]; exact List.mem_cons_self ..)
      exact origin_of_instantiate ht hnew hf
  | @sequent o idx s here there hhere hthere =>
    have hside : ∀ side, ∀ t ∈ s.side side, t ∈ g.terms := by
      intro side t ht
      refine List.mem_append_left _ ?_
      rw [hreplace]
      exact SequentPattern.mem_formulas_of_mem_side ht
    exact List.forall_mem_append.mpr
      ⟨origin_of_instances (hside o.side) hhere, origin_of_instances (hside o.side.other) hthere⟩

/-- Values with known names bring known names only, and expressions of programs unnumbered ones. -/
theorem named_of_broughtBy (hσ : σ.All fun _ v => v.NamedIn A) (hprograms : ∀ n, Unnumbered n → A n)
    (hf : Term.BroughtBy σ f) : A f.name := by
  obtain ⟨sv, u, hu, hfu⟩ := hf
  rcases Term.instantiateVar_eq_ok hu with hv | ⟨p, -, hp⟩
  · exact hσ sv _ hv u rfl f hfu
  · exact hprograms _ (Program.toTerm_unnumbered hp f hfu)

theorem Draws.namedIn {svs : List SchemaVar} {insts : Instantiations} {ns ns' : NameSupply}
    (h : Draws svs insts σ ns ns') (hinsts : insts.All fun _ v => v.NamedIn A)
    (hused : ∀ n ∈ ns'.used, A n) : σ.All fun _ v => v.NamedIn A := by
  intro sv v hv
  rcases h.fresh sv v hv with hold | ⟨name, rfl, -, -, hname, -⟩
  · exact hinsts sv v hold
  · rintro _ ⟨⟩
    exact Term.namedIn_app (hused name hname) fun t ht => (nomatch ht)

/-- **The names of a successor**: if all names of a kind are those of the sequent, of the values, of
the goal templates and of drawn constants, then so are those of the formulas that a successor
adds. -/
theorem execute_namedIn {app : RuleApp} {ns ns' : NameSupply} {succs : List Successor}
    {s : Successor} (hexec : app.execute seq ns = (.ok succs, ns')) (hs : s ∈ succs)
    (hseq : seq.All fun _ φ => φ.term.NamedIn A) (hinsts : app.insts.All fun _ v => v.NamedIn A)
    (htemplates : ∀ g ∈ app.rule.templates, ∀ t ∈ g.terms, t.NamedIn A)
    (hused : ∀ n ∈ ns'.used, A n) (hprograms : ∀ n, Unnumbered n → A n) :
    ∃ kept new, s.change.Adds seq kept new ∧ ∀ e ∈ new, e.2.term.NamedIn A := by
  obtain ⟨-, focus, σ, hlocate, hdraws, hchanges⟩ := execute_spec hexec
  -- the focus is looked up in the sequent, whose names are known
  have hfocus : ∀ o idx, focus = some (o, idx) → o.formula ∈ seq.side o.side := by
    rintro o idx rfl
    rcases locateFocus_spec hlocate with ⟨-, hnone⟩ | ⟨o', idx', -, heq, hget⟩
    · cases hnone
    · cases heq
      exact List.mem_of_getElem? hget
  have hσ := (drawConstants_spec hdraws).namedIn hinsts hused
  obtain ⟨g, hg, hchange⟩ := exists_left_of_forall₂ hchanges hs
  obtain ⟨kept, new, hadds, horigin⟩ := applyTemplate_origin hfocus hchange
  refine ⟨kept, new, hadds, fun e he f hf => ?_⟩
  cases horigin e he f hf with
  | sequent hφ hf => exact hseq _ _ hφ f hf
  | template ht hf => exact htemplates g hg _ ht f hf
  | value hf => exact named_of_broughtBy hσ hprograms hf

end RuleApp

end SequentSearch
