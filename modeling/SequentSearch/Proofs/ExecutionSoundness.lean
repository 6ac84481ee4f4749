import SequentSearch.Proofs.Applications
import SequentSearch.Proofs.Execution
import SequentSearch.Proofs.RuleSoundness

/-!
# Soundness of one application

An application that came about by matching, of an automatic rule of the calculus, is executed on a
sequent. Then

* whoever refutes the sequent refutes one of the successors, after giving a meaning to the constants
  that were drawn (`CalculusStep.sound`), so a sequent is valid if its successors are;
* whoever refutes a successor refutes the sequent (`CalculusStep.invertible`);
* the successors consist of formulas of first-order logic whose names are in use
  (`CalculusStep.adds`), so that the same can be said of the next application.

The link between the three and the rules is that the focus and the assumed formulas are instances of
the patterns they were matched with, up to renaming of bound variables.
-/

namespace SequentSearch

universe u

/-- A term that sequents of a proof may contain: of first-order logic, with all its names in use. -/
def NameSupply.Admits (ns : NameSupply) (t : Term) : Prop := t.FirstOrder ∧ ns.Covers t

/-- A value that matching may bind: such a term that fits the variable. -/
def NameSupply.AdmitsValue (ns : NameSupply) (sv : SchemaVar) (v : Instantiation) : Prop :=
  ∃ u, v = .term u ∧ ns.Admits u ∧ Term.fitsKind sv u

/-! ## Values -/

/-- Variables bound in a term of first-order logic stand for objects. -/
theorem Term.FirstOrder.binder_sort {t : Term} (h : t.FirstOrder) {y : LogicVar}
    (hy : .logic y ∈ t.boundHere) : y.sort.isFormula = false := by
  obtain ⟨op, args, labels⟩ := t
  obtain ⟨⟨bound, body⟩, ha, hy⟩ := List.mem_flatMap.mp hy
  have hadmits := (firstOrder_node.mp h).1
  -- an operator binds variables for objects or none at all
  have hshape : (argShape (bound, body)).bindsObjects ∨ (argShape (bound, body)).binders = [] := by
    have hmem : argShape (bound, body) ∈ args.map argShape := List.mem_map_of_mem ha
    revert hmem
    generalize argShape (bound, body) = shape
    generalize args.map argShape = shapes at hadmits
    intro hmem
    unfold Operator.admits at hadmits
    split at hadmits <;>
      simp_all [ArgShape.isPlainTerm, ArgShape.isPlainFormula] <;> grind
  have hbinder : some y.sort ∈ (argShape (bound, body)).binders :=
    List.mem_map.mpr ⟨.logic y, hy, rfl⟩
  rcases hshape with hobjects | hnone
  · simpa using List.all_eq_true.mp hobjects _ hbinder
  · rw [hnone] at hbinder
    cases hbinder

theorem NameSupply.admits_hereditary (ns : NameSupply) : Term.Hereditary ns.Admits where
  arg := by
    rintro ⟨op, args, labels⟩ a ⟨hfo, hcovers⟩ ha
    refine ⟨(Term.firstOrder_node.mp hfo).2 a ha, fun f hf => ?_⟩
    exact hcovers f (Term.mem_symbols_node.mpr (.inr ⟨a, ha, hf⟩))
  binder := by
    rintro t y ⟨hfo, -⟩ hy
    refine ⟨?_, fun f hf => ?_⟩
    · refine Term.firstOrder_node.mpr ⟨?_, fun a ha => (nomatch ha)⟩
      simp [Operator.admits, hfo.binder_sort hy]
    · rcases Term.mem_symbols_node.mp hf with hop | ⟨a, ha, -⟩
      · cases hop
      · cases ha

theorem NameSupply.Admits.mono {ns ns' : NameSupply} {t : Term} (h : ns.Admits t)
    (hle : ∀ n ∈ ns.used, n ∈ ns'.used) : ns'.Admits t :=
  ⟨h.1, fun f hf => hle _ (h.2 f hf)⟩

namespace Calculus

/-- The patterns of the calculus have no labels and no programs, and bind schema variables only. -/
theorem firstOrderDrafts_patterns : ∀ d ∈ firstOrderDrafts, ∀ p ∈ d.patterns,
    p.WellFormed ∧ p.BindsSchematically ∧
      ∀ u ∈ p.subterms, u.labels = [] ∧ u.op.head? ≠ some (.modal .box) ∧
        u.op.head? ≠ some (.modal .diamond) := by
  decide +kernel

/-- No rule of the calculus brings a symbol of its own. -/
theorem firstOrderDrafts_symbols : ∀ d ∈ firstOrderDrafts, ∀ g ∈ d.templates, ∀ t ∈ g.terms,
    t.symbols = [] := by
  decide +kernel

/-- What matching binds for the rules of the calculus. -/
theorem sources {base : RuleBase} (hbase : ∀ r ∈ base.rules, r.toRuleDraft ∈ firstOrderDrafts)
    (ns : NameSupply) : base.Sources ns.Admits ns.AdmitsValue where
  hereditary := ns.admits_hereditary
  fits sv u hu hfits := ⟨u, rfl, hu, hfits⟩
  parts := by
    intro r hr p hp u hu
    obtain ⟨-, -, hparts⟩ := firstOrderDrafts_patterns _ (hbase r hr) p hp
    obtain ⟨hlabels, hbox, hdiamond⟩ := hparts u hu
    refine ⟨fun sv hsv => ?_, fun m q hop => ?_⟩
    · rw [hlabels] at hsv
      cases hsv
    · rw [hop] at hbox hdiamond
      cases m with
      | box => exact absurd rfl hbox
      | diamond => exact absurd rfl hdiamond

end Calculus

namespace RuleApp

variable {base : RuleBase} {app : RuleApp} {seq : Sequent} {ns ns' : NameSupply}
  {σ : Instantiations} {rule : String}

/-- Drawing constants turns values that matching bound into values to apply a rule with. -/
theorem Draws.drawn {svs : List SchemaVar} {insts : Instantiations} (h : Draws svs insts σ ns ns')
    (hinsts : insts.All ns.AdmitsValue) : σ.Drawn ns := by
  intro sv v hv
  rcases h.fresh sv v hv with hold | ⟨name, rfl, hskolem, hunused, -⟩
  · obtain ⟨u, rfl, ⟨hfo, hcovers⟩, hfits⟩ := hinsts sv v hold
    exact ⟨u, rfl, hfo, .inl ⟨hfits, hcovers⟩⟩
  · refine ⟨_, rfl, ?_, .inr ⟨hskolem, name, rfl, hunused⟩⟩
    exact Term.firstOrder_node.mpr ⟨rfl, fun a ha => (nomatch ha)⟩

/-- The names of all values are in use after constants were drawn. -/
theorem Draws.covers {svs : List SchemaVar} {insts : Instantiations} (h : Draws svs insts σ ns ns')
    (hinsts : insts.All ns.AdmitsValue) {f : FunSym} (hf : Term.BroughtBy σ f) :
    f.name ∈ ns'.used := by
  obtain ⟨sv, u, hu, hfu⟩ := hf
  cases hv : σ.get? sv with
  | none =>
    rw [Term.instantiateVar, hv] at hu
    cases hu
  | some v =>
    rcases h.fresh sv v hv with hold | ⟨name, rfl, -, -, hused, -⟩
    · obtain ⟨w, rfl, ⟨-, hcovers⟩, -⟩ := hinsts sv v hold
      cases (Term.instantiateVar_of_term hv).symm.trans hu
      exact h.grows _ (hcovers f hfu)
    · cases (Term.instantiateVar_of_term hv).symm.trans hu
      rcases Term.mem_symbols_node.mp hfu with hop | ⟨a, ha, -⟩
      · cases hop
        exact hused
      · cases ha

/-! ## Focus and assumed formulas are instances -/

/-- A pattern of the calculus gives back what it was matched against. -/
theorem instance_of_match {d : RuleDraft} (hd : d ∈ Calculus.firstOrderDrafts) {p c : Term}
    (hp : p ∈ d.patterns) {τ τ' : Instantiations} (hmatch : p.matchInto .empty c τ = some τ')
    (hle : τ' ≤ σ) : ∃ r, p.instantiate rule σ = .ok r ∧ r.alphaEq c := by
  obtain ⟨hwf, hbinds, -⟩ := Calculus.firstOrderDrafts_patterns d hd p hp
  have hreproduces : p.Reproduces rule := Term.reproduces hwf hbinds
  obtain ⟨r, hr, halpha⟩ := (hreproduces c τ τ' hmatch).2 σ hle
  exact ⟨r, hr, halpha []⟩

/-- The subterm at the focus is an instance of the find part. -/
theorem Matched.focus_instance (h : app.Matched base ns.AdmitsValue) (rule : String)
    (hd : app.rule.toRuleDraft ∈ Calculus.firstOrderDrafts) (hle : app.insts ≤ σ) {o : Occurrence}
    (ho : app.focus = some o) (hfo : o.formula.term.FirstOrder) :
    ∃ p sub r, app.rule.find.pattern? = some p ∧ app.rule.find.admits o.side o.pos.isEmpty ∧
      o.formula.term.subtermAt o.pos = .ok sub ∧ p.instantiate rule σ = .ok r ∧ r.alphaEq sub := by
  obtain ⟨p, sub, τ, hp, hadmits, hpos, hmatch, hτ⟩ := h.focus o ho
  have hmem : p ∈ app.rule.toRuleDraft.patterns := List.mem_append_left _ (by simp [hp])
  obtain ⟨r, hr, halpha⟩ := instance_of_match hd hmem hmatch (Instantiations.le_trans hτ hle)
  exact ⟨p, sub, r, hp, hadmits, hfo.narrow.subtermAt_of_mem_positions hpos, hr, halpha⟩

/-- The formulas found for the assumes part are instances of it. -/
theorem Matched.assumed_instance (h : app.Matched base ns.AdmitsValue) (rule : String)
    (hd : app.rule.toRuleDraft ∈ Calculus.firstOrderDrafts) (hle : app.insts ≤ σ)
    {found : List Occurrence} (hfound : app.assumed = some found) {a : Side × Term}
    (ha : a ∈ app.rule.assumes.sided) :
    ∃ o ∈ found, o.side = a.1 ∧ ∃ r, a.2.instantiate rule σ = .ok r ∧ r.alphaEq o.formula.term := by
  obtain ⟨o, ho, hside, τ, τ', hmatch, hτ⟩ := exists_right_of_forall₂ (h.assumed found hfound) ha
  have hmem : a.2 ∈ app.rule.toRuleDraft.patterns := by
    refine List.mem_append_right _ ?_
    simp only [SequentPattern.sided, List.mem_append, List.mem_map] at ha
    rcases ha with ⟨p, hp, rfl⟩ | ⟨p, hp, rfl⟩
    · exact List.mem_append_left _ hp
    · exact List.mem_append_right _ hp
  obtain ⟨r, hr, halpha⟩ := instance_of_match hd hmem hmatch (Instantiations.le_trans hτ hle)
  exact ⟨o, ho, hside, r, hr, halpha⟩

/-! ## Goals whose formulas take the place of the focus, or are added -/

/-- What is left of the sequent when the focus is replaced. -/
def keptBy (seq : Sequent) (focus : Option (Occurrence × Nat)) : Replacement → Sequent
  | .keep => seq
  | _ =>
    match focus with
    | some (o, idx) => without seq o.side idx
    | none => seq

theorem Instances.forall_iff {R : SeqFormula → Prop} {ts : List Term} {fs : Semisequent}
    (h : Instances rule σ ts fs) :
    (∀ f ∈ fs, R f) ↔ ∀ t ∈ ts, ∃ f, instantiateFormula rule σ t = .ok f ∧ R f := by
  constructor
  · intro hR t ht
    obtain ⟨f, hf, hinst⟩ := exists_right_of_forall₂ h ht
    exact ⟨f, hinst, hR f hf⟩
  · intro hR f hf
    obtain ⟨t, ht, hinst⟩ := exists_left_of_forall₂ h hf
    obtain ⟨f', hf', hRf'⟩ := hR t ht
    cases hinst.symm.trans hf'
    exact hRf'

theorem forall_sided {P : Side → Term → Prop} {s : SequentPattern} (side : Side) :
    (∀ e ∈ s.sided, P e.1 e.2) ↔
      (∀ t ∈ s.side side, P side t) ∧ ∀ t ∈ s.side side.other, P side.other t := by
  cases side <;> simp [SequentPattern.sided, SequentPattern.side, Side.other, or_imp, forall_and,
    and_comm]

/-- **What a goal template makes of a sequent**, for a property that does not see redundancy: it
holds of what is left of the sequent and of the instances of what the template brings. -/
theorem applyTemplate_all {focus : Option (Occurrence × Nat)} {g : GoalTemplate} {change : Change}
    (h : applyTemplate rule σ seq focus g = .ok change) (hg : g.replace.isTerm = false)
    {R : Side → SeqFormula → Prop} (hR : RespectsRedundancy R) :
    change.sequent.All R ↔ (keptBy seq focus g.replace).All R ∧
      ∀ e ∈ g.formulas, ∃ f, instantiateFormula rule σ e.2 = .ok f ∧ R e.1 f := by
  obtain ⟨kept, new, antec, succ, hreplaced, hantec, hsucc, hadds⟩ := applyTemplate_spec h
  have hadd : (∀ e ∈ g.add.sided, ∃ f, instantiateFormula rule σ e.2 = .ok f ∧ R e.1 f) ↔
      (∀ f ∈ antec, R .antec f) ∧ ∀ f ∈ succ, R .succ f := by
    rw [hantec.forall_iff, hsucc.forall_iff]
    exact forall_sided (P := fun side t =>
      ∃ f, instantiateFormula rule σ t = .ok f ∧ R side f) .antec
  rw [hadds.all_iff hR]
  simp only [List.forall_mem_append, Change.forall_mem_map_side]
  generalize hreplace : g.replace = replace at hreplaced hg
  unfold GoalTemplate.formulas
  rw [hreplace]
  cases hreplaced with
  | keep =>
    simp only [List.nil_append, hadd, keptBy]
    simp
  | term => cases hg
  | @sequent o idx s here there hhere hthere =>
    have hsided : (∀ e ∈ s.sided, ∃ f, instantiateFormula rule σ e.2 = .ok f ∧ R e.1 f) ↔
        (∀ f ∈ here, R o.side f) ∧ ∀ f ∈ there, R o.side.other f := by
      rw [hhere.forall_iff, hthere.forall_iff]
      exact forall_sided (P := fun side t =>
        ∃ f, instantiateFormula rule σ t = .ok f ∧ R side f) o.side
    simp only [List.forall_mem_append, Change.forall_mem_map_side, hsided, hadd, keptBy]
    tauto

theorem mem_sided {s : SequentPattern} {side : Side} {t : Term} :
    (side, t) ∈ s.sided ↔ t ∈ s.side side := by
  cases side <;> simp [SequentPattern.sided, SequentPattern.side]

theorem mem_terms_of_mem_formulas {g : GoalTemplate} {e : Side × Term} (h : e ∈ g.formulas) :
    e.2 ∈ g.terms := by
  have hsided : ∀ {s : SequentPattern}, e ∈ s.sided → e.2 ∈ s.formulas := by
    intro s he
    exact SequentPattern.mem_formulas_of_mem_side (mem_sided.mp he)
  rcases List.mem_append.mp h with h | h
  · refine List.mem_append_left _ ?_
    split at h <;> rename_i hreplace
    · rw [hreplace]
      exact hsided h
    · cases h
  · exact List.mem_append_right _ (hsided h)

/-- The new formulas of a goal are instances of what its template brings. -/
theorem applyTemplate_new {focus : Option (Occurrence × Nat)} {g : GoalTemplate} {change : Change}
    (h : applyTemplate rule σ seq focus g = .ok change) (hg : g.replace.isTerm = false) :
    ∃ kept new, change.Adds seq kept new ∧
      ∀ e ∈ new, ∃ t, (e.1, t) ∈ g.formulas ∧ instantiateFormula rule σ t = .ok e.2 := by
  obtain ⟨kept, new, antec, succ, hreplaced, hantec, hsucc, hadds⟩ := applyTemplate_spec h
  refine ⟨kept, _, hadds, ?_⟩
  have hinst : ∀ {side : Side} {ts : List Term} {fs : Semisequent}, Instances rule σ ts fs →
      (∀ t ∈ ts, (side, t) ∈ g.formulas) → ∀ e ∈ fs.map (side, ·),
      ∃ t, (e.1, t) ∈ g.formulas ∧ instantiateFormula rule σ t = .ok e.2 := by
    intro side ts fs hfs hts e he
    obtain ⟨f, hf, rfl⟩ := List.mem_map.mp he
    obtain ⟨t, ht, hinst⟩ := exists_left_of_forall₂ hfs hf
    exact ⟨t, hts t ht, hinst⟩
  have hadd : ∀ side, ∀ t ∈ g.add.side side, (side, t) ∈ g.formulas := by
    intro side t ht
    exact List.mem_append_right _ (mem_sided.mpr ht)
  simp only [List.forall_mem_append]
  refine ⟨⟨?_, hinst hantec (hadd .antec)⟩, hinst hsucc (hadd .succ)⟩
  generalize hreplace : g.replace = replace at hreplaced hg
  cases hreplaced with
  | keep => exact fun e he => (nomatch he)
  | term => cases hg
  | @sequent o idx s here there hhere hthere =>
    have hside : ∀ side, ∀ t ∈ s.side side, (side, t) ∈ g.formulas := by
      intro side t ht
      refine List.mem_append_left _ ?_
      rw [hreplace]
      exact mem_sided.mpr ht
    exact List.forall_mem_append.mpr ⟨hinst hhere (hside o.side), hinst hthere (hside o.side.other)⟩

end RuleApp

/-! ## One application -/

/-- **A step of the calculus**: an automatic application that came about by matching is executed on
a sequent of formulas of first-order logic with names in use. -/
structure CalculusStep (base : RuleBase) (app : RuleApp) (seq : Sequent) (ns : NameSupply)
    (succs : List Successor) (ns' : NameSupply) : Prop where
  /-- the application came about by matching -/
  matched : app.Matched base ns.AdmitsValue
  /-- its rule is one of the calculus -/
  draft : app.rule.toRuleDraft ∈ Calculus.firstOrderDrafts
  /-- which automatic search may apply -/
  automatic : app.rule.automatic
  /-- the sequent is one of first-order logic -/
  admits : seq.All fun _ f => ns.Admits f.term
  /-- the execution succeeds -/
  executed : app.execute seq ns = (.ok succs, ns')

namespace CalculusStep

open RuleApp

variable {base : RuleBase} {app : RuleApp} {seq : Sequent} {ns ns' : NameSupply}
  {succs : List Successor}

/-- The parts of a step: the focus and its place, the values and the changes. -/
structure Parts (app : RuleApp) (seq : Sequent) (ns : NameSupply) (succs : List Successor)
    (ns' : NameSupply) (o : Occurrence) (idx : Nat) (σ : Instantiations) : Prop where
  /-- the focus of the application -/
  focus : app.focus = some o
  /-- its formula is in the sequent -/
  formula : (seq.side o.side)[idx]? = some o.formula
  /-- constants are drawn -/
  draws : Draws app.rule.schemaVars app.insts σ ns ns'
  /-- each goal template makes its change -/
  changes : List.Forall₂
    (fun g s => applyTemplate app.rule.name σ seq (some (o, idx)) g = .ok s.change)
    app.rule.templates succs

theorem parts (h : CalculusStep base app seq ns succs ns')
    (hfind : app.rule.find.pattern?.isSome) : ∃ o idx σ, Parts app seq ns succs ns' o idx σ := by
  obtain ⟨-, focus, σ, hfocus, hdraws, hchanges⟩ := execute_spec h.executed
  rcases locateFocus_spec hfocus with ⟨hnone, -⟩ | ⟨o, idx, ho, rfl, hformula⟩
  · rw [h.matched.unfocused hnone] at hfind
    cases hfind
  · exact ⟨o, idx, σ, ho, hformula, drawConstants_spec hdraws, hchanges⟩

/-- The formula of the focus is one of the sequent. -/
theorem Parts.mem {o : Occurrence} {idx : Nat} {σ : Instantiations}
    (h : Parts app seq ns succs ns' o idx σ) : o.formula ∈ seq.side o.side :=
  List.mem_of_getElem? h.formula

theorem pattern?_of_sided? {find : FindPart} {e : Side × Term} (h : find.sided? = some e) :
    find.pattern? = some e.2 ∧
      ∀ side top, find.admits side top → side = e.1 ∧ top = true := by
  cases find with
  | nothing => cases h
  | subterm p => cases h
  | antec p =>
    cases h
    exact ⟨rfl, fun side top hadmits => by simpa [FindPart.admits, and_comm] using hadmits⟩
  | succ p =>
    cases h
    exact ⟨rfl, fun side top hadmits => by simpa [FindPart.admits, and_comm] using hadmits⟩

section Sound

variable {D : Type u} [Nonempty D] {M : Interpretation D} {β : Env D} {o : Occurrence} {idx : Nat}
  {σ : Instantiations}

/-- The formula of the focus is an instance of the pattern on its side. -/
theorem focus_formula (h : CalculusStep base app seq ns succs ns')
    (hparts : Parts app seq ns succs ns' o idx σ) {e : Side × Term}
    (he : app.rule.find.sided? = some e) :
    o.side = e.1 ∧ ∃ r, e.2.instantiate app.rule.name σ = .ok r ∧ r.alphaEq o.formula.term := by
  have hfo := (h.admits o.side o.formula hparts.mem).1
  obtain ⟨p, sub, r, hp, hadmits, hsub, hr, halpha⟩ :=
    h.matched.focus_instance app.rule.name h.draft hparts.draws.le hparts.focus hfo
  obtain ⟨hpattern, hplace⟩ := pattern?_of_sided? he
  obtain ⟨hside, htop⟩ := hplace _ _ hadmits
  obtain rfl : e.2 = p := Option.some.inj (hpattern.symm.trans hp)
  rw [List.isEmpty_iff.mp htop] at hsub
  obtain rfl : o.formula.term = sub := Except.ok.inj hsub
  exact ⟨hside, r, hr, halpha⟩

/-- A formula that a goal brings is refuted if the instance of its template is. -/
theorem refutes_formula_iff (hsound : RuleDraft.Sound.{u} app.rule.toRuleDraft) (hσ : σ.Drawn ns)
    {g : GoalTemplate} (hg : g ∈ app.rule.templates) {e : Side × Term} (he : e ∈ g.formulas)
    {f : SeqFormula} (hf : instantiateFormula app.rule.name σ e.2 = .ok f) :
    M.Refutes β e.1 f.term ↔ RefutesInstance M β app.rule.name σ e := by
  obtain ⟨r, hr, hfr⟩ := instantiateFormula_eq_ok.mp hf
  have hfo := hsound.firstOrder hσ g hg e he r hr
  have heval : M.Refutes β e.1 f.term ↔ M.Refutes β e.1 r := by
    rw [hfr]
    exact Interpretation.refutes_of_eval_eq (Term.eval_executeSubsts hfo.replacementsOpen β)
  rw [heval]
  constructor
  · intro hrefutes
    exact ⟨r, hr, hrefutes⟩
  · rintro ⟨r', hr', hrefutes⟩
    cases hr.symm.trans hr'
    exact hrefutes

/-- Every formula that a goal brings has an instance, for otherwise the execution would fail. -/
theorem Parts.formula_exists (hparts : Parts app seq ns succs ns' o idx σ)
    (hreplaces : ∀ g ∈ app.rule.templates, g.replace.isTerm = false) {g : GoalTemplate}
    (hg : g ∈ app.rule.templates) {e : Side × Term} (he : e ∈ g.formulas) :
    ∃ f, instantiateFormula app.rule.name σ e.2 = .ok f := by
  obtain ⟨s, -, hs⟩ := exists_right_of_forall₂ hparts.changes hg
  have hall := (applyTemplate_all (R := fun _ _ => True) hs (hreplaces g hg)
    ⟨fun _ => trivial, fun _ => Iff.rfl⟩).mp fun _ _ _ => trivial
  obtain ⟨f, hf, -⟩ := hall.2 e he
  exact ⟨f, hf⟩

theorem sound_of_sound (h : CalculusStep base app seq ns succs ns')
    (hsound : RuleDraft.Sound.{u} app.rule.toRuleDraft) (hβ : β.IsObjects) (hM : M.Counters β seq)
    (hassumed : ∀ found, app.assumed = some found →
      ∀ o ∈ found, M.Refutes β o.side o.formula.term) :
    ∃ M' : Interpretation D, ∃ s ∈ succs, M'.Counters β s.change.sequent := by
  obtain ⟨e, he⟩ := Option.isSome_iff_exists.mp hsound.find
  obtain ⟨o, idx, σ, hparts⟩ := h.parts (by simp [(pattern?_of_sided? he).1])
  have hσ := hparts.draws.drawn h.matched.values
  have hfind : RefutesInstance M β app.rule.name σ e := by
    obtain ⟨hside, r, hr, halpha⟩ := h.focus_formula hparts he
    refine ⟨r, hr, (Interpretation.refutes_of_eval_eq (Term.eval_eq_of_alphaEq halpha β)).mpr ?_⟩
    exact hside ▸ hM o.side o.formula hparts.mem
  have hassumes : ∀ a ∈ app.rule.assumes.sided, RefutesInstance M β app.rule.name σ a := by
    intro a ha
    obtain ⟨hcomplete, -⟩ := execute_spec h.executed
    obtain ⟨found, hfound⟩ : ∃ found, app.assumed = some found := by
      refine Option.isSome_iff_exists.mp ?_
      exact (Bool.and_eq_true_iff.mp (Bool.and_eq_true_iff.mp hcomplete).1).1
    obtain ⟨o', ho', hside, r, hr, halpha⟩ :=
      h.matched.assumed_instance app.rule.name h.draft hparts.draws.le hfound ha
    refine ⟨r, hr, (Interpretation.refutes_of_eval_eq (Term.eval_eq_of_alphaEq halpha β)).mpr ?_⟩
    exact hside ▸ hassumed found hfound o' ho'
  obtain ⟨M', hagrees, g, hg, hall⟩ := hsound.sound hβ hσ e he hfind hassumes fun g hg e he => by
    obtain ⟨f, hf⟩ := hparts.formula_exists hsound.replaces hg he
    obtain ⟨r, hr, -⟩ := instantiateFormula_eq_ok.mp hf
    exact ⟨r, hr⟩
  obtain ⟨s, hs, hchange⟩ := exists_right_of_forall₂ hparts.changes hg
  refine ⟨M', s, hs, ?_⟩
  have hM' : M'.Counters β seq := by
    intro side f hf
    exact (Interpretation.refutes_of_eval_eq (hagrees f.term (h.admits side f hf).2 β)).mpr
      (hM side f hf)
  refine (applyTemplate_all hchange (hsound.replaces g hg) (M'.respectsRedundancy_refutes β)).mpr
    ⟨?_, fun e he => ?_⟩
  · unfold keptBy
    split
    · exact hM'
    · exact ((Change.all_eraseIdx hparts.formula).mp hM').2
  · obtain ⟨f, hf⟩ := hparts.formula_exists hsound.replaces hg he
    exact ⟨f, hf, (refutes_formula_iff hsound hσ hg he hf).mpr (hall e he)⟩

/-- **Who refutes what a goal brings in the place of the focus refutes the focus.** -/
theorem refutes_focus (h : CalculusStep base app seq ns succs ns')
    (hsound : RuleDraft.Sound.{u} app.rule.toRuleDraft) (hβ : β.IsObjects)
    (hparts : Parts app seq ns succs ns' o idx σ) {g : GoalTemplate} (hg : g ∈ app.rule.templates)
    (hkeep : g.replace ≠ .keep)
    (hall : ∀ e ∈ g.formulas, ∃ f, instantiateFormula app.rule.name σ e.2 = .ok f ∧
      M.Refutes β e.1 f.term) : M.Refutes β o.side o.formula.term := by
  obtain ⟨e, he⟩ := Option.isSome_iff_exists.mp hsound.find
  have hσ := hparts.draws.drawn h.matched.values
  obtain ⟨hside, r, hr, halpha⟩ := h.focus_formula hparts he
  have hr := hsound.invertible (M := M) hβ hσ g hg hkeep (fun e he => ?_) e he r hr
  · rw [hside]
    exact (Interpretation.refutes_of_eval_eq (Term.eval_eq_of_alphaEq halpha β)).mp hr
  · obtain ⟨f, hf, hrefutes⟩ := hall e he
    exact (refutes_formula_iff hsound hσ hg he hf).mp hrefutes

theorem invertible_of_sound (h : CalculusStep base app seq ns succs ns')
    (hsound : RuleDraft.Sound.{u} app.rule.toRuleDraft) (hβ : β.IsObjects) {s : Successor}
    (hs : s ∈ succs) (hM : M.Counters β s.change.sequent) : M.Counters β seq := by
  obtain ⟨e, he⟩ := Option.isSome_iff_exists.mp hsound.find
  obtain ⟨o, idx, σ, hparts⟩ := h.parts (by simp [(pattern?_of_sided? he).1])
  obtain ⟨g, hg, hchange⟩ := exists_left_of_forall₂ hparts.changes hs
  obtain ⟨hkept, hall⟩ := (applyTemplate_all hchange (hsound.replaces g hg)
    (M.respectsRedundancy_refutes β)).mp hM
  by_cases hkeep : g.replace = .keep
  · rw [hkeep] at hkept
    exact hkept
  · -- the focus was taken away, and is refuted because what replaced it is
    refine (Change.all_eraseIdx hparts.formula).mpr
      ⟨h.refutes_focus hsound hβ hparts hg hkeep hall, ?_⟩
    cases hreplace : g.replace with
    | keep => exact absurd hreplace hkeep
    | term t => simpa [hreplace, Replacement.isTerm] using hsound.replaces g hg
    | sequent s =>
      rw [hreplace] at hkept
      exact hkept

end Sound

section Rewriting

variable {o : Occurrence} {idx : Nat} {σ : Instantiations}

/-- What a step with a rewriting rule consists of: an instance of the pattern is found at the focus,
and an instance of the template takes its place. -/
theorem rewritten (h : CalculusStep base app seq ns succs ns')
    (hparts : Parts app seq ns succs ns' o idx σ) {p t : Term} (hfind : app.rule.find = .subterm p)
    (htemplates : app.rule.templates = [{ replace := .term t }]) :
    ∃ s f sub r new, succs = [s] ∧ s.change.Adds seq (without seq o.side idx) [(o.side, f)] ∧
      o.formula.term.subtermAt o.pos = .ok sub ∧ p.instantiate app.rule.name σ = .ok r ∧
      r.alphaEq sub ∧
      t.instantiate app.rule.name σ = .ok new ∧
      o.formula.term.replaceAt o.pos new.executeSubsts = .ok f.term := by
  have hchanges := hparts.changes
  rw [htemplates] at hchanges
  obtain ⟨s, _, hchange, ⟨⟩, rfl⟩ := List.forall₂_cons_left_iff.mp hchanges
  obtain ⟨kept, new, antec, succ, hreplaced, hantec, hsucc, hadds⟩ := applyTemplate_spec hchange
  cases hantec
  cases hsucc
  cases hreplaced with
  | @term o idx t new f hnew hf =>
    simp only [List.map_nil, List.append_nil] at hadds
    obtain ⟨hfo, -⟩ := h.admits o.side o.formula hparts.mem
    obtain ⟨p', sub, r, hp, -, hsub, hr, halpha⟩ :=
      h.matched.focus_instance app.rule.name h.draft hparts.draws.le hparts.focus hfo
    rw [hfind] at hp
    cases hp
    exact ⟨s, f, sub, r, new, rfl, hadds, hsub, hr, halpha, hnew, hf⟩

/-- **A rewriting step** leaves one successor, in which the formula of the focus is replaced by one
of first-order logic that has the same value under every interpretation. -/
theorem rewrites (h : CalculusStep base app seq ns succs ns')
    (hrewrites : RuleDraft.Rewrites.{u} app.rule.toRuleDraft) :
    ∃ (o : Occurrence) (idx : Nat) (s : Successor) (f : SeqFormula), succs = [s] ∧
      (seq.side o.side)[idx]? = some o.formula ∧
      s.change.Adds seq (without seq o.side idx) [(o.side, f)] ∧ ns'.Admits f.term ∧
      ∀ {D : Type u} [Nonempty D] (M : Interpretation D) (β : Env D),
        f.term.eval M β = o.formula.term.eval M β := by
  obtain ⟨p, t, hfind, htemplates, hequates⟩ := hrewrites
  obtain ⟨o, idx, σ, hparts⟩ := h.parts (by simp [hfind, FindPart.pattern?])
  have hσ := hparts.draws.drawn h.matched.values
  obtain ⟨s, f, sub, r, new, rfl, hadds, hsub, hr, halpha, hnew, hf⟩ :=
    h.rewritten hparts hfind htemplates
  refine ⟨o, idx, s, f, rfl, hparts.formula, hadds, ?_⟩
  obtain ⟨hfo, hcovers⟩ := h.admits o.side o.formula hparts.mem
  obtain ⟨hformula, hfonew, hnewformula, heval⟩ := hequates hσ hr hnew
  obtain ⟨hfoexec, hexecformula⟩ := hfonew.executeSubsts
  have hsubformula : sub.isFormula := by
    have hop := Term.op_eq_of_alphaEq halpha
    obtain ⟨op, args, labels⟩ := sub
    rw [Term.isFormula_node]
    rw [hop] at hformula
    exact hformula _
  obtain ⟨hfof, -⟩ := hfo.replaceAt hsub hf hfoexec (by rw [hexecformula, hnewformula, hsubformula])
  refine ⟨⟨hfof, fun c hc => ?_⟩, ?_⟩
  · rcases Term.symbols_replaceAt hf hc with hc | hc
    · exact hparts.draws.grows _ (hcovers c hc)
    · rcases Term.mem_symbols_instantiate hnew (Term.symbols_executeSubsts hc) with hc | hc
      · have hg : ⟨none, .term t, {}⟩ ∈ app.rule.templates := by simp [htemplates]
        rw [Calculus.firstOrderDrafts_symbols _ h.draft _ hg t (List.mem_cons_self ..)] at hc
        cases hc
      · exact hparts.draws.covers h.matched.values hc
  · intro D _ M β
    refine (Term.eval_replaceAt hsub hf (fun γ => ?_) β).symm
    rw [Term.eval_executeSubsts hfonew.replacementsOpen, heval, Term.eval_eq_of_alphaEq halpha]

end Rewriting

section Main

variable {D : Type u} [Nonempty D] {M : Interpretation D} {β : Env D}

/-- A rewriting step is refuted by the same interpretations before and after. -/
theorem counters_rewrites (h : CalculusStep base app seq ns succs ns')
    (hrewrites : RuleDraft.Rewrites.{u} app.rule.toRuleDraft) :
    ∃ s, succs = [s] ∧ ∀ (M : Interpretation D) (β : Env D),
      M.Counters β s.change.sequent ↔ M.Counters β seq := by
  obtain ⟨o, idx, s, f, rfl, hformula, hadds, -, heval⟩ := h.rewrites hrewrites
  refine ⟨s, rfl, fun M β => ?_⟩
  have hsame : M.Refutes β o.side f.term ↔ M.Refutes β o.side o.formula.term :=
    Interpretation.refutes_of_eval_eq (heval M β)
  rw [Interpretation.Counters, hadds.all_iff (M.respectsRedundancy_refutes β),
    List.forall_mem_singleton, hsame, and_comm]
  exact (Change.all_eraseIdx (R := fun side f => M.Refutes β side f.term) hformula).symm

/-- **Soundness of a step**: who refutes the sequent and the assumed formulas refutes a successor,
after giving a meaning to the constants that were drawn. -/
theorem sound (h : CalculusStep base app seq ns succs ns') (hβ : β.IsObjects)
    (hM : M.Counters β seq) (hassumed : ∀ found, app.assumed = some found →
      ∀ o ∈ found, M.Refutes β o.side o.formula.term) :
    ∃ M' : Interpretation D, ∃ s ∈ succs, M'.Counters β s.change.sequent := by
  rcases Calculus.sound_or_rewrites h.draft h.automatic with hsound | hrewrites
  · exact h.sound_of_sound hsound hβ hM hassumed
  · obtain ⟨s, rfl, hiff⟩ := h.counters_rewrites (D := D) hrewrites
    exact ⟨M, s, List.mem_singleton.mpr rfl, (hiff M β).mpr hM⟩

/-- **Invertibility of a step**: who refutes a successor refutes the sequent. -/
theorem invertible (h : CalculusStep base app seq ns succs ns') (hβ : β.IsObjects) {s : Successor}
    (hs : s ∈ succs) (hM : M.Counters β s.change.sequent) : M.Counters β seq := by
  rcases Calculus.sound_or_rewrites h.draft h.automatic with hsound | hrewrites
  · exact h.invertible_of_sound hsound hβ hs hM
  · obtain ⟨s', rfl, hiff⟩ := h.counters_rewrites (D := D) hrewrites
    obtain rfl := List.mem_singleton.mp hs
    exact (hiff M β).mp hM

end Main

/-- A successor adds formulas of first-order logic with names in use to those of the sequent. -/
theorem adds (h : CalculusStep base app seq ns succs ns') {s : Successor} (hs : s ∈ succs) :
    ∃ kept new, s.change.Adds seq kept new ∧ ∀ e ∈ new, ns'.Admits e.2.term := by
  rcases Calculus.sound_or_rewrites.{0} h.draft h.automatic with hsound | hrewrites
  · obtain ⟨e, he⟩ := Option.isSome_iff_exists.mp hsound.find
    obtain ⟨o, idx, σ, hparts⟩ := h.parts (by simp [(pattern?_of_sided? he).1])
    have hσ := hparts.draws.drawn h.matched.values
    obtain ⟨g, hg, hchange⟩ := exists_left_of_forall₂ hparts.changes hs
    obtain ⟨kept, new, hadds, hnew⟩ := applyTemplate_new hchange (hsound.replaces g hg)
    refine ⟨kept, new, hadds, fun e' he' => ?_⟩
    obtain ⟨t, ht, hinst⟩ := hnew e' he'
    obtain ⟨r, hr, hf⟩ := instantiateFormula_eq_ok.mp hinst
    have hfo := hsound.firstOrder hσ g hg _ ht r hr
    rw [hf]
    refine ⟨hfo.executeSubsts.1, fun c hc => ?_⟩
    rcases Term.mem_symbols_instantiate hr (Term.symbols_executeSubsts hc) with hc | hc
    · rw [Calculus.firstOrderDrafts_symbols _ h.draft g hg t (mem_terms_of_mem_formulas ht)] at hc
      cases hc
    · exact hparts.draws.covers h.matched.values hc
  · obtain ⟨o, idx, s', f, rfl, -, hadds, hadmits, -⟩ := h.rewrites hrewrites
    obtain rfl := List.mem_singleton.mp hs
    exact ⟨_, _, hadds, List.forall_mem_singleton.mpr hadmits⟩

end CalculusStep

end SequentSearch
