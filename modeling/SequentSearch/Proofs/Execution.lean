import SequentSearch.Application.Execution
import SequentSearch.Proofs.Editing
import SequentSearch.Proofs.FreshNames
import SequentSearch.Proofs.Matching

/-!
# What executing an application does

Executing an application is a chain of steps that can fail. Here each step is inverted once, so that
later proofs see what a successful execution consists of and never unfold it again:

* `RuleApp.ReplacedBy` says what a replacement leaves of the sequent and which formulas it brings;
* `RuleApp.applyTemplate_spec` says that the change a goal template makes keeps the former and adds
  the latter;
* `RuleApp.execute_spec` says that a successful execution is one change for each template, under the
  values of the application and fresh constants;
* `RuleApp.drawConstants_spec` says what these constants are.
-/

namespace SequentSearch

namespace ExecError

@[simp] theorem ofTemplate_eq_ok {α : Type} {x : Except TemplateError α} {a : α} :
    ofTemplate x = .ok a ↔ x = .ok a := by
  cases x <;> simp [ofTemplate]

@[simp] theorem ofFault_eq_ok {α : Type} {x : Except Fault α} {a : α} :
    ofFault x = .ok a ↔ x = .ok a := by
  cases x <;> simp [ofFault]

end ExecError

theorem SeqFormula.ofTerm_eq_ok {t : Term} {f : SeqFormula} :
    SeqFormula.ofTerm t = .ok f ↔ f.term = t := by
  unfold SeqFormula.ofTerm
  split <;> rename_i h
  · constructor
    · intro heq
      rw [← Except.ok.inj heq]
    · rintro rfl
      rfl
  · constructor
    · intro heq
      cases heq
    · rintro rfl
      exact absurd f.isFormula h

theorem SequentPattern.mem_formulas_of_mem_side {s : SequentPattern} {side : Side} {t : Term}
    (h : t ∈ s.side side) : t ∈ s.formulas := by
  cases side with
  | antec => exact List.mem_append_left _ h
  | succ => exact List.mem_append_right _ h

namespace RuleApp

variable {rule : String} {σ : Instantiations} {seq : Sequent}

/-- A formula of a successor is an instance of its template, with all substitutions executed. -/
theorem instantiateFormula_eq_ok {t : Term} {f : SeqFormula} :
    instantiateFormula rule σ t = .ok f ↔
      ∃ r, t.instantiate rule σ = .ok r ∧ f.term = r.executeSubsts := by
  unfold instantiateFormula Term.instantiateAndExecute
  constructor
  · intro h
    obtain ⟨u, hu, hf⟩ := bind_eq_ok.mp h
    obtain ⟨r, hr, hur⟩ := bind_eq_ok.mp (ExecError.ofTemplate_eq_ok.mp hu)
    obtain rfl : r.executeSubsts = u := Except.ok.inj hur
    exact ⟨r, hr, SeqFormula.ofTerm_eq_ok.mp (ExecError.ofFault_eq_ok.mp hf)⟩
  · rintro ⟨r, hr, hf⟩
    refine bind_eq_ok.mpr ⟨r.executeSubsts, ?_, ?_⟩
    · exact ExecError.ofTemplate_eq_ok.mpr (bind_eq_ok.mpr ⟨r, hr, rfl⟩)
    · exact ExecError.ofFault_eq_ok.mpr (SeqFormula.ofTerm_eq_ok.mpr hf)

/-- Formulas that are the instances of templates, in order. -/
def Instances (rule : String) (σ : Instantiations) (ts : List Term) (fs : Semisequent) : Prop :=
  List.Forall₂ (fun t f => instantiateFormula rule σ t = .ok f) ts fs

/-! ## Templates -/

/-- The sequent without the formula at an index. -/
def without (seq : Sequent) (side : Side) (idx : Nat) : Sequent :=
  seq.withSide side ((seq.side side).eraseIdx idx)

/-- What a replacement keeps of the sequent, and the formulas that it brings. -/
inductive ReplacedBy (rule : String) (σ : Instantiations) (seq : Sequent) :
    Option (Occurrence × Nat) → Replacement → Sequent → List (Side × SeqFormula) → Prop where
  /-- the focus stays -/
  | keep {focus : Option (Occurrence × Nat)} : ReplacedBy rule σ seq focus .keep seq []
  /-- the subterm at the focus is replaced -/
  | term {o : Occurrence} {idx : Nat} {t new : Term} {f : SeqFormula}
      (hnew : t.instantiate rule σ = .ok new)
      (hf : o.formula.term.replaceAt o.pos new.executeSubsts = .ok f.term) :
      ReplacedBy rule σ seq (some (o, idx)) (.term t) (without seq o.side idx) [(o.side, f)]
  /-- the formula of the focus is replaced by formulas on both sides -/
  | sequent {o : Occurrence} {idx : Nat} {s : SequentPattern} {here there : Semisequent}
      (hhere : Instances rule σ (s.side o.side) here)
      (hthere : Instances rule σ (s.side o.side.other) there) :
      ReplacedBy rule σ seq (some (o, idx)) (.sequent s) (without seq o.side idx)
        (here.map (o.side, ·) ++ there.map (o.side.other, ·))

theorem replaceFocus_spec {o : Occurrence} {idx : Nat} {r : Replacement} {change : Change}
    (h : replaceFocus rule σ seq o idx r = .ok change) :
    ∃ kept new, ReplacedBy rule σ seq (some (o, idx)) r kept new ∧ change.Adds seq kept new := by
  cases r with
  | keep =>
    obtain rfl : Change.unchanged seq = change := Except.ok.inj h
    exact ⟨seq, [], .keep, Change.adds_unchanged seq⟩
  | term t =>
    obtain ⟨u, hu, h⟩ := bind_eq_ok.mp h
    obtain ⟨formula, hformula, h⟩ := bind_eq_ok.mp h
    obtain ⟨f, hf, h⟩ := bind_eq_ok.mp h
    obtain ⟨step, hstep, h⟩ := bind_eq_ok.mp h
    obtain rfl : (Change.unchanged seq).combine step = change := Except.ok.inj h
    obtain ⟨new, hnew, hu⟩ := bind_eq_ok.mp (ExecError.ofTemplate_eq_ok.mp hu)
    obtain rfl : new.executeSubsts = u := Except.ok.inj hu
    obtain rfl : f.term = formula := SeqFormula.ofTerm_eq_ok.mp (ExecError.ofFault_eq_ok.mp hf)
    refine ⟨_, _, .term hnew (ExecError.ofFault_eq_ok.mp hformula), ?_⟩
    exact Change.adds_replace (ExecError.ofFault_eq_ok.mp hstep)
  | sequent s =>
    obtain ⟨here, hhere, h⟩ := bind_eq_ok.mp h
    obtain ⟨step, hstep, h⟩ := bind_eq_ok.mp h
    obtain ⟨there, hthere, h⟩ := bind_eq_ok.mp h
    refine ⟨_, _, .sequent (mapM_eq_ok.mp hhere) (mapM_eq_ok.mp hthere), ?_⟩
    obtain rfl := Except.ok.inj h
    exact (Change.adds_replace (ExecError.ofFault_eq_ok.mp hstep)).insertAll o.side.other 0 there

theorem addFormulas_spec {side : Side} {ts : List Term} {change change' : Change} {kept : Sequent}
    {new : List (Side × SeqFormula)} (h : addFormulas rule σ side ts change = .ok change')
    (hchange : change.Adds seq kept new) :
    ∃ fs, Instances rule σ ts fs ∧ change'.Adds seq kept (new ++ fs.map (side, ·)) := by
  obtain ⟨fs, hfs, h⟩ := bind_eq_ok.mp h
  refine ⟨fs, mapM_eq_ok.mp hfs, ?_⟩
  obtain rfl := Except.ok.inj h
  split <;> rename_i hempty
  · obtain rfl : fs = [] := List.isEmpty_iff.mp hempty
    simpa using hchange
  · exact hchange.insertAll side 0 fs

/-- **A goal template keeps what its replacement keeps, and adds what the replacement brings and
what it adds itself.** -/
theorem applyTemplate_spec {focus : Option (Occurrence × Nat)} {g : GoalTemplate} {change : Change}
    (h : applyTemplate rule σ seq focus g = .ok change) :
    ∃ kept new antec succ, ReplacedBy rule σ seq focus g.replace kept new ∧
      Instances rule σ g.add.antec antec ∧ Instances rule σ g.add.succ succ ∧
      change.Adds seq kept (new ++ antec.map (.antec, ·) ++ succ.map (.succ, ·)) := by
  -- the replacement first, whichever it is, and then the formulas to add
  have hreplaced : ∃ kept new c, ReplacedBy rule σ seq focus g.replace kept new ∧
      c.Adds seq kept new ∧ (do
        let c' ← addFormulas rule σ .antec g.add.antec c
        addFormulas rule σ .succ g.add.succ c') = .ok change := by
    unfold applyTemplate at h
    simp only at h
    split at h
    · rename_i hkeep
      rw [hkeep]
      exact ⟨seq, [], _, .keep, Change.adds_unchanged seq, h⟩
    · cases h
    · obtain ⟨c, hc, h⟩ := bind_eq_ok.mp h
      obtain ⟨kept, new, hnew, hadds⟩ := replaceFocus_spec hc
      exact ⟨kept, new, c, hnew, hadds, h⟩
  obtain ⟨kept, new, c, hnew, hadds, h⟩ := hreplaced
  obtain ⟨c', hc', h⟩ := bind_eq_ok.mp h
  obtain ⟨antec, hantec, hadds⟩ := addFormulas_spec hc' hadds
  obtain ⟨succ, hsucc, hadds⟩ := addFormulas_spec h hadds
  exact ⟨kept, new, antec, succ, hnew, hantec, hsucc, hadds⟩

/-! ## The focus -/

/-- A focus that is located is in the sequent. -/
theorem locateFocus_spec {app : RuleApp} {focus : Option (Occurrence × Nat)}
    (h : app.locateFocus seq = .ok focus) :
    (app.focus = none ∧ focus = none) ∨
      ∃ o idx, app.focus = some o ∧ focus = some (o, idx) ∧
        (seq.side o.side)[idx]? = some o.formula := by
  unfold locateFocus at h
  split at h <;> rename_i hfocus
  · exact .inl ⟨hfocus, (Except.ok.inj h).symm⟩
  · split at h <;> rename_i hidx
    · refine .inr ⟨_, _, hfocus, (Except.ok.inj h).symm, ?_⟩
      obtain ⟨hlt, heq, -⟩ := List.idxOf?_eq_some_iff.mp hidx
      exact List.getElem?_eq_some_iff.mpr ⟨hlt, heq⟩
    · cases h

/-! ## Fresh constants -/

/-- **What drawing constants does**: the values that are there stay, every variable for a fresh
constant gets one, and a constant that was drawn has a name that was not in use and is from now
on. -/
structure Draws (svs : List SchemaVar) (σ τ : Instantiations) (ns ns' : NameSupply) : Prop where
  /-- values stay -/
  le : σ ≤ τ
  /-- names stay in use -/
  grows : ∀ n ∈ ns.used, n ∈ ns'.used
  /-- every variable for a constant has a value -/
  has : ∀ sv ∈ svs, sv.isSkolem → τ.has sv
  /-- new values are constants of new names, which are numbered -/
  fresh : ∀ sv v, τ.get? sv = some v → σ.get? sv = some v ∨
    ∃ name, v = .term (.const name sv.sort) ∧ sv.isSkolem ∧ name ∉ ns.used ∧ name ∈ ns'.used ∧
      ∃ n, name = NameGen.numbered (stem sv) n

theorem drawConstants_spec {svs : List SchemaVar} {σ τ : Instantiations} {ns ns' : NameSupply}
    (h : drawConstants svs σ ns = (τ, ns')) : Draws svs σ τ ns ns' := by
  induction svs generalizing σ ns with
  | nil =>
    obtain ⟨rfl, rfl⟩ : σ = τ ∧ ns = ns' := by simpa [drawConstants] using h
    exact ⟨Instantiations.le_refl _, fun _ hn => hn, fun _ hsv =>
      (nomatch hsv), fun _ _ h => .inl h⟩
  | cons sv svs ih =>
    rw [drawConstants] at h
    split at h <;> rename_i hsv
    · obtain ⟨hskolem, hopen⟩ := Bool.and_eq_true_iff.mp hsv
      -- the variable has no value yet, so it takes the constant of the fresh name
      have hnone : σ.get? sv = none := by simpa [Instantiations.has] using hopen
      have hadd : σ.add sv (.term (.const (ns.fresh (stem sv)).1 sv.sort)) =
          some ⟨(sv, .term (.const (ns.fresh (stem sv)).1 sv.sort)) :: σ.bindings, σ.context⟩ := by
        rw [Instantiations.add, hnone]
      obtain ⟨hle, hgrows, hhas, hfresh⟩ : Draws svs
          ⟨(sv, .term (.const (ns.fresh (stem sv)).1 sv.sort)) :: σ.bindings, σ.context⟩ τ
          (ns.fresh (stem sv)).2 ns' := by
        refine ih (Eq.trans ?_ h)
        show _ = drawConstants svs
          ((σ.add sv (.term (.const (ns.fresh (stem sv)).1 sv.sort))).getD σ) (ns.fresh (stem sv)).2
        rw [hadd, Option.getD_some]
      refine ⟨Instantiations.le_trans (Instantiations.le_of_add hadd) hle, ?_, ?_, ?_⟩
      · intro n hn
        exact hgrows n (NameSupply.mem_fresh.mpr (.inr hn))
      · rintro sv' hsv' hskolem'
        rcases List.mem_cons.mp hsv' with rfl | hsv'
        · rw [Instantiations.has, Instantiations.get?_of_le hle
            (by rw [Instantiations.get?_cons, if_pos rfl])]
          rfl
        · exact hhas sv' hsv' hskolem'
      · intro sv' v hv
        rcases hfresh sv' v hv with hold | ⟨name, hname, hskolem', hunused, hused, hnumbered⟩
        · rw [Instantiations.get?_cons] at hold
          split at hold <;> rename_i heq
          · cases hold
            subst heq
            exact .inr ⟨_, rfl, hskolem, ns.fresh_not_mem _,
              hgrows _ (NameSupply.mem_fresh.mpr (.inl rfl)), _, rfl⟩
          · exact .inl hold
        · exact .inr ⟨name, hname, hskolem',
            fun hn => hunused (NameSupply.mem_fresh.mpr (.inr hn)), hused, hnumbered⟩
    · obtain ⟨hle, hgrows, hhas, hfresh⟩ := ih h
      refine ⟨hle, hgrows, fun sv' hsv' hskolem => ?_, hfresh⟩
      rcases List.mem_cons.mp hsv' with rfl | hsv'
      · -- passed over, so it has a value
        have hsome : σ.has sv' := by simpa [hskolem] using hsv
        obtain ⟨v, hv⟩ := Option.isSome_iff_exists.mp hsome
        exact Option.isSome_iff_exists.mpr ⟨v, Instantiations.get?_of_le hle hv⟩
      · exact hhas sv' hsv' hskolem

/-! ## Execution -/

/-- **A successful execution**: the application is complete, its focus is in the sequent, and each
goal template makes its change under the values of the application and fresh constants. -/
theorem execute_spec {app : RuleApp} {ns ns' : NameSupply} {succs : List Successor}
    (h : app.execute seq ns = (.ok succs, ns')) :
    app.isComplete ∧ ∃ focus σ, app.locateFocus seq = .ok focus ∧
      drawConstants app.rule.schemaVars app.insts ns = (σ, ns') ∧
      List.Forall₂ (fun g s => applyTemplate app.rule.name σ seq focus g = .ok s.change)
        app.rule.templates succs := by
  unfold execute at h
  split at h <;> rename_i hcomplete
  · refine ⟨hcomplete, ?_⟩
    split at h <;> rename_i hfocus
    · simp at h
    · obtain ⟨hsuccs, hns⟩ := Prod.mk.injEq .. ▸ h
      refine ⟨_, _, hfocus, Prod.ext rfl hns, ?_⟩
      refine (mapM_eq_ok.mp hsuccs).imp fun g s hs => ?_
      obtain ⟨change, hchange, hs⟩ := bind_eq_ok.mp hs
      obtain rfl := Except.ok.inj hs
      exact hchange
  · simp at h

end RuleApp

end SequentSearch
