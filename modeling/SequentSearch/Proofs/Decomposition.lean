import SequentSearch.Proofs.ExecutionSoundness
import SequentSearch.Proofs.PropositionalLogic

/-!
# Propositional steps take formulas apart

The automatic rules for propositional logic all work alike: what they put in the place of the focus
are arguments of the pattern of the focus, each at most once (`RuleDraft.isElementary`). From this
it follows that, on a sequent of propositional logic,

* the execution of a matched application does not fail (`RuleApp.Matched.executes`), and
* each successor has formulas of propositional logic in the place of the focus that weigh less than
  it together, and whoever refutes them refutes the focus (`CalculusStep.reduces`).

The first fact keeps a search going, the second makes it end.
-/

namespace SequentSearch

/-! ## Elementary rules -/

/-- Whether a goal template puts some of the given terms in the place of the focus, each at most
once, and does nothing else. -/
def GoalTemplate.takesApart (ts : List Term) (g : GoalTemplate) : Bool :=
  g.add.isEmpty &&
    match g.replace with
    | .keep => false
    | .term t => ts.contains t
    | .sequent s => decide s.formulas.Nodup && s.formulas.all ts.contains

/-- The two ways to take a focus apart. -/
theorem GoalTemplate.takesApart_cases {ts : List Term} {g : GoalTemplate} (h : g.takesApart ts) :
    g.add = {} ∧ ((∃ t ∈ ts, g.replace = .term t) ∨
      ∃ s, g.replace = .sequent s ∧ s.formulas.Nodup ∧ ∀ t ∈ s.formulas, t ∈ ts) := by
  obtain ⟨hadd, hreplace⟩ := Bool.and_eq_true_iff.mp h
  constructor
  · obtain ⟨label, replace, antec, succ⟩ := g
    obtain ⟨rfl, rfl⟩ : antec = [] ∧ succ = [] := by simpa [SequentPattern.isEmpty] using hadd
    rfl
  · split at hreplace <;> rename_i heq
    · cases hreplace
    · exact .inl ⟨_, by simpa using hreplace, heq⟩
    · exact .inr ⟨_, heq, by simpa using hreplace⟩

/-- The connective at the top of a pattern of connectives over schema variables. -/
def Term.connective? (p : Term) : Option Connective :=
  match p.op with
  | .connective c => if p.Propositional isFormulaVar then some c else none
  | _ => none

/-- Whether all goals of a rule take its focus apart. The rule for equations is let through, since
there are no equations in formulas of propositional logic. -/
def RuleDraft.isElementary (d : RuleDraft) : Bool :=
  d.conditions.isEmpty && decide (d.templates.length ≤ 2) && d.find.pattern?.any fun p =>
    p.op = .equals || d.templates.all fun g =>
      p.connective?.isSome && g.takesApart (p.args.map Prod.snd)

/-- **The automatic rules for propositional logic are elementary.** -/
theorem Calculus.propositionalDrafts_elementary :
    ∀ d ∈ propositionalDrafts, d.automatic → d.isElementary := by
  decide +kernel

namespace Term

variable {rule : String} {σ : Instantiations} {p r t : Term}

/-- What a pattern with a connective at the top looks like. -/
theorem eq_of_connective? {c : Connective} (h : p.connective? = some c) :
    ∃ labels, p = node (.connective c) ((p.args.map Prod.snd).map fun t => ([], t)) labels := by
  unfold connective? at h
  split at h
  · split at h <;> rename_i hop hprop
    · cases h
      revert hop
      refine hprop.induction (fun op labels _ hnot hop => ?_) fun c' ts labels _ _ hop => ?_
      · exact absurd hop (hnot c)
      · cases hop
        refine ⟨labels, ?_⟩
        rw [args_node, List.map_map]
        simp
    · cases h
  · cases h

/-- The weight of the instance of a template. -/
def instanceWeight (rule : String) (σ : Instantiations) (t : Term) : Nat :=
  match t.instantiate rule σ with
  | .ok u => u.weight
  | .error _ => 0

theorem instanceWeight_of_ok (h : t.instantiate rule σ = .ok r) :
    instanceWeight rule σ t = r.weight := by
  rw [instanceWeight, h]

/-- **The parts of an instance are instances of the parts**, and weigh less together. -/
theorem instance_parts {c : Connective} {ts : List Term} {labels : List Label}
    (h : (node (.connective c) (ts.map fun t => ([], t)) labels).instantiate rule σ = .ok r)
    (hr : r.IsPropositional) :
    (∀ t ∈ ts, ∃ u, t.instantiate rule σ = .ok u ∧ u.IsPropositional) ∧
      (ts.map (instanceWeight rule σ)).sum < r.weight := by
  obtain ⟨rs, ls, hrs, rfl⟩ := instantiate_connective h
  obtain ⟨-, hargs⟩ := isPropositional_node.mp hr
  constructor
  · intro t ht
    obtain ⟨u, hu, hinst⟩ := exists_right_of_forall₂ hrs ht
    exact ⟨u, hinst, hargs _ (List.mem_map_of_mem hu)⟩
  · have hsum : ts.map (instanceWeight rule σ) = rs.map weight := by
      rw [← List.forall₂_eq_eq_eq, List.forall₂_map_left_iff, List.forall₂_map_right_iff]
      exact hrs.imp fun t u hu => instanceWeight_of_ok hu
    rw [weight_node fun _ => Operator.noConfusion, hsum, List.map_map]
    exact Nat.lt_succ_self _

/-- Different parts weigh no more than all of them. -/
theorem sum_instanceWeight_le {ts ts' : List Term} (hnodup : ts'.Nodup) (hsub : ts' ⊆ ts) :
    (ts'.map (instanceWeight rule σ)).sum ≤ (ts.map (instanceWeight rule σ)).sum := by
  obtain ⟨l, hperm, hl⟩ := hnodup.subperm hsub
  calc (ts'.map (instanceWeight rule σ)).sum = (l.map (instanceWeight rule σ)).sum :=
        ((hperm.map _).sum_nat).symm
    _ ≤ (ts.map (instanceWeight rule σ)).sum := (hl.map _).sum_le_sum fun _ _ => Nat.zero_le _

end Term

namespace RuleApp

variable {rule : String} {σ : Instantiations} {seq : Sequent} {o : Occurrence} {idx : Nat}
  {p r sub : Term} {g : GoalTemplate} {change : Change}

/-- **A focus in a formula of propositional logic**, where an instance of a pattern was found. -/
structure Focused (rule : String) (σ : Instantiations) (seq : Sequent) (o : Occurrence) (idx : Nat)
    (p r sub : Term) : Prop where
  /-- the formula is in the sequent -/
  formula : (seq.side o.side)[idx]? = some o.formula
  /-- it is a formula of propositional logic -/
  propositional : o.formula.term.IsPropositional
  /-- the subterm at the focus -/
  subterm : o.formula.term.subtermAt o.pos = .ok sub
  /-- the instance of the pattern -/
  instantiated : p.instantiate rule σ = .ok r
  /-- which is the subterm up to renaming -/
  alpha : r.alphaEq sub

theorem Focused.sub_propositional (h : Focused rule σ seq o idx p r sub) : sub.IsPropositional :=
  h.propositional.of_mem_subterms (Term.mem_subterms_of_subtermAt h.subterm)

/-- The arguments of the pattern have instances, formulas of propositional logic that weigh less
than the subterm together. -/
theorem Focused.parts (h : Focused rule σ seq o idx p r sub) {c : Connective}
    (hp : p.connective? = some c) :
    (∀ t ∈ p.args.map Prod.snd, ∃ u, t.instantiate rule σ = .ok u ∧ u.IsPropositional) ∧
      ((p.args.map Prod.snd).map (Term.instanceWeight rule σ)).sum < sub.weight := by
  obtain ⟨labels, heq⟩ := Term.eq_of_connective? hp
  have hr := h.instantiated
  rw [heq] at hr
  rw [← Term.weight_eq_of_alphaEqUnder h.alpha]
  exact Term.instance_parts hr (h.sub_propositional.of_alphaEqUnder h.alpha)

/-- The formula for a template that has an instance of propositional logic. -/
theorem instantiateFormula_of_propositional {t u : Term} (ht : t.instantiate rule σ = .ok u)
    (hu : u.IsPropositional) : instantiateFormula rule σ t = .ok ⟨u, hu.isFormula⟩ :=
  instantiateFormula_eq_ok.mpr ⟨u, ht, hu.executeSubsts_eq.symm⟩

/-- A list is mapped without failure if each entry is. -/
theorem exists_mapM_eq_ok {α β ε : Type} {f : α → Except ε β} {l : List α}
    (h : ∀ a ∈ l, ∃ b, f a = .ok b) : ∃ bs, l.mapM f = .ok bs := by
  induction l with
  | nil => exact ⟨[], rfl⟩
  | cons a l ih =>
    obtain ⟨⟨b, hb⟩, hl⟩ := List.forall_mem_cons.mp h
    obtain ⟨bs, hbs⟩ := ih hl
    exact ⟨b :: bs, mapM_eq_ok.mpr (.cons hb (mapM_eq_ok.mp hbs))⟩

/-- A formula that is there can be replaced. -/
theorem exists_replace {side : Side} {old : SeqFormula} (h : (seq.side side)[idx]? = some old)
    (new : Semisequent) : ∃ step, seq.replace side idx new = .ok step := by
  have hside : ∃ c, Semisequent.replace side idx new (seq.side side) = .ok c := by
    unfold Semisequent.replace
    rw [h]
    simp only
    split
    · split
      · exact ⟨_, rfl⟩
      · exact ⟨_, rfl⟩
    · exact ⟨_, rfl⟩
  obtain ⟨c, hc⟩ := hside
  exact ⟨_, bind_eq_ok.mpr ⟨c, hc, rfl⟩⟩

/-- A template that adds nothing does what its replacement does. -/
theorem applyTemplate_of_replace (hadd : g.add = {}) (hkeep : g.replace ≠ .keep) :
    applyTemplate rule σ seq (some (o, idx)) g = replaceFocus rule σ seq o idx g.replace := by
  have hrest : ∀ x : Except ExecError Change, (do
      let c ← x
      let c ← addFormulas rule σ .antec [] c
      addFormulas rule σ .succ [] c) = x := by
    intro x
    cases x <;> rfl
  unfold applyTemplate
  rw [hadd]
  cases hreplace : g.replace with
  | keep => exact absurd hreplace hkeep
  | term t => exact hrest _
  | sequent s => exact hrest _

/-- **A template that takes the focus apart can be applied.** -/
theorem Focused.applyTemplate_exists (h : Focused rule σ seq o idx p r sub) {c : Connective}
    (hp : p.connective? = some c) (hg : g.takesApart (p.args.map Prod.snd)) :
    ∃ change, applyTemplate rule σ seq (some (o, idx)) g = .ok change := by
  obtain ⟨hparts, -⟩ := h.parts hp
  obtain ⟨hadd, ⟨t, ht, hreplace⟩ | ⟨s, hreplace, -, hs⟩⟩ := GoalTemplate.takesApart_cases hg
  · rw [applyTemplate_of_replace hadd (by simp [hreplace]), hreplace]
    obtain ⟨u, hu, hprop⟩ := hparts t ht
    obtain ⟨t', ht'⟩ := Term.exists_replaceAt h.subterm u
    obtain ⟨hprop', -⟩ := h.propositional.replaceAt h.subterm ht' hprop
    obtain ⟨step, hstep⟩ := exists_replace h.formula [⟨t', hprop'.isFormula⟩]
    refine ⟨(Change.unchanged seq).combine step, bind_eq_ok.mpr ⟨u, ?_, ?_⟩⟩
    · refine ExecError.ofTemplate_eq_ok.mpr (bind_eq_ok.mpr ⟨u, hu, ?_⟩)
      rw [hprop.executeSubsts_eq]
      rfl
    · refine bind_eq_ok.mpr ⟨t', ExecError.ofFault_eq_ok.mpr ht', ?_⟩
      refine bind_eq_ok.mpr ⟨⟨t', hprop'.isFormula⟩, ?_, ?_⟩
      · exact ExecError.ofFault_eq_ok.mpr (SeqFormula.ofTerm_eq_ok.mpr rfl)
      · exact bind_eq_ok.mpr ⟨step, ExecError.ofFault_eq_ok.mpr hstep, rfl⟩
  · rw [applyTemplate_of_replace hadd (by simp [hreplace]), hreplace]
    have hside : ∀ side, ∃ fs, (s.side side).mapM (instantiateFormula rule σ) = .ok fs := by
      intro side
      refine exists_mapM_eq_ok fun t ht => ?_
      have hmem : t ∈ s.formulas := by
        cases side with
        | antec => exact List.mem_append_left _ ht
        | succ => exact List.mem_append_right _ ht
      obtain ⟨u, hu, hprop⟩ := hparts t (hs t hmem)
      exact ⟨_, instantiateFormula_of_propositional hu hprop⟩
    obtain ⟨here, hhere⟩ := hside o.side
    obtain ⟨there, hthere⟩ := hside o.side.other
    obtain ⟨step, hstep⟩ := exists_replace h.formula here
    let change := (Change.unchanged seq).combine step
    refine ⟨change.combine (change.sequent.insertAll o.side.other 0 there), ?_⟩
    refine bind_eq_ok.mpr ⟨here, hhere, ?_⟩
    refine bind_eq_ok.mpr ⟨step, ExecError.ofFault_eq_ok.mpr hstep, ?_⟩
    exact bind_eq_ok.mpr ⟨there, hthere, rfl⟩

/-- Instances of propositional logic of templates, and what they weigh. -/
theorem Instances.propositional {ts : List Term} {fs : Semisequent} (h : Instances rule σ ts fs)
    (hts : ∀ t ∈ ts, ∃ u, t.instantiate rule σ = .ok u ∧ u.IsPropositional) :
    (∀ f ∈ fs, f.term.IsPropositional) ∧
      (fs.map fun f => f.term.weight).sum = (ts.map (Term.instanceWeight rule σ)).sum := by
  have hterm : ∀ {t f}, t ∈ ts → instantiateFormula rule σ t = .ok f →
      f.term.IsPropositional ∧ Term.instanceWeight rule σ t = f.term.weight := by
    intro t f ht hf
    obtain ⟨u, hu, hprop⟩ := hts t ht
    obtain rfl := Except.ok.inj ((instantiateFormula_of_propositional hu hprop).symm.trans hf)
    exact ⟨hprop, Term.instanceWeight_of_ok hu⟩
  constructor
  · intro f hf
    obtain ⟨t, ht, hinst⟩ := exists_left_of_forall₂ h hf
    exact (hterm ht hinst).1
  · have heq : ts.map (Term.instanceWeight rule σ) = fs.map fun f => f.term.weight := by
      rw [← List.forall₂_eq_eq_eq, List.forall₂_map_left_iff, List.forall₂_map_right_iff]
      refine ((List.forall₂_and_left _ _).mpr ⟨fun t ht => ht, h⟩).imp fun t f htf => ?_
      exact (hterm htf.1 htf.2).2
    rw [heq]

/-- **What a template that takes the focus apart puts in its place**: formulas of propositional
logic that weigh less than the formula of the focus together. -/
theorem Focused.applyTemplate_lighter (h : Focused rule σ seq o idx p r sub) {c : Connective}
    (hp : p.connective? = some c) (hg : g.takesApart (p.args.map Prod.snd))
    (hchange : applyTemplate rule σ seq (some (o, idx)) g = .ok change) :
    ∃ new, change.Adds seq (without seq o.side idx) new ∧ (∀ e ∈ new, e.2.term.IsPropositional) ∧
      (new.map fun e => e.2.term.weight).sum < o.formula.term.weight ∧
      ReplacedBy rule σ seq (some (o, idx)) g.replace (without seq o.side idx) new := by
  obtain ⟨hparts, hlt⟩ := h.parts hp
  obtain ⟨hadd, hcases⟩ := GoalTemplate.takesApart_cases hg
  obtain ⟨kept, new, antec, succ, hreplaced, hantec, hsucc, hadds⟩ := applyTemplate_spec hchange
  rw [hadd] at hantec hsucc
  cases hantec
  cases hsucc
  simp only [List.map_nil, List.append_nil] at hadds
  rcases hcases with ⟨t, ht, hreplace⟩ | ⟨s, hreplace, hnodup, hs⟩
  · rw [hreplace] at hreplaced ⊢
    cases hreplaced with
    | @term _ _ _ v f hnew hf =>
      obtain ⟨u, hu, hprop⟩ := hparts t ht
      obtain rfl : u = v := Except.ok.inj (hu.symm.trans hnew)
      have hreplaceAt := hf
      rw [hprop.executeSubsts_eq] at hreplaceAt
      obtain ⟨hprop', hweight⟩ := h.propositional.replaceAt h.subterm hreplaceAt hprop
      refine ⟨_, hadds, List.forall_mem_singleton.mpr hprop', ?_, .term hnew hf⟩
      have hle : u.weight ≤ ((p.args.map Prod.snd).map (Term.instanceWeight rule σ)).sum := by
        rw [← Term.instanceWeight_of_ok hu]
        exact List.le_sum_of_mem (List.mem_map_of_mem ht)
      simp only [List.map_cons, List.map_nil, List.sum_cons, List.sum_nil]
      omega
  · rw [hreplace] at hreplaced ⊢
    cases hreplaced with
    | @sequent _ _ _ here there hhere hthere =>
      have hperm : (s.side o.side ++ s.side o.side.other).Perm s.formulas := by
        cases o.side with
        | antec => exact .refl _
        | succ => exact List.perm_append_comm
      have hall : ∀ side, ∀ t ∈ s.side side,
          ∃ u, t.instantiate rule σ = .ok u ∧ u.IsPropositional := by
        intro side t ht
        refine hparts t (hs t ?_)
        cases side with
        | antec => exact List.mem_append_left _ ht
        | succ => exact List.mem_append_right _ ht
      obtain ⟨hprop, hsum⟩ := Instances.propositional hhere (hall _)
      obtain ⟨hprop', hsum'⟩ := Instances.propositional hthere (hall _)
      refine ⟨_, hadds, ?_, ?_, .sequent hhere hthere⟩
      · refine List.forall_mem_append.mpr ⟨?_, ?_⟩
        · simpa using hprop
        · simpa using hprop'
      · have hle := h.propositional.weight_le (Term.mem_subterms_of_subtermAt h.subterm)
        calc _ = (here.map fun f => f.term.weight).sum + (there.map fun f =>
          f.term.weight).sum := by
              rw [List.map_append, List.sum_append]
              congr 1
              · exact Change.sum_map_side (w := fun f => f.term.weight)
              · exact Change.sum_map_side (w := fun f => f.term.weight)
          _ = (s.formulas.map (Term.instanceWeight rule σ)).sum := by
              rw [hsum, hsum', ← List.sum_append, ← List.map_append]
              exact (hperm.map _).sum_nat
          _ ≤ ((p.args.map Prod.snd).map (Term.instanceWeight rule σ)).sum :=
              Term.sum_instanceWeight_le hnodup hs
          _ < sub.weight := hlt
          _ ≤ o.formula.term.weight := hle

end RuleApp

/-! ## Steps -/

open RuleApp

/-- **A step that takes its focus apart.** -/
structure Reduces (seq : Sequent) (o : Occurrence) (idx : Nat) (new : List (Side × SeqFormula))
    (change : Change) : Prop where
  /-- the new formulas come in the place of the focus -/
  adds : change.Adds seq (without seq o.side idx) new
  /-- they are formulas of propositional logic -/
  propositional : ∀ e ∈ new, e.2.term.IsPropositional
  /-- they weigh less than the formula of the focus together -/
  lighter : (new.map fun e => e.2.term.weight).sum < o.formula.term.weight
  /-- whoever refutes them refutes the formula of the focus -/
  refutes : ∀ {D : Type} [Nonempty D] {M : Interpretation D} {β : Env D}, β.IsObjects →
    (∀ e ∈ new, M.Refutes β e.1 e.2.term) → M.Refutes β o.side o.formula.term

section

variable {base : RuleBase} {app : RuleApp} {seq : Sequent} {ns ns' : NameSupply}
  {succs : List Successor} {o : Occurrence} {idx : Nat} {σ : Instantiations}

/-- **The focus of an application of a propositional rule**: the pattern has an instance there, and
every goal takes it apart. -/
theorem RuleApp.Matched.focused (h : app.Matched base ns.AdmitsValue)
    (hd : app.rule.toRuleDraft ∈ Calculus.propositionalDrafts) (hauto : app.rule.automatic)
    (hseq : seq.All fun _ f => f.term.IsPropositional) (hle : app.insts ≤ σ)
    (ho : app.focus = some o) (hidx : (seq.side o.side)[idx]? = some o.formula) :
    ∃ p r sub, app.rule.find.pattern? = some p ∧ Focused app.rule.name σ seq o idx p r sub ∧
      app.rule.templates.length ≤ 2 ∧ ∀ g ∈ app.rule.templates,
        (∃ c, p.connective? = some c) ∧ g.takesApart (p.args.map Prod.snd) := by
  have hprop := hseq o.side o.formula (List.mem_of_getElem? hidx)
  have hd' : app.rule.toRuleDraft ∈ Calculus.firstOrderDrafts := List.mem_append_left _ hd
  obtain ⟨p, sub, r, hp, -, hsub, hr, halpha⟩ :=
    h.focus_instance app.rule.name hd' hle ho hprop.firstOrder
  have hfocused : Focused app.rule.name σ seq o idx p r sub := ⟨hidx, hprop, hsub, hr, halpha⟩
  have helementary := Calculus.propositionalDrafts_elementary _ hd hauto
  unfold RuleDraft.isElementary at helementary
  rw [hp] at helementary
  simp only [Option.any_some, Bool.and_eq_true, Bool.or_eq_true, decide_eq_true_eq,
    List.all_eq_true, Option.isSome_iff_exists] at helementary
  obtain ⟨⟨-, hlen⟩, hequals | htemplates⟩ := helementary
  · -- there is no equation in a formula of propositional logic
    obtain ⟨op, args, labels⟩ := p
    obtain rfl : op = .equals := hequals
    obtain ⟨ls, op', args', -, hop, -, rfl⟩ :=
      (Term.instantiate_node_eq_ok fun _ => Operator.noConfusion).mp hr
    obtain rfl : .equals = op' := Except.ok.inj hop
    have hsubop : .equals = sub.op := Term.op_eq_of_alphaEq halpha
    rcases hfocused.sub_propositional.op_cases with ⟨f, hf, -⟩ | ⟨c, ts, hc, -⟩
    · rw [← hsubop] at hf
      cases hf
    · rw [← hsubop] at hc
      cases hc
  · exact ⟨p, r, sub, hp, hfocused, hlen, htemplates⟩

/-- **Executing a complete application of a propositional rule does not fail**, as long as its focus
is in the sequent. -/
theorem RuleApp.Matched.executes (h : app.Matched base ns.AdmitsValue)
    (hd : app.rule.toRuleDraft ∈ Calculus.propositionalDrafts) (hauto : app.rule.automatic)
    (hseq : seq.All fun _ f => f.term.IsPropositional) (hcomplete : app.isComplete)
    (ho : app.focus = some o) (hmem : o.formula ∈ seq.side o.side) :
    ∃ succs ns', app.execute seq ns = (.ok succs, ns') := by
  obtain ⟨idx, hlocate⟩ : ∃ idx, Semisequent.indexOf? (seq.side o.side) o.formula = some idx := by
    refine Option.isSome_iff_exists.mp ?_
    rw [Semisequent.indexOf?, List.isSome_idxOf?]
    exact hmem
  obtain ⟨hlt, hget, -⟩ := List.idxOf?_eq_some_iff.mp hlocate
  have hidx : (seq.side o.side)[idx]? = some o.formula := List.getElem?_eq_some_iff.mpr ⟨hlt, hget⟩
  rcases hdraw : drawConstants app.rule.schemaVars app.insts ns with ⟨σ, ns'⟩
  obtain ⟨p, r, sub, -, hfocused, -, htemplates⟩ :=
    h.focused hd hauto hseq (drawConstants_spec hdraw).le ho hidx
  obtain ⟨succs, hsuccs⟩ : ∃ succs, app.successors σ seq (some (o, idx)) = .ok succs := by
    refine exists_mapM_eq_ok fun g hg => ?_
    obtain ⟨⟨c, hc⟩, htakes⟩ := htemplates g hg
    obtain ⟨change, hchange⟩ := hfocused.applyTemplate_exists hc htakes
    exact ⟨⟨g.label, change⟩, bind_eq_ok.mpr ⟨change, hchange, rfl⟩⟩
  refine ⟨succs, ns', ?_⟩
  unfold execute locateFocus
  simp only [hcomplete, ho, hlocate, hdraw, hsuccs, if_true]

/-- **Every step with a propositional rule takes its focus apart**, and leaves at most two goals. -/
theorem CalculusStep.reduces (h : CalculusStep base app seq ns succs ns')
    (hd : app.rule.toRuleDraft ∈ Calculus.propositionalDrafts)
    (hseq : seq.All fun _ f => f.term.IsPropositional) :
    ∃ o idx, app.focus = some o ∧ (seq.side o.side)[idx]? = some o.formula ∧ succs.length ≤ 2 ∧
      ∀ s ∈ succs, ∃ new, Reduces seq o idx new s.change := by
  have hfind : app.rule.find.pattern?.isSome := by
    have helementary := Calculus.propositionalDrafts_elementary _ hd h.automatic
    unfold RuleDraft.isElementary at helementary
    cases hp : app.rule.find.pattern? with
    | none => simp [hp] at helementary
    | some p => rfl
  obtain ⟨o, idx, σ, hparts⟩ := h.parts hfind
  have hσ := hparts.draws.drawn h.matched.values
  obtain ⟨p, r, sub, hp, hfocused, hlen, htemplates⟩ :=
    h.matched.focused hd h.automatic hseq hparts.draws.le hparts.focus hparts.formula
  refine ⟨o, idx, hparts.focus, hparts.formula, hparts.changes.length_eq ▸ hlen, fun s hs => ?_⟩
  obtain ⟨g, hg, hchange⟩ := exists_left_of_forall₂ hparts.changes hs
  obtain ⟨⟨c, hc⟩, htakes⟩ := htemplates g hg
  obtain ⟨new, hadds, hprop, hlighter, hreplaced⟩ :=
    hfocused.applyTemplate_lighter hc htakes hchange
  refine ⟨new, hadds, hprop, hlighter, fun {D} _ {M β} hβ hnew => ?_⟩
  obtain ⟨hadd, -⟩ := GoalTemplate.takesApart_cases htakes
  rcases Calculus.sound_or_rewrites.{0} h.draft h.automatic with
    hsound | ⟨p', t, hsubterm, hone, hequates⟩
  · have hkeep : g.replace ≠ .keep := by
      intro hkeep
      rw [GoalTemplate.takesApart, hkeep] at htakes
      simp at htakes
    refine h.refutes_focus hsound hβ hparts hg hkeep fun e he => ?_
    have hterm := hsound.replaces g hg
    unfold GoalTemplate.formulas at he
    rw [hadd] at he
    generalize g.replace = replace at hreplaced hterm hkeep he
    generalize without seq o.side idx = kept at hreplaced
    cases hreplaced with
    | keep => exact absurd rfl hkeep
    | term => cases hterm
    | @sequent _ _ s here there hhere hthere =>
      -- the formulas on the side of the focus took its place, the others were added
      obtain ⟨side, t⟩ := e
      have ht : t ∈ s.side side := mem_sided.mp (by simpa [SequentPattern.sided] using he)
      by_cases hside : side = o.side
      · subst hside
        obtain ⟨f, hf, hinst⟩ := exists_right_of_forall₂ hhere ht
        exact ⟨f, hinst, hnew _ (List.mem_append_left _ (List.mem_map_of_mem hf))⟩
      · obtain rfl : side = o.side.other := by
          cases side <;> cases ho : o.side <;> simp_all [Side.other]
        obtain ⟨f, hf, hinst⟩ := exists_right_of_forall₂ hthere ht
        exact ⟨f, hinst, hnew _ (List.mem_append_right _ (List.mem_map_of_mem hf))⟩
  · rw [hsubterm] at hp
    cases hp
    rw [hone, List.mem_singleton] at hg
    subst hg
    cases hreplaced with
    | @term _ _ _ u f hu hf =>
      obtain ⟨-, hfo, -, heval⟩ := hequates hσ hfocused.instantiated hu
      refine (Interpretation.refutes_of_eval_eq ?_).mp
        (hnew (o.side, f) (List.mem_singleton.mpr rfl))
      refine (Term.eval_replaceAt hfocused.subterm hf (fun γ => ?_) β).symm
      rw [Term.eval_executeSubsts hfo.replacementsOpen, heval,
        Term.eval_eq_of_alphaEq hfocused.alpha]

end

end SequentSearch
