import Mathlib
import SequentSearch.Calculus.Execution
import SequentSearch.Proofs.Completions
import SequentSearch.Proofs.Congruence
import SequentSearch.Proofs.Execution
import SequentSearch.Proofs.SchemaFreeInstances

/-!
# Search invents no variables

All formulas that automatic search derives from a root are free of schema variables, and their free
logic variables are free in the root (`Proof.Run.invents_no_variables`).

A rule could do otherwise. Its template may show a variable of its own. It may take a schema
variable out of the scope of a binder: from `\forall #x; #phi` the template `#phi` would set free
what `#x` stands for. It may add a formula that was found below a binder. `RuleDraft.Confines` is a
test that excludes all this, and the rules of the calculus pass it. The only values of an
application that matching did not find in its focus are ground terms of the sequent and fresh
constants (`Instantiations.GroundExtends`), so in the end every free variable of an instance is free
in the focus (`Term.freeVars_instantiate_subset`).
-/

namespace SequentSearch

/-! ## Templates that show no more than a pattern -/

/-- Whether the variable stands for program elements. -/
def SchemaVar.isProgram (sv : SchemaVar) : Bool :=
  match sv.kind with
  | .program _ => true
  | _ => false

namespace Term

mutual

/-- The subterms with the binders that they are below, in pre-order. -/
def occurrences : Term → List (List Binder × Term)
  | node op args labels => ([], node op args labels) :: occurrencesArgs args

/-- The subterms of arguments with the binders that they are below. -/
def occurrencesArgs : List (List Binder × Term) → List (List Binder × Term)
  | [] => []
  | (bound, t) :: rest => (occurrences t).map (fun o => (bound ++ o.1, o.2)) ++ occurrencesArgs rest

end

theorem mem_occurrencesArgs {args : List (List Binder × Term)} {bs : List Binder} {w : Term} :
    (bs, w) ∈ occurrencesArgs args ↔
      ∃ a ∈ args, ∃ cs, bs = a.1 ++ cs ∧ (cs, w) ∈ a.2.occurrences := by
  induction args with
  | nil => simp [occurrencesArgs]
  | cons a args ih =>
    obtain ⟨bound, t⟩ := a
    rw [occurrencesArgs, List.mem_append, ih, List.exists_mem_cons_iff]
    refine or_congr_left ?_
    simp only [List.mem_map, Prod.exists, Prod.mk.injEq]
    constructor
    · rintro ⟨cs, u, hu, rfl, rfl⟩
      exact ⟨cs, rfl, hu⟩
    · rintro ⟨cs, rfl, hw⟩
      exact ⟨cs, w, hw, rfl, rfl⟩

theorem mem_occurrences {t w : Term} {bs : List Binder} :
    (bs, w) ∈ t.occurrences ↔ t.Occurs bs w := by
  induction t generalizing bs with
  | node op args labels ih =>
    rw [occurrences, List.mem_cons, Prod.mk.injEq, mem_occurrencesArgs, occurs_node]
    refine or_congr_right (exists_congr fun a => and_congr_right fun ha =>
      exists_congr fun cs => ?_)
    rw [ih a ha]

/-- **A template that shows no more than the pattern**: it shows no logic variables, and below no
fewer binders than the pattern those of its schema variables that the pattern binds to terms. -/
def ConfinedBy (pattern? : Option Term) (t : Term) : Prop :=
  ∀ o ∈ t.occurrences, o.2.logicVar? = none ∧ ∀ sv ∈ o.2.op.schemaVars, sv.isProgram ∨
    ∀ p ∈ pattern?, sv ∈ p.schemaVars →
      ∃ o' ∈ p.occurrences, o'.2.op = .schema sv ∧ ∀ b ∈ o'.1, b ∈ o.1

instance (pattern? : Option Term) (t : Term) : Decidable (t.ConfinedBy pattern?) :=
  inferInstanceAs (Decidable (∀ o ∈ t.occurrences, o.2.logicVar? = none ∧
    ∀ sv ∈ o.2.op.schemaVars, sv.isProgram ∨ ∀ p ∈ pattern?, sv ∈ p.schemaVars →
      ∃ o' ∈ p.occurrences, o'.2.op = .schema sv ∧ ∀ b ∈ o'.1, b ∈ o.1))

end Term

/-! ## Ground values -/

/-- A value that is a term without free variables and without schema variables. -/
def Instantiation.Ground (v : Instantiation) : Prop :=
  ∃ t : Term, v = .term t ∧ t.Regular ∧ t.freeVars = []

namespace Instantiations

variable {σ τ υ : Instantiations}

/-- **More values, all of them ground**: the values and the context stay, and what is new brings no
variables in. -/
structure GroundExtends (σ τ : Instantiations) : Prop where
  le : σ ≤ τ
  context : τ.context = σ.context
  new : ∀ sv v, τ.get? sv = some v → σ.get? sv = some v ∨ v.Ground

theorem GroundExtends.refl (σ : Instantiations) : σ.GroundExtends σ :=
  ⟨le_refl σ, rfl, fun _ _ => .inl⟩

theorem GroundExtends.trans (h : σ.GroundExtends τ) (h' : τ.GroundExtends υ) :
    σ.GroundExtends υ := by
  refine ⟨le_trans h.le h'.le, h'.context.trans h.context, fun sv v hv => ?_⟩
  rcases h'.new sv v hv with hold | hground
  · exact h.new sv v hold
  · exact .inr hground

theorem groundExtends_of_add {sv : SchemaVar} {t : Term} (h : σ.add sv (.term t) = some τ)
    (ht : t.Regular) (hground : t.freeVars = []) : σ.GroundExtends τ := by
  refine ⟨le_of_add h, context_of_add h, fun sv' v hv => ?_⟩
  rcases add_cases h with ⟨rfl, -⟩ | ⟨-, rfl⟩
  · exact .inl hv
  · rw [get?_cons] at hv
    split at hv
    · cases hv
      exact .inr ⟨t, rfl, ht, hground⟩
    · exact .inl hv

theorem GroundExtends.regular (h : σ.GroundExtends τ) (hσ : σ.Regular) : τ.Regular := by
  refine ⟨fun sv v hv => ?_, fun ctx hctx => hσ.context ctx (h.context ▸ hctx)⟩
  rcases h.new sv v hv with hold | ⟨t, rfl, ht, -⟩
  · exact hσ.values sv v hold
  · exact ht

end Instantiations

namespace RuleApp

/-- Drawing constants adds ground values. -/
theorem groundExtends_drawConstants {svs : List SchemaVar} {σ τ : Instantiations}
    {ns ns' : NameSupply} (h : drawConstants svs σ ns = (τ, ns')) : σ.GroundExtends τ := by
  have hdraws := drawConstants_spec h
  refine ⟨hdraws.le, ?_, fun sv v hv => ?_⟩
  · clear hdraws
    induction svs generalizing σ ns with
    | nil =>
      obtain ⟨rfl, -⟩ : σ = τ ∧ ns = ns' := by simpa [drawConstants] using h
      rfl
    | cons sv svs ih =>
      rw [drawConstants] at h
      split at h
      · change drawConstants svs ((σ.add sv (.term (.const (ns.fresh (stem sv)).1 sv.sort))).getD σ)
          (ns.fresh (stem sv)).2 = (τ, ns') at h
        cases hadd : σ.add sv (.term (.const (ns.fresh (stem sv)).1 sv.sort)) with
        | none =>
          rw [hadd] at h
          exact ih h
        | some υ =>
          rw [hadd] at h
          exact (ih h).trans (Instantiations.context_of_add hadd)
      · exact ih h
  · rcases hdraws.fresh sv v hv with hold | ⟨name, rfl, -⟩
    · exact .inl hold
    · exact .inr ⟨_, rfl, Term.regular_const _ _, rfl⟩

/-- **Completing an application adds ground values**, if its assumes part is matched already. -/
theorem groundExtends_of_mem_completions {found app : RuleApp} {seq : Sequent}
    (hassumed : found.assumed.isSome) (hseq : seq.All fun _ f => f.term.Regular)
    (h : app ∈ found.completions seq) :
    app.rule = found.rule ∧ app.focus = found.focus ∧ found.insts.GroundExtends app.insts := by
  unfold completions at h
  rw [findAssumed, if_pos hassumed] at h
  simp only at h
  split at h
  · refine mem_supplyAll (P := fun b => b.rule = found.rule ∧ b.focus = found.focus ∧
      found.insts.GroundExtends b.insts) ?_ ?_ (List.mem_filter.mp h).1
    · rintro a b sv t ht ⟨hrule, hfocus, hext⟩ hsupply
      obtain ⟨-, σ, hadd, rfl⟩ := add_of_supply hsupply
      obtain ⟨⟨side, f, hf, hsub⟩, -, hground⟩ := Sequent.mem_groundTerms_iff.mp ht
      refine ⟨hrule, hfocus, hext.trans (Instantiations.groundExtends_of_add hadd ?_ ?_)⟩
      · exact (hseq side f hf).of_mem_subterms hsub
      · exact List.isEmpty_iff.mp hground
    · intro a ha
      obtain rfl := List.mem_singleton.mp ha
      exact ⟨rfl, rfl, .refl _⟩
  · cases h

end RuleApp

/-! ## The free variables of instances -/

namespace Term

variable {rule : String} {σ τ : Instantiations} {pattern? : Option Term} {p t r sub : Term}
  {v : LogicVar}

/-- A free variable of an instance is free in a term that matching bound to one of the schema
variables of the template. -/
theorem exists_value_of_mem_freeVars (ht : t.WellFormed) (hconf : t.ConfinedBy pattern?)
    (hext : τ.GroundExtends σ) (h : t.instantiate rule σ = .ok r) (hv : v ∈ r.freeVars) :
    ∃ bs w sv u, (bs, w) ∈ t.occurrences ∧ (∀ b ∈ bs, σ.standsFor? b ≠ some v) ∧
      w.op = .schema sv ∧ τ.get? sv = some (.term u) ∧ v ∈ u.freeVars := by
  obtain ⟨bs, w, hw, hbs, hbrings⟩ := (mem_freeVars_instantiate ht h).mp hv
  have hw := mem_occurrences.mpr hw
  rcases hbrings with hvar | ⟨sv, u, hsv, hu, hvu⟩
  · -- the template shows no variables of its own
    have hnone := (hconf _ hw).1
    simp [logicVar?, hvar] at hnone
  · refine ⟨bs, w, sv, u, hw, hbs, hsv, ?_, hvu⟩
    rcases instantiateVar_eq_ok hu with hval | ⟨q, -, hq⟩
    · rcases hext.new sv _ hval with hold | ⟨u', heq, -, hground⟩
      · exact hold
      · cases heq
        rw [hground] at hvu
        cases hvu
    · rw [(Program.ground_toTerm hq).2] at hvu
      cases hvu

/-- Only variables that may stand for terms are bound to terms. -/
theorem isProgram_of_matchInto {sv : SchemaVar} {u : Term}
    (h : p.matchInto .empty sub .empty = some τ) (hval : τ.get? sv = some (.term u)) :
    sv.isProgram = false := by
  have hsteps := matchInto_steps (Q := fun _ => True) (R := fun sv v =>
      v.term?.isSome → sv.isProgram = false)
    ⟨fun _ _ => trivial, fun _ _ => trivial⟩ (fun sv u _ hfits _ => ?_)
    (fun w _ => ⟨fun _ _ _ hsome => (nomatch hsome), fun _ _ _ _ w hnone hsome => ?_⟩)
    trivial .refl h
  · exact hsteps.all Instantiations.all_empty sv _ hval rfl
  · unfold fitsKind at hfits
    unfold SchemaVar.isProgram
    split at hfits <;> simp_all
  · simp [hnone] at hsome

/-- **The free variables of an instance are free in the focus**: a variable that the template takes
from a value was not bound in the pattern either, and there the match found it. -/
theorem freeVars_instantiate_subset (hp : p.WellBuilt) (hbinds : p.BindsSchematically)
    (hmatch : p.matchInto .empty sub .empty = some τ) (hext : τ.GroundExtends σ) (ht : t.WellFormed)
    (hconf : t.ConfinedBy (some p)) (h : t.instantiate rule σ = .ok r) :
    r.freeVars ⊆ sub.freeVars := by
  intro v hv
  obtain ⟨bs, w, sv, u, hw, hbs, hsv, hval, hvu⟩ := exists_value_of_mem_freeVars ht hconf hext h hv
  have hmem : sv ∈ p.schemaVars := by
    rcases (matchInto_assigns hp hmatch sv).mp (by rw [Instantiations.has, hval]; rfl) with
      hempty | hmem
    · cases hempty
    · exact hmem
  rcases (hconf _ hw).2 sv (by simp [hsv, Operator.schemaVars]) with hprogram | hplace
  · rw [isProgram_of_matchInto hmatch hval] at hprogram
    cases hprogram
  · obtain ⟨⟨bs', w'⟩, hw', hsv', hsub⟩ := hplace p rfl hmem
    -- the variable is free in the instance of the pattern, and that is the focus up to renaming
    have hreproduces : p.Reproduces rule := reproduces hp.wellFormed hbinds
    obtain ⟨-, hback⟩ := hreproduces _ _ _ hmatch
    obtain ⟨r', hr', halpha⟩ := hback σ hext.le
    have hvalue := instantiateVar_of_term (Instantiations.get?_of_le hext.le hval)
    rw [← freeVars_eq_of_alphaEq (halpha []), mem_freeVars_instantiate hp.wellFormed hr']
    exact ⟨bs', w', mem_occurrences.mp hw', fun b hb =>
      hbs b (hsub b hb), .inr ⟨sv, u, hsv', hvalue, hvu⟩⟩

end Term

/-! ## Rules that invent no variables -/

/-- A focus that has to be a whole formula is at the top. -/
theorem FindPart.topLevel_of_admits {find : FindPart} {side : Side} {topLevel : Bool}
    (hwhole : find.formula? = find.pattern?) (h : find.admits side topLevel) : topLevel := by
  cases find with
  | nothing => cases h
  | subterm p => cases hwhole
  | antec p => exact (Bool.and_eq_true_iff.mp h).1
  | succ p => exact (Bool.and_eq_true_iff.mp h).1

/-- **A rule that invents no variables.** What is free in an instance of its templates is free in
the focus, and where the focus is below binders it stays there. -/
def RuleDraft.Confines (d : RuleDraft) : Prop :=
  (d.templates.isEmpty ∨ d.assumes.isEmpty) ∧
  (∀ p ∈ d.find.pattern?, p.WellBuilt ∧ p.BindsSchematically) ∧
  ∀ g ∈ d.templates, (d.find.formula? = d.find.pattern? ∨ g.formulas = []) ∧
    ∀ t ∈ g.terms, t.WellFormed ∧ t.ReplacementsOpen ∧ t.Narrow ∧ t.ConfinedBy d.find.pattern?

instance (d : RuleDraft) : Decidable d.Confines :=
  inferInstanceAs (Decidable ((d.templates.isEmpty ∨ d.assumes.isEmpty) ∧
    (∀ p ∈ d.find.pattern?, p.WellBuilt ∧ p.BindsSchematically) ∧
    ∀ g ∈ d.templates, (d.find.formula? = d.find.pattern? ∨ g.formulas = []) ∧
      ∀ t ∈ g.terms, t.WellFormed ∧ t.ReplacementsOpen ∧ t.Narrow ∧ t.ConfinedBy d.find.pattern?))

/-- The rules of the calculus invent no variables. -/
theorem Calculus.confines_symbolicExecution {r : Rule} (h : r ∈ symbolicExecution) :
    r.toRuleDraft.Confines := by
  have hdrafts : ∀ d ∈ propositionalDrafts ++ quantifierDrafts ++ executionDrafts .diamond ++
      executionDrafts .box, d.Confines := by
    decide +kernel
  refine hdrafts _ ?_
  simp only [symbolicExecution, firstOrder, propositional, List.mem_append] at h ⊢
  rcases h with ((h | h) | h) | h
  · exact .inl (.inl (.inl (RuleDraft.mem_acceptAll h)))
  · exact .inl (.inl (.inr (RuleDraft.mem_acceptAll h)))
  · exact .inl (.inr (RuleDraft.mem_acceptAll h))
  · exact .inr (RuleDraft.mem_acceptAll h)

/-! ## One step -/

/-- All formulas are regular, and their free variables are among the given ones. -/
def Sequent.Within (V : List LogicVar) (seq : Sequent) : Prop :=
  seq.All fun _ f => f.term.Regular ∧ f.term.freeVars ⊆ V

namespace RuleApp

variable {rule : String} {σ : Instantiations} {seq : Sequent}

/-- **Where a formula comes from after a goal template**: it was there, it is an instance of a
formula of the template, or it is that of the focus with a new subterm. -/
theorem applyTemplate_cases {focus : Option (Occurrence × Nat)} {g : GoalTemplate} {change : Change}
    (h : applyTemplate rule σ seq focus g = .ok change) {side : Side} {f : SeqFormula}
    (hf : f ∈ change.sequent.side side) :
    f ∈ seq.side side ∨
      (∃ t, (side, t) ∈ g.formulas ∧ instantiateFormula rule σ t = .ok f) ∨
      ∃ o idx t new, focus = some (o, idx) ∧ t ∈ g.terms ∧ t.instantiate rule σ = .ok new ∧
        o.formula.term.replaceAt o.pos new.executeSubsts = .ok f.term := by
  obtain ⟨kept, new, antec, succ, hreplaced, hantec, hsucc, hadds⟩ := applyTemplate_spec h
  have hinst : ∀ {side' : Side} {ts : List Term} {fs : Semisequent}, Instances rule σ ts fs →
      (∀ t ∈ ts, (side', t) ∈ g.formulas) → (side, f) ∈ fs.map (side', ·) →
      ∃ t, (side, t) ∈ g.formulas ∧ instantiateFormula rule σ t = .ok f := by
    intro side' ts fs hfs hts hmem
    obtain ⟨f', hf', heq⟩ := List.mem_map.mp hmem
    obtain ⟨rfl, rfl⟩ : side' = side ∧ f' = f := by simpa using heq
    obtain ⟨t, ht, hinst⟩ := exists_left_of_forall₂ hfs hf'
    exact ⟨t, hts t ht, hinst⟩
  have hadd : ∀ side, ∀ t ∈ g.add.side side, (side, t) ∈ g.formulas := by
    intro side t ht
    exact List.mem_append_right _ (mem_sided.mpr ht)
  rcases hadds.mem hf with hold | hnew
  · exact .inl hold
  · rcases List.mem_append.mp hnew with hnew | hnew
    · rcases List.mem_append.mp hnew with hnew | hnew
      · generalize hreplace : g.replace = replace at hreplaced
        cases hreplaced with
        | keep => cases hnew
        | @term o idx t new f' hnew' hf' =>
          obtain ⟨rfl, rfl⟩ : side = o.side ∧ f = f' := by simpa using hnew
          refine .inr (.inr ⟨o, idx, t, new, rfl, ?_, hnew', hf'⟩)
          exact List.mem_append_left _ (by rw [hreplace]; exact List.mem_singleton_self t)
        | @sequent o idx s here there hhere hthere =>
          have hside : ∀ side, ∀ t ∈ s.side side, (side, t) ∈ g.formulas := by
            intro side t ht
            refine List.mem_append_left _ ?_
            rw [hreplace]
            exact mem_sided.mpr ht
          rcases List.mem_append.mp hnew with hnew | hnew
          · exact .inr (.inl (hinst hhere (hside o.side) hnew))
          · exact .inr (.inl (hinst hthere (hside o.side.other) hnew))
      · exact .inr (.inl (hinst hantec (hadd .antec) hnew))
    · exact .inr (.inl (hinst hsucc (hadd .succ) hnew))

end RuleApp

/-- **The instances of a rule that invents no variables**: without a focus they are ground, and with
one their free variables are free in the focus. -/
theorem RuleBase.Finds.instance_within {base : RuleBase} {found : RuleApp} (h : base.Finds found)
    (hconf : found.rule.toRuleDraft.Confines)
    (hfocus : ∀ o, found.focus = some o → o.formula.term.Regular) {σ : Instantiations}
    (hext : found.insts.GroundExtends σ) {g : GoalTemplate}
    (hg : g ∈ found.rule.templates) {t r : Term} (ht : t ∈ g.terms) {rule : String}
    (hinst : t.instantiate rule σ = .ok r) :
    r.Regular ∧ (found.focus = none → r.freeVars = []) ∧ ∀ o, found.focus = some o →
      ∃ sub, o.formula.term.subtermAt o.pos = .ok sub ∧ r.freeVars ⊆ sub.freeVars ∧
        (found.rule.find.formula? = found.rule.find.pattern? → sub = o.formula.term) := by
  obtain ⟨-, hpatterns, htemplates⟩ := hconf
  obtain ⟨hwf, hopen, hnarrow, hconf⟩ := (htemplates g hg).2 t ht
  rcases h with ⟨side, f, h⟩ | ⟨rule', hrule, rfl⟩
  · obtain ⟨pos, sub, rule', τ, hpos, -, hadmits, hfind, rfl⟩ := RuleApp.mem_matchesIn.mp h
    obtain ⟨p, hp, hmatch, -⟩ := RuleApp.matchFind_eq_some.mp hfind
    have hf : f.term.Regular := hfocus _ rfl
    have hsub : sub.Regular := hf.of_mem_subterms (Term.mem_subterms_of_mem_positions hpos)
    have hσ : σ.Regular := hext.regular
        (Term.regular_matchInto hsub Instantiations.regular_empty hmatch)
    obtain ⟨hbuilt, hbinds⟩ := hpatterns p hp
    refine ⟨Term.regular_instantiate hopen hnarrow hσ hinst, fun hnone => (nomatch hnone), ?_⟩
    rintro o ⟨⟩
    refine ⟨sub, hf.narrow.subtermAt_of_mem_positions hpos, ?_, fun hwhole => ?_⟩
    · exact Term.freeVars_instantiate_subset hbuilt hbinds hmatch hext hwf (hp ▸ hconf) hinst
    · obtain rfl : pos = [] := List.isEmpty_iff.mp (FindPart.topLevel_of_admits hwhole hadmits)
      exact Term.eq_of_nil_mem_positions hpos
  · have hσ : σ.Regular := hext.regular Instantiations.regular_empty
    refine ⟨Term.regular_instantiate hopen hnarrow hσ hinst, fun _ => ?_, fun o ho => (nomatch ho)⟩
    refine List.eq_nil_iff_forall_not_mem.mpr fun v hv => ?_
    obtain ⟨-, -, sv, u, -, -, -, hval, -⟩ :=
      Term.exists_value_of_mem_freeVars hwf hconf hext hinst hv
    cases hval

/-- **An application that matching found and ground terms completed** leaves sequents without new
variables. -/
theorem RuleApp.within_execute {base : RuleBase} {found app : RuleApp} {seq seq' : Sequent}
    {V : List LogicVar} {ns ns' : NameSupply} {succs : List Successor}
    (hconf : found.rule.toRuleDraft.Confines) (hfound : base.Finds found)
    (happ : app ∈ found.completions seq') (hseq' : seq'.Within V) (hseq : seq.Within V)
    (hexec : app.execute seq ns = (.ok succs, ns')) : ∀ s ∈ succs, s.change.sequent.Within V := by
  intro s hs side f hf
  obtain ⟨-, focus, σ, hlocate, hdraw, hall⟩ := execute_spec hexec
  obtain ⟨g, hg, happly⟩ := exists_left_of_forall₂ hall hs
  -- the rule leaves a goal, so it assumes nothing, and completing it added ground terms only
  rw [hfound.rule_eq happ] at hg
  have hassumed : found.assumed.isSome := by
    obtain ⟨rule, -, τ, o, rfl⟩ := hfound.exists_ofMatch
    have hempty : rule.assumes.isEmpty :=
      hconf.1.resolve_left (by simpa using List.ne_nil_of_mem hg)
    simp [ofMatch, hempty]
  obtain ⟨-, hfocus, hext⟩ :=
    groundExtends_of_mem_completions hassumed (fun side f hf => (hseq' side f hf).1) happ
  have hext := hext.trans (groundExtends_drawConstants hdraw)
  have hlocated : (found.focus = none ∧ focus = none) ∨ ∃ o idx, found.focus = some o ∧
      focus = some (o, idx) ∧ o.formula.term.Regular ∧ o.formula.term.freeVars ⊆ V := by
    rcases locateFocus_spec hlocate with ⟨hnone, hfocus'⟩ | ⟨o, idx, ho, hfocus', hidx⟩
    · exact .inl ⟨hfocus ▸ hnone, hfocus'⟩
    · exact .inr ⟨o, idx, hfocus ▸ ho, hfocus', hseq _ _ (List.mem_of_getElem? hidx)⟩
  have hregular : ∀ o, found.focus = some o → o.formula.term.Regular := by
    intro o ho
    rcases hlocated with ⟨hnone, -⟩ | ⟨o', -, ho', -, hreg, -⟩
    · cases hnone.symm.trans ho
    · cases ho'.symm.trans ho
      exact hreg
  rcases applyTemplate_cases happly hf with hold | ⟨t, ht, hinst⟩ |
    ⟨o, idx, t, new, hsome, ht, hinst, hreplace⟩
  · exact hseq side f hold
  · -- a formula of the template: the focus is a whole formula, if there is one
    obtain ⟨r, hinst, hterm⟩ := instantiateFormula_eq_ok.mp hinst
    obtain ⟨hreg, hground, hsubset⟩ :=
      hfound.instance_within hconf hregular hext hg (mem_terms_of_mem_formulas ht) hinst
    have hfree : r.freeVars ⊆ V := by
      rcases hlocated with ⟨hnone, -⟩ | ⟨o, -, ho, -, -, hV⟩
      · rw [hground hnone]
        exact List.nil_subset V
      · obtain ⟨sub, -, hsub, htop⟩ := hsubset o ho
        rw [htop ((hconf.2.2 g hg).1.resolve_right (List.ne_nil_of_mem ht))] at hsub
        exact List.Subset.trans hsub hV
    rw [hterm]
    exact ⟨hreg.executeSubsts,
      List.Subset.trans (Term.freeVars_executeSubsts hreg.replacementsOpen) hfree⟩
  · -- the formula of the focus: below its binders there is no more free than before
    obtain ⟨ho, hreg, hV⟩ : found.focus = some o ∧ o.formula.term.Regular ∧
        o.formula.term.freeVars ⊆ V := by
      rcases hlocated with ⟨-, hnone⟩ | ⟨o', idx', ho', hsome', hreg⟩
      · cases hnone.symm.trans hsome
      · cases hsome'.symm.trans hsome
        exact ⟨ho', hreg⟩
    obtain ⟨hnew, -, hsubset⟩ := hfound.instance_within hconf hregular hext hg ht hinst
    obtain ⟨sub, hsub, hfree, -⟩ := hsubset o ho
    have hfree := List.Subset.trans (Term.freeVars_executeSubsts hnew.replacementsOpen) hfree
    exact ⟨hreg.replaceAt hnew.executeSubsts hreplace,
      List.Subset.trans (Term.freeVars_replaceAt hsub hreplace hfree) hV⟩

/-! ## Runs -/

namespace Proof

variable {p : Proof} {g : GoalId} {app : RuleApp} {root : Sequent} {rules : List Rule}
  {strategy : DefaultStrategy} {handed : List (GoalId × RuleApp)} {V : List LogicVar}

/-- **The nodes after a step**: a node was there before with the same sequent, or its sequent is
that of a successor. -/
theorem node_cases_of_apply (htree : p.Tree) {i : NodeId} {n' : Node}
    (hn' : (p.apply g app).2.nodes[i]? = some n') :
    (∃ n, p.nodes[i]? = some n ∧ n'.sequent = n.sequent) ∨
      ∃ goal succs names, p.goal? g = some goal ∧
        app.execute goal.sequent p.names = (.ok succs, names) ∧
        ∃ s ∈ succs, n'.sequent = s.change.sequent := by
  have hrecord : ∀ (goal : Goal) (names : NameSupply) {m : Node},
      ({ p with names := names }.recordApp goal.node app).nodes[i]? = some m →
      ∃ n, p.nodes[i]? = some n ∧ m.sequent = n.sequent := by
    intro goal names m hm
    rcases sameNodes_recordApp { p with names := names } goal.node app i with
      ⟨-, hnone⟩ | ⟨n, m', hn, hm', hsame, -⟩
    · cases hm.symm.trans hnone
    · cases hm.symm.trans hm'
      exact ⟨n, hn, hsame.2.2⟩
  have hcases := apply_cases p g app
  generalize (p.apply g app).2 = q at hcases hn'
  cases hcases with
  | failed hnames => exact .inl ⟨n', hn', rfl⟩
  | @closed goal names hgoal hexec =>
    rcases closeUp_same (goal.node :: goal.steps.map Step.node)
      ({ p with names := names }.recordApp goal.node app).nodes i with
      ⟨-, hnone⟩ | ⟨m, m', hm, hm', hsame, -⟩
    · cases hn'.symm.trans hnone
    · cases hn'.symm.trans hm'
      obtain ⟨n, hn, hseq⟩ := hrecord goal names hm
      exact .inl ⟨n, hn, hsame.2.2.trans hseq⟩
  | @split goal names succs hgoal hexec hne =>
    obtain ⟨leaf, hleaf, -⟩ := (htree.recordApp goal.node app names).goal_node g goal hgoal
    have hsplits := splits_split (lt_size_of_getElem? hleaf) g app succs
    rcases hsplits.node_cases hleaf hn' with ⟨rfl, rfl⟩ | ⟨-, hold⟩ | ⟨k, e, -, he, rfl⟩
    · obtain ⟨n, hn, hseq⟩ := hrecord goal names hleaf
      exact .inl ⟨n, hn, hseq⟩
    · exact .inl (hrecord goal names hold)
    · refine .inr ⟨goal, succs, names, hgoal, hexec, e.2, ?_, rfl⟩
      rw [← map_snd_splitEntries _ g hne]
      exact List.mem_map_of_mem (List.mem_of_getElem? he)

/-- **No variables are invented in a run**: all nodes stay within what the root shows, and what was
handed out completes a match by terms of a sequent that does. -/
theorem Run.within (hrun : Run root rules strategy p handed)
    (hrules : ∀ r ∈ rules, r.toRuleDraft.Confines) (hroot : root.Within V) :
    (∀ (i : NodeId) (n : Node), p.nodes[i]? = some n → n.sequent.Within V) ∧
      ∀ e ∈ handed, ∃ found seq, (RuleBase.ofRules rules).Finds found ∧
        e.2 ∈ found.completions seq ∧ seq.Within V := by
  induction hrun with
  | start =>
    refine ⟨fun i n hn => ?_, fun e he => (nomatch he)⟩
    obtain ⟨-, rfl⟩ := nodes_start root rules strategy hn
    exact hroot
  | @ask p handed hrun g ih =>
    refine ⟨fun i n hn => ih.1 i n ((nextApp_keeps p g).2.2.2.1 ▸ hn), fun e he => ?_⟩
    rcases List.mem_append.mp he with he | he
    · obtain ⟨app, happ, rfl⟩ := List.mem_map.mp he
      have happ := Option.mem_toList.mp happ
      rcases nextApp_cases p g with hnone | ⟨goal, queue, hgoal, -⟩
      · rw [hnone] at happ
        cases happ
      · obtain ⟨found, -, hfound, hdone⟩ := hrun.reached.completes hgoal happ
        obtain ⟨n, hn, hseq, -⟩ := hrun.reached.tree.goal_node g goal hgoal
        exact ⟨found, goal.sequent, hfound, hdone, hseq ▸ ih.1 _ n hn⟩
    · exact ih.2 e he
  | @apply p handed g app hrun happ ih =>
    refine ⟨fun i n' hn' => ?_, ih.2⟩
    rcases node_cases_of_apply hrun.reached.tree hn' with
      ⟨n, hn, hseq⟩ | ⟨goal, succs, names, hgoal, hexec, s, hs, hseq⟩
    · rw [hseq]
      exact ih.1 i n hn
    · obtain ⟨found, seq, hfound, hdone, hwithin⟩ := ih.2 _ happ
      obtain ⟨n, hn, hgoalseq, -⟩ := hrun.reached.tree.goal_node g goal hgoal
      have hconf : found.rule.toRuleDraft.Confines := by
        obtain ⟨rule, hrule, σ, focus, rfl⟩ := hfound.exists_ofMatch
        exact hrules rule (RuleBase.mem_ofRules hrule)
      rw [hseq]
      exact RuleApp.within_execute hconf hfound hdone hwithin (hgoalseq ▸ ih.1 _ n hn) hexec s hs

end Proof

/-! ## The symbolic execution calculus -/

/-- The variables that are free in a formula of the sequent. -/
def Sequent.freeVars (seq : Sequent) : List LogicVar :=
  seq.formulas.flatMap fun e => e.2.term.freeVars

/-- Operators bind variables only at their binding positions. -/
def Term.BindsInPlace (t : Term) : Prop :=
  ∀ u ∈ t.subterms, ∀ e ∈ u.args.zipIdx, e.1.1 ≠ [] → u.op.bindingPosition? = some e.2

instance (t : Term) : Decidable t.BindsInPlace :=
  inferInstanceAs (Decidable (∀ u ∈ t.subterms, ∀ e ∈ u.args.zipIdx,
    e.1.1 ≠ [] → u.op.bindingPosition? = some e.2))

/-- A substitution operator binds at its second argument, so not in the replacement. -/
theorem Term.BindsInPlace.replacementsOpen {t : Term} (h : t.BindsInPlace) :
    t.ReplacementsOpen := by
  intro u hu hop a ha
  by_contra hne
  have hmem : (a, 0) ∈ u.args.zipIdx := by
    rw [List.mk_mem_zipIdx_iff_getElem?, ← List.head?_eq_getElem?]
    exact ha
  have hpos := h u hu (a, 0) hmem hne
  rw [hop] at hpos
  cases hpos

/-- **Automatic search invents no variables.** In every proof that a run reaches from a root without
schema variables, whose operators bind at their binding positions and have no more arguments than
positions can tell apart, no node has schema variables, and what is free in a node is free in the
root. -/
theorem Proof.Run.invents_no_variables {root : Sequent} {strategy : DefaultStrategy} {p : Proof}
    {handed : List (GoalId × RuleApp)}
    (hrun : Run root Calculus.symbolicExecution strategy p handed)
    (hroot : root.All fun _ f => f.term.schemaVars = [] ∧ f.term.BindsInPlace ∧ f.term.Narrow)
    {i : NodeId} {n : Node} (hn : p.nodes[i]? = some n) :
    n.sequent.All fun _ f => f.term.schemaVars = [] ∧ f.term.freeVars ⊆ root.freeVars := by
  have hwithin : root.Within root.freeVars := by
    intro side f hf
    obtain ⟨hfree, hplace, hnarrow⟩ := hroot side f hf
    refine ⟨⟨hfree, hplace.replacementsOpen, hnarrow⟩, fun x hx => ?_⟩
    exact List.mem_flatMap.mpr ⟨(side, f), Sequent.mem_formulas.mpr hf, hx⟩
  intro side f hf
  obtain ⟨hregular, hfree⟩ :=
    (hrun.within (fun r hr => Calculus.confines_symbolicExecution hr) hwithin).1 i n hn side f hf
  exact ⟨hregular.schemaFree, hfree⟩

/-- `==> \forall x; \[{ skip; }\] \forall y; q(x, y, z)`, in which `z` is free. -/
private def boundAround : Sequent :=
  let x : LogicVar := ⟨"x", .int⟩
  let y : LogicVar := ⟨"y", .int⟩
  let body := Term.app (.predicate "q" 3) [.var x, .var y, .var ⟨"z", .int⟩]
  { succ := [⟨.all x (.modal .box (.block [.skip]) (.all y body)), rfl⟩] }

/-- The proof after the first step of the search. -/
private def afterDropping : Proof :=
  ((Proof.start boundAround Calculus.symbolicExecution (.ofSettings {})).stepOn 0).2

/-- The first step drops a quantifier, and in the node below the root still only `z` is free. -/
theorem Proof.Run.invents_no_variables_boundAround :
    boundAround.freeVars = [⟨"z", .int⟩] ∧ ∃ handed n,
      Run boundAround Calculus.symbolicExecution (.ofSettings {}) afterDropping handed ∧
        afterDropping.nodes[1]? = some n ∧
        n.sequent.All fun _ f => f.term.schemaVars = [] ∧
        f.term.freeVars ⊆ boundAround.freeVars := by
  have hroot : boundAround.All fun _ f =>
      f.term.schemaVars = [] ∧ f.term.BindsInPlace ∧ f.term.Narrow := by
    rintro (_ | _) f hf
    · cases hf
    · obtain rfl := List.mem_singleton.mp hf
      decide +kernel
  have hstart : Run boundAround Calculus.symbolicExecution (.ofSettings {})
      (Proof.start ..) [] := .start
  obtain ⟨handed, hrun⟩ := hstart.stepOn 0
  have hsome : afterDropping.nodes[1]?.isSome := by cbv
  obtain ⟨n, hn⟩ := Option.isSome_iff_exists.mp hsome
  exact ⟨by decide +kernel, handed, n, hrun, hn, hrun.invents_no_variables hroot hn⟩

end SequentSearch
