import Mathlib
import SequentSearch.Proofs.AssumedFormulas
import SequentSearch.Proofs.QuantifierInstances

/-!
# Which applications complete an application

An application is completed by giving terms to its open variables one after another. Partial
assignments that violate a side condition are dropped on the way. This loses no complete
application: a condition is judged only once all its variables have values, and these do not change
any more (`Rule.conditionsHold_of_le`). So what comes out are all assignments of terms of the
sequent that fit and give a complete application (`RuleApp.mem_completions_iff`).

Side conditions can be arbitrary tests. That their verdict does not change needs that they look at
the values of the variables they declare and at nothing else (`Condition.Declares`).
-/

namespace SequentSearch

/-! ## Side conditions under more values -/

namespace Condition

variable {c : Condition} {σ τ : Instantiations}

/-- **A condition declares all it looks at**: a test gives the same answer whenever the variables it
declares have the same values. -/
def Declares : Condition → Prop
  | custom _ vars test => ∀ σ τ : Instantiations, (∀ sv ∈ vars, σ.get? sv = τ.get? sv) →
      test σ = test τ
  | _ => True

/-- The verdict depends on the values of the variables of a condition. -/
theorem Declares.verdict_congr (hc : c.Declares) (h : ∀ sv ∈ c.schemaVars, σ.get? sv = τ.get? sv) :
    c.verdict σ = c.verdict τ := by
  cases c with
  | notFreeIn x sv =>
    obtain ⟨hx, hsv⟩ : σ.get? x = τ.get? x ∧ σ.get? sv = τ.get? sv := by simpa [schemaVars] using h
    simp only [verdict, Instantiations.logicVar?, Instantiations.term?, hx, hsv]
  | different a b =>
    obtain ⟨ha, hb⟩ : σ.get? a = τ.get? a ∧ σ.get? b = τ.get? b := by simpa [schemaVars] using h
    simp only [verdict, ha, hb]
  | custom name vars test => exact congrArg some (hc σ τ h)

/-- **A verdict is final**: it stays the same under more values. -/
theorem Declares.check_of_le (hc : c.Declares) (hle : σ ≤ τ) {b : Bool} (h : c.check σ = some b) :
    c.check τ = some b := by
  unfold check at h ⊢
  split at h <;> rename_i hall
  · have hhas : ∀ sv ∈ c.schemaVars, ∃ v, σ.get? sv = some v ∧ τ.get? sv = some v := by
      intro sv hsv
      obtain ⟨v, hv⟩ := Option.isSome_iff_exists.mp (List.all_eq_true.mp hall sv hsv)
      exact ⟨v, hv, Instantiations.get?_of_le hle hv⟩
    have hsame : ∀ sv ∈ c.schemaVars, σ.get? sv = τ.get? sv := by
      intro sv hsv
      obtain ⟨v, hσ, hτ⟩ := hhas sv hsv
      exact hσ.trans hτ.symm
    have hall' : c.schemaVars.all τ.has := by
      refine List.all_eq_true.mpr fun sv hsv => ?_
      obtain ⟨v, -, hτ⟩ := hhas sv hsv
      rw [Instantiations.has, hτ]
      rfl
    rw [if_pos hall', ← hc.verdict_congr hsame, h]
  · cases h

end Condition

/-- **What violates a condition is not completed**: if all conditions hold in the end, none was
violated on the way. -/
theorem Rule.conditionsHold_of_le {r : Rule} {σ τ : Instantiations}
    (hr : ∀ c ∈ r.conditions, c.Declares) (hle : σ ≤ τ) (h : r.conditionsHold true τ) :
    r.conditionsHold false σ := by
  refine conditionsHold_false_iff.mpr fun c hc hviolated => ?_
  have hcheck := (hr c hc).check_of_le hle hviolated
  have hholds := List.all_eq_true.mp h c hc
  rw [hcheck] at hholds
  cases hholds

/-! ## Assigning terms -/

/-- **A term of a sequent that may be assigned to a variable**: a ground subterm that is no formula,
of a sort below that of the variable, and rigid if the variable asks for it. -/
structure Sequent.Supplies (seq : Sequent) (sv : SchemaVar) (t : Term) : Prop where
  /-- it occurs in the sequent -/
  occurs : ∃ side, ∃ f ∈ seq.side side, t ∈ f.term.subterms
  /-- it has no free variables -/
  ground : t.isGround
  /-- it is no formula -/
  isTerm : t.isFormula = false
  /-- its sort fits -/
  sort : t.sort.isSubsortOf sv.sort
  /-- it is rigid if it has to be -/
  rigid : sv.rigid → t.isRigid

theorem Sequent.mem_groundTerms_iff {seq : Sequent} {t : Term} :
    t ∈ seq.groundTerms ↔
      (∃ side, ∃ f ∈ seq.side side, t ∈ f.term.subterms) ∧ t.isFormula = false ∧ t.isGround := by
  unfold groundTerms
  simp only [List.mem_eraseDups, List.mem_filter, List.mem_flatMap, Prod.exists, mem_formulas,
    Bool.and_eq_true, Bool.not_eq_true']

namespace RuleApp

variable {app done : RuleApp} {seq : Sequent} {sv : SchemaVar} {svs : List SchemaVar} {t : Term}
  {value : SchemaVar → Term}

/-- What supplying looks for among the terms of a sequent is what may be assigned. -/
theorem supplies_iff (hkind : standsForTerm sv) :
    seq.Supplies sv t ↔ t ∈ seq.groundTerms ∧ t.sort.isSubsortOf sv.sort ∧ accepts sv t := by
  have haccepts : accepts sv t ↔
      t.isFormula = false ∧ t.sort.isSubsortOf sv.sort ∧ (sv.rigid → t.isRigid) := by
    unfold standsForTerm at hkind
    unfold accepts SchemaVar.sort
    split at hkind <;> rename_i hsv
    · cases hrigid : sv.rigid <;> simp [hsv, and_assoc]
    · cases hkind
  rw [Sequent.mem_groundTerms_iff, haccepts]
  constructor
  · rintro ⟨hoccurs, hground, hterm, hsort, hrigid⟩
    exact ⟨⟨hoccurs, hterm, hground⟩, hsort, hterm, hsort, hrigid⟩
  · rintro ⟨⟨hoccurs, hterm, hground⟩, hsort, -, -, hrigid⟩
    exact ⟨hoccurs, hground, hterm, hsort, hrigid⟩

/-- The application with values for more variables. -/
def assign (value : SchemaVar → Term) : List SchemaVar → RuleApp → RuleApp
  | [], app => app
  | sv :: svs, app => assign value svs (app.bind sv (value sv))

/-- Assigning changes values only. -/
theorem assign_eq (value : SchemaVar → Term) (svs : List SchemaVar) (app : RuleApp) :
    assign value svs app = { app with insts := (assign value svs app).insts } := by
  induction svs generalizing app with
  | nil => rfl
  | cons sv svs ih => exact ih (app.bind sv (value sv))

theorem get?_assign (sv : SchemaVar) :
    (assign value svs app).insts.get? sv =
      if sv ∈ svs then some (.term (value sv)) else app.insts.get? sv := by
  induction svs generalizing app with
  | nil => rfl
  | cons sv' svs ih =>
    rw [assign, ih, get?_bind]
    by_cases hmem : sv ∈ svs
    · simp [hmem]
    · by_cases heq : sv = sv' <;> simp [hmem, heq]

/-- Only the values of the variables matter. -/
theorem assign_congr {value' : SchemaVar → Term} (h : ∀ sv ∈ svs, value sv = value' sv)
    (app : RuleApp) :
    assign value svs app = assign value' svs app := by
  induction svs generalizing app with
  | nil => rfl
  | cons sv svs ih =>
    obtain ⟨hsv, hsvs⟩ := List.forall_mem_cons.mp h
    rw [assign, assign, hsv, ih hsvs]

theorem context_assign : (assign value svs app).insts.context = app.insts.context := by
  induction svs generalizing app with
  | nil => rfl
  | cons sv svs ih => exact ih

/-- Values for open variables go above the old ones. -/
theorem le_assign (h : ∀ sv ∈ svs, app.insts.get? sv = none) :
    app.insts ≤ (assign value svs app).insts := by
  refine ⟨fun sv v hv => ?_, fun ctx hctx => context_assign.trans hctx⟩
  rw [get?_assign, if_neg, hv]
  intro hsv
  rw [h sv hsv] at hv
  cases hv

/-! ## Supplying terms one after another -/

/-- What supplying a term for an open variable does. -/
theorem supply_eq_some_iff (hopen : app.insts.get? sv = none) :
    app.supply sv t = some done ↔
      accepts sv t ∧ app.rule.conditionsHold false (app.bind sv t).insts ∧
      app.bind sv t = done := by
  have hadd : app.insts.add sv (.term t) = some (app.bind sv t).insts := by
    rw [Instantiations.add, hopen]
    rfl
  unfold supply
  simp only [hadd]
  split <;> rename_i haccepts
  · split <;> rename_i hconditions
    · rw [show ({ app with insts := (app.bind sv t).insts } : RuleApp) = app.bind sv t from rfl]
      simp [haccepts, hconditions]
    · simp [hconditions]
  · simp [haccepts]

theorem mem_supplyEach {candidates : List Term} {apps : List RuleApp} :
    done ∈ supplyEach sv candidates apps ↔
      ∃ t ∈ candidates, t.sort.isSubsortOf sv.sort ∧ ∃ app ∈ apps, app.supply sv t = some done := by
  simp only [supplyEach, List.mem_flatMap, List.mem_filter, List.mem_filterMap, and_assoc]

/-- Variables that are open stay open when another one gets a value. -/
theorem get?_bind_of_open (hnodup : (sv :: svs).Nodup)
    (hopen : ∀ sv' ∈ sv :: svs, app.insts.get? sv' = none) :
    ∀ sv' ∈ svs, (app.bind sv t).insts.get? sv' = none := by
  intro sv' hsv'
  have hne : sv' ≠ sv := ne_of_mem_of_not_mem hsv' (List.nodup_cons.mp hnodup).1
  rw [get?_bind, if_neg hne]
  exact hopen sv' (List.mem_cons_of_mem _ hsv')

/-- What is supplied is an assignment of terms that fit. -/
theorem exists_assign_of_mem_supplyAll (hkind : ∀ sv ∈ svs, standsForTerm sv) (hnodup : svs.Nodup)
    {apps : List RuleApp} (hopen : ∀ app ∈ apps, ∀ sv ∈ svs, app.insts.get? sv = none)
    (h : done ∈ supplyAll seq.groundTerms svs apps) :
    ∃ app ∈ apps, ∃ value, (∀ sv ∈ svs, seq.Supplies sv (value sv)) ∧
      assign value svs app = done := by
  induction svs generalizing apps with
  | nil => exact ⟨done, h, fun _ => .top, fun _ hsv => (nomatch hsv), rfl⟩
  | cons sv svs ih =>
    have hnodup' := List.nodup_cons.mp hnodup
    have hstep : ∀ b ∈ supplyEach sv seq.groundTerms apps, ∃ t, seq.Supplies sv t ∧
        ∃ app ∈ apps, app.bind sv t = b := by
      intro b hb
      obtain ⟨t, ht, hsort, app, happ, hsupply⟩ := mem_supplyEach.mp hb
      obtain ⟨haccepts, -, rfl⟩ := (supply_eq_some_iff
          (hopen app happ sv List.mem_cons_self)).mp hsupply
      have hsupplies := (supplies_iff (hkind sv List.mem_cons_self)).mpr ⟨ht, hsort, haccepts⟩
      exact ⟨t, hsupplies, app, happ, rfl⟩
    have hopen' : ∀ b ∈ supplyEach sv seq.groundTerms apps, ∀ sv' ∈ svs,
        b.insts.get? sv' = none := by
      intro b hb
      obtain ⟨t, -, app, happ, rfl⟩ := hstep b hb
      exact get?_bind_of_open hnodup (hopen app happ)
    obtain ⟨b, hb, value, hvalue, rfl⟩ :=
      ih (fun sv' hsv' => hkind sv' (List.mem_cons_of_mem _ hsv')) hnodup'.2 hopen' h
    obtain ⟨t, ht, app, happ, rfl⟩ := hstep b hb
    -- the values for the other variables stay, since the variable is not among them
    have hother : ∀ sv' ∈ svs, Function.update value sv t sv' = value sv' := fun sv' hsv' =>
      Function.update_of_ne (ne_of_mem_of_not_mem hsv' hnodup'.1) t value
    refine ⟨app, happ, Function.update value sv t,
      List.forall_mem_cons.mpr ⟨?_, fun sv' hsv' => ?_⟩, ?_⟩
    · rwa [Function.update_self]
    · rw [hother sv' hsv']
      exact hvalue sv' hsv'
    · rw [assign, Function.update_self, assign_congr hother]

/-- **No assignment is lost on the way**: if the conditions hold in the end, its terms are
supplied. -/
theorem assign_mem_supplyAll (hconditions : ∀ c ∈ app.rule.conditions, c.Declares)
    (hkind : ∀ sv ∈ svs, standsForTerm sv) (hnodup : svs.Nodup) {apps : List RuleApp}
    (happ : app ∈ apps) (hopen : ∀ sv ∈ svs, app.insts.get? sv = none)
    (hvalue : ∀ sv ∈ svs, seq.Supplies sv (value sv))
    (hholds : app.rule.conditionsHold true (assign value svs app).insts) :
    assign value svs app ∈ supplyAll seq.groundTerms svs apps := by
  induction svs generalizing app apps with
  | nil => exact happ
  | cons sv svs ih =>
    obtain ⟨hsv, hkind⟩ := List.forall_mem_cons.mp hkind
    obtain ⟨hfits, hvalue⟩ := List.forall_mem_cons.mp hvalue
    have hopen' := get?_bind_of_open (t := value sv) hnodup hopen
    -- the values so far are below those in the end, so no condition is violated yet
    have hsofar : app.rule.conditionsHold false (app.bind sv (value sv)).insts :=
      Rule.conditionsHold_of_le hconditions (le_assign hopen') hholds
    obtain ⟨hmem, hsort, haccepts⟩ := (supplies_iff hsv).mp hfits
    have hsupply : app.supply sv (value sv) = some (app.bind sv (value sv)) :=
      (supply_eq_some_iff (hopen sv List.mem_cons_self)).mpr ⟨haccepts, hsofar, rfl⟩
    have hnext : app.bind sv (value sv) ∈ supplyEach sv seq.groundTerms apps :=
      mem_supplyEach.mpr ⟨_, hmem, hsort, app, happ, hsupply⟩
    have hconditions' : ∀ c ∈ (app.bind sv (value sv)).rule.conditions, c.Declares := hconditions
    exact ih hconditions' hkind (List.nodup_cons.mp hnodup).2 hnext hopen' hvalue hholds

/-! ## Completions -/

theorem rule_of_findAssumed (h : app.findAssumed seq = some done) : done.rule = app.rule := by
  rcases findAssumed_cases h with rfl | ⟨τ, found, -, -, rfl⟩
  · rfl
  · rfl

/-- **Completing gives all complete applications**, and nothing else. If no formulas are found for
the assumes part, or a variable that does not stand for terms is left open, there is none. Otherwise
they are the complete ones among those that assign terms of the sequent that fit to the open
variables. -/
theorem mem_completions_iff (app : RuleApp) (seq : Sequent) (hrule : app.rule.Accepted)
    (hconditions : ∀ c ∈ app.rule.conditions, c.Declares) :
    (app.findAssumed seq = none → app.completions seq = []) ∧
      ∀ found, app.findAssumed seq = some found →
        (∀ sv ∈ found.openVars, standsForTerm sv = false → app.completions seq = []) ∧
        ((∀ sv ∈ found.openVars, standsForTerm sv) → ∀ done, done ∈ app.completions seq ↔
          ∃ value, (∀ sv ∈ found.openVars, seq.Supplies sv (value sv)) ∧
            assign value found.openVars found = done ∧ done.isComplete) := by
  refine ⟨fun hnone => by rw [completions, hnone], fun found hfound => ⟨fun sv hsv hkind => ?_, ?_⟩⟩
  · have hall : ¬found.openVars.all standsForTerm := fun hall => by
      rw [List.all_eq_true.mp hall sv hsv] at hkind
      cases hkind
    rw [completions, hfound]
    exact if_neg hall
  intro hkind done
  have hfoundRule := rule_of_findAssumed hfound
  have hnodup : found.openVars.Nodup := (hfoundRule ▸ hrule.nodup_schemaVars).filter _
  have hmem : done ∈ app.completions seq ↔
      done ∈ supplyAll seq.groundTerms found.openVars [found] ∧ done.isComplete := by
    rw [completions, hfound]
    dsimp only
    rw [if_pos (List.all_eq_true.mpr hkind), List.mem_filter]
  rw [hmem]
  constructor
  · rintro ⟨hsupplied, hcomplete⟩
    have hopen : ∀ a ∈ [found], ∀ sv ∈ found.openVars, a.insts.get? sv = none := fun a ha sv hsv =>
      List.mem_singleton.mp ha ▸ get?_of_mem_openVars hsv
    obtain ⟨_, ha, value, hvalue, hdone⟩ :=
      exists_assign_of_mem_supplyAll hkind hnodup hopen hsupplied
    obtain rfl := List.mem_singleton.mp ha
    exact ⟨value, hvalue, hdone, hcomplete⟩
  · rintro ⟨value, hvalue, rfl, hcomplete⟩
    have hholds := (Bool.and_eq_true_iff.mp hcomplete).2
    rw [assign_eq] at hholds
    exact ⟨assign_mem_supplyAll (hfoundRule ▸ hconditions) hkind hnodup (List.mem_singleton_self _)
      (fun sv hsv => get?_of_mem_openVars hsv) hvalue hholds, hcomplete⟩

/-- Relates an object to another one, which is looked for among the constants of the sequent. -/
private def relate : RuleDraft where
  name := "relate"
  assumes := { antec := [.app (.predicate "p" 1) [.schema (Calculus.termVar "#x")]] }
  conditions := [.different (Calculus.termVar "#x") (Calculus.termVar "#t"),
    .custom "constant" [Calculus.termVar "#t"] fun σ =>
      (σ.term? (Calculus.termVar "#t")).any (·.args.isEmpty)]
  templates := [{ add := { antec := [.app (.predicate "r" 2)
    [.schema (Calculus.termVar "#x"), .schema (Calculus.termVar "#t")]] } }]
  external := [Calculus.termVar "#t"]

/-- `p(a), p(f(b)) ==>` -/
private def constantAndTerm : Sequent where
  antec := [⟨.app (.predicate "p" 1) [.const "a" .any], rfl⟩,
    ⟨.app (.predicate "p" 1) [.app (.function "f" .any 1) [.const "b" .any]], rfl⟩]

/-- In `p(a), p(f(b)) ==>` the object is `a`, and of `a`, `f(b)` and `b` only the last is another
constant. -/
theorem mem_completions_iff_relate : ∃ rule found, relate.accept = .ok rule ∧ rule.Accepted ∧
    (∀ c ∈ rule.conditions, c.Declares) ∧
    (ofMatch rule .empty none).findAssumed constantAndTerm = some found ∧
    found.openVars = [Calculus.termVar "#t"] ∧
    ∀ t, found.bind (Calculus.termVar "#t") t ∈
      (ofMatch rule .empty none).completions constantAndTerm ↔
      t = .const "b" .any := by
  let x := Calculus.termVar "#x"
  let rule : Rule := { relate with schemaVars := [x, Calculus.termVar "#t"] }
  let found : RuleApp := ⟨rule, ⟨[(x, .term (.const "a" .any))], none⟩, none,
    some [⟨.antec, ⟨.app (.predicate "p" 1) [.const "a" .any], rfl⟩, []⟩]⟩
  have hrule : rule.Accepted := ⟨relate, rfl⟩
  have hconditions : ∀ c ∈ rule.conditions, c.Declares := by
    refine List.forall_mem_cons.mpr ⟨trivial, List.forall_mem_singleton.mpr fun σ τ h => ?_⟩
    simp only [Instantiations.term?, h _ (List.mem_singleton_self _)]
  have hfound : (ofMatch rule .empty none).findAssumed constantAndTerm = some found := rfl
  have hopen : found.openVars = [Calculus.termVar "#t"] := by decide
  obtain ⟨-, hspec⟩ := mem_completions_iff
      (ofMatch rule .empty none) constantAndTerm hrule hconditions
  obtain ⟨-, hspec⟩ := hspec found hfound
  rw [hopen] at hspec
  have hspec := hspec (List.forall_mem_singleton.mpr rfl)
  refine ⟨rule, found, rfl, hrule, hconditions, hfound, hopen, fun t => (hspec _).trans ?_⟩
  constructor
  · rintro ⟨value, hvalue, heq, hcomplete⟩
    have ht : value (Calculus.termVar "#t") = t := by
      have hget := congrArg (·.insts.get? (Calculus.termVar "#t")) heq
      simpa [assign, get?_bind] using hget
    obtain ⟨hmem, -⟩ := (supplies_iff rfl).mp (hvalue _ (List.mem_singleton_self _))
    have hterms : constantAndTerm.groundTerms =
        [.const "a" .any, .app (.function "f" .any 1) [.const "b" .any],
          .const "b" .any] := by decide
    rw [ht, hterms, List.mem_cons, List.mem_cons, List.mem_singleton] at hmem
    rcases hmem with rfl | rfl | rfl
    · exact absurd hcomplete (by decide)
    · exact absurd hcomplete (by decide)
    · rfl
  · rintro rfl
    refine ⟨fun _ => .const "b" .any, List.forall_mem_singleton.mpr ((supplies_iff rfl).mpr ?_),
      rfl, by decide⟩
    decide

end RuleApp

end SequentSearch
