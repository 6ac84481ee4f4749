import Mathlib
import SequentSearch.Proofs.ExecutionSoundness
import SequentSearch.Proofs.Runs

/-!
# Which terms quantifiers are instantiated with

Two rules of the first-order calculus add an instance of a quantified formula, `allLeft` on the left
and `exRight` on the right. Matching the formula leaves one variable open, the one for the term of
the instance, and search completes the match by every ground term of the sequent in turn.

* `Goal.Stocked`: in every proof that can be reached, the index of a goal holds what matching finds,
  and its queue holds completions of what is in the index.
* `RuleApp.completions_of_openVars`: a match with one open variable for terms is completed by the
  ground terms whose sort fits that variable, in order.
* `Term.matchInto_quantify`: what matching a quantified formula binds.

The variables of the two rules are declared with the sort `any`, and nothing relates the sort of the
term to that of the quantified variable. So the term fits the sort that the rules ask for, and that
of the quantified variable if the latter is `any` or happens to be the same.
-/

namespace SequentSearch

/-! ## Where the entries of queues come from -/

/-- An application as matching finds it, in a formula or without a focus. -/
def RuleBase.Finds (base : RuleBase) (app : RuleApp) : Prop :=
  (∃ side f, app ∈ base.matchesIn side f) ∨
    ∃ rule ∈ base.withoutFocus, app = .ofMatch rule .empty none

/-- What matching finds is a rule of the base with the values that the match gives. -/
theorem RuleBase.Finds.exists_ofMatch {base : RuleBase} {app : RuleApp} (h : base.Finds app) :
    ∃ rule ∈ base.rules, ∃ σ focus, app = .ofMatch rule σ focus := by
  rcases h with ⟨side, f, hfound⟩ | ⟨rule, hrule, rfl⟩
  · obtain ⟨pos, sub, rule, σ, -, hrule, -, -, rfl⟩ := RuleApp.mem_matchesIn.mp hfound
    exact ⟨rule, RuleApp.mem_candidates hrule, σ, _, rfl⟩
  · exact ⟨rule, (List.mem_filter.mp hrule).1, _, _, rfl⟩

/-- An index of a sequent holds what matching finds. -/
theorem MatchIndex.Within.finds {base : RuleBase} {index : MatchIndex} {seq : Sequent}
    (h : index.Within base seq) : ∀ app ∈ index.apps, base.Finds app := by
  intro app happ
  rcases h.of_mem_apps happ with ⟨side, f, -, hfound⟩ | hfound
  · exact .inl ⟨side, f, hfound⟩
  · exact .inr hfound

theorem RuleBase.sources_true (base : RuleBase) : base.Sources (fun _ => True) fun _ _ => True where
  hereditary := ⟨fun _ _ => trivial, fun _ _ => trivial⟩
  fits _ _ _ _ := trivial
  parts _ _ _ _ _ _ := ⟨fun _ _ _ => trivial, fun _ _ _ _ _ _ => trivial⟩

/-- Completing a match does not change its rule. -/
theorem RuleBase.Finds.rule_eq {base : RuleBase} {found done : RuleApp} {seq : Sequent}
    (h : base.Finds found) (hdone : done ∈ found.completions seq) : done.rule = found.rule := by
  have hmatched : found.Matched base (fun _ _ => True) ∧ found.AssumedIn seq := by
    rcases h with ⟨side, f, hfound⟩ | ⟨rule, hrule, rfl⟩
    · exact ⟨RuleApp.matched_of_mem_matchesIn base.sources_true trivial hfound,
        RuleApp.assumedIn_of_mem_matchesIn hfound seq⟩
    · exact ⟨RuleApp.matched_withoutFocus hrule, RuleApp.assumedIn_ofMatch rule _ _ seq⟩
  exact (hmatched.1.completions base.sources_true (fun _ _ _ => trivial) hmatched.2 hdone).2.2.1

/-- **A goal is stocked by matching**: its queue holds completions of what its index holds, and that
was found by matching. -/
structure Goal.Stocked (base : RuleBase) (goal : Goal) : Prop where
  /-- the index holds what matching found -/
  index : ∀ app ∈ goal.index.apps, base.Finds app
  /-- the queue holds completions of it -/
  queue : ∀ e ∈ goal.queue.get.entries, ∃ app ∈ goal.index.apps, e.2 ∈ app.completions goal.sequent

theorem Goal.stocked_fill {base : RuleBase} {goal : Goal}
    (hindex : ∀ app ∈ goal.index.apps, base.Finds app) {strategy : Strategy}
    (hstrategy : strategy.Regular) :
    (goal.fill strategy).Stocked base where
  index := hindex
  queue := by
    rintro ⟨cost, done⟩ he
    obtain ⟨app, happ, -, hdone, -⟩ := Strategy.mem_offers.mp (mem_fill.mp he)
    exact ⟨app, happ, hstrategy.complete .. ▸ hdone⟩

namespace Proof

variable {root : Sequent} {rules : List Rule} {strategy : DefaultStrategy} {p : Proof} {g : GoalId}
  {goal : Goal} {app : RuleApp}

/-- **All goals are stocked by matching**, whatever applications were made. -/
theorem Reached.stocked (h : Reached root rules strategy p) (hgoal : p.goal? g = some goal) :
    goal.Stocked (.ofRules rules) := by
  induction h generalizing g goal with
  | start =>
    obtain ⟨-, rfl⟩ := goal?_start root rules strategy hgoal
    exact Goal.stocked_fill (MatchIndex.follows_ofSequent (.ofRules rules) root).finds
      strategy.regular
  | ask _ k ih =>
    -- asking takes entries from the queue and does nothing else to a goal
    obtain ⟨goal, hold, hsub, queue, rfl⟩ := goal_of_nextApp hgoal
    exact ⟨(ih hold).index, fun e he => (ih hold).queue e (hsub e he)⟩
  | @apply p h k app ih =>
    rcases goal_of_apply h.tree hgoal with hsame | ⟨goal, succs, hold, -, s, -, node, rfl, -⟩
    · exact ih hsame
    · refine Goal.stocked_fill (fun a ha => ?_) h.regular
      rcases MatchIndex.mem_update ha with ha | ⟨e, -, hfound⟩
      · exact (ih hold).index a ha
      · rw [h.base_eq] at hfound
        exact .inl ⟨e.1, e.2, hfound⟩

/-- What a goal hands out completes a match that its index holds. -/
theorem Reached.completes (h : Reached root rules strategy p) (hgoal : p.goal? g = some goal)
    (happ : (p.nextApp g).1 = some app) :
    ∃ found ∈ goal.index.apps, (RuleBase.ofRules rules).Finds found ∧
      app ∈ found.completions goal.sequent := by
  rcases nextApp_cases p g with hnone | ⟨goal', queue, hgoal', -, -, hfrom⟩
  · rw [hnone] at happ
    cases happ
  · cases hgoal.symm.trans hgoal'
    obtain ⟨-, cost, hmem⟩ := hfrom app happ
    have hstocked := h.stocked hgoal
    obtain ⟨found, hfound, hdone⟩ := hstocked.queue _ hmem
    exact ⟨found, hfound, hstocked.index found hfound, hdone⟩

end Proof

/-! ## Completing a match with one open variable -/

/-- The ground terms of a sequent that are collected are no formulas. -/
theorem Sequent.isFormula_of_mem_groundTerms {seq : Sequent} {u : Term} (h : u ∈ seq.groundTerms) :
    u.isFormula = false := by
  have htest := (List.mem_filter.mp (List.mem_eraseDups.mp h)).2
  simpa using (Bool.and_eq_true_iff.mp htest).1

namespace RuleApp

variable {app : RuleApp} {sv : SchemaVar} {sort : SortName}

/-- The application with a value for one more variable. -/
def bind (app : RuleApp) (sv : SchemaVar) (u : Term) : RuleApp :=
  { app with insts := { app.insts with bindings := (sv, .term u) :: app.insts.bindings } }

theorem get?_bind (app : RuleApp) (sv sv' : SchemaVar) (u : Term) :
    (app.bind sv u).insts.get? sv' = if sv' = sv then some (.term u) else app.insts.get? sv' :=
  Instantiations.get?_cons

theorem get?_of_mem_openVars (h : sv ∈ app.openVars) : app.insts.get? sv = none := by
  have htest := (List.mem_filter.mp h).2
  simpa [Instantiations.has] using (Bool.and_eq_true_iff.mp htest).2

/-- A term that is not a formula is taken for an open variable of a fitting sort. -/
theorem supply_of_open (hconditions : app.rule.conditions = []) (hopen : sv ∈ app.openVars)
    (hkind : sv.kind = .term sort) (hrigid : sv.rigid = false) {u : Term}
    (hu : u.isFormula = false) (hsort : u.sort.isSubsortOf sort) :
    app.supply sv u = some (app.bind sv u) := by
  have hnone := get?_of_mem_openVars hopen
  have haccepts : accepts sv u := by simp [accepts, hkind, hrigid, hu, hsort]
  have hadd : app.insts.add sv (.term u) =
      some { app.insts with bindings := (sv, .term u) :: app.insts.bindings } := by
    rw [Instantiations.add, hnone]
  rw [supply, if_pos haccepts, hadd]
  simp [Rule.conditionsHold, hconditions, bind]

/-- Giving the only open variable a value completes an application. -/
theorem isComplete_bind (hassumed : app.assumed.isSome) (hconditions : app.rule.conditions = [])
    (hopen : app.openVars = [sv]) (u : Term) : (app.bind sv u).isComplete := by
  have hnone : (app.bind sv u).openVars = [] := by
    refine List.filter_eq_nil_iff.mpr fun sv' hsv' htest => ?_
    rw [Bool.and_eq_true, Bool.not_eq_true', Instantiations.has, get?_bind] at htest
    split at htest <;> rename_i heq
    · simp at htest
    · have hmem : sv' ∈ app.openVars := by
        refine List.mem_filter.mpr ⟨hsv', ?_⟩
        simpa [Instantiations.has] using htest
      rw [hopen, List.mem_singleton] at hmem
      exact heq hmem
  rw [isComplete, hnone]
  simp [Rule.conditionsHold, bind, hassumed, hconditions]

/-- **A match with one open variable for terms** is completed by the ground terms that fit it, in
order. -/
theorem completions_of_openVars (hassumed : app.assumed.isSome)
    (hconditions : app.rule.conditions = []) (hopen : app.openVars = [sv])
    (hkind : sv.kind = .term sort) (hrigid : sv.rigid = false) (seq : Sequent) :
    app.completions seq =
      (seq.groundTerms.filter fun u => u.sort.isSubsortOf sort).map (app.bind sv) := by
  have hfound : app.findAssumed seq = some app := by rw [findAssumed, if_pos hassumed]
  have hterm : app.openVars.all standsForTerm := by simp [hopen, standsForTerm, hkind]
  have hsupply : ∀ u ∈ seq.groundTerms.filter fun u => u.sort.isSubsortOf sort,
      app.supply sv u = some (app.bind sv u) := by
    intro u hu
    obtain ⟨hground, hsort⟩ := List.mem_filter.mp hu
    have hformula := Sequent.isFormula_of_mem_groundTerms hground
    exact supply_of_open hconditions
      (hopen ▸ List.mem_singleton_self sv) hkind hrigid hformula hsort
  have hsorts : sv.sort = sort := by simp [SchemaVar.sort, hkind]
  have heach : supplyEach sv seq.groundTerms [app] =
      (seq.groundTerms.filter fun u => u.sort.isSubsortOf sort).map (app.bind sv) := by
    rw [supplyEach, hsorts, List.map_eq_flatMap]
    exact List.flatMap_congr fun u hu => by simp [hsupply u hu]
  rw [completions, hfound]
  dsimp only
  rw [if_pos hterm, hopen, supplyAll, supplyAll, heach]
  refine List.filter_eq_self.mpr fun done hdone => ?_
  obtain ⟨u, -, rfl⟩ := List.mem_map.mp hdone
  exact isComplete_bind hassumed hconditions hopen u

end RuleApp

/-! ## Matching a quantified formula -/

namespace Term

variable {x phi : SchemaVar} {sort : SortName} {ρ ρ' : Renaming} {σ τ : Instantiations}

/-- A schema variable that is bound matches one variable of a sort below its own. -/
theorem matchBinders_schema {cs : List Binder} (hx : x.kind = .logicVar sort)
    (h : matchBinders [.schema x] cs ρ σ = some (ρ', τ)) :
    ∃ y, cs = [.logic y] ∧ y.sort.isSubsortOf sort ∧ σ.add x (.term (var y)) = some τ := by
  obtain _ | ⟨c, cs⟩ := cs
  · cases h
  cases c with
  | schema sv => cases h
  | logic y =>
    simp only [matchBinders, hx] at h
    split at h <;> rename_i hsort
    · split at h <;> rename_i hadd
      · obtain _ | ⟨c, cs⟩ := cs
        · cases h
          exact ⟨y, rfl, hsort, hadd⟩
        · cases h
      · cases h
    · cases h

/-- A schema variable in the place of a term is bound to what it matches. -/
theorem add_of_matchInto_schema {t : Term} (h : (schema phi).matchInto ρ t σ = some τ) :
    σ.add phi (.term t) = some τ := by
  rw [schema, plain, matchInto, matchVar] at h
  split at h <;> rename_i hadd
  · split at hadd
    · cases h
      exact hadd
    · cases hadd
  · cases h

/-- **What matching a quantified formula binds**: the variable and the body. -/
theorem matchInto_quantify {q : Quantifier} (hx : x.kind = .logicVar sort)
    (hne : phi ≠ x) {t : Term} (h :
      (quantify q [.schema x] (schema phi)).matchInto .empty t .empty = some σ) :
    ∃ y body ls, t = node (.quantifier q) [([.logic y], body)] ls ∧ y.sort.isSubsortOf sort ∧
      σ = ⟨[(phi, .term body), (x, .term (var y))], none⟩ := by
  obtain ⟨υ, hop, τ, hargs, hlabels⟩ :=
    (matchInto_node_eq_some (fun _ => Operator.noConfusion) fun _ => Operator.noConfusion).mp h
  obtain ⟨op, args, ls⟩ := t
  obtain ⟨rfl, rfl⟩ : .quantifier q = op ∧ .empty = υ := by
    rw [op_node] at hop
    simp only [matchOperator] at hop
    split at hop <;> rename_i heq
    · exact ⟨heq, Option.some.inj hop⟩
    · cases hop
  obtain rfl : τ = σ := Option.some.inj hlabels
  rw [args_node] at hargs
  obtain _ | ⟨⟨bs, body⟩, args⟩ := args
  · cases hargs
  obtain ⟨ρ', υ, hbinders, φ, hbody, hrest⟩ := matchArgs_cons_eq_some.mp hargs
  obtain _ | ⟨a, args⟩ := args
  · obtain rfl : φ = τ := Option.some.inj hrest
    obtain ⟨y, rfl, hsort, hadd⟩ := matchBinders_schema hx hbinders
    obtain rfl : ⟨[(x, .term (var y))], none⟩ = υ := Option.some.inj hadd
    have hadd := add_of_matchInto_schema hbody
    have hfree : Instantiations.get? ⟨[(x, .term (var y))], none⟩ phi = none := by
      rw [Instantiations.get?_cons, if_neg hne]
      rfl
    rw [Instantiations.add, hfree] at hadd
    exact ⟨y, body, ls, rfl, hsort, (Option.some.inj hadd).symm⟩
  · cases hrest

/-- The only subterm at the top position is the term itself. -/
theorem eq_of_nil_mem_positions {t u : Term} (h : ([], u) ∈ t.positions) : u = t := by
  obtain ⟨op, args, labels⟩ := t
  -- below an argument, positions begin with its index
  have hbelow : ∀ i, ([], u) ∉ positionsArgs i args := by
    clear h
    intro i hmem
    induction args generalizing i with
    | nil => cases hmem
    | cons a args ih =>
      rcases List.mem_append.mp hmem with hmem | hmem
      · obtain ⟨e, -, heq⟩ := List.mem_map.mp hmem
        cases heq
      · exact ih (i + 1) hmem
  rcases List.mem_cons.mp h with heq | h
  · exact (Prod.mk.inj heq).2
  · exact absurd h (hbelow 0)

end Term

/-! ## The rules that instantiate quantifiers -/

namespace Calculus

open RuleDraft

/-- The schema variable for the quantified variable. -/
def boundVar : SchemaVar := { name := "#x", kind := .logicVar .any }

/-- The instance that both rules add: the body with the value of `#t` for the quantified
variable. -/
def bodyInstance : Term :=
  .substOp (.schema boundVar) (.schema (termVar "#t")) (.schema (formulaVar "#phi"))

theorem instantiates_of_name {d : RuleDraft} (hd : d ∈ firstOrderDrafts)
    (hname : d.name = "allLeft" ∨ d.name = "exRight") :
    d.assumes.isEmpty ∧ d.conditions = [] ∧ ∃ goal side q,
      d.Instantiates goal side q boundVar (termVar "#t") (formulaVar "#phi") := by
  have hquantifier : d ∈ quantifierDrafts := by
    refine (List.mem_append.mp hd).resolve_left fun hd => ?_
    have hnames : ∀ d ∈ propositionalDrafts, d.name ≠ "allLeft" ∧ d.name ≠ "exRight" := by
      decide +kernel
    rcases hname with hname | hname
    · exact (hnames d hd).1 hname
    · exact (hnames d hd).2 hname
  simp only [quantifierDrafts, List.mem_cons, List.not_mem_nil, or_false] at hquantifier
  rcases hquantifier with rfl | rfl | rfl | rfl
  case inl | inr.inl => simp at hname
  case inr.inr.inl | inr.inr.inr => exact ⟨rfl, rfl, _, _, _, rfl, rfl, rfl, rfl, rfl⟩

theorem schemaVars_of_name : ∀ r ∈ firstOrder, r.name = "allLeft" ∨ r.name = "exRight" →
    r.schemaVars = [boundVar, formulaVar "#phi", termVar "#t"] := by
  decide +kernel

/-- **The instance that is added**: executing the template puts the value of `#t` in place of the
quantified variable. -/
theorem bodyInstance_execute (rule : String) {σ : Instantiations} {x : LogicVar} {u body : Term}
    (hx : σ.logicVar? boundVar = some x) (ht : σ.get? (termVar "#t") = some (.term u))
    (hbody : σ.get? (formulaVar "#phi") = some (.term body)) :
    bodyInstance.instantiateAndExecute rule σ =
      .ok (Term.subst x u.executeSubsts body.executeSubsts) := by
  have hbinders : Term.instantiateBinders σ [.schema boundVar] = .ok [.logic x] := by
    rw [Term.instantiateBinders, hx]
    rfl
  have hinst : bodyInstance.instantiate rule σ =
      .ok (.node .subst [([], u), ([.logic x], body)] []) := by
    refine (Term.instantiate_node_eq_ok fun _ => Operator.noConfusion).mpr
      ⟨[], .subst, _, rfl, rfl, ?_, rfl⟩
    refine Term.instantiateArgs_cons_eq_ok.mpr ⟨u, [], _, ?_, rfl, ?_, rfl⟩
    · exact Term.instantiate_unlabelled_eq_ok.mpr (Term.instantiateVar_of_term ht)
    refine Term.instantiateArgs_cons_eq_ok.mpr ⟨body, _, [], ?_, hbinders, rfl, rfl⟩
    exact Term.instantiate_unlabelled_eq_ok.mpr (Term.instantiateVar_of_term hbody)
  rw [Term.instantiateAndExecute, hinst]
  rfl

end Calculus

/-- **A match that waits for the term of an instance**: the variable and the body of a quantified
formula are found, and `#t` is open. -/
structure RuleApp.AwaitsTerm (found : RuleApp) (o : Occurrence) (x : LogicVar)
    (body : Term) : Prop where
  /-- the focus is a formula as a whole -/
  focus : found.focus = some o ∧ o.pos = []
  /-- it is quantified -/
  formula : ∃ q ls, o.formula.term = .node (.quantifier q) [([.logic x], body)] ls
  /-- the variable is one for objects -/
  sort : x.sort.isSubsortOf .any
  /-- the variable and the body are what is bound -/
  insts : found.insts =
    ⟨[(Calculus.formulaVar "#phi", .term body), (Calculus.boundVar, .term (.var x))], none⟩
  /-- nothing has to be found in the sequent -/
  assumed : found.assumed.isSome
  /-- there are no side conditions -/
  conditions : found.rule.conditions = []
  /-- the term is open, and nothing else is -/
  openVars : found.openVars = [Calculus.termVar "#t"]
  /-- the rule adds an instance on the side of the focus -/
  templates : found.rule.templates.flatMap GoalTemplate.formulas = [(o.side, Calculus.bodyInstance)]

theorem Sequent.isSubsortOf_any_of_mem_groundTerms {seq : Sequent} {u : Term}
    (h : u ∈ seq.groundTerms) :
    u.sort.isSubsortOf .any := by
  have hformula : u.sort.isFormula = false := isFormula_of_mem_groundTerms h
  simp [SortName.isSubsortOf, hformula]

/-- Such a match is completed by all ground terms. -/
theorem RuleApp.completions_of_awaitsTerm {found : RuleApp} {o : Occurrence}
    {x : LogicVar} {body : Term} (h : found.AwaitsTerm o x body) (seq : Sequent) :
    found.completions seq = seq.groundTerms.map (found.bind (Calculus.termVar "#t")) := by
  have hall : (seq.groundTerms.filter fun u => u.sort.isSubsortOf .any) = seq.groundTerms :=
    List.filter_eq_self.mpr fun u hu => Sequent.isSubsortOf_any_of_mem_groundTerms hu
  rw [completions_of_openVars h.assumed h.conditions h.openVars rfl rfl, hall]

namespace Calculus

theorem awaitsTerm_of_finds {found : RuleApp} (h : (RuleBase.ofRules firstOrder).Finds found)
    (hname : found.rule.name = "allLeft" ∨ found.rule.name = "exRight") :
    ∃ o x body, found.AwaitsTerm o x body := by
  rcases h with ⟨side, f, hfound⟩ | ⟨rule, hrule, rfl⟩
  · obtain ⟨pos, sub, rule, σ, hpos, hrule, hadmits, hfind, rfl⟩ := RuleApp.mem_matchesIn.mp hfound
    have hmem : rule ∈ firstOrder := RuleBase.mem_ofRules (RuleApp.mem_candidates hrule)
    have hvars : rule.schemaVars = _ := schemaVars_of_name rule hmem hname
    obtain ⟨hassumes, hconditions, template, side', q, hinst⟩ :=
      instantiates_of_name (mem_firstOrderDrafts hmem) hname
    -- the focus is a formula on the side of the rule, and the pattern matches it
    obtain ⟨hpattern, hplace⟩ := CalculusStep.pattern?_of_sided? hinst.find
    obtain ⟨rfl, htop⟩ := hplace side _ hadmits
    obtain rfl := List.isEmpty_iff.mp htop
    obtain rfl := Term.eq_of_nil_mem_positions hpos
    obtain ⟨p, hp, hmatch, -⟩ := RuleApp.matchFind_eq_some.mp hfind
    obtain rfl := Option.some.inj (hpattern.symm.trans hp)
    obtain ⟨x, body, ls, hterm, hsort, rfl⟩ :=
      Term.matchInto_quantify rfl (by decide) hmatch
    refine ⟨_, x, body, ⟨rfl, rfl⟩, ⟨q, ls, hterm⟩, hsort, rfl, ?_, hconditions, ?_, ?_⟩
    · rw [RuleApp.ofMatch, if_pos hassumes]
      rfl
    · rw [RuleApp.openVars, RuleApp.ofMatch, hvars]
      rfl
    · rw [RuleApp.ofMatch, hinst.templates]
      simp [hinst.formulas, bodyInstance]
  · obtain ⟨hrule, hnone⟩ := List.mem_filter.mp hrule
    obtain ⟨-, -, _, _, _, hinst⟩ :=
      instantiates_of_name (mem_firstOrderDrafts (RuleBase.mem_ofRules hrule)) hname
    have hsome : rule.find.pattern? = some _ := (CalculusStep.pattern?_of_sided? hinst.find).1
    rw [hsome] at hnone
    cases hnone

end Calculus

namespace Proof

variable {root : Sequent} {strategy : DefaultStrategy} {p : Proof} {g : GoalId} {goal : Goal}
  {app : RuleApp}

open Calculus

/-- **Which term a quantifier is instantiated with.** Whatever the root, the feature by which a
default strategy ranks and the applications that were made: if a goal hands out an application of
`allLeft` or `exRight`, its focus is a quantified formula, the term for the instance is a ground
term of the goal that is not a formula, and the formula that is added is the body with that term for
the variable. The sorts of the term and of the variable lie below `any`, which is all that the rules
ask for: for one match the terms that are tried are all ground terms of the goal, in order. So the
sort of the term lies below that of the variable if and only if the latter is `any` or the two are
the same. -/
theorem Reached.instance_by_ground_term (h : Reached root Calculus.firstOrder strategy p)
    (hgoal : p.goal? g = some goal) (happ : (p.nextApp g).1 = some app)
    (hname : app.rule.name = "allLeft" ∨ app.rule.name = "exRight") :
    ∃ o q x body ls u, app.focus = some o ∧ o.pos = [] ∧
      o.formula.term = .node (.quantifier q) [([.logic x], body)] ls ∧
      app.insts.logicVar? boundVar = some x ∧ x.sort.isSubsortOf .any ∧
      app.insts.get? (termVar "#t") = some (.term u) ∧ u ∈ goal.sequent.groundTerms ∧
      u.sort.isSubsortOf .any ∧ (u.sort.isSubsortOf x.sort ↔ x.sort = .any ∨ x.sort = u.sort) ∧
      app.rule.templates.flatMap GoalTemplate.formulas = [(o.side, bodyInstance)] ∧
      bodyInstance.instantiateAndExecute app.rule.name app.insts =
        .ok (Term.subst x u.executeSubsts body.executeSubsts) ∧
      ∃ found ∈ goal.index.apps, app ∈ found.completions goal.sequent ∧
        (found.completions goal.sequent).map (·.insts.get? (termVar "#t")) =
          goal.sequent.groundTerms.map fun t => some (.term t) := by
  obtain ⟨found, hindex, hfinds, hdone⟩ := h.completes hgoal happ
  rw [hfinds.rule_eq hdone] at hname
  obtain ⟨o, x, body, hmatch⟩ := awaitsTerm_of_finds hfinds hname
  have hterms := found.completions_of_awaitsTerm hmatch goal.sequent
  obtain ⟨u, hu, rfl⟩ := List.mem_map.mp (hterms ▸ hdone)
  obtain ⟨q, ls, hformula⟩ := hmatch.formula
  have hinsts : (found.bind (termVar "#t") u).insts = ⟨[(termVar "#t", .term u),
      (formulaVar "#phi", .term body), (boundVar, .term (.var x))], none⟩ := by
    rw [RuleApp.bind, hmatch.insts]
  have hx : (found.bind (termVar "#t") u).insts.logicVar? boundVar = some x := by
    rw [hinsts]
    rfl
  have ht : (found.bind (termVar "#t") u).insts.get? (termVar "#t") = some (.term u) := by
    rw [RuleApp.get?_bind, if_pos rfl]
  have hbody : (found.bind (termVar "#t") u).insts.get? (formulaVar "#phi") =
      some (.term body) := by
    rw [hinsts]
    rfl
  refine ⟨o, q, x, body, ls, u, hmatch.focus.1, hmatch.focus.2, hformula, hx, hmatch.sort, ht, hu,
    Sequent.isSubsortOf_any_of_mem_groundTerms hu, ?_, hmatch.templates,
    bodyInstance_execute _ hx ht hbody, found, hindex, hdone, ?_⟩
  · have hterm : u.sort.isFormula = false := Sequent.isFormula_of_mem_groundTerms hu
    rw [eq_comm (b := u.sort), or_comm]
    simp [SortName.isSubsortOf, hterm]
  · rw [hterms, List.map_map]
    exact List.map_congr_left fun t _ => (RuleApp.get?_bind ..).trans (if_pos rfl)

/-- `\forall x; p(x), q(c) ==>` for a variable and a constant of given sorts. -/
private def sorted (ofVar ofConst : SortName) : Sequent :=
  let x : LogicVar := ⟨"x", ofVar⟩
  { antec := [⟨.all x (.app (.predicate "p" 1) [.var x]), rfl⟩,
      ⟨.app (.predicate "q" 1) [.const "c" ofConst], rfl⟩] }

/-- Where the variable has the sort `any`, the formula is instantiated with the constant, whatever
its sort. -/
theorem instance_by_ground_term_sorted : ∃ goal app x u,
    (start (sorted .any .int) Calculus.firstOrder (.ofSettings {})).goal? 0 = some goal ∧
      ((start (sorted .any .int) Calculus.firstOrder (.ofSettings {})).nextApp 0).1 = some app ∧
      app.rule.name = "allLeft" ∧ app.insts.logicVar? boundVar = some x ∧
      app.insts.get? (termVar "#t") = some (.term u) ∧ u ∈ goal.sequent.groundTerms ∧
      (u.sort.isSubsortOf x.sort ↔ x.sort = .any ∨ x.sort = u.sort) := by
  have hfirst : ((start (sorted .any .int) Calculus.firstOrder (.ofSettings {})).nextApp 0).1.any
      (·.rule.name == "allLeft") := by
    cbv
  obtain ⟨app, happ, hname⟩ := (Option.any_eq_true _ _).mp hfirst
  have hname : app.rule.name = "allLeft" := eq_of_beq hname
  obtain ⟨goal, hgoal⟩ : ∃ goal,
      (start (sorted .any .int) Calculus.firstOrder (.ofSettings {})).goal? 0 = some goal :=
    ⟨_, rfl⟩
  obtain ⟨-, -, x, -, -, u, -, -, -, hx, -, hu, hmem, -, hsorts, -⟩ :=
    Reached.instance_by_ground_term .start hgoal happ (.inl hname)
  exact ⟨goal, app, x, u, hgoal, happ, hname, hx, hu, hmem, hsorts⟩

/-- **A term of another sort.** In `\forall x; p(x), q(c) ==>` with an integer variable and a
boolean constant the first step of the search instantiates the formula with the constant. -/
theorem exists_instance_of_other_sort : ∃ app x u,
    ((start (sorted .int .boolean) Calculus.firstOrder (.ofSettings {})).nextApp 0).1 = some app ∧
      app.rule.name = "allLeft" ∧ app.insts.logicVar? boundVar = some x ∧
      app.insts.term? (termVar "#t") = some u ∧ x.sort = .int ∧ u = .const "c" .boolean ∧
      u.sort.isSubsortOf x.sort = false := by
  have hfirst : ((start (sorted .int .boolean) Calculus.firstOrder
      (.ofSettings {})).nextApp 0).1.any fun app => app.rule.name == "allLeft" &&
        app.insts.logicVar? boundVar == some ⟨"x", .int⟩ &&
        app.insts.term? (termVar "#t") == some (.const "c" .boolean) := by
    cbv
  obtain ⟨app, happ, hfirst⟩ := (Option.any_eq_true _ _).mp hfirst
  simp only [Bool.and_eq_true, beq_iff_eq] at hfirst
  obtain ⟨⟨hname, hx⟩, hu⟩ := hfirst
  exact ⟨app, _, _, happ, hname, hx, hu, rfl, rfl, by decide⟩

end Proof

end SequentSearch
