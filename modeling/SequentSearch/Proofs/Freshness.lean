import Mathlib
import SequentSearch.Calculus.FirstOrder
import SequentSearch.Proofs.Origins
import SequentSearch.Proofs.Runs
import SequentSearch.Settings

/-!
# Fresh constants

A constant that a rule draws has a name that the name supply does not know. Is it new to the goal?
The supply knows the names of the root and those it handed out itself. Names also come in with terms
that are supplied by hand and with the templates of rules, and nobody tells the supply about them.
So a constant is new to its goal unless it has the name of a function symbol from one of these two
sources.

* `Proof.Session` extends runs by applications that are chosen by hand and completed with any terms.
* `Proof.Session.accounted` says that every name in a goal of a session is accounted for: it is
  known to the supply, comes from one of the two sources, or is not numbered and thus never drawn.
-/

namespace SequentSearch

/-! ## Drawn names -/

/-- The names of the function symbols of a term. -/
def Term.funNames (t : Term) : List String := t.symbols.map FunSym.name

/-- The names of the function symbols of a sequent. -/
def Sequent.funNames (s : Sequent) : List String := s.formulas.flatMap fun e => e.2.term.funNames

theorem Sequent.mem_funNames {s : Sequent} {name : String} :
    name ∈ s.funNames ↔ ∃ side, ∃ φ ∈ s.side side, ∃ f ∈ φ.term.symbols, f.name = name := by
  simp only [funNames, Term.funNames, List.mem_flatMap, List.mem_map, Prod.exists, mem_formulas]

namespace RuleApp

variable {seq : Sequent}

/-- Executing the application gives a schema variable the constant of a new name: the application
can be executed as far as to drawing constants, and the variable has no value before. -/
def DrawsName (app : RuleApp) (seq : Sequent) (ns : NameSupply) (sv : SchemaVar)
    (name : String) : Prop :=
  app.isComplete ∧ (∃ focus, app.locateFocus seq = .ok focus) ∧ app.insts.get? sv = none ∧
    (drawConstants app.rule.schemaVars app.insts ns).1.get? sv = some (.term (.const name sv.sort))

instance (app : RuleApp) (seq : Sequent) : Decidable (∃ focus, app.locateFocus seq = .ok focus) :=
  match app.locateFocus seq with
  | .ok focus => .isTrue ⟨focus, rfl⟩
  | .error _ => .isFalse nofun

instance (app : RuleApp) (seq : Sequent) (ns : NameSupply) (sv : SchemaVar) (name : String) :
    Decidable (app.DrawsName seq ns sv name) := inferInstanceAs (Decidable (_ ∧ _ ∧ _ ∧ _))

/-- A drawn name is not in use, and numbered. -/
theorem DrawsName.not_mem {app : RuleApp} {ns : NameSupply} {sv : SchemaVar} {name : String}
    (h : app.DrawsName seq ns sv name) : name ∉ ns.used ∧ ¬ Unnumbered name := by
  obtain ⟨-, -, hnone, hdrawn⟩ := h
  have hdraws := drawConstants_spec (τ := (drawConstants app.rule.schemaVars app.insts ns).1) rfl
  rcases hdraws.fresh sv _ hdrawn with hold | ⟨n, heq, -, hunused, -, k, hk⟩
  · cases hnone.symm.trans hold
  · obtain rfl : name = n := by
      simpa [Term.const, Term.app, Term.plain, FunSym.constant, FunSym.function] using heq
    exact ⟨hunused, hk ▸ NameGen.not_unnumbered _ _⟩

end RuleApp

/-! ## Sessions -/

/-- A name that is accounted for: it is known to the supply, comes from one of the terms, or is not
numbered. -/
def NameSupply.Accounts (ns : NameSupply) (terms : List Term) (name : String) : Prop :=
  name ∈ ns.used ∨ (∃ t ∈ terms, ∃ f ∈ t.symbols, f.name = name) ∨ Unnumbered name

theorem NameSupply.Accounts.mono {ns ns' : NameSupply} {terms terms' : List Term} {name : String}
    (h : ns.Accounts terms name) (hns : ∀ n ∈ ns.used, n ∈ ns'.used) (hterms : terms ⊆ terms') :
    ns'.Accounts terms' name := by
  rcases h with hused | ⟨t, ht, hname⟩ | hunnumbered
  · exact .inl (hns name hused)
  · exact .inr (.inl ⟨t, hterms ht, hname⟩)
  · exact .inr (.inr hunnumbered)

theorem NameSupply.accounts_of_mem {ns : NameSupply} {terms : List Term} {t : Term}
    (ht : t ∈ terms) :
    t.NamedIn (ns.Accounts terms) := fun f hf => .inr (.inl ⟨t, ht, f, hf, rfl⟩)

namespace Proof

variable {root : Sequent} {rules : List Rule} {strategy : DefaultStrategy} {p : Proof}
  {apps : List RuleApp} {supplied terms : List Term} {g : GoalId} {goal : Goal} {app : RuleApp}

/-- **The sessions of a proof from a root**, together with the applications at hand and the terms
that were supplied. An application at hand was handed out by automatic search, was chosen among the
applicable ones, or is such an application with terms supplied. It may be made at any time, on any
goal. -/
inductive Session (root : Sequent) (rules : List Rule) (strategy : Strategy) :
    Proof → List RuleApp → List Term → Prop where
  /-- the root is the only goal -/
  | start : Session root rules strategy (start root rules strategy) [] []
  /-- a goal is asked for its next application -/
  | ask {p : Proof} {apps : List RuleApp} {supplied : List Term}
      (h : Session root rules strategy p apps supplied) (g : GoalId) :
      Session root rules strategy (p.nextApp g).2 ((p.nextApp g).1.toList ++ apps) supplied
  /-- an application is chosen by hand -/
  | choose {p : Proof} {apps : List RuleApp} {supplied : List Term} {g : GoalId}
      {focus : Option Occurrence} {app : RuleApp} (h : Session root rules strategy p apps supplied)
      (happ : app ∈ p.applicable g focus) : Session root rules strategy p (app :: apps) supplied
  /-- a term is supplied for a schema variable of an application -/
  | supply {p : Proof} {apps : List RuleApp} {supplied : List Term} {app done : RuleApp}
      {sv : SchemaVar} {t : Term} (h : Session root rules strategy p apps supplied)
      (happ : app ∈ apps) (hdone : app.supply sv t = some done) :
      Session root rules strategy p (done :: apps) (t :: supplied)
  /-- an application is made -/
  | apply {p : Proof} {apps : List RuleApp} {supplied : List Term} {app : RuleApp}
      (h : Session root rules strategy p apps supplied) (happ : app ∈ apps) (g : GoalId) :
      Session root rules strategy (p.apply g app).2 apps supplied

theorem Session.reached (h : Session root rules strategy p apps supplied) :
    Reached root rules strategy p := by
  induction h with
  | start => exact .start
  | ask _ g ih => exact ih.ask g
  | choose _ _ ih => exact ih
  | supply _ _ _ ih => exact ih
  | apply _ _ g ih => exact ih.apply g _

/-- The terms whose names the supply is not told about: those that were supplied by hand, and those
of the goal templates. -/
def unregistered (rules : List Rule) (supplied : List Term) : List Term :=
  supplied ++ (rules.flatMap (·.templates)).flatMap GoalTemplate.terms

/-- **All names in a proof are accounted for**, those of its goals and those of the applications at
hand. -/
structure Accounted (p : Proof) (apps : List RuleApp) (terms : List Term) : Prop where
  /-- the terms include those of the goal templates -/
  templates : ∀ r ∈ p.base.rules, ∀ g ∈ r.templates, ∀ t ∈ g.terms, t ∈ terms
  /-- goals fit -/
  goals : ∀ g goal, p.goal? g = some goal → goal.Fits p.base (Term.NamedIn (p.names.Accounts terms))
    fun _ v => v.NamedIn (p.names.Accounts terms)
  /-- applications were found by matching -/
  apps : ∀ app ∈ apps, app.Matched p.base fun _ v => v.NamedIn (p.names.Accounts terms)

theorem accounted_start (root : Sequent) (rules : List Rule) (strategy : DefaultStrategy) :
    (start root rules strategy).Accounted [] (unregistered rules []) where
  templates r hr g hg t ht :=
    List.mem_flatMap.mpr ⟨g, List.mem_flatMap.mpr ⟨r, RuleBase.mem_ofRules hr, hg⟩, ht⟩
  goals := by
    refine fits_start (RuleBase.sources_namedIn _ _) (fun side φ hφ f hf =>
      .inl ?_) strategy.regular
    exact NameSupply.registerSequent_covers _ root (f := (side, φ))
      (Sequent.mem_formulas.mpr hφ) f hf
  apps _ happ := nomatch happ

theorem Accounted.ask (h : p.Accounted apps terms) (g : GoalId) :
    (p.nextApp g).2.Accounted ((p.nextApp g).1.toList ++ apps) terms := by
  obtain ⟨hbase, -, hnames, -⟩ := nextApp_keeps p g
  refine ⟨?_, ?_, fun app happ => ?_⟩
  · rw [hbase]
    exact h.templates
  · rw [hbase, hnames]
    exact fits_nextApp h.goals
  · rw [hbase, hnames]
    rcases List.mem_append.mp happ with happ | happ
    · exact (matched_nextApp h.goals (Option.mem_toList.mp happ)).1
    · exact h.apps app happ

theorem Accounted.choose (h : p.Accounted apps terms) {focus : Option Occurrence}
    (happ : app ∈ p.applicable g focus) : p.Accounted (app :: apps) terms := by
  refine ⟨h.templates, h.goals, List.forall_mem_cons.mpr ⟨?_, h.apps⟩⟩
  unfold Proof.applicable at happ
  split at happ <;> rename_i hgoal
  · obtain ⟨found, hfound, hdone⟩ := List.mem_filterMap.mp happ
    have hmem : found ∈ _ := (List.mem_filter.mp (List.mem_filter.mp hfound).1).1
    have hfits := h.goals g _ hgoal
    obtain ⟨hmatched, hassumed⟩ := hfits.index found hmem
    exact (hmatched.findAssumed (p.base.sources_namedIn _) hfits.sequent (hassumed _) hdone).1
  · cases happ

theorem Accounted.supply (h : p.Accounted apps terms) {done : RuleApp} {sv : SchemaVar} {t : Term}
    (happ : app ∈ apps) (hdone : app.supply sv t = some done) :
    p.Accounted (done :: apps) (t :: terms) := by
  -- from now on the term itself accounts for its names
  have hmono : ∀ n, p.names.Accounts terms n → p.names.Accounts (t :: terms) n :=
    fun n hn => hn.mono (fun _ hm => hm) (List.subset_cons_self t terms)
  have hmatched : ∀ a ∈ apps, a.Matched p.base fun _ v =>
      v.NamedIn (p.names.Accounts (t :: terms)) :=
    fun a ha => (h.apps a ha).mono fun _ _ hv => hv.mono hmono
  refine ⟨fun r hr g hg u hu => List.mem_cons_of_mem _ (h.templates r hr g hg u hu),
    fun g goal hgoal => ?_, List.forall_mem_cons.mpr ⟨?_, hmatched⟩⟩
  · exact (h.goals g goal hgoal).mono (fun _ hu => hu.mono hmono) fun _ _ hv => hv.mono hmono
  · refine ((hmatched app happ).supply (fun _ => ?_) hdone).1
    rintro _ ⟨⟩
    exact NameSupply.accounts_of_mem (List.mem_cons_self ..)

theorem Accounted.apply (h : p.Accounted apps terms) (htree : p.Tree)
    (hstrategy : p.strategy.Regular) (happ : app ∈ apps) (g : GoalId) :
    (p.apply g app).2.Accounted apps terms := by
  obtain ⟨hbase, -, hgrows⟩ := apply_keeps htree g app
  -- the supply only grows, also if the step fails after constants were drawn
  have hmono : ∀ n, p.names.Accounts terms n → (p.apply g app).2.names.Accounts terms n :=
    fun n hn => hn.mono hgrows fun _ ht => ht
  refine ⟨?_, ?_, fun a ha => ?_⟩
  · rw [hbase]
    exact h.templates
  · rw [hbase]
    have hgoals : ∀ i goal, p.goal? i = some goal →
        goal.Fits p.base (Term.NamedIn ((p.apply g app).2.names.Accounts terms))
          fun _ v => v.NamedIn ((p.apply g app).2.names.Accounts terms) := fun i goal hgoal =>
      (h.goals i goal hgoal).mono (fun _ hu => hu.mono hmono) fun _ _ hv => hv.mono hmono
    refine fits_apply htree (p.base.sources_namedIn _) hstrategy hgoals
      fun goal succs hgoal hexec s hs => ?_
    have hmatched := h.apps app happ
    refine RuleApp.execute_namedIn hexec hs (hgoals g goal hgoal).sequent
      (fun sv v hv => (hmatched.values sv v hv).mono hmono) (fun t ht u hu => ?_)
      (fun n hn => .inl hn) fun n hn => .inr (.inr hn)
    exact NameSupply.accounts_of_mem (h.templates _ hmatched.rule_mem t ht u hu)
  · rw [hbase]
    exact (h.apps a ha).mono fun _ _ hv => hv.mono hmono

/-- **All names in a session are accounted for.** -/
theorem Session.accounted (h : Session root rules strategy p apps supplied) :
    p.Accounted apps (unregistered rules supplied) := by
  induction h with
  | start => exact accounted_start root rules strategy
  | ask _ g ih => exact ih.ask g
  | choose _ happ ih => exact ih.choose happ
  | supply _ happ hdone ih => exact ih.supply happ hdone
  | apply h happ g ih => exact ih.apply h.reached.tree h.reached.regular happ g

/-- **A drawn constant is new to its goal**, unless it has the name of a function symbol in a term
that was supplied by hand or in a goal template. -/
theorem Session.drawn_not_mem (h : Session root rules strategy p apps supplied)
    (hgoal : p.goal? g = some goal) {sv : SchemaVar} {name : String}
    (hdraws : app.DrawsName goal.sequent p.names sv name)
    (hname : ∀ t ∈ unregistered rules supplied, name ∉ t.funNames) :
    name ∉ goal.sequent.funNames := by
  intro hmem
  obtain ⟨side, φ, hφ, f, hf, rfl⟩ := Sequent.mem_funNames.mp hmem
  obtain ⟨hunused, hnumbered⟩ := hdraws.not_mem
  -- a name of the goal is accounted for in one of three ways, of which none is left
  rcases (h.accounted.goals g goal hgoal).sequent side φ hφ f hf with
    hused | ⟨t, ht, c, hc, hsame⟩ | hun
  · exact hunused hused
  · exact hname t ht (List.mem_map.mpr ⟨c, hc, hsame⟩)
  · exact hnumbered hun

/-! ### Names that are drawn twice -/

/-- `==> \exists y; \forall x; r(y, x)`. -/
private def boundExists : Sequent :=
  let x : LogicVar := ⟨"x", .any⟩
  let y : LogicVar := ⟨"y", .any⟩
  { succ := [⟨.ex y (.all x (.app (.predicate "r" 2) [.var y, .var x])), by decide⟩] }

/-- A term is supplied for the variable of the existential quantifier. Then a constant is to be
drawn for that of the universal one. -/
private def suppliedFirst (t : Term) : Option (Proof × Goal × RuleApp) := do
  let p := start boundExists Calculus.firstOrder (.ofSettings {})
  let f ← boundExists.succ.head?
  let exRight ← (p.applicable 0 (some ⟨.succ, f, []⟩)).find? (·.rule.name == "exRight")
  let done ← exRight.supply { name := "#t", kind := .term .any } t
  let q := (p.apply 0 done).2
  let goal ← q.goal? 0
  let f ← goal.sequent.succ.head?
  let allRight ← (q.applicable 0 (some ⟨.succ, f, []⟩)).find? (·.rule.name == "allRight")
  return (q, goal, allRight)

private theorem session_of_suppliedFirst {t : Term} {q : Proof} {next : RuleApp}
    (h : suppliedFirst t = some (q, goal, next)) : q.goal? 0 = some goal ∧
      ∃ apps, Session boundExists Calculus.firstOrder (.ofSettings {}) q (next :: apps) [t] := by
  simp only [suppliedFirst, Option.bind_eq_bind, Option.bind_eq_some_iff, Option.pure_def,
    Option.some.injEq, Prod.mk.injEq] at h
  obtain ⟨f, -, exRight, hexRight, done, hdone, goal, hgoal, f', -, allRight, hallRight, rfl,
      rfl, rfl⟩ := h
  have hchosen := Session.start.choose (List.mem_of_find?_eq_some hexRight)
  have happlied := (hchosen.supply (List.mem_cons_self ..) hdone).apply (List.mem_cons_self ..) 0
  exact ⟨hgoal, _, happlied.choose (List.mem_of_find?_eq_some hallRight)⟩

/-- The constant that is drawn after `c` was supplied is new. -/
theorem drawn_not_mem_supplied : ∃ p apps goal, ∃ (app : RuleApp) (sv : SchemaVar),
    Session boundExists Calculus.firstOrder (.ofSettings {}) p apps [.const "c" .any] ∧
      p.goal? 0 = some goal ∧ app.DrawsName goal.sequent p.names sv "sk_0" ∧
      (∀ t ∈ unregistered Calculus.firstOrder [.const "c" .any], "sk_0" ∉ t.funNames) ∧
      "sk_0" ∉ goal.sequent.funNames := by
  have hrun : (suppliedFirst (.const "c" .any)).any fun r =>
      decide (r.2.2.DrawsName r.2.1.sequent r.1.names
        { name := "#sk", kind := .skolem .any } "sk_0") := by
    cbv
  obtain ⟨⟨p, goal, app⟩, hsome, hdraws⟩ := (Option.any_eq_true _ _).mp hrun
  obtain ⟨hgoal, apps, hsession⟩ := session_of_suppliedFirst hsome
  have hdraws := of_decide_eq_true hdraws
  have hname : ∀ t ∈ unregistered Calculus.firstOrder [.const "c" .any], "sk_0" ∉ t.funNames := by
    decide +kernel
  exact ⟨p, _, goal, app, _, hsession, hgoal, hdraws, hname,
    Session.drawn_not_mem hsession hgoal hdraws hname⟩

/-- A rule that adds `p(#c, c_1)` for a fresh constant `#c`. -/
private def naming : RuleDraft :=
  let c : SchemaVar := { name := "#c", kind := .skolem .any }
  { name := "naming"
    templates := [{ add := {
      antec := [.app (.predicate "p" 2) [.schema c, .const "c_1" .any]] } }] }

/-- The rule is applied once, and is to be applied a second time. -/
private def namedOnce : Option (Proof × Goal × RuleApp) := do
  let p := start .empty (RuleDraft.acceptAll [naming]) (.ofSettings {})
  let app ← (p.applicable 0 none).head?
  let q := (p.apply 0 app).2
  let goal ← q.goal? 0
  return (q, goal, app)

private theorem session_of_namedOnce {q : Proof} {next : RuleApp}
    (h : namedOnce = some (q, goal, next)) : q.goal? 0 = some goal ∧
      Session .empty (RuleDraft.acceptAll [naming]) (.ofSettings {}) q [next] [] := by
  simp only [namedOnce, Option.bind_eq_bind, Option.bind_eq_some_iff, Option.pure_def,
    Option.some.injEq, Prod.mk.injEq] at h
  obtain ⟨app, happ, goal, hgoal, rfl, rfl, rfl⟩ := h
  have hchosen := Session.start.choose (List.mem_of_mem_head? happ)
  exact ⟨hgoal, hchosen.apply (List.mem_cons_self ..) 0⟩

/-- **A drawn constant need not be new to its goal.** Its name is there already if it was supplied
by hand before, and also if it is in a goal template, with nothing supplied at all. -/
theorem exists_drawn_mem :
    (∃ p apps goal, ∃ app ∈ apps, ∃ sv : SchemaVar,
      Session boundExists Calculus.firstOrder (.ofSettings {}) p apps [.const "sk_0" .any] ∧
        p.goal? 0 = some goal ∧ app.DrawsName goal.sequent p.names sv "sk_0" ∧
        "sk_0" ∈ goal.sequent.funNames) ∧
    ∃ p apps goal, ∃ app ∈ apps, ∃ sv : SchemaVar,
      Session .empty (RuleDraft.acceptAll [naming]) (.ofSettings {}) p apps [] ∧
        p.goal? 0 = some goal ∧ app.DrawsName goal.sequent p.names sv "c_1" ∧
        "c_1" ∈ goal.sequent.funNames := by
  constructor
  · have hrun : (suppliedFirst (.const "sk_0" .any)).any fun r =>
        decide (r.2.2.DrawsName r.2.1.sequent r.1.names
          { name := "#sk", kind := .skolem .any } "sk_0") &&
          r.2.1.sequent.funNames.contains "sk_0" := by
      cbv
    obtain ⟨⟨p, goal, app⟩, hsome, hclash⟩ := (Option.any_eq_true _ _).mp hrun
    obtain ⟨hgoal, apps, hsession⟩ := session_of_suppliedFirst hsome
    obtain ⟨hdraws, hmem⟩ := Bool.and_eq_true_iff.mp hclash
    exact ⟨p, _, goal, app, List.mem_cons_self .., _, hsession, hgoal, of_decide_eq_true hdraws,
      List.contains_iff_mem.mp hmem⟩
  · have hrun : namedOnce.any fun r =>
        decide (r.2.2.DrawsName r.2.1.sequent r.1.names
          { name := "#c", kind := .skolem .any } "c_1") &&
          r.2.1.sequent.funNames.contains "c_1" := by
      cbv
    obtain ⟨⟨p, goal, app⟩, hsome, hclash⟩ := (Option.any_eq_true _ _).mp hrun
    obtain ⟨hgoal, hsession⟩ := session_of_namedOnce hsome
    obtain ⟨hdraws, hmem⟩ := Bool.and_eq_true_iff.mp hclash
    exact ⟨p, _, goal, app, List.mem_cons_self .., _, hsession, hgoal, of_decide_eq_true hdraws,
      List.contains_iff_mem.mp hmem⟩

end Proof

end SequentSearch
