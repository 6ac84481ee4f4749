import Mathlib
import SequentSearch.Proofs.CompleteIndices
import SequentSearch.Proofs.Offers
import SequentSearch.Proofs.QuantifierInstances
import SequentSearch.Proofs.Turns

/-!
# Queues are up to date

An application is found in the sequent of one goal, is kept in the indices of the goals below, is
completed when a queue is filled, and is executed later. It could be **outdated** by then: its goal
is not open any more, its focus or an assumed formula is gone, or it is not complete. It never is.

* `RuleApp.Current` says what makes an application ready to be executed. Executing it can fail, but
  not for one of these reasons (`RuleApp.Current.isOutdated_of_execute`).
* A strategy is asked to turn the applications that matching found into complete ones. What this
  means is `Strategy.Completes`, and the default strategy keeps to it (`DefaultStrategy.completes`).
* Whatever requests are made, indices hold nothing but what is in their sequents, and queues hold
  what such strategies make of it (`Proof.UpToDate`). So what is handed out is ready
  (`Proof.UpToDate.current`).

An index can miss something if the root has a formula twice, and nothing here needs that it does
not.
-/

namespace SequentSearch

/-! ## Errors about outdated applications -/

/-- Whether an error says that an application is not complete, or has no focus in the sequent. -/
def ExecError.isOutdated : ExecError → Bool
  | incomplete _ | staleFocus _ | noFocus _ => true
  | template _ | fault _ => false

/-- Whether an error says that an application is made too late, or before it is complete. -/
def ProofError.isOutdated : ProofError → Bool
  | goalNotOpen _ => true
  | notInteractive _ => false
  | exec e => e.isOutdated

/-- A computation does not fail because something is outdated. -/
def ExecError.Timely {α : Type} (x : Except ExecError α) : Prop :=
  ∀ e, x = .error e → e.isOutdated = false

namespace ExecError.Timely

variable {α β : Type}

theorem ok (a : α) : Timely (.ok a) := fun _ h => (nomatch h)

theorem bind {x : Except ExecError α} {f : α → Except ExecError β} (hx : Timely x)
    (hf : ∀ a, Timely (f a)) : Timely (x >>= f) := by
  cases x with
  | error err =>
    intro e h
    cases h
    exact hx err rfl
  | ok a => exact hf a

theorem mapM {f : α → Except ExecError β} {l : List α} (hf : ∀ a ∈ l, Timely (f a)) :
    Timely (l.mapM f) := by
  induction l with
  | nil => exact ok []
  | cons a l ih =>
    obtain ⟨ha, hl⟩ := List.forall_mem_cons.mp hf
    rw [List.mapM_cons]
    exact bind ha fun b => bind (ih hl) fun bs => ok (b :: bs)

theorem ofTemplate (x : Except TemplateError α) : Timely (ofTemplate x) := by
  cases x with
  | error err =>
    intro e h
    cases h
    rfl
  | ok a => exact ok a

theorem ofFault (x : Except Fault α) : Timely (ofFault x) := by
  cases x with
  | error err =>
    intro e h
    cases h
    rfl
  | ok a => exact ok a

end ExecError.Timely

namespace RuleApp

variable {base : RuleBase} {rules : List Rule} {seq : Sequent} {app : RuleApp}

/-! ## Executing current applications -/

open ExecError (Timely)

theorem timely_instantiateFormula (rule : String) (σ : Instantiations) (t : Term) :
    Timely (instantiateFormula rule σ t) :=
  .bind (.ofTemplate _) fun _ => .ofFault _

theorem timely_replaceFocus (rule : String) (σ : Instantiations) (seq : Sequent)
    (o : Occurrence) (idx : Nat) (r : Replacement) : Timely (replaceFocus rule σ seq o idx r) := by
  have hformulas : ∀ ts : List Term, Timely (ts.mapM (instantiateFormula rule σ)) := fun ts =>
    .mapM fun t _ => timely_instantiateFormula rule σ t
  cases r with
  | keep => exact .ok _
  | term t =>
    exact .bind (.ofTemplate _) fun _ => .bind (.ofFault _) fun _ => .bind (.ofFault _) fun _ =>
      .bind (.ofFault _) fun _ => .ok _
  | sequent s =>
    exact .bind (hformulas _) fun _ => .bind (.ofFault _) fun _ =>
      .bind (hformulas _) fun _ => .ok _

theorem timely_addFormulas (rule : String) (σ : Instantiations) (side : Side) (ts : List Term)
    (change : Change) : Timely (addFormulas rule σ side ts change) :=
  .bind (.mapM fun t _ => timely_instantiateFormula rule σ t) fun _ => .ok _

/-- A template needs a focus only if it replaces one. -/
theorem timely_applyTemplate {focus : Option (Occurrence × Nat)} {g : GoalTemplate}
    (h : focus = none → g.replace = .keep) (rule : String) (σ : Instantiations) (seq : Sequent) :
    Timely (applyTemplate rule σ seq focus g) := by
  have hadd : ∀ change, Timely (do
      let change ← addFormulas rule σ .antec g.add.antec change
      addFormulas rule σ .succ g.add.succ change) := fun change =>
    .bind (timely_addFormulas _ _ _ _ _) fun _ => timely_addFormulas _ _ _ _ _
  unfold applyTemplate
  simp only
  split
  · exact .bind (.ok _) hadd
  · rename_i hkeep
    exact absurd (h rfl) hkeep
  · exact .bind (timely_replaceFocus _ _ _ _ _ _) hadd

/-- **An application that is ready to be executed** on a sequent. -/
structure Current (base : RuleBase) (seq : Sequent) (app : RuleApp) : Prop where
  /-- its rule is in the base -/
  rule_mem : app.rule ∈ base.rules
  /-- it is complete -/
  complete : app.isComplete
  /-- the formula of its focus is in the sequent -/
  focus : ∀ o, app.focus = some o → o.formula ∈ seq.side o.side
  /-- it has a focus if its rule has a find part -/
  unfocused : app.focus = none → app.rule.find.pattern? = none
  /-- the assumed formulas are in the sequent -/
  assumed : app.AssumedIn seq

/-- A focus in the sequent is located. -/
theorem Current.locateFocus (h : app.Current base seq) : ∃ focus, app.locateFocus seq = .ok focus ∧
    (focus = none → app.focus = none) := by
  unfold RuleApp.locateFocus
  cases hfocus : app.focus with
  | none => exact ⟨none, rfl, fun _ => rfl⟩
  | some o =>
    obtain ⟨idx, hidx⟩ : ∃ idx, Semisequent.indexOf? (seq.side o.side) o.formula = some idx :=
      Option.isSome_iff_exists.mp (List.isSome_idxOf?.mpr (h.focus o hfocus))
    simp only [hidx]
    exact ⟨_, rfl, fun hnone => (nomatch hnone)⟩

/-- **Executing an application that is ready can fail, but not because it is outdated.** -/
theorem Current.isOutdated_of_execute (h : app.Current base seq) (hrule : app.rule.Accepted)
    {ns ns' : NameSupply} {e : ExecError} (hexec : app.execute seq ns = (.error e, ns')) :
    e.isOutdated = false := by
  obtain ⟨focus, hlocate, hfocus⟩ := h.locateFocus
  have hkeep : ∀ g ∈ app.rule.templates, focus = none → g.replace = .keep := fun g hg hnone =>
    hrule.replace_eq_keep (h.unfocused (hfocus hnone)) hg
  have htimely : ∀ σ, Timely (app.successors σ seq focus) := fun σ =>
    .mapM fun g hg => .bind (timely_applyTemplate (hkeep g hg) _ _ _) fun _ => .ok _
  rw [execute, if_pos h.complete, hlocate] at hexec
  exact htimely _ e (Prod.ext_iff.mp hexec).1

/-! ## Completing applications -/

theorem FoundIn.matched (h : app.FoundIn rules seq) :
    app.Matched (.ofRules rules) fun _ _ => True := by
  rcases foundIn_iff.mp h with ⟨side, f, -, hfound⟩ | ⟨rule, hrule, rfl⟩
  · exact matched_of_mem_matchesIn (RuleBase.sources_true _) trivial hfound
  · exact matched_withoutFocus hrule

theorem FoundIn.assumedIn (h : app.FoundIn rules seq) : app.AssumedIn seq := by
  cases h with
  | focused => exact assumedIn_ofMatch _ _ _ seq
  | unfocused => exact assumedIn_ofMatch _ _ _ seq

theorem FoundIn.focus_mem (h : app.FoundIn rules seq) :
    ∀ o, app.focus = some o → o.formula ∈ seq.side o.side := by
  cases h with
  | focused hf =>
    rintro o ⟨⟩
    exact hf
  | unfocused => exact fun o ho => (nomatch ho)

/-- **A complete application that another one is turned into**: it is of the same rule to the same
focus, and what it assumes is in the sequent. -/
structure IsCompletion (app : RuleApp) (seq : Sequent) (done : RuleApp) : Prop where
  /-- it is complete -/
  complete : done.isComplete
  /-- the rule is the same -/
  rule_eq : done.rule = app.rule
  /-- the focus is the same -/
  focus_eq : done.focus = app.focus
  /-- the assumed formulas are in the sequent -/
  assumed : done.AssumedIn seq

/-- Completing what was found in the sequent makes it ready. -/
theorem FoundIn.current {done : RuleApp} (h : app.FoundIn rules seq)
    (hdone : app.IsCompletion seq done) :
    done.Current (.ofRules rules) seq where
  rule_mem := hdone.rule_eq ▸ h.matched.rule_mem
  complete := hdone.complete
  focus := hdone.focus_eq ▸ h.focus_mem
  unfocused hnone := by
    rw [hdone.rule_eq]
    exact h.matched.unfocused (hdone.focus_eq ▸ hnone)
  assumed := hdone.assumed

end RuleApp

/-- **What a strategy has to keep to** when it completes applications: it turns an application that
matching found into complete ones, and not into others. -/
def Strategy.Completes (s : Strategy) : Prop :=
  ∀ rules ctx seq app, app.FoundIn rules seq →
    ∀ done ∈ s.complete ctx seq app, app.IsCompletion seq done

/-- The default strategy keeps to it. -/
theorem DefaultStrategy.completes (s : DefaultStrategy) : (s : Strategy).Completes := by
  intro rules ctx seq app happ done hdone
  obtain ⟨-, hassumed, hrule, hfocus⟩ := happ.matched.completions (RuleBase.sources_true _)
    (fun _ _ _ => trivial) happ.assumedIn hdone
  exact ⟨RuleApp.isComplete_of_mem_completions hdone, hrule, hfocus, hassumed⟩

/-! ## Queues after requests -/

/-- **The index of a goal holds nothing but what is in its sequent, and what its queue holds is
ready.** -/
structure Goal.UpToDate (base : RuleBase) (goal : Goal) : Prop where
  /-- the index holds nothing but what is in the sequent -/
  index : goal.index.Within base goal.sequent
  /-- the queue holds what is ready to be executed -/
  queue : ∀ e ∈ goal.queue.get.entries, e.2.Current base goal.sequent

theorem Goal.upToDate_fill {rules : List Rule} {goal : Goal}
    (hindex : goal.index.Within (.ofRules rules) goal.sequent) {strategy : Strategy}
    (hstrategy : strategy.Completes) : (goal.fill strategy).UpToDate (.ofRules rules) where
  index := hindex
  queue := by
    rintro ⟨cost, done⟩ he
    obtain ⟨app, happ, -, hdone, -⟩ := Strategy.mem_offers.mp (mem_fill.mp he)
    have hfound : app.FoundIn rules goal.sequent :=
      RuleApp.foundIn_iff.mpr (hindex.of_mem_apps happ)
    exact hfound.current (hstrategy rules _ _ app hfound done hdone)

namespace Proof

variable {rules : List Rule} {p q : Proof} {g : GoalId} {goal : Goal}

/-- **All goals are up to date**, and the strategy will keep them so. -/
structure UpToDate (rules : List Rule) (p : Proof) : Prop where
  /-- the nodes form a tree -/
  tree : p.Tree
  /-- the rules are the given ones -/
  base : p.base = .ofRules rules
  /-- the strategy completes applications -/
  strategy : p.strategy.Completes
  /-- the goals are up to date -/
  goal : ∀ g goal, p.goal? g = some goal → goal.UpToDate (.ofRules rules)

theorem upToDate_start (root : Sequent) (rules : List Rule) {strategy : Strategy}
    (hstrategy : strategy.Completes) : UpToDate rules (start root rules strategy) where
  tree := tree_start root rules strategy
  base := rfl
  strategy := hstrategy
  goal g goal hgoal := by
    obtain ⟨-, rfl⟩ := goal?_start root rules strategy hgoal
    exact Goal.upToDate_fill (MatchIndex.follows_ofSequent (.ofRules rules) root).toWithin hstrategy

/-- A step updates the indices and fills the queues of the goals it leaves. -/
theorem UpToDate.apply (h : UpToDate rules p) (g : GoalId) (app : RuleApp) :
    UpToDate rules (p.apply g app).2 where
  tree := h.tree.apply g app
  base := (apply_keeps h.tree g app).1.trans h.base
  strategy := (apply_keeps h.tree g app).2.1 ▸ h.strategy
  goal k goal' hk := by
    rcases goal_of_apply h.tree hk with hold | ⟨goal, succs, hgoal, hexec, s, hs, node, rfl, -⟩
    · exact h.goal k goal' hold
    · obtain ⟨kept, new, hadds⟩ := RuleApp.execute_adds hexec hs
      have hupdate := (h.goal g goal hgoal).index.update hadds.stays
      rw [successorGoal, h.base]
      exact Goal.upToDate_fill hupdate h.strategy

theorem UpToDate.nextApp (h : UpToDate rules p) (g : GoalId) : UpToDate rules (p.nextApp g).2 where
  tree := h.tree.keeps (keeps_nextApp p g)
  base := (keeps_nextApp p g).base.trans h.base
  strategy := (nextApp_keeps p g).2.1 ▸ h.strategy
  goal k goal' hk := by
    obtain ⟨goal, hgoal, hsub, queue, rfl⟩ := goal_of_nextApp hk
    have hold := h.goal k goal hgoal
    exact ⟨hold.index, fun e he => hold.queue e (hsub e he)⟩

theorem UpToDate.setAutomatic (h : UpToDate rules p) (g : GoalId) (automatic : Bool) :
    UpToDate rules (p.setAutomatic g automatic).2 where
  tree := h.tree.keeps (keeps_setAutomatic p g automatic)
  base := (keeps_setAutomatic p g automatic).base.trans h.base
  strategy := strategy_setAutomatic p g automatic ▸ h.strategy
  goal k goal' hk := by
    obtain ⟨goal, hgoal, automatic, rfl⟩ := goal_of_setAutomatic hk
    have hold := h.goal k goal hgoal
    exact ⟨hold.index, hold.queue⟩

/-- Another strategy fills all queues anew. -/
theorem UpToDate.setStrategy (h : UpToDate rules p) {strategy : Strategy}
    (hstrategy : strategy.Completes) :
    UpToDate rules (p.setStrategy strategy) where
  tree := h.tree.keeps (keeps_setStrategy p strategy)
  base := (keeps_setStrategy p strategy).base.trans h.base
  strategy := hstrategy
  goal k goal' hk := by
    obtain ⟨goal, hgoal, rfl⟩ := goal_of_setStrategy hk
    exact Goal.upToDate_fill (h.goal k goal hgoal).index hstrategy

/-- **Requests keep queues up to date.** -/
theorem UpToDate.perform (h : UpToDate rules p) {r : Request}
    (hr : ∀ strategy, r = .setStrategy strategy → strategy.Completes) :
    UpToDate rules (p.perform r) := by
  cases r with
  | apply g app => exact h.apply g app
  | applyInteractive g app =>
    rw [Proof.perform, applyInteractive]
    split
    · exact h.apply g app
    · exact h
  | nextApp g => exact h.nextApp g
  | peek g => exact h
  | setAutomatic g automatic => exact h.setAutomatic g automatic
  | setStrategy strategy => exact h.setStrategy (hr strategy rfl)

theorem UpToDate.after (h : UpToDate rules p) {requests : List Request}
    (hrequests : ∀ strategy, .setStrategy strategy ∈ requests → strategy.Completes) :
    UpToDate rules (p.after requests) := by
  induction requests generalizing p with
  | nil => exact h
  | cons r requests ih =>
    have hstep := h.perform fun strategy hr => hrequests strategy (hr ▸ List.mem_cons_self)
    exact ih hstep fun strategy hmem => hrequests strategy (List.mem_cons_of_mem r hmem)

/-- **What a goal hands out is ready to be executed.** -/
theorem UpToDate.current (h : UpToDate rules p) (hgoal : p.goal? g = some goal) {app : RuleApp}
    (happ : (p.nextApp g).1 = some app) : app.Current (.ofRules rules) goal.sequent := by
  rcases nextApp_cases p g with hnone | ⟨goal', queue, hgoal', -, -, hfrom⟩
  · rw [hnone] at happ
    cases happ
  · cases hgoal.symm.trans hgoal'
    obtain ⟨-, cost, hmem⟩ := hfrom app happ
    exact (h.goal g goal hgoal).queue _ hmem

/-- **Applying what a goal hands out** can fail, but not because it is outdated. -/
theorem UpToDate.isOutdated_of_apply (h : UpToDate rules p) (hrules : ∀ r ∈ rules, r.Accepted)
    (hgoal : p.goal? g = some goal) {app : RuleApp} (happ : (p.nextApp g).1 = some app)
    {e : ProofError} (happly : (p.nextApp g).2.apply g app = (.error e, q)) :
    e.isOutdated = false := by
  obtain ⟨queue, -, hget⟩ := goal?_nextApp hgoal
  obtain ⟨err, names, rfl, hexec, -⟩ := apply_eq_error ((hget g).trans (if_pos rfl)) happly
  have hcurrent := h.current hgoal happ
  exact hcurrent.isOutdated_of_execute (hrules _ (RuleBase.mem_ofRules hcurrent.rule_mem)) hexec

end Proof

/-! ## Searches -/

namespace Search

variable {env : Surroundings} {rules : List Rule} {s t : Search}

/-- **A search that starts with queues that are up to date does not end because of an outdated
application.** -/
theorem isOutdated_of_run (hrules : ∀ r ∈ rules, r.Accepted) (hsound : s.chooser.Sound)
    (hs : s.proof.UpToDate rules) {fuel : Nat} {ending : Ending}
    (hrun : s.run env fuel = some (ending, t)) {e : ProofError}
    (hfailed : ending.outcome = .failed e) : e.isOutdated = false := by
  obtain ⟨u, hu, hends⟩ := holds_of_run (P := fun s => s.proof.UpToDate rules)
    (fun s t hs hpass => by cases hpass with | stuck _ _ => exact hs.nextApp _)
    (fun s made t hs hturn => by
      cases hturn with
      | @made g goal app new q t _ _ happly =>
        have hafter := (hs.nextApp g).apply g app
        rw [happly] at hafter
        exact hafter)
    hsound hs hrun
  cases hends with
  | interrupted _ => cases hfailed
  | stopped _ _ => cases hfailed
  | turned hturn =>
    cases hturn with
    | exhausted _ _ => cases hfailed
    | denied _ => cases hfailed
    | nonCloseable _ _ _ => cases hfailed
    | failed hasks happ happly =>
      cases hfailed
      exact hu.isOutdated_of_apply hrules hasks.isGoal happ happly

end Search

namespace Proof

/-- **Whatever requests are made, no application that is handed out is outdated**, if all strategies
turn what matching found into complete applications. An application that is handed out is complete,
the formula of its focus and the assumed ones are in the sequent of the goal, and making it at once
does not fail because the goal is not open, the application is not complete, or its focus is gone.
So no search ends for one of these reasons either. -/
theorem isOutdated_of_handed_out (root : Sequent) {rules : List Rule}
    (hrules : ∀ r ∈ rules, r.Accepted) {strategy : Strategy} (hstrategy : strategy.Completes)
    (requests : List Request) (hrequests : ∀ strategy, .setStrategy strategy ∈ requests →
      strategy.Completes) :
    (∀ g app q, ((start root rules strategy).after requests).nextApp g = (some app, q) →
      ∃ goal found, ((start root rules strategy).after requests).goal? g = some goal ∧
        app.isComplete ∧
        (∀ o, app.focus = some o → o.formula ∈ goal.sequent.side o.side) ∧
        app.assumed = some found ∧ (∀ o ∈ found, o.formula ∈ goal.sequent.side o.side) ∧
        ∀ e r, q.apply g app = (.error e, r) → e.isOutdated = false) ∧
    ∀ (env : Surroundings) (d : Searcher) task report d' q e,
      d.start env ((start root rules strategy).after requests) task = some (report, d', q) →
      report.ending.outcome = .failed e → e.isOutdated = false := by
  have hcurrent := (upToDate_start root rules hstrategy).after hrequests
  generalize (start root rules strategy).after requests = p at hcurrent
  constructor
  · intro g app q hnext
    obtain ⟨happ, rfl⟩ := Prod.ext_iff.mp hnext
    obtain ⟨goal, hgoal⟩ : ∃ goal, p.goal? g = some goal := by
      rcases nextApp_cases p g with hnone | ⟨goal, -, hgoal, -⟩
      · rw [hnone] at happ
        cases happ
      · exact ⟨goal, hgoal⟩
    have hready := hcurrent.current hgoal happ
    obtain ⟨hassumed, -⟩ := Bool.and_eq_true_iff.mp (Bool.and_eq_true_iff.mp hready.complete).1
    obtain ⟨found, hfound⟩ := Option.isSome_iff_exists.mp hassumed
    exact ⟨goal, found, hgoal, hready.complete, hready.focus, hfound, hready.assumed found hfound,
      fun e r happly => hcurrent.isOutdated_of_apply hrules hgoal happ happly⟩
  · intro env d task report d' q e hstart hfailed
    obtain ⟨t, hrun, rfl⟩ := Searcher.run_of_start hstart
    exact Search.isOutdated_of_run hrules (d.sound_begin p task) hcurrent hrun hfailed

/-- A rule that cannot be executed, since it puts a statement in the place of a term. -/
private def misplacing : RuleDraft :=
  let s : SchemaVar := { name := "#s", kind := .program .statement }
  let phi : SchemaVar := { name := "#phi", kind := .formula }
  { name := "misplacing", ruleSets := ["delta"]
    find := .succ (.modal .box (.schema s) (.schema phi))
    templates := [{ add := { succ := [.app (.predicate "p" 1) [.schema s]] } }] }

/-- `==> p & [skip] p` -/
private def twoParts : Sequent where
  succ := [⟨.conj (.atom "p") (.modal .box .skip (.atom "p")), rfl⟩]

/-- A proof attempt in which the rule can be tried after a step. -/
private def looking : Proof :=
  (start twoParts (Calculus.propositional ++ RuleDraft.acceptAll [misplacing])
    (.ofSettings {})).after [.peek 0, .setAutomatic 0 true, .setStrategy (.ofSettings {})]

/-- The first step splits the goal. The next application fails, but it is not outdated. -/
theorem isOutdated_of_handed_out_misplacing : ∃ app q goal found report d r e,
    looking.nextApp 0 = (some app, q) ∧ looking.goal? 0 = some goal ∧ app.isComplete ∧
    app.assumed = some found ∧ (∀ o ∈ found, o.formula ∈ goal.sequent.side o.side) ∧
    Searcher.start {} (.ofSettings {}) looking { goals := [0], maxSteps := 10 } =
      some (report, d, r) ∧
    report.ending.outcome = .failed e ∧ report.applied = 1 ∧ e.isOutdated = false := by
  have hrules : ∀ r ∈ Calculus.propositional ++ RuleDraft.acceptAll [misplacing], r.Accepted := by
    intro r hr
    rcases List.mem_append.mp hr with hr | hr
    · exact RuleDraft.accepted_of_mem_acceptAll hr
    · exact RuleDraft.accepted_of_mem_acceptAll hr
  have hcompletes : (Strategy.ofSettings {}).Completes := DefaultStrategy.completes _
  have hrequests : ∀ strategy, .setStrategy strategy ∈
      [Request.peek 0, .setAutomatic 0 true, .setStrategy (.ofSettings {})] →
      strategy.Completes := by
    intro strategy hmem
    simp only [List.mem_cons, reduceCtorEq, Request.setStrategy.injEq, List.not_mem_nil, or_false,
      false_or] at hmem
    exact hmem ▸ hcompletes
  obtain ⟨hhanded, hsearch⟩ := isOutdated_of_handed_out twoParts hrules hcompletes _ hrequests
  have hnext : (looking.nextApp 0).1.isSome := by
    cbv
  have hrun : (Searcher.start {} (.ofSettings {}) looking { goals := [0], maxSteps := 10 }).map
      (fun r => (r.1.ending.outcome, r.1.applied)) =
      some (.failed (.exec (.template (.notATerm "#s"))), 1) := by
    cbv
  obtain ⟨app, happ⟩ := Option.isSome_iff_exists.mp hnext
  obtain ⟨goal, found, hgoal, hcomplete, -, hfound, hmem, -⟩ := hhanded 0 app _ (Prod.ext happ rfl)
  obtain ⟨⟨report, d, r⟩, hstart, hended⟩ := Option.map_eq_some_iff.mp hrun
  obtain ⟨hfailed, happlied⟩ := Prod.ext_iff.mp hended
  exact ⟨app, _, goal, found, report, d, r, _, Prod.ext happ rfl, hgoal, hcomplete,
    hfound, hmem, hstart, hfailed, happlied, hsearch _ _ _ _ _ _ _ hstart hfailed⟩

/-- A strategy that leaves applications as they were found. -/
private def idle : Strategy where
  cost _ _ := .zero
  approves _ _ := true
  complete _ _ app := [app]

/-- A strategy that does not complete applications has incomplete ones handed out. -/
theorem exists_incomplete_handed_out : ∃ root app,
    ((start root Calculus.propositional idle).nextApp 0).1 = some app ∧ app.isComplete = false := by
  let root : Sequent := { succ := [⟨.atom "p", rfl⟩] }
  have hnext : ((start root Calculus.propositional idle).nextApp 0).1.any fun app =>
      !app.isComplete := by
    cbv
  obtain ⟨app, happ, hincomplete⟩ := (Option.any_eq_true _ _).mp hnext
  exact ⟨root, app, happ, by simpa using hincomplete⟩

end Proof

end SequentSearch
