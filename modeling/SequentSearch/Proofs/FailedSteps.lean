import Mathlib
import SequentSearch.Proofs.Turns

/-!
# Steps that fail

A search takes an application from the queue of a goal and executes it. If that fails, the search
ends there. What this leaves of the proof is said by `Proof.Abandons`: the tree is as it was, and so
are the goals and what they hand out, apart from the goal of the step. Two traces remain. The
application is gone from the queue of its goal, and the names of constants that were drawn for it
stay in use.

Before that the step may have passed over goals. They had no application to hand out, and still have
none (`Proof.Spares`).
-/

namespace SequentSearch

namespace RuleApp

/-- No constants are drawn if all variables for them have values. -/
theorem drawConstants_of_has {svs : List SchemaVar} {σ : Instantiations}
    (h : ∀ sv ∈ svs, sv.isSkolem → σ.has sv) (ns : NameSupply) :
    drawConstants svs σ ns = (σ, ns) := by
  induction svs with
  | nil => rfl
  | cons sv svs ih =>
    have hsv : (sv.isSkolem && !σ.has sv) = false := by
      cases hskolem : sv.isSkolem with
      | false => rfl
      | true => simp [h sv List.mem_cons_self hskolem]
    rw [drawConstants, hsv]
    exact ih fun sv' hsv' => h sv' (List.mem_cons_of_mem _ hsv')

/-- Then the execution of an application takes no names into use. -/
theorem execute_names_of_has {app : RuleApp}
    (h : ∀ sv ∈ app.rule.schemaVars, sv.isSkolem → app.insts.has sv) (seq : Sequent)
    (ns : NameSupply) :
    (app.execute seq ns).2 = ns := by
  rw [execute, drawConstants_of_has h]
  split
  · cases app.locateFocus seq <;> rfl
  · rfl

end RuleApp

namespace Proof

variable {p q r : Proof} {g : GoalId} {goal : Goal} {app : RuleApp}

/-! ## What stays the same -/

/-- **A proof stays the same** apart from the queues of its goals and the names in use. -/
structure Requeues (p q : Proof) : Prop where
  /-- the tree, the list of open goals, the numbers, the rules and the strategy are the same -/
  rest : q = { p with goals := q.goals, names := q.names }
  /-- and so are the goals, apart from their queues -/
  goals : ∀ h, ∃ queue, q.goal? h = (p.goal? h).map fun goal => { goal with queue := queue }

theorem Requeues.strategy (h : p.Requeues q) : q.strategy = p.strategy := by
  rw [h.rest]

theorem Requeues.trans (hpq : p.Requeues q) (hqr : q.Requeues r) : p.Requeues r where
  rest := by
    rw [hqr.rest, hpq.rest]
  goals h := by
    obtain ⟨_, hq⟩ := hpq.goals h
    obtain ⟨queue, hr⟩ := hqr.goals h
    refine ⟨queue, ?_⟩
    rw [hr, hq, Option.map_map]
    rfl

/-- A goal that is the same has the same queue in particular. -/
theorem exists_queue_of_eq {h : GoalId} (hsame : q.goal? h = p.goal? h) :
    ∃ queue, q.goal? h = (p.goal? h).map fun goal => { goal with queue := queue } := by
  rw [hsame]
  cases p.goal? h with
  | none => exact ⟨.pure .waiting, rfl⟩
  | some goal => exact ⟨goal.queue, rfl⟩

theorem requeues_refl (p : Proof) : p.Requeues p := ⟨rfl, fun _ => exists_queue_of_eq rfl⟩

theorem requeues_nextApp (p : Proof) (g : GoalId) : p.Requeues (p.nextApp g).2 := by
  cases hgoal : p.goal? g with
  | none =>
    rw [show (p.nextApp g).2 = p by rw [Proof.nextApp, hgoal]]
    exact requeues_refl p
  | some goal =>
    obtain ⟨queue, -, hget⟩ := goal?_nextApp hgoal
    refine ⟨by rw [Proof.nextApp, hgoal], fun h => ?_⟩
    by_cases hh : h = g
    · rw [hget, if_pos hh, hh, hgoal]
      exact ⟨_, rfl⟩
    · exact exists_queue_of_eq (goal?_nextApp_of_ne hh)

/-- What a goal becomes when it is asked depends on the goal and the strategy. -/
theorem goal?_nextApp_congr (hgoal : q.goal? g = p.goal? g) (hstrategy : q.strategy = p.strategy) :
    (q.nextApp g).2.goal? g = (p.nextApp g).2.goal? g := by
  rw [Proof.nextApp, Proof.nextApp, hgoal, hstrategy]
  cases hp : p.goal? g with
  | none => exact hgoal
  | some goal =>
    show (q.goals.insert g _).get? g = (p.goals.insert g _).get? g
    rw [IdTable.get?_insert, IdTable.get?_insert, if_pos rfl, if_pos rfl]

/-! ## Goals that were passed over -/

/-- **Goals were asked for an application that had none.** -/
structure Spares (p q : Proof) : Prop extends p.Requeues q where
  /-- no names are taken into use -/
  names : q.names = p.names
  /-- a goal is as it was, unless it has no application -/
  asked : ∀ h, q.goal? h = p.goal? h ∨ ((p.nextApp h).1 = none ∧ (q.nextApp h).1 = none)

/-- What is handed out does not change. -/
theorem Spares.nextApp (h : p.Spares q) (k : GoalId) : (q.nextApp k).1 = (p.nextApp k).1 := by
  rcases h.asked k with hsame | ⟨hp, hq⟩
  · exact nextApp_congr hsame h.strategy
  · rw [hp, hq]

theorem Spares.trans (hpq : p.Spares q) (hqr : q.Spares r) : p.Spares r where
  toRequeues := hpq.toRequeues.trans hqr.toRequeues
  names := hqr.names.trans hpq.names
  asked h := by
    rcases hpq.asked h with hsame | ⟨hp, hq⟩
    · rcases hqr.asked h with hsame' | ⟨hq, hr⟩
      · exact .inl (hsame'.trans hsame)
      · exact .inr ⟨(hpq.nextApp h).symm.trans hq, hr⟩
    · exact .inr ⟨hp, (hqr.nextApp h).trans hq⟩

theorem spares_refl (p : Proof) : p.Spares p := ⟨requeues_refl p, rfl, fun _ => .inl rfl⟩

theorem spares_nextApp (hnone : (p.nextApp g).1 = none) : p.Spares (p.nextApp g).2 where
  toRequeues := requeues_nextApp p g
  names := (nextApp_keeps p g).2.2.1
  asked h := by
    by_cases hh : h = g
    · rw [hh]
      exact .inr ⟨hnone, nextApp_nextApp_of_none hnone⟩
    · exact .inl (goal?_nextApp_of_ne hh)

/-! ## A step that fails -/

/-- **What a step leaves behind that fails** because the application that a goal handed out cannot
be executed. -/
structure Abandons (p q : Proof) (g : GoalId) (goal : Goal) (app : RuleApp) (e : ExecError) : Prop
    extends p.Requeues q where
  /-- the names in use are those after the execution -/
  execute : app.execute goal.sequent p.names = (.error e, q.names)
  /-- so they are the same unless a constant is to be drawn -/
  names : (∀ sv ∈ app.rule.schemaVars, sv.isSkolem → app.insts.has sv) → q.names = p.names
  /-- what is handed out for other goals is the same -/
  other : ∀ h, h ≠ g → (q.nextApp h).1 = (p.nextApp h).1
  /-- the goal itself is as it was after it had handed out the application -/
  taken : q.goal? g = (p.nextApp g).2.goal? g
  /-- so it hands out what comes next in its queue -/
  next : (q.nextApp g).1 = ((p.nextApp g).2.nextApp g).1

/-- **A step that passes over goals and then fails.** -/
theorem Spares.abandons (h : p.Spares q) (hgoal : q.goal? g = some goal)
    (happ : (q.nextApp g).1 = some app) {e : ProofError}
    (happly : (q.nextApp g).2.apply g app = (.error e, r)) :
    p.goal? g = some goal ∧ (p.nextApp g).1 = some app ∧ ∃ err, e = .exec err ∧
    p.Abandons r g goal app err := by
  have hnext : (p.nextApp g).1 = some app := (h.nextApp g).symm.trans happ
  -- the goal has an application, so it was not passed over
  have hsame : q.goal? g = p.goal? g := by
    refine (h.asked g).resolve_right fun hnone => ?_
    rw [hnext] at hnone
    cases hnone.1
  obtain ⟨queue, -, hget⟩ := goal?_nextApp hgoal
  obtain ⟨err, names, rfl, hexec, rfl⟩ := apply_eq_error (hget g ▸ if_pos rfl) happly
  rw [(nextApp_keeps q g).2.2.1, h.names] at hexec
  refine ⟨hsame ▸ hgoal, hnext, err, rfl, ?_⟩
  have htaken := goal?_nextApp_congr hsame h.strategy
  have hrequeues := h.toRequeues.trans (requeues_nextApp q g)
  refine ⟨⟨?_, hrequeues.goals⟩, hexec, fun hhas => ?_, fun k hk => ?_, htaken, ?_⟩
  · rw [hrequeues.rest]
  · rw [← RuleApp.execute_names_of_has hhas goal.sequent p.names, hexec]
  · refine Eq.trans (nextApp_congr ?_ ?_) (h.nextApp k)
    · exact goal?_nextApp_of_ne hk
    · exact (nextApp_keeps q g).2.1
  · exact nextApp_congr htaken (hrequeues.strategy.trans (nextApp_keeps p g).2.1.symm)

end Proof

/-! ## Searches that end with an error -/

namespace Search

variable {env : Surroundings} {s t : Search}

theorem Passes.spares (h : Passes s t) : s.proof.Spares t.proof := by
  refine holds_of_passes (P := fun u => s.proof.Spares u.proof) (fun u v hu hpass => ?_) h
    (Proof.spares_refl s.proof)
  cases hpass with
  | stuck _ hnone => exact hu.trans (Proof.spares_nextApp hnone)

/-- **A step of a search that ends with an error** is one at a goal whose application fails. -/
theorem abandons_of_step (hsound : s.chooser.Sound) {ending : Ending}
    (hstep : s.step env = (.error ending, t)) {e : ProofError}
    (hfailed : ending.outcome = .failed e) :
    ∃ g goal app err, ending.goal = some g ∧ s.proof.goal? g = some goal ∧
      (s.proof.nextApp g).1 = some app ∧ e = .exec err ∧
      s.proof.Abandons t.proof g goal app err := by
  cases moved_step hsound hstep with
  | ended hpasses hends =>
    cases hends with
    | interrupted _ => cases hfailed
    | stopped _ _ => cases hfailed
    | turned hturn =>
      cases hturn with
      | exhausted _ _ => cases hfailed
      | denied _ => cases hfailed
      | nonCloseable _ _ _ => cases hfailed
      | failed hasks happ happly =>
        cases hfailed
        obtain ⟨hgoal, hnext, err, herr, habandons⟩ :=
          hpasses.spares.abandons hasks.isGoal happ happly
        exact ⟨_, _, _, err, rfl, hgoal, hnext, herr, habandons⟩

end Search

namespace Searcher

variable {env : Surroundings} {d d' : Searcher} {p q : Proof} {task : Task} {report : Report}

/-- **A search that ends with an error leaves the proof as it was before its last step**, apart from
two traces. The application that failed is gone from the queue of its goal, and names that were
drawn for it stay in use. -/
theorem abandons_of_failed {e : ProofError} (hstart : d.start env p task = some (report, d', q))
    (hfailed : report.ending.outcome = .failed e) :
    ∃ s t g goal app err, Relation.ReflTransGen (Search.Makes env) (d.begin p task) s ∧
      s.step env = (.error report.ending, t) ∧ t.proof = q ∧ report.ending.goal = some g ∧
      s.proof.goal? g = some goal ∧ (s.proof.nextApp g).1 = some app ∧ e = .exec err ∧
      s.proof.Abandons q g goal app err := by
  obtain ⟨t, hrun, rfl⟩ := run_of_start hstart
  obtain ⟨s, hmakes, hlast⟩ := Search.makes_of_run hrun
  have hsound := Search.sound_of_makes hmakes (d.sound_begin p task)
  obtain ⟨g, goal, app, err, hg, hgoal, happ, herr, habandons⟩ :=
    Search.abandons_of_step hsound hlast hfailed
  exact ⟨s, t, g, goal, app, err, hmakes, hlast, rfl, hg, hgoal, happ, herr, habandons⟩

/-- A rule that cannot be executed: it puts a statement in the place of a term, next to a constant
that is drawn. -/
private def brittle : RuleDraft :=
  let s : SchemaVar := { name := "#s", kind := .program .statement }
  let phi : SchemaVar := { name := "#phi", kind := .formula }
  let c : SchemaVar := { name := "#c", kind := .skolem .any }
  { name := "brittle", ruleSets := ["delta"]
    find := .antec (.modal .diamond (.schema s) (.schema phi))
    templates := [{ add := { antec := [.app (.predicate "p" 2) [.schema c, .schema s]] } }] }

/-- A proof attempt with two branches. The rule can be tried in the first one. -/
private def branching : Proof :=
  let atom (name : String) : Term := .app (.predicate name 0) []
  .start (.ofFormulas [⟨.disj (.modal .diamond .skip .top)
    (.conj (atom "q") (atom "r")), by decide⟩] [])
      (Calculus.propositional ++ RuleDraft.acceptAll [brittle]) (.ofSettings {})

/-- The first step splits the goal, and the second one fails. -/
theorem abandons_of_failed_branching : ∃ report d q e,
    start {} (.ofSettings {}) branching { goals := [0], maxSteps := 10 } = some (report, d, q) ∧
    report.ending.outcome = .failed e ∧ report.applied = 1 ∧
    ∃ s t g goal app err, Relation.ReflTransGen (Search.Makes {})
        (begin (.ofSettings {}) branching { goals := [0], maxSteps := 10 }) s ∧
      s.step {} = (.error report.ending, t) ∧ t.proof = q ∧ report.ending.goal = some g ∧
      s.proof.goal? g = some goal ∧ (s.proof.nextApp g).1 = some app ∧ e = .exec err ∧
      s.proof.Abandons q g goal app err := by
  have hrun : (start {} (.ofSettings {}) branching { goals := [0], maxSteps := 10 }).map
      (fun r => (r.1.ending.outcome, r.1.applied)) =
      some (.failed (.exec (.template (.notATerm "#s"))), 1) := by
    cbv
  obtain ⟨⟨report, d, q⟩, hstart, hended⟩ := Option.map_eq_some_iff.mp hrun
  obtain ⟨hfailed, happlied⟩ := Prod.ext_iff.mp hended
  exact ⟨report, d, q, _, hstart, hfailed, happlied, abandons_of_failed hstart hfailed⟩

/-- A proof attempt in which nothing but the rule can be tried. -/
private def skipping : Proof :=
  .start (.ofFormulas [⟨.modal .diamond .skip .top, by decide⟩] []) (RuleDraft.acceptAll [brittle])
    (.ofSettings {})

/-- **Both traces can be seen.** Here the first step fails. Before it the goal had an application to
hand out, and the next name was `c_0`. Afterwards the goal has none, and the next name is `c_1`. -/
theorem exists_failed_leaving_traces : ∃ report d q e,
    start {} (.ofSettings {}) skipping { goals := [0], maxSteps := 10 } = some (report, d, q) ∧
    report.ending.outcome = .failed e ∧ report.ending.goal = some 0 ∧ report.applied = 0 ∧
    (skipping.nextApp 0).1 ≠ none ∧ (q.nextApp 0).1 = none ∧
    (skipping.names.fresh "c").1 = "c_0" ∧ (q.names.fresh "c").1 = "c_1" := by
  have hbefore : (skipping.nextApp 0).1.isSome ∧ (skipping.names.fresh "c").1 = "c_0" := by
    constructor <;> cbv
  have hrun : (start {} (.ofSettings {}) skipping { goals := [0], maxSteps := 10 }).map
      (fun r => (r.1.ending.outcome, r.1.ending.goal, r.1.applied, (r.2.2.nextApp 0).1.isNone,
        (r.2.2.names.fresh "c").1)) =
      some (.failed (.exec (.template (.notATerm "#s"))), some 0, 0, true, "c_1") := by
    cbv
  obtain ⟨⟨report, d, q⟩, hstart, hended⟩ := Option.map_eq_some_iff.mp hrun
  simp only [Prod.mk.injEq, Option.isNone_iff_eq_none] at hended
  obtain ⟨hfailed, hgoal, happlied, hnone, hname⟩ := hended
  exact ⟨report, d, q, _, hstart, hfailed, hgoal, happlied,
    Option.isSome_iff_ne_none.mp hbefore.1, hnone, hbefore.2, hname⟩

end Searcher

end SequentSearch
