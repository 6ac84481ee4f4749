import Mathlib
import SequentSearch.Proofs.Budgets

/-!
# Using a searcher again

A searcher is used for one search after another, and a search is to come to the same whatever came
before it. What chooser and stop condition remember of a search is forgotten in three places: the
chooser forgets its goals when it is given new ones, the limits forget their counts when a search
starts, and the compounds forget which part has answered when a search ends. Together they leave
nothing but the setup (`Searcher.begin_eq_of_used`), and no search changes that.

Two searches that start in the same state may still see time pass in different ways. That makes no
difference unless the time runs out for one of them (`Search.run_congr`).
-/

namespace SequentSearch

/-! ## Surroundings -/

/-- **Two surroundings agree** for a time limit. -/
structure Surroundings.Agree (timeout : Option Nat) (env env' : Surroundings) : Prop where
  /-- someone asks the search to end in both or in none -/
  cancelled : ∀ n, env'.cancelled n = env.cancelled n
  /-- the time is up in both or in none -/
  time : ∀ n, (timeout.any fun limit => limit ≤ env'.elapsed n) =
    timeout.any fun limit => limit ≤ env.elapsed n

namespace Search

variable {env env' : Surroundings} {s : Search}

theorem Unaffected.of_agree (h : env.Agree s.budget.timeout env') :
    s.Unaffected env env' s.budget :=
  fun _ n => ⟨rfl, h.time n⟩

/-- A step does not depend on how time passes. -/
theorem step_congr (hsound : s.chooser.Sound) (h : env.Agree s.budget.timeout env') :
    s.step env' = s.step env := by
  have hstep := step_withLimits hsound (h.cancelled s.turns)
      (.of_agree h) fun made t hattempts => by
    rw [← hattempts.budget_eq hsound] at h ⊢
    exact fun _ n => ⟨rfl, h.time n⟩
  -- the limits are the same, so nothing was exchanged
  have hbudget : (s.step env).2.withLimits s.budget = (s.step env).2 := by
    obtain ⟨n, hn⟩ := budget_of_step hsound (show s.step env = (_, (s.step env).2) from rfl)
    rw [withLimits, hn]
    exact congrArg (fun b => { (s.step env).2 with budget := b }) hn.symm
  rw [hbudget] at hstep
  exact hstep

/-- **A run does not depend on how time passes**, as long as it does not run out. -/
theorem run_congr (hsound : s.chooser.Sound) (h : env.Agree s.budget.timeout env') (fuel : Nat) :
    s.run env' fuel = s.run env fuel := by
  induction fuel generalizing s with
  | zero => rfl
  | succ fuel ih =>
    rw [run, run, step_congr hsound h]
    rcases hstep : s.step env with ⟨_ | made, t⟩
    · rfl
    · obtain ⟨n, hbudget⟩ := budget_of_step hsound hstep
      exact ih (Makes.sound ⟨made, hstep⟩ hsound) (hbudget ▸ h)

end Search

/-! ## Searchers -/

/-- **A condition that has just been set up.** -/
inductive StopCondition.New : StopCondition → Prop where
  | budget : New budget
  | significant (limit : Nat) (significance : Significance) : New (significant limit significance)
  | and {first second : StopCondition} (hfirst : New first) (hsecond : New second) :
      New (first.and second)

/-- **A chooser that has just been set up.** -/
inductive Chooser.New : Chooser → Prop where
  | depthFirst : New newDepthFirst
  | balanced (significance : Significance) : New (newBalanced significance)

theorem StopCondition.New.clear_eq {stop : StopCondition} (h : stop.New) : stop.clear = stop := by
  induction h with
  | budget => rfl
  | significant _ _ => rfl
  | and _ _ ihfirst ihsecond => rw [StopCondition.and, clear, ihfirst, ihsecond]

theorem StopCondition.New.anew_eq {stop : StopCondition} (h : stop.New) : stop.anew = stop := by
  induction h with
  | budget => rfl
  | significant _ _ => rfl
  | and _ _ ihfirst ihsecond => rw [StopCondition.and, anew, ihfirst, ihsecond, StopCondition.and]

theorem Chooser.New.clear_eq {c : Chooser} (h : c.New) : c.clear = c := by cases h <;> rfl

namespace Searcher

variable {new d : Searcher} {p : Proof} {task : Task}

/-- **A searcher that has just been set up.** -/
structure New (d : Searcher) : Prop where
  /-- with a new chooser -/
  chooser : d.chooser.New
  /-- and a new stop condition -/
  stop : d.stop.New

/-- **What a searcher becomes when it is used**: any number of searches of any proofs, and requests
to end while none is running. -/
inductive Used (new : Searcher) : Searcher → Prop where
  | new : Used new new
  | start {d d' : Searcher} {env : Surroundings} {p q : Proof} {task : Task} {report : Report}
      (h : Used new d) (hstart : d.start env p task = some (report, d', q)) : Used new d'
  | cancel {d : Searcher} (h : Used new d) : Used new d.cancel

/-- **The setup is all that is left of the searches before.** The parts of the stop condition that
have answered last are forgotten, and what else it remembers is forgotten when a search starts. -/
structure LikeNew (new d : Searcher) : Prop where
  /-- goals are chosen in the same way -/
  chooser : d.chooser.clear = new.chooser
  /-- the stop condition was cleared -/
  stop : ∃ stop : StopCondition, d.stop = stop.clear ∧ stop.anew = new.stop

theorem New.likeNew (h : new.New) : LikeNew new new :=
  ⟨h.chooser.clear_eq, new.stop, h.stop.clear_eq.symm, h.stop.anew_eq⟩

theorem LikeNew.begin_eq (h : LikeNew new d) (p : Proof) (task : Task) :
    d.begin p task = { new.begin p task with stop := new.stop } := by
  obtain ⟨stop, hstop, hanew⟩ := h.stop
  simp only [begin, hstop, StopCondition.maximalWork_clear, hanew, ← h.chooser,
    Chooser.select_clear]

/-- **A search leaves the searcher like new.** -/
theorem LikeNew.start {env : Surroundings} {d' : Searcher} {q : Proof} {report : Report}
    (h : LikeNew new d) (hnew : new.New) (hstart : d.start env p task = some (report, d', q)) :
    LikeNew new d' := by
  obtain ⟨⟨e, t⟩, hrun, heq⟩ := Option.map_eq_some_iff.mp hstart
  cases heq
  have hsetup := Search.sameSetup_of_run (d.sound_begin p task) hrun
  rw [h.begin_eq] at hsetup
  have hchooser : t.chooser.clear = new.chooser :=
    (hsetup.chooser.trans (Chooser.clear_select ..)).trans hnew.chooser.clear_eq
  refine ⟨?_, t.stop, rfl, hsetup.stop.trans hnew.stop.anew_eq⟩
  show t.chooser.clear.clear = new.chooser
  rw [hchooser, hnew.chooser.clear_eq]

theorem Used.likeNew (h : Used new d) (hnew : new.New) : LikeNew new d := by
  induction h with
  | new => exact hnew.likeNew
  | start _ hstart ih => exact ih.start hnew hstart
  | cancel _ ih => exact ⟨ih.chooser, ih.stop⟩

/-- **All searches begin as if the searcher had just been set up.** -/
theorem begin_eq_of_used (hnew : new.New) (hused : Used new d) (p : Proof) (task : Task) :
    d.begin p task = new.begin p task := by
  rw [(hused.likeNew hnew).begin_eq, ← hnew.likeNew.begin_eq]

/-- What a search comes to, apart from the time it takes: the report, and the proof that it
leaves. -/
def result (env : Surroundings) (d : Searcher) (p : Proof) (task : Task) :
    Option (Report × Proof) :=
  (d.start env p task).map fun r => ({ r.1 with elapsed := 0 }, r.2.2)

/-- **A searcher can be used again.** Whatever came before, a search comes to the same as one with a
searcher that has just been set up. In the same surroundings they agree in all they leave, and in
surroundings where time passes in other ways in all but the time, unless it runs out. -/
theorem start_eq_of_used (hnew : new.New) (hused : Used new d) (p : Proof) (task : Task) :
    (∀ env, d.start env p task = new.start env p task) ∧
      ∀ env env' : Surroundings, env.Agree task.timeout env' →
        d.result env' p task = new.result env p task := by
  have hbegin := begin_eq_of_used hnew hused p task
  refine ⟨fun env => ?_, fun env env' hagree => ?_⟩
  · rw [start, hbegin, start]
  · have hrun := Search.run_congr (new.sound_begin p task) hagree (fuel task)
    rw [result, result, start, start, hbegin, hrun, Option.map_map, Option.map_map]
    rfl

/-- A proof attempt for `(p -> p) & (r -> r)`. -/
private def implications : Proof :=
  let atom (name : String) : Term := .app (.predicate name 0) []
  .start (.ofFormulas [] [⟨.conj (.impl (atom "p") (atom "p"))
    (.impl (atom "r") (atom "r")), by decide⟩]) Calculus.propositional (.ofSettings {})

/-- A balanced search, with at most three steps on each path. -/
private def threeSteps : Searcher where
  chooser := .newBalanced .everyStep
  stop := (StopCondition.significant 3 .everyStep).and .budget

/-- A first search has counted steps for both goals when its budget is used up. Then a second one
needs all the three steps that each path is allowed, and closes the proof. -/
theorem start_eq_of_used_threeSteps : ∃ report d q,
    threeSteps.start {} implications { goals := [0], maxSteps := 3 } = some (report, d, q) ∧
    report.ending.outcome = .finished
      (.budgetExhausted "Maximal number of rule applications reached.") ∧
    d.cancel.start {} implications { goals := [0], maxSteps := 9 } =
      threeSteps.start {} implications { goals := [0], maxSteps := 9 } ∧
    d.cancel.result { elapsed := fun n => min n 5 } implications
        { goals := [0], maxSteps := 9, timeout := some 9 } =
      threeSteps.result {} implications { goals := [0], maxSteps := 9, timeout := some 9 } ∧
    (threeSteps.start {} implications { goals := [0], maxSteps := 9 }).map
      (fun r => r.2.2.isClosed) = some true := by
  have hrun : (threeSteps.start {} implications { goals := [0], maxSteps := 3 }).map
      (fun r => r.1.ending.outcome) =
        some (.finished (.budgetExhausted "Maximal number of rule applications reached.")) := by
    cbv
  obtain ⟨⟨report, d, q⟩, hstart, houtcome⟩ := Option.map_eq_some_iff.mp hrun
  have hnew : threeSteps.New := ⟨.balanced _, .and (.significant ..) .budget⟩
  have hused : Used threeSteps d.cancel := .cancel (.start .new hstart)
  refine ⟨report, d, q, hstart, houtcome, (start_eq_of_used hnew hused _ _).1 _,
    (start_eq_of_used hnew hused _ _).2 _ _ ⟨fun _ => rfl, fun n => ?_⟩, by cbv⟩
  show decide (9 ≤ min n 5) = decide (9 ≤ 0)
  rw [decide_eq_decide]
  omega

end Searcher

end SequentSearch
