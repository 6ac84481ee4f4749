import Mathlib
import SequentSearch.Proofs.Budgets

/-!
# Larger budgets

A search that may make more applications makes the same ones first. As long as an application is
left, the smaller and the larger budget agree on which limits are reached, so a step goes the same
way under both (`Search.step_withLimits`). They differ only when the smaller one is used up, and
then that search ends.

The applications of a search are numbered (`Search.madeAt`), so that two searches can be compared
that do not end at the same time. A search that closes its proof is not changed by a larger budget
at all: no goal is left to use it on.
-/

namespace SequentSearch

theorem StopCondition.maximalWork_congr (stop : StopCondition) (b b' : Budget) :
    (stop.maximalWork b').2 = (stop.maximalWork b).2 := by
  induction stop with
  | budget => rfl
  | stepLimit s => rfl
  | both first second _ _ ihfirst ihsecond => simp only [maximalWork, ihfirst, ihsecond]

namespace Search

variable {env : Surroundings} {s t : Search} {b : Budget} {limit n : Nat}
  {made : AppliedStep} {e : Ending}

/-! ## The applications of a search -/

/-- The application that the next step of a search makes, whether the search goes on after it or
not. -/
def made? (env : Surroundings) (s : Search) : Option AppliedStep :=
  if env.cancelled s.turns then none else (s.attempt env s.patience).1.toOption

/-- **The applications that a search makes**, the first of which has number zero. -/
def madeAt (env : Surroundings) : Nat → Search → Option AppliedStep
  | 0, s => s.made? env
  | n + 1, s =>
    match s.step env with
    | (.ok _, s) => madeAt env n s
    | (.error _, _) => none

theorem madeAt_succ_of_ok (hstep : s.step env = (.ok made, t)) :
    s.madeAt env (n + 1) = t.madeAt env n := by
  rw [madeAt, hstep]

theorem madeAt_succ_of_error (hstep : s.step env = (.error e, t)) :
    s.madeAt env (n + 1) = none := by
  rw [madeAt, hstep]

theorem Attempts.made?_eq (h : Attempts env s made t) : s.made? env = some made := by
  rw [made?, h.cancelled, if_neg Bool.false_ne_true, h.attempt]
  rfl

/-- **A step makes an application, or it ends the search** and leaves the tree as it is. -/
theorem attempts_or (env : Surroundings) (hsound : s.chooser.Sound) :
    (∃ made t, Attempts env s made t) ∨
      s.made? env = none ∧ ∃ e t, s.step env = (.error e, t) ∧ Proof.Keeps s.proof t.proof ∧
        t.budget = s.budget := by
  cases hcancelled : env.cancelled s.turns with
  | true => exact .inr ⟨if_pos hcancelled, _, _, step_of_cancelled hcancelled,
      Proof.keeps_refl _, rfl⟩
  | false =>
    rcases hattempt : s.attempt env s.patience with ⟨e | made, t⟩
    · obtain ⟨u, hpasses, hturn⟩ := turn_attempt hsound (Nat.lt_succ_self _) hattempt
      refine .inr ⟨?_, _, _, step_of_failed_attempt hcancelled hattempt,
        hpasses.keeps.trans hturn.keeps, hturn.counted.1.trans hpasses.budget_eq⟩
      rw [made?, hcancelled, if_neg Bool.false_ne_true, hattempt]
      rfl
    · exact .inl ⟨made, t, hcancelled, hattempt⟩

/-- A step after which the search goes on has made an application. -/
theorem attempts_of_step (hsound : s.chooser.Sound) (hstep : s.step env = (.ok made, t)) :
    ∃ u, Attempts env s made u ∧ u.endsAfter env made = false ∧ t = u.accounted env made := by
  rcases attempts_or env hsound with ⟨made', u, h⟩ | ⟨-, e, u, hend, -⟩
  · rw [h.step_eq] at hstep
    split at hstep <;> rename_i hends <;> cases hstep
    exact ⟨u, h, Bool.eq_false_iff.mpr hends, rfl⟩
  · cases hend.symm.trans hstep

/-- A step makes no application, or one. -/
theorem applied_of_step (hsound : s.chooser.Sound) {result : Except Ending AppliedStep}
    (hstep : s.step env = (result, t)) :
    t.budget.applied = s.budget.applied + if (s.made? env).isSome then 1 else 0 := by
  rcases attempts_or env hsound with ⟨made, u, h⟩ | ⟨hnone, e, u, hend, -, hbudget⟩
  · cases h.step_eq.symm.trans hstep
    rw [h.made?_eq]
    exact congrArg (·.applied + 1) (h.budget_eq hsound)
  · cases hend.symm.trans hstep
    rw [hnone, hbudget]
    rfl

/-! ## More applications -/

/-- **Other limits allow as many applications**, or more, and the same time. -/
structure Widens (limit : Nat) (b b' : Budget) : Prop where
  /-- the time is the same -/
  timeout : b'.timeout = b.timeout
  /-- the number of applications is limited -/
  limited : b.maxApplications = some limit
  /-- as it is by the other limits -/
  widened : ∃ limit', b'.maxApplications = some limit' ∧ limit ≤ limit'

/-- Wider limits are not noticed as long as an application is left. -/
theorem Widens.unaffected (h : Widens limit s.budget b)
    (hleft : s.stop.holdsBudget → s.budget.applied < limit) : s.Unaffected env env b := by
  intro hholds n
  obtain ⟨limit', hlimit', hle⟩ := h.widened
  have hlt := hleft hholds
  constructor
  · simp only [Budget.stepsExhausted, h.limited, hlimit', Option.any_some, decide_eq_decide]
    omega
  · simp only [Budget.timedOut, h.timeout]

theorem Widens.applied_lt (h : Widens limit s.budget b) (hleft : s.budget.stepsExhausted = false) :
    s.budget.applied < limit := by
  simpa [Budget.stepsExhausted, h.limited] using hleft

theorem made?_withLimits (hsound : s.chooser.Sound) (h : s.Unaffected env env b) :
    (s.withLimits b).made? env = s.made? env := by
  have hattempt : (s.withLimits b).attempt env (s.withLimits b).patience = _ :=
    attempt_withLimits hsound h s.patience
  rw [made?, made?, hattempt]
  rfl

section Widens

variable (h : Widens limit s.budget b) (hsound : s.chooser.Sound)
include h hsound

theorem Widens.account (hattempts : Attempts env s made t) :
    Widens limit (t.account made).budget b := by
  have hbudget := hattempts.budget_eq hsound
  exact ⟨h.timeout.trans (congrArg Budget.timeout hbudget).symm,
    (congrArg Budget.maxApplications hbudget).trans h.limited, h.widened⟩

/-- Before an application the wider limits are not noticed. -/
theorem Widens.unaffected_of_attempts (hattempts : Attempts env s made t) :
    s.Unaffected env env b :=
  h.unaffected fun hholds => h.applied_lt (hattempts.stepsExhausted_eq_false hsound hholds)

/-- **A step after which a search goes on is the same with wider limits.** -/
theorem Widens.step_of_ok (hstep : s.step env = (.ok made, t)) :
    (s.withLimits b).step env = (.ok made, t.withLimits b) := by
  obtain ⟨u, hattempts, hgoes, -⟩ := attempts_of_step hsound hstep
  have hsame := step_withLimits hsound rfl (h.unaffected_of_attempts hsound hattempts)
      fun made' u' hmade => by
    cases hattempts.attempt.symm.trans hmade.attempt
    have haccount := h.account hsound hattempts
    refine haccount.unaffected fun hholds => haccount.applied_lt ?_
    exact ((Bool.or_eq_false_iff ..).mp (StopCondition.exhausted_of_stops hholds hgoes)).1
  rw [hsame, hstep]

/-- **A step that ends a search is the same with wider limits** if an application is left after
it. -/
theorem Widens.step_of_error {e : Ending} (hstep : s.step env = (.error e, t))
    (hlt : t.budget.applied < limit) : (s.withLimits b).step env = (.error e, t.withLimits b) := by
  have hunaffected : s.Unaffected env env b := by
    refine h.unaffected fun _ => Nat.lt_of_le_of_lt ?_ hlt
    exact applied_of_step hsound hstep ▸ Nat.le_add_right ..
  have hsame := step_withLimits hsound rfl hunaffected fun made' u hattempts => by
    cases (congrArg Prod.snd hattempts.step_eq).symm.trans (congrArg Prod.snd hstep)
    exact (h.account hsound hattempts).unaffected fun _ => hlt
  rw [hsame, hstep]

end Widens

/-- **The applications that a search makes are the first that it makes with wider limits.** -/
theorem Widens.madeAt_eq_some (h : Widens limit s.budget b) (hsound : s.chooser.Sound)
    (hmade : s.madeAt env n = some made) : (s.withLimits b).madeAt env n = some made := by
  induction n generalizing s with
  | zero =>
    rcases attempts_or env hsound with ⟨made', t, hattempts⟩ | ⟨hnone, -⟩
    · exact (made?_withLimits hsound (h.unaffected_of_attempts hsound hattempts)).trans hmade
    · cases hnone.symm.trans hmade
  | succ n ih =>
    rcases hstep : s.step env with ⟨_ | made', t⟩
    · cases (madeAt_succ_of_error hstep).symm.trans hmade
    · rw [madeAt_succ_of_ok hstep] at hmade
      rw [madeAt_succ_of_ok (h.step_of_ok hsound hstep)]
      obtain ⟨u, hattempts, -, rfl⟩ := attempts_of_step hsound hstep
      exact ih (h.account hsound hattempts) (hattempts.sound hsound) hmade

/-- **A search that does not use up its applications makes no others with wider limits.** -/
theorem Widens.madeAt_eq (h : Widens limit s.budget b) (hsound : s.chooser.Sound)
    (hnone : s.madeAt env n = none) (hlt : s.budget.applied + n < limit) (k : Nat) :
    (s.withLimits b).madeAt env k = s.madeAt env k := by
  -- by induction on the number that is asked for: the search has ended by then, or the step is the
  -- same
  induction k generalizing s n with
  | zero => exact made?_withLimits hsound (h.unaffected fun _ => by omega)
  | succ k ih =>
    rcases hstep : s.step env with ⟨e | made, t⟩
    · have happlied := applied_of_step hsound hstep
      have hleft : t.budget.applied < limit := by
        cases n with
        | zero =>
          rw [show s.made? env = none from hnone] at happlied
          exact happlied ▸ hlt
        | succ n =>
          split at happlied <;> omega
      rw [madeAt_succ_of_error hstep, madeAt_succ_of_error (h.step_of_error hsound hstep hleft)]
    · rw [madeAt_succ_of_ok hstep, madeAt_succ_of_ok (h.step_of_ok hsound hstep)]
      have happlied := applied_of_step hsound hstep
      obtain ⟨u, hattempts, -, rfl⟩ := attempts_of_step hsound hstep
      rw [hattempts.made?_eq] at happlied
      cases n with
      | zero => cases hattempts.made?_eq.symm.trans hnone
      | succ n =>
        rw [madeAt_succ_of_ok hstep] at hnone
        refine ih (h.account hsound hattempts) (hattempts.sound hsound) hnone ?_
        simp only [happlied, Option.isSome_some, if_true]
        omega

/-- **As many applications are numbered as are counted.** -/
theorem isSome_madeAt_iff (hsound : s.chooser.Sound) (hrun : s.run env n = some (e, t)) :
    s.budget.applied ≤ t.budget.applied ∧
      ∀ k, (s.madeAt env k).isSome ↔ s.budget.applied + k < t.budget.applied := by
  induction n generalizing s with
  | zero => cases hrun
  | succ n ih =>
    rw [run] at hrun
    rcases hstep : s.step env with ⟨_ | made, u⟩ <;> simp only [hstep] at hrun <;>
      have happlied := applied_of_step hsound hstep
    · cases hrun
      refine ⟨happlied ▸ Nat.le_add_right .., fun k => ?_⟩
      cases k with
      | zero =>
        rw [happlied, madeAt]
        split <;> simp [*]
      | succ k =>
        rw [madeAt_succ_of_error hstep, happlied]
        split <;> simp
    · obtain ⟨v, hattempts, -, hu⟩ := attempts_of_step hsound hstep
      rw [hattempts.made?_eq] at happlied
      simp only [Option.isSome_some, if_true] at happlied
      obtain ⟨hle, hsome⟩ := ih (hu ▸ hattempts.sound hsound) hrun
      refine ⟨by omega, fun k => ?_⟩
      cases k with
      | zero =>
        rw [madeAt, hattempts.made?_eq]
        simp only [Option.isSome_some, true_iff]
        omega
      | succ k =>
        rw [madeAt_succ_of_ok hstep, hsome, happlied]
        omega

/-! ## Closed proofs -/

/-- **A search of a closed proof ends at once**, and leaves the proof as it is. -/
theorem step_of_isClosed (env : Surroundings) (hsound : s.chooser.Sound) (hs : s.proof.InOrder)
    (hclosed : s.proof.isClosed) :
    ∃ e t, s.step env = (.error e, t) ∧ t.proof = s.proof ∧ t.budget = s.budget := by
  have hnone : ∀ {g goal}, s.proof.goal? g = some goal → False := by
    intro g goal hgoal
    have hopen := (hs.listed.mem_openGoals g).mpr (Proof.isOpen_of_goal? hgoal)
    rw [hs.isClosed_iff.mp hclosed] at hopen
    cases hopen
  cases hcancelled : env.cancelled s.turns with
  | true => exact ⟨_, _, step_of_cancelled hcancelled, rfl, rfl⟩
  | false =>
    rcases attempt_cases env hsound with ⟨result, t, hturn, hattempt⟩ | ⟨t, hpass, -⟩
    · cases hturn with
      | exhausted hconsiders _ =>
        exact ⟨_, t, step_of_failed_attempt hcancelled (hattempt _), hconsiders.proof,
          hconsiders.budget⟩
      | denied hasks => exact (hnone hasks.isGoal).elim
      | nonCloseable hasks _ _ => exact (hnone hasks.isGoal).elim
      | failed hasks _ _ => exact (hnone hasks.isGoal).elim
      | made hasks _ _ => exact (hnone hasks.isGoal).elim
    · cases hpass with
      | stuck hasks _ => exact (hnone hasks.isGoal).elim

theorem run_of_isClosed (hsound : s.chooser.Sound) (hs : s.proof.InOrder)
    (hclosed : s.proof.isClosed) :
    ∃ e t, s.run env (n + 1) = some (e, t) ∧ t.proof = s.proof ∧ t.budget = s.budget := by
  obtain ⟨e, t, hstep, hsame⟩ := step_of_isClosed env hsound hs hclosed
  exact ⟨e, t, by rw [run, hstep], hsame⟩

/-- **A search that closes its proof does so with wider limits too**, and then the proof is the
same. It may take one step more to see that no goal is left. -/
theorem Widens.run_of_isClosed (h : Widens limit s.budget b) (hsound : s.chooser.Sound)
    (hs : s.proof.InOrder) (hrun : s.run env n = some (e, t)) (hclosed : t.proof.isClosed) :
    ∃ e' t', (s.withLimits b).run env (n + 1) = some (e', t') ∧ t'.proof = t.proof ∧
      t'.budget.applied = t.budget.applied := by
  induction n generalizing s with
  | zero => cases hrun
  | succ n ih =>
    rw [run] at hrun
    rcases hstep : s.step env with ⟨_ | made, u⟩ <;> simp only [hstep] at hrun
    · cases hrun
      rcases attempts_or env hsound with ⟨made, u, hattempts⟩ | ⟨-, e', u, hend, hkeeps, -⟩
      · -- the application is made with wider limits too, and the search ends after it or one step
        -- later
        cases (congrArg Prod.snd hattempts.step_eq).symm.trans (congrArg Prod.snd hstep)
        have hwide : Attempts env (s.withLimits b) made (u.withLimits b) := by
          refine ⟨hattempts.cancelled, ?_⟩
          have hsame := attempt_withLimits hsound
              (h.unaffected_of_attempts hsound hattempts) s.patience
          rwa [hattempts.attempt] at hsame
        rw [run, hwide.step_eq]
        cases (u.withLimits b).endsAfter env made with
        | true => exact ⟨_, _, rfl, rfl, rfl⟩
        | false =>
          obtain ⟨e', t', hlast, hproof, hbudget⟩ :=
            Search.run_of_isClosed (s := (u.withLimits b).accounted env made) (n := n)
              (hattempts.sound hsound) (hattempts.inOrder hsound hs) hclosed
          exact ⟨e', t', hlast, hproof, (congrArg Budget.applied hbudget).trans rfl⟩
      · cases hend.symm.trans hstep
        have hbefore : s.proof.isClosed := by
          rwa [Proof.isClosed, ← hkeeps.nodes]
        obtain ⟨e', t', hend', hproof, hbudget⟩ := step_of_isClosed env hsound hs hbefore
        cases hend'.symm.trans hstep
        obtain ⟨e', t', hlast, hproof', hbudget'⟩ :=
          Search.run_of_isClosed (s := s.withLimits b) (n := n + 1) hsound hs hbefore
        exact ⟨e', t', hlast, hproof'.trans hproof.symm,
          (congrArg Budget.applied hbudget').trans (congrArg Budget.applied hbudget).symm⟩
    · obtain ⟨v, hattempts, -, rfl⟩ := attempts_of_step hsound hstep
      obtain ⟨e', t', hlast, hsame⟩ := ih (s := v.accounted env made) (h.account hsound hattempts)
        (hattempts.sound hsound) (hattempts.inOrder hsound hs) hrun
      refine ⟨e', t', ?_, hsame⟩
      rw [run, h.step_of_ok hsound hstep]
      exact hlast

end Search

namespace Searcher

theorem begin_withLimits (d : Searcher) (p : Proof) (task : Task) (maxSteps : Nat) :
    d.begin p { task with maxSteps := maxSteps } =
      (d.begin p task).withLimits { maxApplications := some maxSteps, timeout := task.timeout } :=
  congrArg (fun stop => { d.begin p { task with maxSteps := maxSteps } with stop := stop })
    (d.stop.maximalWork_congr { maxApplications := some task.maxSteps, timeout := task.timeout } _)

/-- **A larger budget only extends a search.** The applications of a search are the first that it
makes with a larger budget. If it made fewer than it might, then there are no others. And if it
closed the proof, then it leaves the same proof with a larger budget. -/
theorem extends_of_le {p : Proof} (hp : p.Attained) (d : Searcher)
    (env : Surroundings) (task : Task) {maxSteps : Nat} (hle : task.maxSteps ≤ maxSteps) :
    (∀ n made, (d.begin p task).madeAt env n = some made →
      (d.begin p { task with maxSteps := maxSteps }).madeAt env n = some made) ∧
    (∀ n < task.maxSteps, (d.begin p task).madeAt env n = none →
      ∀ k, (d.begin p { task with maxSteps := maxSteps }).madeAt env k =
        (d.begin p task).madeAt env k) ∧
    ∀ report d' q, d.start env p task = some (report, d', q) →
      (∀ n, ((d.begin p task).madeAt env n).isSome ↔ n < report.applied) ∧
      (q.isClosed → ∃ report' d'', d.start env p { task with maxSteps := maxSteps } =
        some (report', d'', q) ∧
        report'.applied = report.applied) := by
  have hsound := d.sound_begin p task
  have hwidens : Search.Widens task.maxSteps (d.begin p task).budget
    { maxApplications := some maxSteps, timeout := task.timeout } := ⟨rfl, rfl, maxSteps, rfl, hle⟩
  have hwide := d.begin_withLimits p task maxSteps
  refine ⟨fun n made hmade => ?_, fun n hn hnone k => ?_, fun report d' q hstart => ?_⟩
  · exact hwide ▸ hwidens.madeAt_eq_some hsound hmade
  · refine hwide ▸ hwidens.madeAt_eq hsound hnone ?_ k
    exact (Nat.zero_add n).symm ▸ hn
  · obtain ⟨⟨e, t⟩, hrun, heq⟩ := Option.map_eq_some_iff.mp hstart
    cases heq
    refine ⟨fun n => ?_, fun hclosed => ?_⟩
    · have hsome := (Search.isSome_madeAt_iff hsound hrun).2 n
      rwa [show (d.begin p task).budget.applied + n = n from Nat.zero_add n] at hsome
    · rcases Nat.eq_or_lt_of_le hle with rfl | hlt
      · exact ⟨_, _, hstart, rfl⟩
      · obtain ⟨e', t', hrun', hproof, happlied⟩ :=
          hwidens.run_of_isClosed hsound hp.inOrder hrun hclosed
        have hfuel : fuel task + 1 ≤ fuel { task with maxSteps := maxSteps } := by
          simp only [fuel]
          omega
        refine ⟨t'.report env e', finish env t', ?_, happlied⟩
        rw [start, hwide, Search.run_mono hrun' hfuel, ← hproof]
        rfl

/-- A proof attempt for Peirce's law. -/
private def peirceLaw : Proof :=
  let atom (name : String) : Term := .app (.predicate name 0) []
  .start (.ofFormulas [] [⟨.impl (.impl (.impl (atom "p") (atom "q")) (atom "p"))
    (atom "p"), by decide⟩]) Calculus.propositional (.ofSettings {})

/-- A balanced search under a compound condition. -/
private def patientSearcher : Searcher where
  chooser := .newBalanced .everyStep
  stop := (StopCondition.significant 10 .everyStep).and .budget

/-- The three applications of a search are made first with a larger budget. Five close the proof,
and then a larger budget leaves the same proof. -/
theorem extends_of_le_peirceLaw :
    ((patientSearcher.begin peirceLaw { goals := [0], maxSteps := 3 }).madeAt {} 2).isSome ∧
    (∀ n made, (patientSearcher.begin peirceLaw { goals := [0], maxSteps := 3 }).madeAt {} n =
      some made →
      (patientSearcher.begin peirceLaw { goals := [0], maxSteps := 4 }).madeAt {} n = some made) ∧
    ∃ report d q report' d',
      patientSearcher.start {} peirceLaw { goals := [0], maxSteps := 5 } = some (report, d, q) ∧
      report.applied = 5 ∧ q.isClosed ∧
      patientSearcher.start {} peirceLaw { goals := [0], maxSteps := 9 } = some (report', d', q) ∧
      report'.applied = 5 := by
  have hp : peirceLaw.Attained := .start ..
  have hrun : (patientSearcher.start {} peirceLaw { goals := [0], maxSteps := 5 }).map (fun r =>
      (r.1.applied, r.2.2.isClosed)) = some (5, true) := by
    cbv
  obtain ⟨⟨report, d, q⟩, hstart, hend⟩ := Option.map_eq_some_iff.mp hrun
  obtain ⟨hfive, hclosed⟩ := Prod.ext_iff.mp hend
  obtain ⟨-, -, hsame⟩ := extends_of_le hp patientSearcher {} { goals := [0], maxSteps := 5 }
    (show 5 ≤ 9 by decide)
  obtain ⟨report', d', hstart', happlied⟩ := (hsame report d q hstart).2 hclosed
  obtain ⟨hfirst, -⟩ := extends_of_le hp patientSearcher {} { goals := [0], maxSteps := 3 }
    (show 3 ≤ 4 by decide)
  exact ⟨by cbv, hfirst, report, d, q, report', d', hstart, hfive, hclosed, hstart',
    happlied.trans hfive⟩

end Searcher

end SequentSearch
