import SequentSearch.Proofs.Setups

/-!
# Budgets

A search tells its stop condition how far its budget is used up. Only the budgets that the condition
**holds**, itself or as parts of a compound, look at that. A condition that holds one allows no
application and ends the search when the budget is used up. And a condition gives the same answers
to two budgets that **agree** on which limits are reached (`Budget.Agrees`), or to any two if it
holds none.

So an attempt to make an application does not depend on the limits and on how time passes, as long
as the budgets agree (`Search.attempt_withLimits`).
-/

namespace SequentSearch

/-- **Two budgets agree** on which limits are reached. -/
structure Budget.Agrees (b b' : Budget) : Prop where
  /-- on whether an application is left -/
  steps : b'.stepsExhausted = b.stepsExhausted
  /-- and on whether the time is up -/
  time : b'.timedOut = b.timedOut

namespace Budget

variable {b b' : Budget}

theorem Agrees.exhausted (h : b.Agrees b') : b'.exhausted = b.exhausted := by
  rw [Budget.exhausted, Budget.exhausted, h.steps, h.time]

theorem Agrees.message (h : b.Agrees b') : b'.message = b.message := by
  rw [Budget.message, Budget.message, h.steps]

end Budget

namespace StopCondition

variable {p : Proof} {g : GoalId} {b b' : Budget} {stop stop' : StopCondition}

/-- Whether a condition holds a budget, itself or as a part. -/
def holdsBudget : StopCondition → Bool
  | budget => true
  | stepLimit _ => false
  | both first second _ _ => first.holdsBudget || second.holdsBudget

theorem holdsBudget_both {first second : StopCondition} {deniedBy stoppedBy : Option Part} :
    (both first second deniedBy stoppedBy).holdsBudget ↔ first.holdsBudget ∨ second.holdsBudget :=
  Bool.or_eq_true_iff

theorem holdsBudget_anew (stop : StopCondition) : stop.anew.holdsBudget = stop.holdsBudget := by
  induction stop with
  | budget => rfl
  | stepLimit s => rfl
  | both first second _ _ ihfirst ihsecond => exact congrArg₂ _ ihfirst ihsecond

/-- Whether a condition holds a budget is part of its setup. -/
theorem holdsBudget_congr (h : stop'.anew = stop.anew) : stop'.holdsBudget = stop.holdsBudget := by
  rw [← holdsBudget_anew, h, holdsBudget_anew]

/-! ## Budgets that are used up -/

/-- **Nothing is allowed when a budget is used up.** -/
theorem exhausted_of_allows (hholds : stop.holdsBudget) (h : stop.allows p g b = (true, stop')) :
    b.exhausted = false := by
  induction stop generalizing stop' with
  | budget => simpa [allows] using (Prod.ext_iff.mp h).1
  | stepLimit s => cases hholds
  | both first second _ _ ihfirst ihsecond =>
    rw [allows] at h
    rcases hfirst : first.allows p g b with ⟨_ | _, first'⟩ <;> simp only [hfirst] at h
    · cases h
    · rcases hsecond : second.allows p g b with ⟨_ | _, second'⟩ <;>
          simp only [hsecond] at h <;> cases h
      exact (holdsBudget_both.mp hholds).elim (ihfirst · hfirst) (ihsecond · hsecond)

/-- **A search ends when a budget is used up.** -/
theorem exhausted_of_stops {step : Option AppliedStep} (hholds : stop.holdsBudget)
    (h : (stop.stops p b step).1 = false) : b.exhausted = false := by
  induction stop with
  | budget => exact h
  | stepLimit s => cases hholds
  | both first second _ _ ihfirst ihsecond =>
    obtain ⟨hfirst, hsecond⟩ := (Bool.or_eq_false_iff ..).mp h
    exact (holdsBudget_both.mp hholds).elim (ihfirst · hfirst) (ihsecond · hsecond)

/-! ## Budgets that agree -/

theorem allows_congr (h : stop.holdsBudget → b.Agrees b') (p : Proof) (g : GoalId) :
    stop.allows p g b' = stop.allows p g b := by
  induction stop with
  | budget => rw [allows, allows, (h rfl).exhausted]
  | stepLimit s => rfl
  | both first second _ _ ihfirst ihsecond =>
    rw [allows, allows, ihfirst fun hholds => h (holdsBudget_both.mpr (.inl hholds)),
      ihsecond fun hholds => h (holdsBudget_both.mpr (.inr hholds))]

theorem denial_congr (h : stop.holdsBudget → b.Agrees b') : stop.denial b' = stop.denial b := by
  induction stop with
  | budget => exact (h rfl).message
  | stepLimit s => rfl
  | both first second _ _ ihfirst ihsecond =>
    rw [denial, denial, ihfirst fun hholds => h (holdsBudget_both.mpr (.inl hholds)),
      ihsecond fun hholds => h (holdsBudget_both.mpr (.inr hholds))]

theorem stops_congr (h : stop.holdsBudget → b.Agrees b') (p : Proof) (step : Option AppliedStep) :
    stop.stops p b' step = stop.stops p b step := by
  induction stop with
  | budget => rw [stops, stops, (h rfl).exhausted]
  | stepLimit s => rfl
  | both first second _ _ ihfirst ihsecond =>
    rw [stops, stops, ihfirst fun hholds => h (holdsBudget_both.mpr (.inl hholds)),
      ihsecond fun hholds => h (holdsBudget_both.mpr (.inr hholds))]

theorem reason_congr (h : stop.holdsBudget → b.Agrees b') : stop.reason b' = stop.reason b := by
  induction stop with
  | budget => exact (h rfl).message
  | stepLimit s => rfl
  | both first second _ _ ihfirst ihsecond =>
    rw [reason, reason, ihfirst fun hholds => h (holdsBudget_both.mpr (.inl hholds)),
      ihsecond fun hholds => h (holdsBudget_both.mpr (.inr hholds))]

end StopCondition

/-! ## Steps -/

namespace Search

variable {env env' : Surroundings} {s t : Search} {b : Budget} {g : GoalId} {made : AppliedStep}

/-- **An application is made only if the budget has one left**, if there is a budget. -/
theorem Turn.stepsExhausted_eq_false (h : Turn env s (.ok made) t) (hholds : s.stop.holdsBudget) :
    s.budget.stepsExhausted = false := by
  cases h with
  | made hasks _ _ =>
    obtain ⟨stop, elapsed, hasked, hallows⟩ := hasks.answer
    rw [← StopCondition.holdsBudget_congr (StopCondition.anew_of_asked hasked)] at hholds
    exact ((Bool.or_eq_false_iff ..).mp (StopCondition.exhausted_of_allows hholds hallows)).1

theorem SameSetup.holdsBudget (h : SameSetup s t) : t.stop.holdsBudget = s.stop.holdsBudget :=
  StopCondition.holdsBudget_congr h.stop

theorem Attempts.stepsExhausted_eq_false (h : Attempts env s made t) (hsound : s.chooser.Sound)
    (hholds : s.stop.holdsBudget) : s.budget.stepsExhausted = false := by
  obtain ⟨u, hpasses, hturn⟩ := h.turn hsound
  rw [← hpasses.sameSetup.holdsBudget] at hholds
  exact hpasses.budget_eq ▸ hturn.stepsExhausted_eq_false hholds

/-- The same search with the limits of another budget. -/
def withLimits (b : Budget) (s : Search) : Search :=
  { s with budget := { b with applied := s.budget.applied } }

/-- **A search would not notice other limits in other surroundings**, whenever it looks: its stop
condition holds no budget, or the two budgets agree. -/
def Unaffected (env env' : Surroundings) (b : Budget) (s : Search) : Prop :=
  s.stop.holdsBudget → ∀ n, ({ s.budget with elapsed := env.elapsed n } : Budget).Agrees
    { b with applied := s.budget.applied, elapsed := env'.elapsed n }

theorem Unaffected.congr (h : s.Unaffected env env' b) (hbudget : t.budget = s.budget)
    (hholds : t.stop.holdsBudget = s.stop.holdsBudget) : t.Unaffected env env' b := by
  rw [Unaffected, hbudget, hholds]
  exact h

/-- **An attempt goes the same way with other limits** that would not be noticed. -/
theorem attempt_withLimits (hsound : s.chooser.Sound) (h : s.Unaffected env env' b) (fuel : Nat) :
    (s.withLimits b).attempt env' fuel =
      ((s.attempt env fuel).1, (s.attempt env fuel).2.withLimits b) := by
  induction fuel generalizing s with
  | zero => rfl
  | succ fuel ih =>
    rcases hnext : s.nextGoal with ⟨chosen, s₁⟩
    have hnext' : (s.withLimits b).nextGoal = (chosen, s₁.withLimits b) := by
      cases hnext
      rfl
    obtain ⟨hconsiders, -, -⟩ := considers_nextGoal hsound hnext
    have hs₁ : s₁.Unaffected env env' b :=
      h.congr hconsiders.budget hconsiders.sameSetup.holdsBudget
    -- when a goal is dropped the budgets still agree
    have hdrop : ∀ (g : GoalId) (stop : StopCondition) (q : Proof),
        stop.holdsBudget = s₁.stop.holdsBudget → _ := fun g stop q hholds =>
      ih (s := ({ s₁ with stop := stop, proof := q } : Search).drop g) (hconsiders.sound.remove g)
        (hs₁.congr rfl hholds)
    rw [attempt, attempt, hnext, hnext']
    cases chosen with
    | none => rfl
    | some g =>
      simp only [show (s₁.withLimits b).proof = s₁.proof from rfl,
        show (s₁.withLimits b).stop = s₁.stop from rfl]
      cases hgoal : s₁.proof.goal? g with
      | none => exact hdrop g _ _ rfl
      | some goal =>
        have hallows' : s₁.stop.allows s₁.proof g ((s₁.withLimits b).budgetNow env') =
            s₁.stop.allows s₁.proof g (s₁.budgetNow env) :=
          StopCondition.allows_congr (fun hholds => hs₁ hholds s₁.turns) s₁.proof g
        have hholds := StopCondition.holdsBudget_congr
            (s₁.stop.anew_allows s₁.proof g (s₁.budgetNow env))
        rw [hallows']
        rcases hallows : s₁.stop.allows s₁.proof g (s₁.budgetNow env) with ⟨_ | _, stop⟩ <;>
          simp only [hallows] at hholds ⊢
        · have hdenial : stop.denial ((s₁.withLimits b).budgetNow env') =
              stop.denial (s₁.budgetNow env) :=
            StopCondition.denial_congr fun hstop => hs₁ (hholds ▸ hstop) s₁.turns
          rw [hdenial]
          rfl
        · rcases s₁.proof.nextApp g with ⟨_ | app, q⟩ <;> simp only
          · simp only [show (s₁.withLimits b).stopAtFirst = s₁.stopAtFirst from rfl]
            split
            · rfl
            · exact hdrop g stop q hholds
          · simp only [applyTo]
            rcases q.apply g app with ⟨_ | new, q'⟩ <;> rfl

/-- **A step goes the same way with other limits** that would not be noticed, neither before nor
after the application that is made. -/
theorem step_withLimits (hsound : s.chooser.Sound)
    (hcancelled : env'.cancelled s.turns = env.cancelled s.turns) (h : s.Unaffected env env' b)
    (hafter : ∀ made t, Attempts env s made t → (t.account made).Unaffected env env' b) :
    (s.withLimits b).step env' = ((s.step env).1, (s.step env).2.withLimits b) := by
  have hattempt : (s.withLimits b).attempt env' (s.withLimits b).patience = _ :=
    attempt_withLimits hsound h s.patience
  have hcancelled' : env'.cancelled (s.withLimits b).turns = env.cancelled s.turns := hcancelled
  cases hnow : env.cancelled s.turns with
  | true => rw [step_of_cancelled hnow, step_of_cancelled (hcancelled'.trans hnow)]
  | false =>
    rcases hmade : s.attempt env s.patience with ⟨e | made, t⟩ <;> rw [hmade] at hattempt
    · rw [step_of_failed_attempt hnow hmade,
        step_of_failed_attempt (hcancelled'.trans hnow) hattempt]
    · have hunaffected := hafter made t ⟨hnow, hmade⟩
      have hstops : (t.account made).stop.stops t.proof
          (((t.account made).withLimits b).budgetNow env') (some made) =
            (t.account made).stop.stops t.proof ((t.account made).budgetNow env) (some made) :=
        StopCondition.stops_congr (fun hholds => hunaffected hholds t.turns) t.proof (some made)
      have hends : (t.withLimits b).endsAfter env' made = t.endsAfter env made :=
        congrArg Prod.fst hstops
      have haccounted : (t.withLimits b).accounted env' made =
          (t.accounted env made).withLimits b :=
        congrArg (fun r => { (t.account made).withLimits b with stop := r.2 }) hstops
      have hreason : (t.accounted env made).stop.reason
          (((t.accounted env made).withLimits b).budgetNow env') =
            (t.accounted env made).stop.reason ((t.accounted env made).budgetNow env) := by
        refine StopCondition.reason_congr fun hholds => hunaffected ?_ t.turns
        exact (sameSetup_accounted env made t).holdsBudget ▸ hholds
      rw [Attempts.step_eq ⟨hnow, hmade⟩, Attempts.step_eq ⟨hcancelled'.trans hnow, hattempt⟩,
        hends, haccounted]
      split
      · have hstop : ((t.accounted env made).withLimits b).stop = (t.accounted env made).stop := rfl
        rw [hstop, hreason]
      · rfl

end Search

end SequentSearch
