import SequentSearch.Proofs.PropositionalSearch
import SequentSearch.Proofs.Turns

/-!
# The search loop

A search with the propositional rules never fails. As long as it has applications left it makes one,
or finds that all goals are stuck and ends (`Search.Proceeds.step`). The invariant of the loop
(`Search.Proceeds`) says that the chooser knows every goal that is not stuck, and that the
applications made so far and the worth of the goals to choose from stay within a bound together. A
step makes one application and takes at least as much off the worth, so the bound is a limit on the
number of steps (`Search.Proceeds.exists_run`).
-/

namespace SequentSearch

/-! ## Choosing depth first -/

namespace DepthFirst

variable {p q : Proof} {c : DepthFirst} {g : GoalId} {goal : Goal} {node : NodeId}
  {new : List GoalId}

/-- **A chooser that knows every goal there is work on.** -/
structure Covers (p : Proof) (c : DepthFirst) : Prop where
  /-- goals that are left to hand out are goals to choose from -/
  pending : c.pending.Subperm c.selected
  /-- a goal can be chosen, or nothing is offered for it -/
  goals : ∀ g goal, p.goal? g = some goal → g ∈ c.selected ∨ goal.offers = []

/-- **After a step the chooser knows every goal there is work on.** -/
theorem Covers.update (h : c.Covers p) (hreplaces : p.Replaces q g goal new) :
    (c.update q goal.node new).Covers q where
  pending := pending_update c q goal.node new
  goals i goal' hi := by
    have hselected := (selected_update c q goal.node new).mem_iff (a := i)
    rw [List.mem_append, List.mem_filter, List.mem_filter] at hselected
    by_cases hmem : i ∈ new
    · exact .inl (hselected.mpr (.inr ⟨hmem, hreplaces.isOpen i hmem⟩))
    · rw [hreplaces.old i hmem] at hi
      split at hi <;> rename_i hne
      · cases hi
      · refine (h.goals i goal' hi).imp_left fun hsel => hselected.mpr (.inl ⟨hsel, ?_⟩)
        rw [Bool.not_eq_true', ← Bool.not_eq_true, isReplaced_iff hreplaces.toSupplants]
        simp [hne, hi]

/-- **A step takes something off the worth** of the goals to choose from. -/
theorem worth_update (hg : g ∈ c.selected) (hgoal : p.goal? g = some goal)
    (hreplaces : p.Replaces q g goal new) :
    ((c.update q goal.node new).selected.map q.worth).sum < (c.selected.map p.worth).sum := by
  let kept : GoalId → Bool := (!isReplaced q goal.node new ·)
  have hopen : new.filter q.isOpen = new := List.filter_eq_self.mpr hreplaces.isOpen
  have hsame : (c.selected.filter kept).map q.worth = (c.selected.filter kept).map p.worth := by
    refine List.map_congr_left fun i hi => ?_
    have hkept : ¬(i = g ∨ p.goal? i = none) := by
      rw [← isReplaced_iff hreplaces.toSupplants]
      simpa [kept] using (List.mem_filter.mp hi).2
    obtain ⟨hne, hsome⟩ := not_or.mp hkept
    obtain ⟨goal', hgoal'⟩ := Option.ne_none_iff_exists'.mp hsome
    rw [Proof.worth, Proof.worth, (hreplaces.keeps hgoal' hne).2, hgoal']
  have hgone : p.worth g ≤ ((c.selected.filter (!kept ·)).map p.worth).sum := by
    have hmem : g ∈ c.selected.filter (!kept ·) := by
      refine List.mem_filter.mpr ⟨hg, ?_⟩
      simpa [kept] using (isReplaced_iff hreplaces.toSupplants).mpr (.inl rfl)
    exact List.le_sum_of_mem (List.mem_map_of_mem hmem)
  calc ((c.update q goal.node new).selected.map q.worth).sum
      = ((c.selected.filter kept).map p.worth).sum + (new.map q.worth).sum := by
        rw [((selected_update c q goal.node new).map q.worth).sum_nat, hopen, List.map_append,
          List.sum_append, hsame]
    _ < ((c.selected.filter kept).map p.worth).sum + p.worth g := by
        refine Nat.add_lt_add_left (Nat.lt_of_lt_of_le hreplaces.worth (Nat.le_of_eq ?_)) _
        rw [Proof.worth, hgoal]
        rfl
    _ ≤ ((c.selected.filter kept).map p.worth).sum +
          ((c.selected.filter (!kept ·)).map p.worth).sum := Nat.add_le_add_left hgone _
    _ = (c.selected.map p.worth).sum := by
        rw [← List.sum_append, ← List.map_append]
        exact ((List.filter_append_perm kept c.selected).map p.worth).sum_nat

end DepthFirst

/-! ## The loop -/

namespace Search

variable {root : Sequent} {limit : Nat} {env : Surroundings} {s t : Search}
  {g : GoalId} {goal : Goal}

/-- What the goals to choose from are worth. -/
def worth (s : Search) : Nat := (s.chooser.selected.map s.proof.worth).sum

/-- **The invariant of the loop.** -/
structure Proceeds (root : Sequent) (limit : Nat) (s : Search) : Prop where
  /-- the proof is one that search has led to -/
  searching : s.proof.Searching root
  /-- goals are chosen depth first, and the chooser knows every goal there is work on -/
  chooser : ∃ c, s.chooser = .depthFirst c ∧ c.Covers s.proof
  /-- only the budget ends the search early -/
  stop : s.stop = .budget
  /-- not a goal without an application -/
  stopAtFirst : s.stopAtFirst = false
  /-- the greatest number of applications -/
  maxApplications : s.budget.maxApplications = some limit
  /-- there is no time limit -/
  timeout : s.budget.timeout = none

/-- There is no work left on any goal. -/
def Stuck (s : Search) : Prop := ∀ g goal, s.proof.goal? g = some goal → goal.offers = []

/-- The budget ends a search when the limit on applications is reached. -/
theorem Proceeds.exhausted_iff (h : s.Proceeds root limit) (env : Surroundings) :
    (s.budgetNow env).exhausted ↔ limit ≤ s.budget.applied := by
  simp [Budget.exhausted, Budget.stepsExhausted, Budget.timedOut, budgetNow,
    h.maxApplications, h.timeout]

/-- **Asking for the next goal.** A goal is chosen that is open, or there is no work left. -/
theorem Proceeds.nextGoal_cases (h : s.Proceeds root limit) :
    (∃ g goal t, s.nextGoal = (some g, t) ∧ t.Proceeds root limit ∧ t.proof = s.proof ∧
      t.budget = s.budget ∧ t.chooser.selected = s.chooser.selected ∧ g ∈ s.chooser.selected ∧
      s.proof.goal? g = some goal) ∨
    ∃ t, s.nextGoal = (none, t) ∧ t.Proceeds root limit ∧ t.Stuck := by
  obtain ⟨c, hc, hcovers⟩ := h.chooser
  have hnext : s.nextGoal = ((c.next s.proof).1,
      { s with chooser := .depthFirst (c.next s.proof).2, turns := s.turns + 1 }) := by
    rw [nextGoal, hc]
    rfl
  have hproceeds : ∀ rest : List GoalId, rest.Subperm c.selected → Proceeds root limit
      { s with chooser := .depthFirst { c with pending := rest }, turns := s.turns + 1 } := by
    intro rest hrest
    exact ⟨h.searching, ⟨_, rfl, hrest, hcovers.goals⟩, h.stop, h.stopAtFirst,
      h.maxApplications, h.timeout⟩
  rcases DepthFirst.next_cases s.proof hcovers.pending with
    ⟨g, rest, heq, hg, hauto, hrest⟩ | ⟨heq, hnone⟩
  · obtain ⟨goal, hgoal, -⟩ := (Option.any_eq_true _ _).mp hauto
    refine .inl ⟨g, goal, _, by rw [hnext, heq], hproceeds rest hrest, rfl, rfl, ?_, ?_, hgoal⟩
    · rw [hc]
      rfl
    · rw [hc]
      exact hg
  · refine .inr ⟨_, by rw [hnext, heq], hproceeds [] List.nil_subperm, fun g goal hgoal => ?_⟩
    refine (hcovers.goals g goal hgoal).resolve_left fun hmem => ?_
    -- a ready goal could be worked on, so it would have been chosen
    have hauto : s.proof.isAutomatic g = true := by
      rw [Proof.isAutomatic, hgoal]
      exact (h.searching.goals g goal hgoal).automatic
    rw [hnone g hmem] at hauto
    cases hauto

/-- A goal for which nothing is offered need not be chosen any more. -/
theorem Proceeds.pass (h : s.Proceeds root limit) (hgoal : s.proof.goal? g = some goal)
    (hnone : (s.proof.nextApp g).1 = none) :
    (({ s with proof := (s.proof.nextApp g).2 } : Search).drop g).Proceeds root limit ∧
      (({ s with proof := (s.proof.nextApp g).2 } : Search).drop g).worth ≤ s.worth := by
  obtain ⟨c, hc, hcovers⟩ := h.chooser
  obtain ⟨hstuck, hsearching⟩ := h.searching.stuck hgoal hnone
  have hdrop : ({ s with proof := (s.proof.nextApp g).2 } : Search).drop g =
      { s with proof := (s.proof.nextApp g).2, chooser := .depthFirst (c.remove g) } := by
    rw [drop, hc]
    rfl
  obtain ⟨queue, -, hget⟩ := Proof.goal?_nextApp hgoal
  have hworth : (s.proof.nextApp g).2.worth = s.proof.worth := by
    funext i
    rw [Proof.worth, Proof.worth, hget]
    split <;> rename_i hi
    · rw [hi, hgoal]
      rfl
    · rfl
  rw [hdrop]
  refine ⟨⟨hsearching, ⟨_, rfl, hcovers.pending.filter _, fun i goal' hi => ?_⟩, h.stop,
    h.stopAtFirst, h.maxApplications, h.timeout⟩, ?_⟩
  · have hi' : (s.proof.nextApp g).2.goal? i = some goal' := hi
    rw [hget] at hi'
    split at hi' <;> rename_i hne
    · cases hi'
      exact .inr hstuck
    · refine (hcovers.goals i goal' hi').imp_left fun hmem => ?_
      exact List.mem_filter.mpr ⟨hmem, by simpa using hne⟩
  · rw [worth, worth, hworth, hc]
    exact (List.filter_sublist.map _).sum_le_sum fun _ _ => Nat.zero_le _

/-- **An application that is handed out is made**, and takes something off the worth. -/
theorem Proceeds.applyTo (h : s.Proceeds root limit) (hgoal : s.proof.goal? g = some goal)
    (hg : g ∈ s.chooser.selected) {app : RuleApp} (happ : (s.proof.nextApp g).1 = some app) :
    ∃ step t, Search.applyTo g goal.node app { s with proof := (s.proof.nextApp g).2 } =
      (.ok step, t) ∧
      t.Proceeds root limit ∧ t.budget = s.budget ∧ t.worth < s.worth := by
  obtain ⟨c, hc, hcovers⟩ := h.chooser
  obtain ⟨new, hnew, hsearching, hreplaces⟩ := h.searching.step hgoal happ
  rw [hc] at hg
  generalize hq : (s.proof.nextApp g).2.apply g app = result at hnew hsearching hreplaces
  obtain ⟨result, q⟩ := result
  obtain rfl : result = .ok new := hnew
  refine ⟨⟨g, goal.node, app, new⟩,
    { s with proof := q, chooser := .depthFirst (c.update q goal.node new) }, ?_, ?_, rfl, ?_⟩
  · simp only [Search.applyTo, hq, hc]
    rfl
  · exact ⟨hsearching, ⟨_, rfl, hcovers.update hreplaces⟩, h.stop, h.stopAtFirst,
      h.maxApplications, h.timeout⟩
  · rw [worth, worth, hc]
    exact DepthFirst.worth_update hg hgoal hreplaces

/-- **What an attempt to make an application comes to.** -/
inductive Attempted (root : Sequent) (limit : Nat) (s : Search) :
    Except Ending AppliedStep × Search → Prop where
  /-- there is no work left -/
  | exhausted {t : Search} (h : t.Proceeds root limit) (hstuck : t.Stuck) :
      Attempted root limit s (.error exhausted, t)
  /-- no application is left -/
  | stopped {t : Search} {message : String} {g : GoalId} (hlimit : limit ≤ s.budget.applied) :
      Attempted root limit s (.error (stopped message g), t)
  /-- an application was made -/
  | made {t : Search} {step : AppliedStep} (h : t.Proceeds root limit)
      (hbudget : t.budget = s.budget) (hworth : t.worth < s.worth) :
      Attempted root limit s (.ok step, t)

theorem Attempted.of_le {result : Except Ending AppliedStep × Search}
    (h : Attempted root limit t result) (hbudget : t.budget = s.budget)
    (hworth : t.worth ≤ s.worth) : Attempted root limit s result := by
  cases h with
  | exhausted h hstuck => exact .exhausted h hstuck
  | stopped hlimit => exact .stopped (hbudget ▸ hlimit)
  | made h hbudget' hworth' =>
    exact .made h (hbudget'.trans hbudget) (Nat.lt_of_lt_of_le hworth' hworth)

/-- **An attempt never fails.** It passes over goals that are stuck, each of which is then no longer
chosen, so it does not run out of patience. -/
theorem Proceeds.attempt (h : s.Proceeds root limit) (env : Surroundings) {fuel : Nat}
    (hfuel : s.chooser.selected.length < fuel) : Attempted root limit s (s.attempt env fuel) := by
  induction fuel generalizing s with
  | zero => exact absurd hfuel (Nat.not_lt_zero _)
  | succ fuel ih =>
    rcases h.nextGoal_cases with ⟨g, goal, t, hnext, ht, hproof, hbudget, hselected, hg, hgoal⟩ |
      ⟨t, hnext, ht, hstuck⟩
    · have hgoal' : t.proof.goal? g = some goal := hproof ▸ hgoal
      have hworth : t.worth = s.worth := by rw [worth, worth, hselected, hproof]
      rw [Search.attempt, hnext]
      simp only [hgoal', ht.stop, StopCondition.allows]
      cases hexhausted : (t.budgetNow env).exhausted with
      | true =>
        refine .stopped ?_
        rw [← hbudget]
        exact (ht.exhausted_iff env).mp hexhausted
      | false =>
        have hstop : ∀ q, ({ t with stop := .budget, proof := q } : Search) =
            { t with proof := q } := by
          intro q
          rw [← ht.stop]
        have hq : ∀ {x q}, t.proof.nextApp g = (x, q) → (t.proof.nextApp g).1 = x ∧
            (t.proof.nextApp g).2 = q := fun heq => by simp [heq]
        rcases hask : t.proof.nextApp g with ⟨_ | app, q⟩
        · obtain ⟨hnone, rfl⟩ := hq hask
          obtain ⟨hproceeds, hless⟩ := ht.pass hgoal' hnone
          simp only [Bool.not_false, hstop]
          rw [if_neg (by simp [ht.stopAtFirst])]
          refine (ih hproceeds (Nat.lt_of_lt_of_le (length_drop ?_) ?_)).of_le hbudget
            (hworth ▸ hless)
          · exact hselected ▸ hg
          · exact hselected ▸ Nat.le_of_lt_succ hfuel
        · obtain ⟨hsome, rfl⟩ := hq hask
          obtain ⟨step, t', happlied, hproceeds, hbudget', hless⟩ :=
            ht.applyTo hgoal' (hselected ▸ hg) hsome
          simp only [Bool.not_false, hstop, happlied]
          exact .made hproceeds (hbudget'.trans hbudget) (hworth ▸ hless)
    · rw [Search.attempt, hnext]
      exact .exhausted ht hstuck

/-- **What a step of the loop comes to.** -/
inductive Stepped (root : Sequent) (limit : Nat) (env : Surroundings) (s : Search) :
    Except Ending AppliedStep × Search → Prop where
  /-- there is no work left -/
  | exhausted {t : Search} (h : t.Proceeds root limit) (hstuck : t.Stuck) :
      Stepped root limit env s (.error exhausted, t)
  /-- the limit on applications is reached -/
  | stopped {t : Search} {message : String} {g : GoalId}
      (hlimit : limit ≤ s.budget.applied + s.worth) :
      Stepped root limit env s (.error (stopped message g), t)
  /-- the search was asked to end -/
  | interrupted (hcancelled : env.cancelled s.turns) :
      Stepped root limit env s (.error interrupted, s)
  /-- an application was made -/
  | made {t : Search} {step : AppliedStep} (h : t.Proceeds root limit)
      (happlied : t.budget.applied = s.budget.applied + 1) (hworth : t.worth < s.worth) :
      Stepped root limit env s (.ok step, t)

/-- **A step of the loop never fails.** -/
theorem Proceeds.step (h : s.Proceeds root limit) (env : Surroundings) :
    Stepped root limit env s (s.step env) := by
  rw [Search.step]
  split <;> rename_i hcancelled
  · exact .interrupted hcancelled
  · have hattempted : Attempted root limit s (s.attempt env s.patience) :=
      h.attempt env (Nat.lt_succ_self _)
    generalize s.attempt env s.patience = result at hattempted ⊢
    cases hattempted with
    | exhausted h hstuck => exact .exhausted h hstuck
    | stopped hlimit => exact .stopped (Nat.le_add_right_of_le hlimit)
    | @made t step h hbudget hworth =>
      have hcounted : (t.account step).Proceeds root limit :=
        ⟨h.searching, h.chooser, h.stop, h.stopAtFirst, h.maxApplications, h.timeout⟩
      have happlied : (t.account step).budget.applied = s.budget.applied + 1 := by
        rw [account, hbudget]
      have hstops : (t.account step).stop.stops (t.account step).proof
          ((t.account step).budgetNow env) (some step) =
          (((t.account step).budgetNow env).exhausted, .budget) := by
        rw [hcounted.stop]
        rfl
      have hsame : ({ t.account step with stop := .budget } : Search) = t.account step := by
        rw [← hcounted.stop]
      simp only [hstops, hsame]
      split <;> rename_i hexhausted
      · refine .stopped ?_
        have hlimit := (hcounted.exhausted_iff env).mp hexhausted
        omega
      · exact .made hcounted happlied hworth

/-- **The loop ends with no work left**, if the limit on applications is high enough. -/
theorem Proceeds.exists_run (h : s.Proceeds root limit) (henv : ∀ n, env.cancelled n = false)
    (hlimit : s.budget.applied + s.worth < limit) {fuel : Nat} (hfuel : s.worth < fuel) :
    ∃ t, s.run env fuel = some (exhausted, t) := by
  induction fuel generalizing s with
  | zero => exact absurd hfuel (Nat.not_lt_zero _)
  | succ fuel ih =>
    have hstepped := h.step env
    rw [Search.run]
    generalize s.step env = result at hstepped ⊢
    cases hstepped with
    | exhausted _ _ => exact ⟨_, rfl⟩
    | stopped hreached => exact absurd hreached (Nat.not_le_of_lt hlimit)
    | interrupted hcancelled => simp [henv] at hcancelled
    | made h' happlied hworth => exact ih h' (by omega) (by omega)

/-- **When the loop ends because no goal is left to work on, there is no work left.** -/
theorem Proceeds.stuck_of_run (h : s.Proceeds root limit) {fuel : Nat} {e : Ending}
    (hrun : s.run env fuel = some (e, t)) (he : e.outcome = .finished .goalsExhausted) :
    t.Proceeds root limit ∧ t.Stuck := by
  induction fuel generalizing s with
  | zero => cases hrun
  | succ fuel ih =>
    have hstepped := h.step env
    rw [Search.run] at hrun
    generalize s.step env = result at hstepped hrun
    cases hstepped with
    | exhausted h' hstuck =>
      cases hrun
      exact ⟨h', hstuck⟩
    | stopped _ =>
      cases hrun
      cases he
    | interrupted _ =>
      cases hrun
      cases he
    | made h' _ _ => exact ih h' hrun

end Search

end SequentSearch
