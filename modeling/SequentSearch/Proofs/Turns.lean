import SequentSearch.Proofs.Choosing
import SequentSearch.Search.Run

/-!
# Turns of a search

What one step of a search can do is said here once, and what holds in every run is derived from it.

A search chooses goals and asks the stop condition about them, which changes neither the proof nor
which goals are selected (`Search.Considers`). A goal without an application is passed over and no
longer selected (`Search.Pass`). The turn after that (`Search.Turn`) makes an application, or it
ends the search: no goal is left, a goal is denied, or an application fails. A step of the search is
a number of passes and such a turn (`Search.moved_step`). It never runs out of patience, as each
pass leaves fewer goals selected.

So what holds at the start and is kept by passes and by applications that are made holds at the last
turn of a run (`Search.holds_of_run`).
-/

namespace SequentSearch

namespace Search

variable {env : Surroundings} {s t u : Search} {g : GoalId} {goal : Goal}

/-! ## Choosing and asking -/

/-- **What choosing goals and asking about them changes.** -/
structure Considers (s t : Search) : Prop where
  /-- nothing of the proof -/
  proof : t.proof = s.proof
  /-- nor how far the budget is used up -/
  budget : t.budget = s.budget
  /-- nor what was counted -/
  counted : t.closedGoals = s.closedGoals ∧ t.perRule = s.perRule
  /-- nor whether to end at the first goal without an application -/
  stopAtFirst : t.stopAtFirst = s.stopAtFirst
  /-- only the order of the selected goals -/
  selected : t.chooser.selected.Perm s.chooser.selected
  /-- and those that are left to hand out -/
  sound : t.chooser.Sound
  /-- but not the way goals are chosen -/
  clear : t.chooser.clear = s.chooser.clear
  /-- the stop condition is asked -/
  asked : Arbiter.Asked s.proof s.stop t.stop

/-- **A goal is chosen, and the stop condition allows it or not.** -/
structure Asks (s : Search) (g : GoalId) (goal : Goal) (allowed : Bool) (t : Search) : Prop
    extends Considers s t where
  /-- the goal is selected -/
  mem_selected : g ∈ s.chooser.selected
  /-- and open -/
  isGoal : s.proof.goal? g = some goal
  /-- automatic search may work on it -/
  automatic : goal.automatic
  /-- what the stop condition answers, perhaps after other questions -/
  answer : ∃ stop elapsed, Arbiter.Asked s.proof s.stop stop ∧
    stop.allows s.proof g { s.budget with elapsed := elapsed } = (allowed, t.stop)

/-- Asking for the next goal. -/
theorem considers_nextGoal (h : s.chooser.Sound) {chosen : Option GoalId}
    (hnext : s.nextGoal = (chosen, t)) : Considers s t ∧
      (∀ g, chosen = some g → g ∈ s.chooser.selected ∧ s.proof.isAutomatic g) ∧
      (chosen = none → ∀ g ∈ s.chooser.selected, s.proof.isAutomatic g = false) := by
  rcases hchosen : s.chooser.next s.proof s.stop with ⟨chosen', c, stop⟩
  simp only [nextGoal, hchosen] at hnext
  cases hnext
  obtain ⟨hperm, hsound, hworkable, hnone, hasked⟩ := Chooser.chooses_next h hchosen
  have hclear := s.chooser.clear_next s.proof s.stop
  rw [hchosen] at hclear
  exact ⟨⟨rfl, rfl, ⟨rfl, rfl⟩, rfl, hperm, hsound, hclear, hasked⟩, hworkable, hnone⟩

/-- Asking the stop condition about the goal that was chosen. -/
theorem asks_of_nextGoal (h : s.chooser.Sound) (hnext : s.nextGoal = (some g, t))
    (hgoal : t.proof.goal? g = some goal) {allowed : Bool} {stop : StopCondition}
    (hallows : t.stop.allows t.proof g (t.budgetNow env) = (allowed, stop)) :
    Asks s g goal allowed { t with stop := stop } := by
  obtain ⟨hconsiders, hchosen, -⟩ := considers_nextGoal h hnext
  obtain ⟨hmem, hauto⟩ := hchosen g rfl
  rw [hconsiders.proof] at hgoal hallows
  have hasked := hconsiders.asked.trans (Arbiter.asked_allows s.proof t.stop g (t.budgetNow env))
  rw [StopCondition.arbiter_allows, hallows] at hasked
  refine ⟨⟨hconsiders.proof, hconsiders.budget, hconsiders.counted, hconsiders.stopAtFirst,
    hconsiders.selected, hconsiders.sound, hconsiders.clear, hasked⟩, hmem, hgoal, ?_, _,
    env.elapsed t.turns, hconsiders.asked, ?_⟩
  · simpa [Proof.isAutomatic, hgoal] using hauto
  · rw [← hconsiders.budget]
    exact hallows

/-! ## Turns -/

/-- **A goal is passed over** that has no application. -/
inductive Pass (s : Search) : Search → Prop where
  | stuck {g : GoalId} {goal : Goal} {t : Search} (hasks : Asks s g goal true t)
      (hnone : (s.proof.nextApp g).1 = none) :
      Pass s (({ t with proof := (s.proof.nextApp g).2 } : Search).drop g)

/-- **What a turn comes to** that does not pass over a goal. -/
inductive Turn (env : Surroundings) (s : Search) : Except Ending AppliedStep → Search → Prop where
  /-- no goal is left -/
  | exhausted {t : Search} (hconsiders : Considers s t)
      (hnone : ∀ g ∈ s.chooser.selected, s.proof.isAutomatic g = false) :
      Turn env s (.error exhausted) t
  /-- the stop condition does not allow the goal -/
  | denied {g : GoalId} {goal : Goal} {t : Search} (hasks : Asks s g goal false t) :
      Turn env s (.error (stopped (t.stop.denial (t.budgetNow env)) g)) t
  /-- the goal has no application, and the search is to end there -/
  | nonCloseable {g : GoalId} {goal : Goal} {t : Search} (hasks : Asks s g goal true t)
      (hnone : (s.proof.nextApp g).1 = none) (hfirst : s.stopAtFirst = true) :
      Turn env s (.error (nonCloseable g)) { t with proof := (s.proof.nextApp g).2 }
  /-- the application fails -/
  | failed {g : GoalId} {goal : Goal} {app : RuleApp} {e : ProofError} {q : Proof} {t : Search}
      (hasks : Asks s g goal true t) (happ : (s.proof.nextApp g).1 = some app)
      (happly : (s.proof.nextApp g).2.apply g app = (.error e, q)) :
      Turn env s (.error (failed e g)) { t with proof := q }
  /-- the application is made -/
  | made {g : GoalId} {goal : Goal} {app : RuleApp} {new : List GoalId} {q : Proof} {t : Search}
      (hasks : Asks s g goal true t) (happ : (s.proof.nextApp g).1 = some app)
      (happly : (s.proof.nextApp g).2.apply g app = (.ok new, q)) :
      Turn env s (.ok ⟨g, goal.node, app, new⟩)
        { t with proof := q, chooser := t.chooser.update q goal.node new }

/-- Passing over any number of goals. -/
def Passes : Search → Search → Prop := Relation.ReflTransGen Pass

theorem Pass.sound (h : Pass s t) : t.chooser.Sound := by
  cases h with
  | stuck hasks _ => exact hasks.sound.remove _

/-- **A turn that ends the search leaves the proof as it is**, apart from queues and names. -/
theorem Turn.keeps {e : Ending} (h : Turn env s (.error e) t) : Proof.Keeps s.proof t.proof := by
  cases h with
  | exhausted hconsiders _ => exact hconsiders.proof ▸ Proof.keeps_refl s.proof
  | denied hasks => exact hasks.proof ▸ Proof.keeps_refl s.proof
  | nonCloseable _ _ _ => exact Proof.keeps_nextApp ..
  | @failed g goal app e q t hasks _ happly =>
    obtain ⟨queue, -, hget⟩ := Proof.goal?_nextApp hasks.isGoal
    obtain ⟨-, names, -, -, rfl⟩ := Proof.apply_eq_error (hget g ▸ if_pos rfl) happly
    exact (Proof.keeps_nextApp ..).trans (Proof.keeps_names ..)

theorem Pass.keeps (h : Pass s t) : Proof.Keeps s.proof t.proof := by
  cases h with
  | stuck _ _ => exact Proof.keeps_nextApp ..

/-- **An application that is made keeps all in order.** -/
theorem Turn.inOrder {made : AppliedStep} (h : Turn env s (.ok made) t) (hs : s.proof.InOrder) :
    t.proof.InOrder := by
  cases h with
  | @made g goal app new q t _ _ happly =>
    have hq := (hs.keeps (Proof.keeps_nextApp s.proof g)).apply g app
    rwa [happly] at hq

/-- What was counted stays the same until an application is accounted for. -/
theorem Turn.counted {result : Except Ending AppliedStep} (h : Turn env s result t) :
    t.budget = s.budget ∧ t.closedGoals = s.closedGoals ∧ t.perRule = s.perRule := by
  cases h with
  | exhausted hconsiders _ => exact ⟨hconsiders.budget, hconsiders.counted⟩
  | denied hasks => exact ⟨hasks.budget, hasks.counted⟩
  | nonCloseable hasks _ _ => exact ⟨hasks.budget, hasks.counted⟩
  | failed hasks _ _ => exact ⟨hasks.budget, hasks.counted⟩
  | made hasks _ _ => exact ⟨hasks.budget, hasks.counted⟩

theorem Pass.counted (h : Pass s t) :
    t.budget = s.budget ∧ t.closedGoals = s.closedGoals ∧ t.perRule = s.perRule := by
  cases h with
  | stuck hasks _ => exact ⟨hasks.budget, hasks.counted⟩

/-- Dropping a goal leaves fewer goals to choose from. -/
theorem length_drop (hg : g ∈ s.chooser.selected) :
    (s.drop g).chooser.selected.length < s.chooser.selected.length := by
  rw [drop, Chooser.selected_remove]
  exact List.length_filter_lt_length_iff_exists.mpr ⟨g, hg, by simp⟩

/-- A pass leaves fewer goals to choose from. -/
theorem Pass.length_lt (h : Pass s t) : t.chooser.selected.length < s.chooser.selected.length := by
  cases h with
  | @stuck g goal t hasks _ =>
    rw [← hasks.selected.length_eq]
    exact length_drop (s := { t with proof := (s.proof.nextApp g).2 })
      (hasks.selected.mem_iff.mpr hasks.mem_selected)

/-- Making the application that was handed out. -/
theorem turn_applyTo (hasks : Asks s g goal true t) {app : RuleApp}
    (happ : (s.proof.nextApp g).1 = some app) {result : Except Ending AppliedStep}
    (happly : applyTo g goal.node app { t with proof := (s.proof.nextApp g).2 } = (result, u)) :
    Turn env s result u := by
  rcases hresult : (s.proof.nextApp g).2.apply g app with ⟨_ | new, q⟩ <;>
    simp only [applyTo, hresult] at happly <;> cases happly
  · exact .failed hasks happ hresult
  · exact .made hasks happ hresult

/-- **The first goal that is chosen decides an attempt, or it is passed over**, however many goals
may be passed over after it. -/
theorem attempt_cases (env : Surroundings) (h : s.chooser.Sound) :
    (∃ result t, Turn env s result t ∧ ∀ fuel, s.attempt env (fuel + 1) = (result, t)) ∨
      ∃ t, Pass s t ∧ ∀ fuel, s.attempt env (fuel + 1) = t.attempt env fuel := by
  rcases hnext : s.nextGoal with ⟨_ | g, s₁⟩
  · obtain ⟨hconsiders, -, hnone⟩ := considers_nextGoal h hnext
    refine .inl ⟨_, _, .exhausted hconsiders (hnone rfl), fun fuel => ?_⟩
    rw [attempt, hnext]
  · have hattempt : ∀ fuel, s.attempt env (fuel + 1) = _ := fun fuel => by rw [attempt, hnext]
    cases hgoal : s₁.proof.goal? g with
    | none =>
      -- a goal that can be worked on is open
      obtain ⟨hconsiders, hchosen, -⟩ := considers_nextGoal h hnext
      have hauto := (hchosen g rfl).2
      rw [hconsiders.proof] at hgoal
      simp [Proof.isAutomatic, hgoal] at hauto
    | some goal =>
      simp only [hgoal] at hattempt
      rcases hallows : s₁.stop.allows s₁.proof g (s₁.budgetNow env) with ⟨_ | _, stop⟩ <;>
        simp only [hallows] at hattempt <;> have hasks := asks_of_nextGoal h hnext hgoal hallows
      · exact .inl ⟨_, _, .denied hasks, hattempt⟩
      · have hproof : s₁.proof = s.proof := hasks.proof
        rw [hproof] at hattempt
        rcases happ : s.proof.nextApp g with ⟨_ | app, q⟩ <;> simp only [happ] at hattempt
        · obtain ⟨hnone, rfl⟩ := Prod.ext_iff.mp happ
          by_cases hfirst : s₁.stopAtFirst
          · exact .inl ⟨_, _, .nonCloseable hasks hnone (hasks.stopAtFirst.symm.trans hfirst),
              fun fuel => (hattempt fuel).trans (if_pos hfirst)⟩
          · exact .inr ⟨_, .stuck hasks hnone, fun fuel => (hattempt fuel).trans (if_neg hfirst)⟩
        · obtain ⟨hsome, rfl⟩ := Prod.ext_iff.mp happ
          exact .inl ⟨_, _, turn_applyTo hasks hsome rfl, hattempt⟩

/-- **An attempt is a number of passes and a turn.** -/
theorem turn_attempt (h : s.chooser.Sound) {fuel : Nat} (hfuel : s.chooser.selected.length < fuel)
    {result : Except Ending AppliedStep} (hattempt : s.attempt env fuel = (result, t)) :
    ∃ u, Passes s u ∧ Turn env u result t := by
  induction fuel generalizing s with
  | zero => exact absurd hfuel (Nat.not_lt_zero _)
  | succ fuel ih =>
    rcases attempt_cases env h with ⟨result', t', hturn, heq⟩ | ⟨u, hpass, heq⟩
    · cases (heq fuel).symm.trans hattempt
      exact ⟨s, .refl, hturn⟩
    · obtain ⟨v, hpasses, hturn⟩ := ih hpass.sound
        (Nat.lt_of_lt_of_le hpass.length_lt (Nat.le_of_lt_succ hfuel))
          ((heq fuel).symm.trans hattempt)
      exact ⟨v, .head hpass hpasses, hturn⟩

/-- **An attempt does not run out of patience**: each pass leaves fewer goals to choose from. -/
theorem attempt_eq_attempt (h : s.chooser.Sound) {fuel fuel' : Nat}
    (hfuel : s.chooser.selected.length < fuel) (hfuel' : s.chooser.selected.length < fuel') :
    s.attempt env fuel = s.attempt env fuel' := by
  induction fuel generalizing s fuel' with
  | zero => exact absurd hfuel (Nat.not_lt_zero _)
  | succ fuel ih =>
    cases fuel' with
    | zero => exact absurd hfuel' (Nat.not_lt_zero _)
    | succ fuel' =>
      rcases attempt_cases env h with ⟨_, _, -, heq⟩ | ⟨u, hpass, heq⟩
      · rw [heq, heq]
      · rw [heq, heq]
        exact ih hpass.sound (Nat.lt_of_lt_of_le hpass.length_lt (Nat.le_of_lt_succ hfuel))
          (Nat.lt_of_lt_of_le hpass.length_lt (Nat.le_of_lt_succ hfuel'))

/-! ## Steps -/

/-- The state after an application that was made has been accounted for. -/
def accounted (env : Surroundings) (made : AppliedStep) (s : Search) : Search :=
  { s.account made with
    stop := ((s.account made).stop.stops s.proof ((s.account made).budgetNow env) (some made)).2 }

/-- Whether a search ends after an application that was made. -/
def endsAfter (env : Surroundings) (made : AppliedStep) (s : Search) : Bool :=
  ((s.account made).stop.stops s.proof ((s.account made).budgetNow env) (some made)).1

theorem step_of_cancelled (hcancelled : env.cancelled s.turns) :
    s.step env = (.error interrupted, s) := by
  rw [step, if_pos hcancelled]

/-- A step that makes no application ends the search. -/
theorem step_of_failed_attempt {e : Ending} (hcancelled : env.cancelled s.turns = false)
    (hattempt : s.attempt env s.patience = (.error e, t)) : s.step env = (.error e, t) := by
  rw [step, hcancelled, if_neg Bool.false_ne_true, hattempt]

/-- **A step makes an application.** -/
structure Attempts (env : Surroundings) (s : Search) (made : AppliedStep) (t : Search) : Prop where
  /-- nobody has asked the search to end -/
  cancelled : env.cancelled s.turns = false
  /-- the state before the application is accounted for -/
  attempt : s.attempt env s.patience = (.ok made, t)

/-- **A step that makes an application** ends the search after it or not. -/
theorem Attempts.step_eq {made : AppliedStep} (h : Attempts env s made t) : s.step env =
    (if t.endsAfter env made then
      .error (stopped ((t.accounted env made).stop.reason
        ((t.accounted env made).budgetNow env)) made.goal)
    else .ok made, t.accounted env made) := by
  rw [step, h.cancelled, if_neg Bool.false_ne_true, h.attempt]
  cases hends : t.endsAfter env made with
  | true => exact if_pos hends
  | false => exact if_neg (Bool.eq_false_iff.mp hends)

theorem Attempts.turn {made : AppliedStep} (h : Attempts env s made t) (hsound : s.chooser.Sound) :
    ∃ u, Passes s u ∧ Turn env u (.ok made) t :=
  turn_attempt hsound (Nat.lt_succ_self _) h.attempt

/-- **How a search ends.** -/
inductive Ends (env : Surroundings) (s : Search) : Ending → Search → Prop where
  /-- it was asked to -/
  | interrupted (hcancelled : env.cancelled s.turns) : Ends env s interrupted s
  /-- at a goal, or because no goal is left -/
  | turned {e : Ending} {t : Search} (hturn : Turn env s (.error e) t) : Ends env s e t
  /-- after an application that was made -/
  | stopped {made : AppliedStep} {t : Search} {message : String} (hturn : Turn env s (.ok made) t)
      (hends : t.endsAfter env made) : Ends env s (stopped message made.goal) (t.accounted env made)

/-- **What a step of a search does**: it passes over goals, and then makes an application or
ends. -/
inductive Moved (env : Surroundings) (s : Search) : Except Ending AppliedStep → Search → Prop where
  /-- the search ends -/
  | ended {u t : Search} {e : Ending} (hpasses : Passes s u) (hends : Ends env u e t) :
      Moved env s (.error e) t
  /-- an application is made, and the search goes on -/
  | made {u t : Search} {made : AppliedStep} (hpasses : Passes s u)
      (hturn : Turn env u (.ok made) t) (hgoes : t.endsAfter env made = false) :
      Moved env s (.ok made) (t.accounted env made)

/-- **A step passes over goals, and then makes an application or ends.** -/
theorem moved_step (h : s.chooser.Sound) {result : Except Ending AppliedStep}
    (hstep : s.step env = (result, t)) : Moved env s result t := by
  cases hcancelled : env.cancelled s.turns with
  | true =>
    rw [step_of_cancelled hcancelled] at hstep
    cases hstep
    exact .ended .refl (.interrupted hcancelled)
  | false =>
    rcases hattempt : s.attempt env s.patience with ⟨e | made, t₁⟩ <;>
      obtain ⟨u, hpasses, hturn⟩ := turn_attempt h (Nat.lt_succ_self _) hattempt
    · rw [step_of_failed_attempt hcancelled hattempt] at hstep
      cases hstep
      exact .ended hpasses (.turned hturn)
    · rw [Attempts.step_eq ⟨hcancelled, hattempt⟩] at hstep
      split at hstep <;> rename_i hends <;> cases hstep
      · exact .ended hpasses (.stopped hturn hends)
      · exact .made hpasses hturn (Bool.eq_false_iff.mpr hends)

/-- An application is made, and the search goes on. -/
def Makes (env : Surroundings) (s t : Search) : Prop := ∃ made, s.step env = (.ok made, t)

/-- **A run is a sequence of steps, the last of which ends it.** -/
theorem makes_of_run {fuel : Nat} {e : Ending} (hrun : s.run env fuel = some (e, t)) :
    ∃ u, Relation.ReflTransGen (Makes env) s u ∧ u.step env = (.error e, t) := by
  induction fuel generalizing s with
  | zero => cases hrun
  | succ fuel ih =>
    rw [run] at hrun
    rcases hstep : s.step env with ⟨_ | made, s₁⟩ <;> simp only [hstep] at hrun
    · cases hrun
      exact ⟨s, .refl, hstep⟩
    · obtain ⟨u, hmakes, hlast⟩ := ih hrun
      exact ⟨u, .head ⟨made, hstep⟩ hmakes, hlast⟩

/-- More rounds than a run needs change nothing. -/
theorem run_mono {n m : Nat} {r : Ending × Search} (hrun : s.run env n = some r) (hle : n ≤ m) :
    s.run env m = some r := by
  induction n generalizing s m with
  | zero => cases hrun
  | succ n ih =>
    obtain ⟨m, rfl⟩ := Nat.exists_eq_add_one_of_ne_zero
        (Nat.ne_of_gt (Nat.lt_of_lt_of_le n.succ_pos hle))
    rw [run] at hrun ⊢
    rcases hstep : s.step env with ⟨_ | made, s₁⟩ <;> simp only [hstep] at hrun ⊢
    · exact hrun
    · exact ih hrun (Nat.le_of_succ_le_succ hle)

theorem Turn.sound {made : AppliedStep} (h : Turn env s (.ok made) t) : t.chooser.Sound := by
  cases h with
  | made _ _ _ => exact Chooser.sound_update ..

theorem Makes.sound (h : Makes env s t) (hs : s.chooser.Sound) : t.chooser.Sound := by
  obtain ⟨made, hstep⟩ := h
  cases moved_step hs hstep with
  | made _ hturn _ => exact hturn.sound

theorem sound_of_makes (h : Relation.ReflTransGen (Makes env) s t) (hs : s.chooser.Sound) :
    t.chooser.Sound := by
  induction h with
  | refl => exact hs
  | tail _ hlast ih => exact hlast.sound ih

section Run

variable {P : Search → Prop}

theorem holds_of_passes (hpass : ∀ s t, P s → Pass s t → P t) (h : Passes s t)
    (hs : P s) : P t := by
  induction h with
  | refl => exact hs
  | tail _ hlast ih => exact hpass _ _ ih hlast

theorem Passes.keeps (h : Passes s t) : Proof.Keeps s.proof t.proof :=
  holds_of_passes (P := fun t => Proof.Keeps s.proof t.proof) (fun _ _ hs hpass =>
    hs.trans hpass.keeps) h (Proof.keeps_refl _)

theorem Passes.budget_eq (h : Passes s t) : t.budget = s.budget :=
  holds_of_passes (P := fun t => t.budget = s.budget) (fun _ _ hs hpass =>
    hpass.counted.1.trans hs) h rfl

/-- **A step changes no limit.** -/
theorem budget_of_step (h : s.chooser.Sound) {result : Except Ending AppliedStep}
    (hstep : s.step env = (result, t)) : ∃ n, t.budget = { s.budget with applied := n } := by
  cases moved_step h hstep with
  | ended hpasses hends =>
    rw [← hpasses.budget_eq]
    cases hends with
    | interrupted _ => exact ⟨_, rfl⟩
    | turned hturn => exact ⟨_, hturn.counted.1⟩
    | @stopped made t _ hturn _ =>
      exact ⟨_, congrArg (fun b => { b with applied := b.applied + 1 }) hturn.counted.1⟩
  | @made u t made hpasses hturn _ =>
    rw [← hpasses.budget_eq]
    exact ⟨_, congrArg (fun b => { b with applied := b.applied + 1 }) hturn.counted.1⟩

/-- What passes and applications keep holds before each step of a run. -/
theorem holds_of_makes (hpass : ∀ s t, P s → Pass s t → P t)
    (hmade : ∀ s made t, P s → Turn env s (.ok made) t → P (t.accounted env made))
    (h : Relation.ReflTransGen (Makes env) s t) (hsound : s.chooser.Sound) (hs : P s) : P t := by
  induction h with
  | refl => exact hs
  | tail hbefore hlast ih =>
    obtain ⟨made, hstep⟩ := hlast
    cases moved_step (sound_of_makes hbefore hsound) hstep with
    | made hpasses hturn _ => exact hmade _ _ _ (holds_of_passes hpass hpasses ih) hturn

/-- **What passes and applications keep holds at the last turn of a run.** -/
theorem holds_of_run (hpass : ∀ s t, P s → Pass s t → P t)
    (hmade : ∀ s made t, P s → Turn env s (.ok made) t → P (t.accounted env made))
    (hsound : s.chooser.Sound) (hs : P s) {fuel : Nat} {e : Ending}
    (hrun : s.run env fuel = some (e, t)) : ∃ u, P u ∧ Ends env u e t := by
  obtain ⟨v, hmakes, hlast⟩ := makes_of_run hrun
  have hP := holds_of_makes hpass hmade hmakes hsound hs
  cases moved_step (sound_of_makes hmakes hsound) hlast with
  | ended hpasses hends => exact ⟨_, holds_of_passes hpass hpasses hP, hends⟩

end Run

section Attempts

variable {made : AppliedStep} (h : Attempts env s made t) (hsound : s.chooser.Sound)
include h hsound

theorem Attempts.budget_eq : t.budget = s.budget := by
  obtain ⟨u, hpasses, hturn⟩ := h.turn hsound
  exact hturn.counted.1.trans hpasses.budget_eq

theorem Attempts.sound : t.chooser.Sound := by
  obtain ⟨u, hpasses, hturn⟩ := h.turn hsound
  exact hturn.sound

theorem Attempts.inOrder (hs : s.proof.InOrder) : t.proof.InOrder := by
  obtain ⟨u, hpasses, hturn⟩ := h.turn hsound
  exact hturn.inOrder (hs.keeps hpasses.keeps)

end Attempts

end Search

namespace Searcher

variable {env : Surroundings} {d d' : Searcher} {p q : Proof} {task : Task} {report : Report}

theorem sound_begin (d : Searcher) (p : Proof) (task : Task) : (d.begin p task).chooser.Sound :=
  Chooser.sound_select ..

/-- **A search that has ended was a run.** -/
theorem run_of_start (h : d.start env p task = some (report, d', q)) :
    ∃ t, (d.begin p task).run env (fuel task) = some (report.ending, t) ∧ q = t.proof := by
  obtain ⟨⟨e, t⟩, hrun, heq⟩ := Option.map_eq_some_iff.mp h
  cases heq
  exact ⟨t, hrun, rfl⟩

end Searcher

end SequentSearch
