import SequentSearch.Proofs.Saturation
import SequentSearch.Proofs.Soundness

/-!
# Steps of a search on a sequent of propositional logic

In a search with the propositional rules and the usual strategy every goal is **ready**
(`Goal.Ready`): its index follows its sequent, what the branch has worked on is settled, and its
queue holds all that the strategy offers. A ready goal has one of two fates.

* Nothing is offered for it. Then it is stuck (`Proof.Searching.stuck`), and has a countermodel.
* The application that is handed out for it can be made. The goals that take its place are ready,
  there are at most two of them, and together they are worth less than the goal
  (`Proof.Searching.step`), where a goal is worth 3 to the power of the weight of its sequent
  (`Goal.worth`).
-/

namespace SequentSearch

/-! ## Ready goals -/

namespace Goal

variable {goal : Goal}

/-- What the usual strategy offers for a goal. -/
def offers (goal : Goal) : List (Cost × RuleApp) :=
  (Strategy.ofSettings {}).offers goal.context goal.index goal.sequent

/-- **A goal that search can go on with.** -/
structure Ready (goal : Goal) : Prop where
  /-- its formulas are formulas of propositional logic -/
  propositional : goal.sequent.All fun _ f => f.term.IsPropositional
  /-- no formula is there twice -/
  nodup : goal.sequent.Nodup
  /-- the index is that of the sequent -/
  index : goal.index.Follows (.ofRules Calculus.propositional) goal.sequent
  /-- the formulas worked on are settled -/
  settled : Settled goal.trail goal.sequent
  /-- automatic search may work on it -/
  automatic : goal.automatic
  /-- all that is offered is in the queue -/
  queue : ∀ e, e ∈ goal.queue.get.entries ↔ e ∈ goal.offers

/-- What a goal is worth. Two goals are worth less than a goal with a heavier sequent. -/
def worth (goal : Goal) : Nat := 3 ^ goal.sequent.total fun f => f.term.weight

/-- A ready goal for which nothing is offered has a countermodel. -/
theorem Ready.counters (h : goal.Ready) (hstuck : goal.offers = []) {β : Env Unit}
    (hβ : β.IsObjects) :
    (Interpretation.ofValuation goal.sequent.valuation).Counters β goal.sequent :=
  Calculus.counters_of_stuck hβ h.propositional h.index h.settled hstuck

/-- **What is offered for a ready goal has its focus in the sequent**, and is complete. -/
theorem Ready.focus_of_mem_offers (h : goal.Ready) {cost : Cost} {app : RuleApp}
    (happ : (cost, app) ∈ goal.offers) :
    app.isComplete ∧ ∃ o, app.focus = some o ∧ o.formula ∈ goal.sequent.side o.side := by
  obtain ⟨a, ha, happroves, hdone, -, -⟩ := Strategy.mem_offers_ofSettings.mp happ
  refine ⟨RuleApp.isComplete_of_mem_completions hdone, ?_⟩
  rcases h.index.mem_apps.mp ha with ⟨side, f, hf, ha⟩ | ⟨rule, hrule, rfl⟩
  · obtain ⟨pos, sub, rule, σ, -, -, -, -, rfl⟩ := RuleApp.mem_matchesIn.mp ha
    exact ⟨⟨side, f, pos⟩, RuleApp.focus_of_mem_completions hdone, hf⟩
  · -- only cut has no focus, and it is not meant for automatic search
    obtain ⟨hmem, hnone⟩ := List.mem_filter.mp hrule
    have hdraft := RuleDraft.mem_acceptAll (RuleBase.mem_ofRules hmem)
    have hauto : rule.automatic := Strategy.automatic_of_approves happroves
    have helementary := Calculus.propositionalDrafts_elementary _ hdraft hauto
    rw [RuleDraft.isElementary, Option.isNone_iff_eq_none.mp hnone] at helementary
    simp at helementary

/-- Filling the queue of a goal makes it ready, if all else is. -/
theorem ready_fill (hprop : goal.sequent.All fun _ f => f.term.IsPropositional)
    (hnodup : goal.sequent.Nodup)
    (hindex : goal.index.Follows (.ofRules Calculus.propositional) goal.sequent)
    (hsettled : Settled goal.trail goal.sequent) (hauto : goal.automatic) :
    (goal.fill (.ofSettings {})).Ready :=
  ⟨hprop, hnodup, hindex, hsettled, hauto, fun _ => mem_fill⟩

section

variable {p : Proof} {app : RuleApp} {s : Successor} {o : Occurrence} {idx : Nat}
  {new : List (Side × SeqFormula)} {node : NodeId}

/-- **The goal for a successor is ready.** -/
theorem Ready.successor (h : goal.Ready) (hbase : p.base = .ofRules Calculus.propositional)
    (hstrategy : p.strategy = .ofSettings {}) (happ : app.focus = some o)
    (hidx : (goal.sequent.side o.side)[idx]? = some o.formula)
    (hreduces : Reduces goal.sequent o idx new s.change) :
    (p.successorGoal goal app node s).Ready := by
  unfold Proof.successorGoal
  rw [hbase, hstrategy]
  refine ready_fill ?_ ?_ ?_ ?_ h.automatic
  · exact hreduces.all_propositional h.propositional
  · exact hreduces.adds.nodup h.nodup
  · exact h.index.update (hreduces.adds.tracks h.nodup)
  · exact hreduces.settled hidx happ h.settled

/-- The goal for a successor is worth a third of the goal at most. -/
theorem worth_successor (hidx : (goal.sequent.side o.side)[idx]? = some o.formula)
    (hreduces : Reduces goal.sequent o idx new s.change) :
    3 * (p.successorGoal goal app node s).worth ≤ goal.worth := by
  unfold worth
  rw [← Nat.pow_succ']
  exact Nat.pow_le_pow_right (by decide) (hreduces.total_lt hidx)

end

end Goal

/-! ## Steps -/

namespace Proof

variable {root : Sequent} {p q : Proof} {g : GoalId} {goal : Goal} {app : RuleApp}
  {new : List GoalId}

/-- What the goal of a number is worth; nothing if it is not open. -/
def worth (p : Proof) (g : GoalId) : Nat := ((p.goal? g).map Goal.worth).getD 0

/-- **A proof that search with the propositional rules has led to.** -/
structure Searching (root : Sequent) (p : Proof) : Prop where
  /-- the root is a sequent of propositional logic -/
  propositional : root.All fun _ f => f.term.IsPropositional
  /-- the proof is that of a run -/
  run : ∃ handed, Run root Calculus.propositional (.ofSettings {}) p handed
  /-- goals are ready -/
  goals : ∀ g goal, p.goal? g = some goal → goal.Ready

theorem searching_start (hroot : root.All fun _ f => f.term.IsPropositional) (hnodup : root.Nodup) :
    (start root Calculus.propositional (.ofSettings {})).Searching root := by
  refine ⟨hroot, ⟨[], .start⟩, fun g goal hg => ?_⟩
  obtain ⟨-, rfl⟩ := goal?_start _ _ _ hg
  exact Goal.ready_fill hroot hnodup (MatchIndex.follows_ofSequent _ root) (settled_nil root) rfl

theorem Searching.calculusRun (h : p.Searching root) {handed : List (GoalId × RuleApp)}
    (hrun : Run root Calculus.propositional (.ofSettings {}) p handed) :
    CalculusRun root Calculus.propositional (.ofSettings {}) p handed where
  drafts _ hr := List.mem_append_left _ (RuleDraft.mem_acceptAll hr)
  firstOrder side f hf := Term.IsPropositional.firstOrder (h.propositional side f hf)
  run := hrun

/-- **A goal for which nothing is handed out is stuck**, and asking for it changes nothing that
matters. -/
theorem Searching.stuck (h : p.Searching root) (hgoal : p.goal? g = some goal)
    (hnone : (p.nextApp g).1 = none) : goal.offers = [] ∧ (p.nextApp g).2.Searching root := by
  have hready := h.goals g goal hgoal
  obtain ⟨handed, hrun⟩ := h.run
  have hempty : goal.queue.get.entries = [] := by
    refine List.eq_nil_iff_forall_not_mem.mpr fun e he => ?_
    have hrejects := approves_of_nextApp_eq_none hgoal hnone e he
    obtain ⟨-, -, -, -, -, happroves⟩ := Strategy.mem_offers_ofSettings.mp ((hready.queue e).mp he)
    rw [hrun.reached.strategy_eq, happroves] at hrejects
    cases hrejects
  have hoffers : goal.offers = [] := by
    refine List.eq_nil_iff_forall_not_mem.mpr fun e he => ?_
    have hmem := (hready.queue e).mpr he
    rw [hempty] at hmem
    cases hmem
  refine ⟨hoffers, h.propositional, ⟨_, hrun.ask g⟩, fun i goal' hi => ?_⟩
  obtain ⟨queue, hsub, hget⟩ := goal?_nextApp hgoal
  rw [hget] at hi
  split at hi
  · cases hi
    refine ⟨hready.propositional, hready.nodup, hready.index, hready.settled, hready.automatic,
      fun e => ⟨fun he => (hready.queue e).mp (hsub e he), fun he => ?_⟩⟩
    have hnot : e ∈ goal.offers := he
    rw [hoffers] at hnot
    cases hnot
  · exact h.goals i goal' hi

/-- **What a step of search does to the goals**: new ones that are worth less take the place of a
goal. -/
structure Replaces (p q : Proof) (g : GoalId) (goal : Goal) (new : List GoalId) : Prop
    extends p.Supplants q g goal new where
  /-- the new goals are worth less than the goal together -/
  worth : (new.map q.worth).sum < goal.worth

/-- At most two numbers, each a third of a bound at most, stay below the bound. -/
theorem sum_lt_of_thirds {l : List Nat} {bound : Nat} (hpos : 0 < bound) (hlen : l.length ≤ 2)
    (hl : ∀ n ∈ l, 3 * n ≤ bound) : l.sum < bound := by
  match l, hlen, hl with
  | [], _, _ => exact hpos
  | [a], _, hl =>
    have ha := hl a (by simp)
    simp only [List.sum_cons, List.sum_nil]
    omega
  | [a, b], _, hl =>
    have ha := hl a (by simp)
    have hb := hl b (by simp)
    simp only [List.sum_cons, List.sum_nil]
    omega

/-- **A complete application of a propositional rule is executed, and takes its focus apart.** -/
theorem InCalculus.exists_reduces {handed : List (GoalId × RuleApp)} {o : Occurrence}
    (h : p.InCalculus handed) (hbase : p.base = .ofRules Calculus.propositional)
    (happ : (g, app) ∈ handed) (hgoal : p.goal? g = some goal)
    (hprop : goal.sequent.All fun _ f => f.term.IsPropositional) (hcomplete : app.isComplete)
    (ho : app.focus = some o) (hmem : o.formula ∈ goal.sequent.side o.side) :
    ∃ succs names idx, app.execute goal.sequent p.names = (.ok succs, names) ∧ succs.length ≤ 2 ∧
      (goal.sequent.side o.side)[idx]? = some o.formula ∧
      ∀ s ∈ succs, ∃ new, Reduces goal.sequent o idx new s.change := by
  obtain ⟨hmatched, hauto, -⟩ := h.handed _ happ
  have hdraft : app.rule.toRuleDraft ∈ Calculus.propositionalDrafts := by
    have hrule := hmatched.rule_mem
    rw [hbase] at hrule
    exact RuleDraft.mem_acceptAll (RuleBase.mem_ofRules hrule)
  obtain ⟨succs, names, hexec⟩ := hmatched.executes hdraft hauto hprop hcomplete ho hmem
  obtain ⟨o', idx, ho', hidx, hlen, hsuccs⟩ := (h.step happ hgoal hexec).reduces hdraft hprop
  obtain rfl : o = o' := Option.some.inj (ho.symm.trans ho')
  exact ⟨succs, names, idx, hexec, hlen, hidx, hsuccs⟩

/-- A step that takes a formula apart replaces the goal by goals for the successors. -/
theorem replaces_of_reduces {succs : List Successor} {names : NameSupply}
    {o : Occurrence} {idx : Nat} (htree : p.Tree) (hgoal : p.goal? g = some goal)
    (hexec : app.execute goal.sequent p.names = (.ok succs, names)) (hlen : succs.length ≤ 2)
    (hidx : (goal.sequent.side o.side)[idx]? = some o.formula)
    (hsuccs : ∀ s ∈ succs, ∃ new, Reduces goal.sequent o idx new s.change) :
    ∃ new, (p.apply g app).1 = .ok new ∧ p.Replaces (p.apply g app).2 g goal new ∧
      ∀ h ∈ new, ∃ s ∈ succs, ∃ node,
        (p.apply g app).2.goal? h = some (p.successorGoal goal app node s) := by
  obtain ⟨new, hnew, hsupplants, hgoals⟩ := supplants_of_execute htree hgoal hexec
  have hsuccessor : ∀ h ∈ new, ∃ s ∈ succs, ∃ node,
      (p.apply g app).2.goal? h = some (p.successorGoal goal app node s) := by
    intro h hh
    obtain ⟨s, hs, hgoal'⟩ := exists_right_of_forall₂ hgoals hh
    exact ⟨s, hs, hgoal'⟩
  refine ⟨new, hnew, ⟨hsupplants, sum_lt_of_thirds (Nat.pow_pos (by decide)) ?_ ?_⟩, hsuccessor⟩
  · rw [List.length_map, hgoals.length_eq]
    exact hlen
  · refine List.forall_mem_map.mpr fun h hh => ?_
    obtain ⟨s, hs, node, hget⟩ := hsuccessor h hh
    obtain ⟨_, hreduces⟩ := hsuccs s hs
    rw [worth, hget]
    exact Goal.worth_successor hidx hreduces

/-- **The application that is handed out for a goal can be made**, and the goals that take the place
of the goal are worth less. -/
theorem Searching.step (h : p.Searching root) (hgoal : p.goal? g = some goal)
    (happ : (p.nextApp g).1 = some app) : ∃ new, ((p.nextApp g).2.apply g app).1 = .ok new ∧
      ((p.nextApp g).2.apply g app).2.Searching root ∧
      p.Replaces ((p.nextApp g).2.apply g app).2 g goal new := by
  have hready := h.goals g goal hgoal
  obtain ⟨handed, hrun⟩ := h.run
  -- what was handed out is offered, so that it can be executed
  obtain ⟨cost, hoffer⟩ : ∃ cost, (cost, app) ∈ goal.offers := by
    rcases nextApp_cases p g with hnone | ⟨goal', -, hgoal', -, -, hfrom⟩
    · rw [hnone] at happ
      cases happ
    · cases hgoal.symm.trans hgoal'
      obtain ⟨-, cost, hmem⟩ := hfrom app happ
      exact ⟨cost, (hready.queue _).mp hmem⟩
  obtain ⟨hcomplete, o, ho, hmem⟩ := hready.focus_of_mem_offers hoffer
  obtain ⟨queue, hsub, hget⟩ := goal?_nextApp hgoal
  have hask := hrun.ask g
  have hhanded : (g, app) ∈ (p.nextApp g).1.toList.map (g, ·) ++ handed := by simp [happ]
  have hcalc : (p.nextApp g).2.InCalculus _ :=
    CalculusRun.inCalculus ⟨(h.calculusRun hrun).drafts, (h.calculusRun hrun).firstOrder, hask⟩
  have hgoal' : (p.nextApp g).2.goal? g = some { goal with queue := .pure queue } := by
    rw [hget, if_pos rfl]
  obtain ⟨succs, names, idx, hexec, hlen, hidx, hsuccs⟩ :=
    hcalc.exists_reduces hask.reached.base_eq hhanded hgoal' hready.propositional hcomplete ho hmem
  obtain ⟨new, hnew, hreplaces, hgoals⟩ :=
    replaces_of_reduces hask.reached.tree hgoal' hexec hlen hidx hsuccs
  have hsame : ∀ i, i ≠ g → (p.nextApp g).2.goal? i = p.goal? i := by
    intro i hi
    rw [hget, if_neg hi]
  refine ⟨new, hnew, ⟨h.propositional, ⟨_, hask.apply hhanded⟩, fun i goal' hi => ?_⟩, ?_⟩
  · by_cases hmem : i ∈ new
    · obtain ⟨s, hs, node, hs'⟩ := hgoals i hmem
      cases hi.symm.trans hs'
      obtain ⟨_, hreduces⟩ := hsuccs s hs
      -- the queue of the goal has no say in the goals for its successors
      show ((p.nextApp g).2.successorGoal goal app node s).Ready
      exact hready.successor hask.reached.base_eq hask.reached.strategy_eq ho hidx hreduces
    · rw [hreplaces.old i hmem] at hi
      split at hi <;> rename_i hne
      · cases hi
      · exact h.goals i goal' (hsame i hne ▸ hi)
  · refine ⟨⟨hreplaces.isOpen, fun i hi hne => ?_, fun i hi => ?_, fun i goal' hi hne => ?_⟩,
      hreplaces.worth⟩
    · exact hsame i hne ▸ hreplaces.fresh i hi hne
    · rw [hreplaces.old i hi]
      split <;> rename_i hne
      · rfl
      · exact hsame i hne
    · exact hreplaces.parent i goal' ((hsame i hne).trans hi) hne

end Proof

end SequentSearch
