import Mathlib
import SequentSearch.Proofs.Budgets

/-!
# Accounts of a search

A search whose stop condition holds a budget ends, whatever the rules are. Before each application
it has some left (`Search.Limited`), so no more than the limit are made. The loops of a search are
bounded by the number of applications and by the number of selected goals, and neither bound is ever
reached.

When it has ended, its report agrees with the tree (`Search.Accounts`). Each application was made on
a leaf that carried none before. It closes the leaf, and then a goal is gone, or it gives it
children, and then there are as many goals more as there are children beyond the first.
-/

namespace SequentSearch

namespace Proof

variable {p₀ p q : Proof} {g : GoalId} {goal : Goal} {app : RuleApp}
  {new : List GoalId} {i : NodeId}

/-! ## Nodes that gain an application -/

/-- Whether a node carries an application. -/
def applied (nodes : Array Node) (i : NodeId) : Bool := carries nodes (fun _ => true) i

/-- The number of children of a node. -/
def childCount (nodes : Array Node) (i : NodeId) : Nat :=
  ((nodes[i]?.map Node.children).getD []).length

/-- The nodes that carry an application and did not do so in an earlier proof. -/
def gained (p q : Proof) : List NodeId :=
  (List.range q.nodes.size).filter fun i => applied q.nodes i && !applied p.nodes i

theorem mem_gained : i ∈ gained p q ↔ applied q.nodes i ∧ applied p.nodes i = false := by
  rw [gained, List.mem_filter, List.mem_range, Bool.and_eq_true, Bool.not_eq_true',
    and_iff_right_iff_imp]
  rintro ⟨happlied, -⟩
  refine Nat.lt_of_not_le fun hle => ?_
  rw [applied, carries, Array.getElem?_eq_none hle] at happlied
  cases happlied

theorem nodup_gained (p q : Proof) : (gained p q).Nodup := List.nodup_range.filter _

/-- **A step that is made lets its leaf gain an application**, and no other node. -/
theorem Advances.gained_perm (h : p.Advances q g goal app new)
    (hleaf : applied p.nodes goal.node = false)
    (hkept : ∀ i, applied p₀.nodes i → applied p.nodes i) :
    (gained p₀ q).Perm (goal.node :: gained p₀ p) := by
  have hnode : applied p₀.nodes goal.node = false :=
    Bool.eq_false_iff.mpr fun hbefore => Bool.eq_false_iff.mp hleaf (hkept _ hbefore)
  have hnot : goal.node ∉ gained p₀ p :=
    fun hmem => Bool.eq_false_iff.mp hleaf (mem_gained.mp hmem).1
  refine (List.perm_ext_iff_of_nodup (nodup_gained ..)
    (List.nodup_cons.mpr ⟨hnot, nodup_gained ..⟩)).mpr ?_
  intro i
  rw [List.mem_cons, mem_gained, mem_gained, applied, h.carries_eq]
  split <;> rename_i hi
  · simp [hi, hnode]
  · simp [hi, applied]

theorem Advances.applied_of_applied (h : p.Advances q g goal app new) (hi : applied p.nodes i) :
    applied q.nodes i := by
  rw [applied, h.carries_eq]
  split
  · rfl
  · exact hi

/-- The leaf of a step gets a child for each new goal. -/
theorem Advances.childCount_eq (h : p.Advances q g goal app new) (i : NodeId) :
    childCount q.nodes i = if i = goal.node then new.length else childCount p.nodes i := by
  split <;> rename_i hi
  · obtain ⟨n, hn, -, hchildren⟩ := h.leaf
    simp [childCount, hi, hn, hchildren]
  · rcases h.other i hi with ⟨n, n', hn, hn', -, hsame⟩ | ⟨hnone, hnew⟩
    · simp [childCount, hn, hn', hsame]
    · cases hn' : q.nodes[i]? with
      | none => simp [childCount, hnone, hn']
      | some n' => simp [childCount, hnone, hn', (hnew n' hn').2]

/-- **How many successors each application has** that was made since an earlier proof. -/
def successorCounts (p q : Proof) : List Nat := (gained p q).map (childCount q.nodes)

theorem Advances.successorCounts_perm (h : p.Advances q g goal app new)
    (hleaf : applied p.nodes goal.node = false)
    (hkept : ∀ i, applied p₀.nodes i → applied p.nodes i) :
    (successorCounts p₀ q).Perm (new.length :: successorCounts p₀ p) := by
  have hperm := (h.gained_perm hleaf hkept).map (childCount q.nodes)
  rw [List.map_cons, h.childCount_eq, if_pos rfl] at hperm
  refine hperm.trans (.of_eq (congrArg _ (List.map_congr_left fun i hi => ?_)))
  rw [h.childCount_eq, if_neg]
  rintro rfl
  exact Bool.eq_false_iff.mp hleaf (mem_gained.mp hi).1

/-- **The open goals after a step**: the new ones, and the others that there were. -/
theorem Advances.openGoals_perm (h : p.Advances q g goal app new) (hgoal : p.goal? g = some goal)
    (hp : p.InOrder) (hq : q.InOrder) : q.openGoals.Perm (new ++ p.openGoals.erase g) := by
  have hlt := hp.tree.goal_lt g goal hgoal
  have hfresh : ∀ k ∈ new, k ∉ p.openGoals.erase g := by
    intro k hk hmem
    obtain ⟨hne, hopen⟩ := hp.listed.nodup.mem_erase_iff.mp hmem
    obtain ⟨goal', hgoal'⟩ := isOpen_iff.mp ((hp.listed.mem_openGoals k).mp hopen)
    cases hgoal'.symm.trans (h.fresh k hk hne)
  have hnodup : new.Nodup := by
    rcases h.numbers with hnil | hcons
    · exact hnil ▸ .nil
    · rw [hcons]
      refine List.nodup_cons.mpr ⟨fun hmem => ?_, List.nodup_range'⟩
      exact Nat.not_lt_of_le (List.mem_range'_1.mp hmem).1 hlt
  refine (List.perm_ext_iff_of_nodup hq.listed.nodup (List.nodup_append'.mpr
    ⟨hnodup, hp.listed.nodup.erase g, hfresh⟩)).mpr fun k => ?_
  rw [hq.listed.mem_openGoals, List.mem_append, hp.listed.nodup.mem_erase_iff,
    hp.listed.mem_openGoals]
  constructor
  · intro hopen
    obtain ⟨goal', hk⟩ := isOpen_iff.mp hopen
    exact (h.goal_cases hk).imp_right fun ⟨_, hne, hold⟩ => ⟨hne, isOpen_of_goal? hold⟩
  · rintro (hk | ⟨hne, hopen⟩)
    · exact h.isOpen k hk
    · obtain ⟨goal', hk⟩ := isOpen_iff.mp hopen
      exact isOpen_of_goal? (h.keeps hk hne).2

theorem Advances.length_openGoals (h : p.Advances q g goal app new) (hgoal : p.goal? g = some goal)
    (hp : p.InOrder) (hq : q.InOrder) :
    q.openGoals.length + 1 = new.length + p.openGoals.length := by
  have hmem : g ∈ p.openGoals := (hp.listed.mem_openGoals g).mpr (isOpen_of_goal? hgoal)
  rw [(h.openGoals_perm hgoal hp hq).length_eq, List.length_append, List.length_erase_of_mem hmem]
  have hpos := List.length_pos_of_mem hmem
  omega

end Proof

/-- One more application of a rule is counted. -/
theorem Report.sum_count (rule : String) (counts : List (String × Nat)) :
    ((count rule counts).map Prod.snd).sum = (counts.map Prod.snd).sum + 1 := by
  induction counts with
  | nil => rfl
  | cons e rest ih =>
    rw [count]
    split
    · simp only [List.map_cons, List.sum_cons]
      omega
    · simp only [List.map_cons, List.sum_cons, ih]
      omega

namespace Search

variable {env : Surroundings} {p₀ : Proof} {s t : Search} {limit : Nat}

/-! ## The limit -/

/-- **A search keeps to its limit.** -/
structure Limited (limit : Nat) (s : Search) : Prop where
  /-- the stop condition holds a budget -/
  holdsBudget : s.stop.holdsBudget
  /-- the limit is that of the budget -/
  maxApplications : s.budget.maxApplications = some limit
  /-- no more applications were made -/
  applied : s.budget.applied ≤ limit

theorem Limited.pass (h : s.Limited limit) (hpass : Pass s t) : t.Limited limit := by
  obtain ⟨hbudget, -⟩ := hpass.counted
  exact ⟨hpass.sameSetup.holdsBudget.trans h.holdsBudget, hbudget ▸ h.maxApplications,
    hbudget ▸ h.applied⟩

theorem Limited.made (h : s.Limited limit) {made : AppliedStep} (hturn : Turn env s (.ok made) t) :
    (t.accounted env made).Limited limit := by
  have hlt : s.budget.applied < limit := by
    simpa [Budget.stepsExhausted, h.maxApplications] using
      hturn.stepsExhausted_eq_false h.holdsBudget
  obtain ⟨hbudget, -⟩ := hturn.counted
  refine ⟨?_, (congrArg Budget.maxApplications hbudget).trans h.maxApplications, ?_⟩
  · exact (hturn.sameSetup.trans (sameSetup_accounted env made t)).holdsBudget.trans h.holdsBudget
  · show t.budget.applied + 1 ≤ limit
    rw [hbudget]
    exact hlt

/-- **A search that keeps to its limit ends**: each step but the last uses up some of it. -/
theorem Limited.exists_run (h : s.Limited limit) (hsound : s.chooser.Sound)
    (env : Surroundings) {n : Nat} (hn : limit < s.budget.applied + n) :
    ∃ r, s.run env n = some r := by
  induction n generalizing s with
  | zero => exact absurd h.applied (Nat.not_le_of_lt hn)
  | succ n ih =>
    rw [run]
    rcases hstep : s.step env with ⟨_ | made, s₁⟩
    · exact ⟨_, rfl⟩
    · cases moved_step hsound hstep with
      | @made u t _ hpasses hturn hgoes =>
        refine ih ((holds_of_passes (fun _ _ => Limited.pass) hpasses h).made hturn) hturn.sound ?_
        show limit < t.budget.applied + 1 + n
        rw [hturn.counted.1, hpasses.budget_eq]
        omega

/-! ## The accounts -/

/-- **What a search has counted agrees with the tree**, as it has changed since the search began. -/
structure Accounts (p₀ : Proof) (s : Search) : Prop where
  /-- the tree is in order -/
  inOrder : s.proof.InOrder
  /-- nodes keep their applications -/
  kept : ∀ i, Proof.applied p₀.nodes i → Proof.applied s.proof.nodes i
  /-- each application was made on a node of its own -/
  applied : (Proof.successorCounts p₀ s.proof).length = s.budget.applied
  /-- and is one of a rule -/
  perRule : (s.perRule.map Prod.snd).sum = s.budget.applied
  /-- those without successors have closed goals -/
  closed : (Proof.successorCounts p₀ s.proof).count 0 = s.closedGoals
  /-- and the others have left as many more as they have successors beyond the first -/
  goals : s.proof.openGoals.length + s.closedGoals = p₀.openGoals.length +
    (((Proof.successorCounts p₀ s.proof).filter (· ≠ 0)).map (· - 1)).sum

theorem Accounts.keeps (h : s.Accounts p₀) (hkeeps : Proof.Keeps s.proof t.proof)
    (hcounted : t.budget = s.budget ∧ t.closedGoals = s.closedGoals ∧ t.perRule = s.perRule) :
    t.Accounts p₀ := by
  obtain ⟨hbudget, hclosed, hrule⟩ := hcounted
  have hsame : Proof.successorCounts p₀ t.proof = Proof.successorCounts p₀ s.proof := by
    simp only [Proof.successorCounts, Proof.gained, hkeeps.nodes]
  refine ⟨h.inOrder.keeps hkeeps, hkeeps.nodes ▸ h.kept, ?_, ?_, ?_, ?_⟩
  · rw [hsame, hbudget, h.applied]
  · rw [hrule, hbudget, h.perRule]
  · rw [hsame, hclosed, h.closed]
  · rw [hsame, hclosed, hkeeps.openGoals, h.goals]

/-- **An application that is made is entered in the accounts.** -/
theorem Accounts.made (h : s.Accounts p₀) {made : AppliedStep} (hturn : Turn env s (.ok made) t) :
    (t.accounted env made).Accounts p₀ := by
  obtain ⟨hbudget, hclosed, hrule⟩ := hturn.counted
  have hq := hturn.inOrder h.inOrder
  cases hturn with
  | @made g goal app new q t hasks happ happly =>
    have hadvances := Proof.advances_of_nextApp h.inOrder.tree hasks.isGoal happly
    have hleaf : Proof.applied s.proof.nodes goal.node = false := by
      obtain ⟨n, hn, -, happ, -⟩ := h.inOrder.consistent.goal_node g goal hasks.isGoal
      simp [Proof.applied, Proof.carries, hn, Option.isNone_iff_eq_none.mp happ]
    have hcounts := hadvances.successorCounts_perm hleaf h.kept
    have hopen := hadvances.length_openGoals hasks.isGoal h.inOrder hq
    have hextra : (((Proof.successorCounts p₀ q).filter (· ≠ 0)).map (· - 1)).sum = new.length - 1 +
        (((Proof.successorCounts p₀ s.proof).filter (· ≠ 0)).map (· - 1)).sum := by
      rw [((hcounts.filter _).map _).sum_nat]
      cases new <;> simp
    refine ⟨hq, fun i hi => hadvances.applied_of_applied (h.kept i hi), ?_, ?_, ?_, ?_⟩
    · show (Proof.successorCounts p₀ q).length = t.budget.applied + 1
      rw [hcounts.length_eq, List.length_cons, h.applied, hbudget]
    · show ((Report.count app.rule.name t.perRule).map Prod.snd).sum = t.budget.applied + 1
      rw [Report.sum_count, hrule, h.perRule, hbudget]
    · show (Proof.successorCounts p₀ q).count 0 = if new.isEmpty then
        t.closedGoals + 1 else t.closedGoals
      rw [hcounts.count_eq, hclosed]
      cases new <;> simp [h.closed]
    · show q.openGoals.length + (if new.isEmpty then t.closedGoals + 1 else t.closedGoals) =
        p₀.openGoals.length + (((Proof.successorCounts p₀ q).filter (· ≠ 0)).map (· - 1)).sum
      rw [hextra, hclosed]
      have hgoals := h.goals
      cases new with
      | nil =>
        simp only [List.isEmpty_nil, if_true, List.length_nil] at hopen ⊢
        omega
      | cons k rest =>
        simp only [List.isEmpty_cons, Bool.false_eq_true, if_false, List.length_cons] at hopen ⊢
        omega

theorem Accounts.ends (h : s.Accounts p₀) {e : Ending} (hends : Ends env s e t) :
    t.Accounts p₀ := by
  cases hends with
  | interrupted _ => exact h
  | turned hturn => exact h.keeps hturn.keeps hturn.counted
  | stopped hturn _ => exact h.made hturn

theorem Limited.ends (h : s.Limited limit) {e : Ending} (hends : Ends env s e t) :
    t.budget.applied ≤ limit := by
  cases hends with
  | interrupted _ => exact h.applied
  | turned hturn => exact hturn.counted.1 ▸ h.applied
  | stopped hturn _ => exact (h.made hturn).applied

end Search

namespace Searcher

variable {d : Searcher} {p : Proof}

theorem limited_begin (hholds : d.stop.holdsBudget) (p : Proof) (task : Task) :
    (d.begin p task).Limited task.maxSteps :=
  ⟨(StopCondition.holdsBudget_congr (StopCondition.anew_maximalWork ..)).trans hholds, rfl,
    Nat.zero_le _⟩

theorem accounts_begin (hp : p.InOrder) (d : Searcher) (task : Task) :
    (d.begin p task).Accounts p := by
  have hnone : Proof.successorCounts p (d.begin p task).proof = [] := by
    refine List.map_eq_nil_iff.mpr (List.filter_eq_nil_iff.mpr fun i _ => ?_)
    exact Bool.not_eq_true _ ▸ Bool.and_not_self _
  refine ⟨hp, fun i hi => hi, ?_, rfl, ?_, ?_⟩ <;> rw [hnone] <;> rfl

/-- **A search whose stop condition holds a budget ends within its limit, and its report agrees with
the tree.** It has made as many applications as it has counted for all rules together, and as many
as there are nodes that have gained one. Those without successors are the goals that it has closed.
The open goals are those that there were, without those that were closed, and with one more for each
successor beyond the first. The bounds that the two loops of the search are given are never
reached. -/
theorem accounts_of_start (hp : p.Attained) (hholds : d.stop.holdsBudget) (env : Surroundings)
    (task : Task) :
    ∃ report d' q, d.start env p task = some (report, d', q) ∧
      report.applied ≤ task.maxSteps ∧
      report.applied = (report.perRule.map Prod.snd).sum ∧
      report.applied = (Proof.gained p q).length ∧
      report.closedGoals = (Proof.successorCounts p q).count 0 ∧
      q.openGoals.length + report.closedGoals = p.openGoals.length +
        (((Proof.successorCounts p q).filter (· ≠ 0)).map (· - 1)).sum ∧
      (∀ n, task.maxSteps < n → (d.begin p task).run env n = (d.begin p task).run env (fuel task)) ∧
      ∀ s, Relation.ReflTransGen (Search.Makes env) (d.begin p task) s →
        ∀ n, s.chooser.selected.length < n → s.attempt env n = s.attempt env s.patience := by
  have hsound := d.sound_begin p task
  have hlimited := limited_begin hholds p task
  have hrounds : task.maxSteps < (d.begin p task).budget.applied + (task.maxSteps + 1) := by
    show task.maxSteps < 0 + (task.maxSteps + 1)
    omega
  obtain ⟨⟨e, t⟩, hrun⟩ := hlimited.exists_run hsound env hrounds
  obtain ⟨s, ⟨hs, hs'⟩, hends⟩ := Search.holds_of_run
    (P := fun s => s.Limited task.maxSteps ∧ s.Accounts p)
    (fun s t h hpass => ⟨h.1.pass hpass, h.2.keeps hpass.keeps hpass.counted⟩)
    (fun s made t h hturn => ⟨h.1.made hturn, h.2.made hturn⟩) hsound
    ⟨hlimited, accounts_begin hp.inOrder d task⟩ hrun
  have haccounts := hs'.ends hends
  have hfuel : task.maxSteps + 1 ≤ fuel task := by
    rw [fuel]
    omega
  refine ⟨t.report env e, finish env t, t.proof, ?_, hs.ends hends, haccounts.perRule.symm, ?_,
    haccounts.closed.symm, haccounts.goals, fun n hn => ?_, fun s hmakes n hn => ?_⟩
  · rw [start, Search.run_mono hrun hfuel]
    rfl
  · exact haccounts.applied.symm.trans (List.length_map _)
  · rw [Search.run_mono hrun hn, Search.run_mono hrun hfuel]
  · exact Search.attempt_eq_attempt (Search.sound_of_makes hmakes hsound) hn (Nat.lt_succ_self _)

/-- A proof attempt for `(p & q) -> (q & p)`. -/
private def swapped : Proof :=
  let atom (name : String) : Term := .app (.predicate name 0) []
  .start (.ofFormulas [] [⟨.impl (.conj (atom "p") (atom "q"))
    (.conj (atom "q") (atom "p")), by decide⟩]) Calculus.propositional (.ofSettings {})

/-- A balanced search under a compound condition. -/
private def balancedSearcher : Searcher where
  chooser := .newBalanced .everyStep
  stop := (StopCondition.significant 10 .everyStep).and .budget

/-- Five applications: one splits the goal, and two close the goals that it leaves. -/
theorem accounts_of_start_swapped : ∃ report d q,
    balancedSearcher.start {} swapped { goals := [0], maxSteps := 7 } = some (report, d, q) ∧
    report.applied = 5 ∧ report.closedGoals = 2 ∧ report.applied ≤ 7 ∧
    report.applied = (report.perRule.map Prod.snd).sum ∧
    report.applied = (Proof.gained swapped q).length ∧
    q.openGoals.length + report.closedGoals = 1 +
      (((Proof.successorCounts swapped q).filter (· ≠ 0)).map (· - 1)).sum := by
  have hrun : (balancedSearcher.start {} swapped { goals := [0], maxSteps := 7 }).map (fun r =>
      (r.1.applied, r.1.closedGoals)) = some (5, 2) := by
    cbv
  obtain ⟨report, d, q, hstart, hle, hrules, hnodes, -, hgoals, -⟩ :=
    accounts_of_start (d := balancedSearcher) (p := swapped) (.start ..) rfl {}
      { goals := [0], maxSteps := 7 }
  rw [hstart] at hrun
  obtain ⟨happlied, hclosed⟩ := Prod.ext_iff.mp (Option.some.inj hrun)
  exact ⟨report, d, q, hstart, happlied, hclosed, hle, hrules, hnodes, hgoals⟩

end Searcher

end SequentSearch
