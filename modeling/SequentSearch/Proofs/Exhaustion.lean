import Mathlib
import SequentSearch.Proofs.Turns

/-!
# Exhausted searches

A search that ends because no goal is left to work on has lost none. The invariant is that of a
worklist (`Search.Watches`): an open goal below a node that the search was given is selected, or
nothing can be handed out for it. Goals leave the list when nothing is handed out for them, and
nothing changes that later as no one works on them. The goals that take the place of a goal are
selected instead of it. So when automatic search may work on no selected goal, it may work on no
open goal below the node at all, or has nothing to do there
(`Searcher.nextApp_eq_none_of_exhausted`).
-/

namespace SequentSearch

namespace Search

variable {env : Surroundings} {s t : Search} {i : NodeId}

/-- **No goal below a node gets lost.** -/
structure Watches (i : NodeId) (s : Search) : Prop where
  /-- the nodes form a tree -/
  tree : s.proof.Tree
  /-- an open goal below the node is selected, or nothing is handed out for it -/
  goals : ∀ h goal, s.proof.goal? h = some goal → Proof.Below s.proof.nodes i goal.node →
    h ∈ s.chooser.selected ∨ (s.proof.nextApp h).1 = none

/-- A goal that is passed over has nothing to hand out. -/
theorem Watches.pass (h : s.Watches i) (hpass : Pass s t) : t.Watches i := by
  cases hpass with
  | @stuck g goal t hasks hnone =>
    refine ⟨h.tree.nextApp g, fun k goal' hk hbelow => ?_⟩
    have hk' : (s.proof.nextApp g).2.goal? k = some goal' := hk
    have hbelow' : Proof.Below (s.proof.nextApp g).2.nodes i goal'.node := hbelow
    rw [(Proof.nextApp_keeps s.proof g).2.2.2.1] at hbelow'
    by_cases hne : k = g
    · subst hne
      exact .inr (Proof.nextApp_nextApp_of_none hnone)
    · rw [Proof.goal?_nextApp_of_ne hne] at hk'
      refine (h.goals k goal' hk' hbelow').imp (fun hmem => ?_)
        (Proof.nextApp_nextApp_of_ne hne).trans
      show k ∈ (t.chooser.remove g).selected
      rw [Chooser.selected_remove]
      exact List.mem_filter.mpr ⟨hasks.selected.mem_iff.mpr hmem, by simpa using hne⟩

/-- **The goals that a step leads to are selected, and the others stay as they are.** -/
theorem Watches.made (h : s.Watches i) {made : AppliedStep} (hturn : Turn env s (.ok made) t) :
    (t.accounted env made).Watches i := by
  cases hturn with
  | @made g goal app new q t hasks happ happly =>
    have hadvances := Proof.advances_of_nextApp h.tree hasks.isGoal happly
    have htree : q.Tree := by
      have := (h.tree.nextApp g).apply g app
      rwa [happly] at this
    refine ⟨htree, fun k goal' hk hbelow => ?_⟩
    have hk' : q.goal? k = some goal' := hk
    have hbelow' : Proof.Below q.nodes i goal'.node := hbelow
    have hselected := Chooser.mem_selected_update t.chooser hadvances.toSupplants k
    rcases hadvances.goal_cases hk' with hnew | ⟨-, hne, hold⟩
    · exact .inl (hselected.mpr (.inl hnew))
    · have hbefore : Proof.Below s.proof.nodes i goal'.node := by
        refine (hadvances.below h.tree hasks.isGoal hbelow').resolve_right fun hle => ?_
        exact Nat.not_lt_of_le hle.1 (h.tree.node_lt hold)
      refine (h.goals k goal' hold hbefore).imp (fun hmem =>
        hselected.mpr (.inr ?_)) fun hnone => ?_
      · exact ⟨hasks.selected.mem_iff.mpr hmem, hne, Proof.isOpen_of_goal? hold⟩
      · exact (Proof.nextApp_congr (hk'.trans hold.symm) hadvances.strategy).trans hnone

/-- When no goal is left, there is nothing left to do below the node. -/
theorem Watches.exhausted (h : s.Watches i) {e : Ending} (hends : Ends env s e t)
    (houtcome : e.outcome = .finished .goalsExhausted) {g : GoalId} {goal : Goal}
    (hgoal : t.proof.goal? g = some goal) (hbelow : Proof.Below t.proof.nodes i goal.node) :
    goal.automatic = false ∨ (t.proof.nextApp g).1 = none := by
  cases hends with
  | interrupted _ => cases houtcome
  | stopped _ _ => cases houtcome
  | turned hturn =>
    cases hturn with
    | exhausted hconsiders hnone =>
      rw [hconsiders.proof] at hgoal hbelow ⊢
      refine (h.goals g goal hgoal hbelow).imp_left fun hmem => ?_
      simpa [Proof.isAutomatic, hgoal] using hnone g hmem
    | denied _ => cases houtcome
    | nonCloseable _ _ _ => cases houtcome
    | failed _ _ _ => cases houtcome

end Search

namespace Searcher

variable {env : Surroundings} {d d' : Searcher} {p q : Proof} {task : Task} {report : Report}

/-- A search knows the goals it is given. -/
theorem watches_begin (htree : p.Tree) {g : GoalId} {goal : Goal} (hg : g ∈ task.goals)
    (hgoal : p.goal? g = some goal) : (d.begin p task).Watches goal.node where
  tree := htree
  goals k goal' hk hbelow := by
    have hnode : goal.node = goal'.node := by
      rcases Relation.ReflTransGen.cases_head hbelow with heq | ⟨c, hchild, -⟩
      · exact heq
      · exact absurd hchild (htree.not_isChild hgoal)
    obtain rfl := htree.goal_inj g k goal goal' hgoal hk hnode
    refine .inl ?_
    show g ∈ (d.chooser.select p task.goals).selected
    rw [Chooser.selected_select]
    exact List.mem_filter.mpr ⟨hg, Proof.isOpen_of_goal? hgoal⟩

/-- **A search that reports that no goal is left has left nothing undone.** Whatever the chooser,
the stop condition and the goals it was given: an open goal at or below a node at which one of them
was when the search began may not be worked on, or nothing is handed out for it. -/
theorem nextApp_eq_none_of_exhausted (hp : p.Attained)
    (hstart : d.start env p task = some (report, d', q))
    (hended : report.ending.outcome = .finished .goalsExhausted) {g : GoalId} {goal : Goal}
    (hg : g ∈ task.goals) (hgoal : p.goal? g = some goal) {h : GoalId} {goal' : Goal}
    (hh : q.goal? h = some goal') (hbelow : Proof.Below q.nodes goal.node goal'.node) :
    goal'.automatic = false ∨ (q.nextApp h).1 = none := by
  obtain ⟨t, hrun, rfl⟩ := run_of_start hstart
  obtain ⟨s, hwatches, hends⟩ := Search.holds_of_run (fun s t => Search.Watches.pass)
    (fun s made t hs => hs.made) (d.sound_begin p task)
      (watches_begin hp.inOrder.tree hg hgoal) hrun
  exact hwatches.exhausted hends hended hh hbelow

/-- A proof attempt for `p & (q & r)`. -/
private def conjoined : Proof :=
  let atom (name : String) : Term := .app (.predicate name 0) []
  .start (.ofFormulas [] [⟨.conj (atom "p") (.conj (atom "q") (atom "r")), by decide⟩])
    Calculus.propositional (.ofSettings {})

/-- After two steps no goal is left to work on, in particular not the one for `r`. -/
theorem nextApp_eq_none_of_exhausted_conjoined : ∃ report d q goal,
    start {} { chooser := .newBalanced .everyStep, stop := .budget } conjoined
      { goals := [0], maxSteps := 10 } = some (report, d, q) ∧
    report.ending.outcome = .finished .goalsExhausted ∧ q.goal? 2 = some goal ∧
    Proof.Below q.nodes 0 goal.node ∧ (goal.automatic = false ∨ (q.nextApp 2).1 = none) := by
  have hrun : (start {} { chooser := .newBalanced .everyStep, stop := .budget } conjoined
      { goals := [0], maxSteps := 10 }).map (fun r =>
        (r.1.ending.outcome, r.2.2.nodes[0]?.map Node.children,
        r.2.2.nodes[2]?.map Node.children, (r.2.2.goal? 2).map Goal.node)) =
      some (.finished .goalsExhausted, some [1, 2], some [3, 4], some 4) := by
    cbv
  obtain ⟨⟨report, d, q⟩, hstart, hended⟩ := Option.map_eq_some_iff.mp hrun
  simp only [Prod.mk.injEq, Option.map_eq_some_iff] at hended
  obtain ⟨hended, ⟨n, hn, hchildren⟩, ⟨n', hn', hchildren'⟩, goal, hgoal, hnode⟩ := hended
  have hbelow : Proof.Below q.nodes 0 goal.node :=
    .tail (.single ⟨n, hn, by simp [hchildren]⟩) ⟨n', hn', by simp [hchildren', hnode]⟩
  exact ⟨report, d, q, goal, hstart, hended, hgoal, hbelow,
    nextApp_eq_none_of_exhausted (.start ..) hstart hended List.mem_cons_self rfl hgoal hbelow⟩

end Searcher

end SequentSearch
