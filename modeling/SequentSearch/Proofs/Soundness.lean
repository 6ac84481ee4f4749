import Mathlib
import SequentSearch.Proofs.ExecutionSoundness
import SequentSearch.Proofs.Runs

/-!
# Soundness of search

A run with the rules of the first-order calculus closes its root only if the root is valid. The
strategy does not matter, nor does the order in which goals are worked on, nor whether an
application is made as soon as it was handed out.

Three facts carry the proof, each kept by every step of a run.

* All formulas are formulas of first-order logic whose names are in use, and all applications came
  about by matching them (`Proof.InCalculus`). So every application that is made is a step of the
  calculus.
* Whoever refutes a goal refutes what an application that was handed out for it assumes
  (`Proof.CalculusRun.refutes_assumed`). The goal may have changed since then, but steps are
  invertible.
* A node that was worked on is valid if its children are (`Proof.CalculusRun.justified`).

By the last fact and the closing of nodes from the leaves upwards, every closed node is valid.
-/

namespace SequentSearch

universe u

/-- Objects for the logic variables, as an environment. -/
def Env.ofObjects {D : Type u} (α : LogicVar → D) : Env D := fun x => .object (α x)

/-- **A valid sequent.** Over every domain, under every interpretation of the symbols and with any
objects for the logic variables: if everything on the left holds then something on the right
does. -/
def Sequent.Valid (s : Sequent) : Prop :=
  ∀ (D : Type u) [Nonempty D] (M : Interpretation D) (α : LogicVar → D),
    (∀ f ∈ s.antec, (f.term.eval M (.ofObjects α)).Holds) →
      ∃ f ∈ s.succ, (f.term.eval M (.ofObjects α)).Holds

/-- **A sequent is valid if and only if nothing refutes it.** -/
theorem Sequent.valid_iff {s : Sequent} : Sequent.Valid.{u} s ↔
    ∀ (D : Type u) [Nonempty D] (M : Interpretation D) (β : Env D), β.IsObjects →
      ¬M.Counters β s := by
  constructor
  · intro h D _ M β hβ hM
    choose α hα using hβ
    obtain rfl : β = .ofObjects α := funext hα
    obtain ⟨f, hf, hholds⟩ := h D M α fun f hf => hM .antec f hf
    exact hM .succ f hf hholds
  · intro h D _ M α hantec
    by_contra hsucc
    push Not at hsucc
    refine h D M (.ofObjects α) (fun x => ⟨α x, rfl⟩) fun side f hf => ?_
    cases side with
    | antec => exact hantec f hf
    | succ => exact hsucc f hf

theorem NameSupply.AdmitsValue.mono {ns ns' : NameSupply} {sv : SchemaVar} {v : Instantiation}
    (h : ns.AdmitsValue sv v) (hns : ∀ n ∈ ns.used, n ∈ ns'.used) : ns'.AdmitsValue sv v := by
  obtain ⟨u, rfl, hu, hfits⟩ := h
  exact ⟨u, rfl, hu.mono hns, hfits⟩

namespace Proof

variable {root : Sequent} {rules : List Rule} {strategy : DefaultStrategy} {p : Proof}
  {handed : List (GoalId × RuleApp)} {g : GoalId} {goal : Goal} {app : RuleApp}

/-! ## All steps are steps of the calculus -/

/-- **A proof in the calculus**: its goals are sequents of first-order logic, and the applications
that were handed out are automatic ones that matching found. -/
structure InCalculus (p : Proof) (handed : List (GoalId × RuleApp)) : Prop where
  /-- the rules are those of the calculus -/
  drafts : ∀ r ∈ p.base.rules, r.toRuleDraft ∈ Calculus.firstOrderDrafts
  /-- goals fit -/
  goals : ∀ g goal, p.goal? g = some goal → goal.Fits p.base p.names.Admits p.names.AdmitsValue
  /-- applications were found by matching, for goals that there were -/
  handed : ∀ e ∈ handed,
    e.2.Matched p.base p.names.AdmitsValue ∧ e.2.rule.automatic ∧ e.1 < p.nextGoal

/-- An application that was handed out is a step of the calculus. -/
theorem InCalculus.step (h : p.InCalculus handed) (happ : (g, app) ∈ handed)
    (hgoal : p.goal? g = some goal) {succs : List Successor} {names : NameSupply}
    (hexec : app.execute goal.sequent p.names = (.ok succs, names)) :
    CalculusStep p.base app goal.sequent p.names succs names := by
  obtain ⟨hmatched, hauto, -⟩ := h.handed _ happ
  exact ⟨hmatched, h.drafts _ hmatched.rule_mem, hauto, (h.goals g goal hgoal).sequent, hexec⟩

theorem inCalculus_start (hrules : ∀ r ∈ rules, r.toRuleDraft ∈ Calculus.firstOrderDrafts)
    (hroot : root.All fun _ f => f.term.FirstOrder) (strategy : DefaultStrategy) :
    (start root rules strategy).InCalculus [] := by
  have hdrafts : ∀ r ∈ (RuleBase.ofRules rules).rules, r.toRuleDraft ∈ Calculus.firstOrderDrafts :=
    fun r hr => hrules r (RuleBase.mem_ofRules hr)
  have hadmits : root.All fun _ f => (start root rules strategy).names.Admits f.term := by
    intro side f hf
    refine ⟨hroot side f hf, ?_⟩
    exact NameSupply.registerSequent_covers _ root (f := (side, f)) (Sequent.mem_formulas.mpr hf)
  refine ⟨hdrafts, fun g goal hg => ?_, fun e he => (nomatch he)⟩
  exact fits_start (Calculus.sources hdrafts _) hadmits strategy.regular g goal hg

theorem InCalculus.ask (h : p.InCalculus handed) (htree : p.Tree) (g : GoalId) :
    (p.nextApp g).2.InCalculus ((p.nextApp g).1.toList.map (g, ·) ++ handed) := by
  obtain ⟨hbase, -, hnames, -, hnext⟩ := nextApp_keeps p g
  refine ⟨?_, fun i goal' hi => ?_, fun e he => ?_⟩
  · rw [hbase]
    exact h.drafts
  · rw [hbase, hnames]
    exact fits_nextApp h.goals i goal' hi
  · rw [hbase, hnames, hnext]
    rcases List.mem_append.mp he with he | he
    · obtain ⟨app, happ, rfl⟩ := List.mem_map.mp he
      obtain ⟨hmatched, hauto, goal, hgoal⟩ := matched_nextApp h.goals (Option.mem_toList.mp happ)
      exact ⟨hmatched, hauto, htree.goal_lt g goal hgoal⟩
    · exact h.handed e he

theorem InCalculus.apply (h : p.InCalculus handed) (htree : p.Tree) (hstrategy : p.strategy.Regular)
    (happ : (g, app) ∈ handed) :
    (p.apply g app).2.InCalculus handed := by
  obtain ⟨hbase, -, hgrows⟩ := apply_keeps htree g app
  refine ⟨?_, fun i goal' hi => ?_, fun e he => ?_⟩
  · rw [hbase]
    exact h.drafts
  · rw [hbase]
    refine fits_apply htree (Calculus.sources h.drafts _) hstrategy
      (fun i goal hgoal => ?_) ?_ i goal' hi
    · exact (h.goals i goal hgoal).mono (fun _ ht => ht.mono hgrows) fun _ _ hv => hv.mono hgrows
    · intro goal succs hgoal hexec s hs
      exact (h.step happ hgoal hexec).adds hs
  · obtain ⟨hmatched, hauto, hlt⟩ := h.handed e he
    rw [hbase]
    exact ⟨hmatched.mono fun _ _ hv => hv.mono hgrows, hauto,
      Nat.lt_of_lt_of_le hlt (nextGoal_le_apply p g app)⟩

/-- A run of the calculus: its rules are those of the calculus, and its root is a sequent of
first-order logic. -/
structure CalculusRun (root : Sequent) (rules : List Rule) (strategy : DefaultStrategy) (p : Proof)
    (handed : List (GoalId × RuleApp)) : Prop where
  /-- the rules -/
  drafts : ∀ r ∈ rules, r.toRuleDraft ∈ Calculus.firstOrderDrafts
  /-- the root -/
  firstOrder : root.All fun _ f => f.term.FirstOrder
  /-- the run -/
  run : Run root rules strategy p handed

/-- **Everything that happens in a run of the calculus is part of the calculus.** -/
theorem CalculusRun.inCalculus (h : CalculusRun root rules strategy p handed) :
    p.InCalculus handed := by
  obtain ⟨hdrafts, hroot, hrun⟩ := h
  induction hrun with
  | start => exact inCalculus_start hdrafts hroot strategy
  | ask hrun g ih => exact ih.ask hrun.reached.tree g
  | apply hrun happ ih => exact ih.apply hrun.reached.tree hrun.reached.regular happ

/-- **Soundness and invertibility are inherited along a run.** A property of environments and
interpretations that follows from a goal being refuted keeps following from it, because who refutes
a successor refutes the goal. -/
theorem CalculusRun.goal_of_apply (h : CalculusRun root rules strategy p handed)
    (happ : (g, app) ∈ handed) {i : GoalId} {goal' : Goal}
    (hi : (p.apply g app).2.goal? i = some goal') :
    ∃ j goal, p.goal? j = some goal ∧ (i = j ∨ j = g ∧ p.nextGoal ≤ i) ∧
      ∀ {D : Type u} [Nonempty D] {M : Interpretation D} {β : Env D}, β.IsObjects →
        M.Counters β goal'.sequent → M.Counters β goal.sequent := by
  rcases Proof.goal_of_apply h.run.reached.tree hi with
    hold | ⟨goal, succs, hgoal, hexec, s, hs, node, rfl, hnum⟩
  · exact ⟨i, goal', hold, .inl rfl, fun _ hM => hM⟩
  · refine ⟨g, goal, hgoal, hnum.imp_right fun hnew => ⟨rfl, hnew⟩, fun hβ hM => ?_⟩
    exact (h.inCalculus.step happ hgoal hexec).invertible hβ hs hM

section

variable {D : Type u} [Nonempty D] {M : Interpretation D} {β : Env D}

/-- **Who refutes a goal refutes the root.** -/
theorem CalculusRun.counters_root (h : CalculusRun root rules strategy p handed) (hβ : β.IsObjects)
    (hgoal : p.goal? g = some goal) (hM : M.Counters β goal.sequent) : M.Counters β root := by
  obtain ⟨hdrafts, hroot, hrun⟩ := h
  induction hrun generalizing g goal with
  | start =>
    obtain ⟨-, rfl⟩ := goal?_start root rules strategy hgoal
    exact hM
  | ask hrun i ih =>
    obtain ⟨goal', hgoal', -, queue, rfl⟩ := goal_of_nextApp hgoal
    exact ih hgoal' hM
  | apply hrun happ ih =>
    obtain ⟨j, goal', hgoal', -, hback⟩ :=
      CalculusRun.goal_of_apply ⟨hdrafts, hroot, hrun⟩ happ hgoal
    exact ih hgoal' (hback hβ hM)

/-- **Who refutes a goal refutes what is assumed by applications that were handed out for it**, also
by those that were handed out when it had other formulas. -/
theorem CalculusRun.refutes_assumed (h : CalculusRun root rules strategy p handed)
    (hβ : β.IsObjects) (happ : (g, app) ∈ handed) (hgoal : p.goal? g = some goal)
    (hM : M.Counters β goal.sequent) :
    ∀ found, app.assumed = some found → ∀ o ∈ found, M.Refutes β o.side o.formula.term := by
  obtain ⟨hdrafts, hroot, hrun⟩ := h
  induction hrun generalizing g goal app with
  | start => cases happ
  | @ask p handed hrun i ih =>
    obtain ⟨goal', hgoal', -, queue, rfl⟩ := goal_of_nextApp hgoal
    rcases List.mem_append.mp happ with happ | happ
    · -- the application comes from the queue, and found what it assumes in the sequent
      obtain ⟨app', happ', heq⟩ := List.mem_map.mp happ
      obtain ⟨rfl, rfl⟩ : i = g ∧ app' = app := by simpa using heq
      rw [Option.mem_toList] at happ'
      rcases nextApp_cases p i with hnone | ⟨goal'', queue', hgoal'', -, -, hfrom⟩
      · rw [hnone] at happ'
        cases happ'
      · cases hgoal'.symm.trans hgoal''
        obtain ⟨-, cost, hmem⟩ := hfrom app' happ'
        have hcalc := CalculusRun.inCalculus ⟨hdrafts, hroot, hrun⟩
        obtain ⟨-, hassumed, -⟩ := (hcalc.goals i _ hgoal').queue _ hmem
        intro found hfound o ho
        exact hM o.side o.formula (hassumed found hfound o ho)
    · exact ih happ hgoal' hM
  | @apply p handed i a hrun ha ih =>
    obtain ⟨j, goal', hgoal', hnum, hback⟩ :=
      CalculusRun.goal_of_apply ⟨hdrafts, hroot, hrun⟩ ha hgoal
    rcases hnum with rfl | ⟨-, hnew⟩
    · exact ih happ hgoal' (hback hβ hM)
    · -- nothing was handed out for a goal that is new
      have hcalc := CalculusRun.inCalculus ⟨hdrafts, hroot, hrun⟩
      exact absurd hnew (Nat.not_le_of_lt (hcalc.handed _ happ).2.2)

/-- **Soundness of a step in a run**: who refutes the goal refutes a successor, possibly under
another interpretation. -/
theorem CalculusRun.sound (h : CalculusRun root rules strategy p handed) (happ : (g, app) ∈ handed)
    (hgoal : p.goal? g = some goal) {succs : List Successor} {names : NameSupply}
    (hexec : app.execute goal.sequent p.names = (.ok succs, names)) (hβ : β.IsObjects)
    (hM : M.Counters β goal.sequent) :
    ∃ M' : Interpretation D, ∃ s ∈ succs, M'.Counters β s.change.sequent :=
  (h.inCalculus.step happ hgoal hexec).sound hβ hM (h.refutes_assumed hβ happ hgoal hM)

end

/-! ## Closed nodes are valid -/

/-- A node that was worked on, so that it has children or is closed, is valid if its children
are. -/
def Justified (nodes : Array Node) : Prop :=
  ∀ (i : NodeId) (n : Node), nodes[i]? = some n → n.children ≠ [] ∨ n.closed →
    (∀ c ∈ n.children, ∀ m, nodes[c]? = some m → Sequent.Valid.{u} m.sequent) →
      Sequent.Valid.{u} n.sequent

/-- The successors of a goal are valid only if it is. -/
theorem CalculusRun.valid_of_successors (h : CalculusRun root rules strategy p handed)
    (happ : (g, app) ∈ handed) (hgoal : p.goal? g = some goal) {succs : List Successor}
    {names : NameSupply} (hexec : app.execute goal.sequent p.names = (.ok succs, names))
    (hsuccs : ∀ s ∈ succs, Sequent.Valid.{u} s.change.sequent) :
    Sequent.Valid.{u} goal.sequent := by
  refine Sequent.valid_iff.mpr fun D _ M β hβ hM => ?_
  obtain ⟨M', s, hs, hM'⟩ := h.sound happ hgoal hexec hβ hM
  exact Sequent.valid_iff.mp (hsuccs s hs) D M' β hβ hM'

/-- Justification depends on the children, the sequents and what is closed. -/
theorem Justified.congr {nodes nodes' : Array Node} (h : Justified.{u} nodes)
    (hsame : ∀ i : NodeId, (nodes[i]? = none ∧ nodes'[i]? = none) ∨
      ∃ n n', nodes[i]? = some n ∧ nodes'[i]? = some n' ∧ SameNode n n' ∧ n'.closed = n.closed) :
    Justified.{u} nodes' := by
  intro i n' hn' hworked hchildren
  rcases hsame i with ⟨-, hnone⟩ | ⟨n, m, hn, hm, ⟨-, hc, hseq⟩, hclosed⟩
  · rw [hn'] at hnone
    cases hnone
  · cases hn'.symm.trans hm
    rw [hseq]
    rw [hc, hclosed] at hworked
    refine h i n hn hworked fun c hmem m hm => ?_
    rcases hsame c with ⟨hnone, -⟩ | ⟨m', m'', hm', hm'', ⟨-, -, hmseq⟩, -⟩
    · rw [hm] at hnone
      cases hnone
    · cases hm.symm.trans hm'
      exact hmseq ▸ hchildren c (hc ▸ hmem) m'' hm''

/-- Closing a valid goal keeps nodes justified: the other nodes that are closed have children. -/
theorem Justified.close (h : Justified.{u} p.nodes) (htree : p.Tree) (hgoal : p.goal? g = some goal)
    (hvalid : Sequent.Valid.{u} goal.sequent) : Justified.{u} (p.close g goal).nodes := by
  obtain ⟨leaf, hleaf, hleafseq, -⟩ := htree.goal_node g goal hgoal
  intro i n' hn' hworked hchildren
  rcases closeUp_same (goal.node :: goal.steps.map Step.node) p.nodes i with
    ⟨-, hnone⟩ | ⟨n, m, hn, hm, ⟨-, hc, hseq⟩, -⟩
  · exact absurd (hn'.symm.trans hnone) (by simp)
  · cases hn'.symm.trans hm
    have hvalidOf : n.children ≠ [] ∨ n.closed → Sequent.Valid.{u} n.sequent := by
      intro hbefore
      refine h i n hn hbefore fun c hmem m hm => ?_
      rcases closeUp_same (goal.node :: goal.steps.map Step.node) p.nodes c with
        ⟨hnone, -⟩ | ⟨m', m'', hm', hm'', ⟨-, -, hmseq⟩, -⟩
      · exact absurd (hm.symm.trans hnone) (by simp)
      · cases hm.symm.trans hm'
        exact hmseq ▸ hchildren c (hc ▸ hmem) m'' hm''
    rw [hseq]
    rcases hworked with hne | hclosed
    · exact hvalidOf (.inl (hc ▸ hne))
    · rcases closed_of_closeUp (nodeClosed_iff.mpr ⟨n', hn', hclosed⟩) with hbefore | hpath
      · obtain ⟨m, hm, hmc⟩ := nodeClosed_iff.mp hbefore
        cases hn.symm.trans hm
        exact hvalidOf (.inr hmc)
      · rcases List.mem_cons.mp hpath with rfl | hpath
        · cases hn.symm.trans hleaf
          rw [hleafseq]
          exact hvalid
        · obtain ⟨m, hm, hne⟩ := htree.children_of_branch (htree.branch g goal hgoal) i hpath
          cases hn.symm.trans hm
          exact hvalidOf (.inl hne)

/-- Splitting a goal that is valid if its successors are keeps nodes justified. -/
theorem Justified.splits {q : Proof} {entries : List (GoalId × Successor)}
    (h : Justified.{u} p.nodes) (htree : p.Tree) (hgoal : p.goal? g = some goal)
    (hs : Splits p q goal app entries)
    (hvalid : (∀ e ∈ entries, Sequent.Valid.{u} e.2.change.sequent) →
      Sequent.Valid.{u} goal.sequent) :
    Justified.{u} q.nodes := by
  obtain ⟨leaf, hleaf, hleafseq, -⟩ := htree.goal_node g goal hgoal
  intro i n hn hworked hchildren
  rcases hs.node_cases hleaf hn with ⟨rfl, rfl⟩ | ⟨-, hp⟩ | ⟨k, e, -, -, rfl⟩
  · show Sequent.Valid.{u} leaf.sequent
    rw [hleafseq]
    refine hvalid fun e he => ?_
    obtain ⟨k, hk, rfl⟩ := List.getElem_of_mem he
    refine hchildren (p.nodes.size + k) ?_ _ (hs.child k _ (List.getElem?_eq_getElem hk))
    exact List.mem_append_right _ (List.mem_range'.mpr ⟨k, hk, by rw [Nat.one_mul]⟩)
  · refine h i n hp hworked fun c hmem m hm => ?_
    obtain ⟨m', hm', -, hmseq, -⟩ := hs.exists_node hm
    exact hmseq ▸ hchildren c hmem m' hm'
  · rcases hworked with hne | hclosed
    · exact absurd rfl hne
    · cases hclosed

/-- **Nodes are justified all through a run.** -/
theorem CalculusRun.justified (h : CalculusRun root rules strategy p handed) :
    Justified.{u} p.nodes := by
  obtain ⟨hdrafts, hroot, hrun⟩ := h
  induction hrun with
  | start =>
    intro i n hn hworked
    obtain ⟨-, rfl⟩ := nodes_start root rules strategy hn
    rcases hworked with hne | hclosed
    · exact absurd rfl hne
    · cases hclosed
  | ask hrun g ih =>
    rw [(nextApp_keeps _ g).2.2.2.1]
    exact ih
  | @apply p handed g app hrun happ ih =>
    have hcases := apply_cases p g app
    generalize (p.apply g app).2 = q at hcases ⊢
    have hvalid : ∀ {goal succs names}, p.goal? g = some goal →
        app.execute goal.sequent p.names = (.ok succs, names) →
        (∀ s ∈ succs, Sequent.Valid.{u} s.change.sequent) → Sequent.Valid.{u} goal.sequent :=
      fun hgoal hexec => CalculusRun.valid_of_successors ⟨hdrafts, hroot, hrun⟩ happ hgoal hexec
    cases hcases with
    | failed hnames => exact ih
    | @closed goal names hgoal hexec =>
      refine Justified.close (ih.congr
        (sameNodes_recordApp { p with names := names } goal.node app))
          (hrun.reached.tree.recordApp goal.node app names) hgoal ?_
      exact hvalid hgoal hexec fun s hs => (nomatch hs)
    | @split goal names succs hgoal hexec hne =>
      have htree := hrun.reached.tree.recordApp goal.node app names
      obtain ⟨n, hn, -⟩ := htree.goal_node g goal hgoal
      refine Justified.splits (ih.congr
        (sameNodes_recordApp { p with names := names } goal.node app)) htree hgoal
          (splits_split (lt_size_of_getElem? hn) g app succs) fun hall => ?_
      refine hvalid hgoal hexec fun s hs => ?_
      rw [← map_snd_splitEntries ({ p with names := names }.recordApp goal.node app) g hne] at hs
      obtain ⟨e, he, rfl⟩ := List.mem_map.mp hs
      exact hall e he

/-- **Closed nodes are valid.** The children of a node have larger numbers, so the induction goes
from the last node to the first. -/
theorem Justified.valid_of_closed (h : Justified.{u} p.nodes) (htree : p.Tree)
    {i : NodeId} {n : Node} (hn : p.nodes[i]? = some n) (hclosed : n.closed) :
    Sequent.Valid.{u} n.sequent := by
  have hdown : ∀ d (i : NodeId) (n : Node), p.nodes.size - i = d → p.nodes[i]? = some n → n.closed →
      Sequent.Valid.{u} n.sequent := by
    intro d
    induction d using Nat.strongRecOn with
    | ind d ih =>
      intro i n hd hn hclosed
      refine h i n hn (.inr hclosed) fun c hmem m hm => ?_
      have hlt := (htree.linked i n hn c hmem).1
      have hall := (htree.closedIff i n hn (List.ne_nil_of_mem hmem)).mp hclosed
      obtain ⟨m', hm', hmc⟩ := nodeClosed_iff.mp (hall c hmem)
      cases hm.symm.trans hm'
      exact ih _ (hd ▸ Nat.sub_lt_sub_left (lt_size_of_getElem? hn) hlt) c m rfl hm hmc
  exact hdown _ i n rfl hn hclosed

/-- **Soundness**: if a run of the calculus closes the root then the root is valid. -/
theorem CalculusRun.valid (h : CalculusRun root rules strategy p handed) (hclosed : p.isClosed) :
    Sequent.Valid.{u} root := by
  obtain ⟨n, hn, hseq⟩ := h.run.reached.root_sequent
  rw [← hseq]
  refine h.justified.valid_of_closed h.run.reached.tree hn ?_
  unfold isClosed at hclosed
  simpa [hn] using hclosed

/-- **Automatic search with the first-order rules is sound.** Whatever the strategy, and in whatever
order goals are asked and applications are made: a root of first-order logic that is closed is
valid. -/
theorem Run.valid_of_isClosed (hroot : root.All fun _ f => f.term.FirstOrder)
    (h : Run root Calculus.firstOrder strategy p handed) (hclosed : p.isClosed) :
    Sequent.Valid.{u} root :=
  CalculusRun.valid ⟨fun _ hr => Calculus.mem_firstOrderDrafts hr, hroot, h⟩ hclosed

/-- `\exists x; (p(x) & q(x)) ==> \exists x; p(x)`. -/
private def weakerWitness : Sequent :=
  let x : LogicVar := ⟨"x", .any⟩
  let p : Term := .app (.predicate "p" 1) [.var x]
  let q : Term := .app (.predicate "q" 1) [.var x]
  { antec := [⟨.ex x (.conj p q), by decide⟩], succ := [⟨.ex x p, by decide⟩] }

/-- Four steps of automatic search close it: a fresh constant is named, the conjunction is taken
apart, the constant is supplied on the right, and the goal is closed. -/
theorem valid_of_isClosed_weakerWitness :
    (weakerWitness.All fun _ f => f.term.FirstOrder) ∧
      ∃ p handed, Run weakerWitness Calculus.firstOrder (.ofSettings {}) p handed ∧ p.isClosed ∧
        Sequent.Valid.{0} weakerWitness := by
  have hroot : weakerWitness.All fun _ f => f.term.FirstOrder := by
    have hall : ∀ e ∈ weakerWitness.formulas, e.2.term.FirstOrder := by decide +kernel
    intro side f hf
    exact hall (side, f) (Sequent.mem_formulas.mpr hf)
  have hstart : Run weakerWitness Calculus.firstOrder (.ofSettings {}) _ _ := .start
  obtain ⟨_, hexLeft⟩ := hstart.stepOn 0
  obtain ⟨_, handLeft⟩ := hexLeft.stepOn 0
  obtain ⟨_, hexRight⟩ := handLeft.stepOn 0
  obtain ⟨handed, hclose⟩ := hexRight.stepOn 0
  have hclosed : (((((start weakerWitness Calculus.firstOrder (.ofSettings {})).stepOn 0).2.stepOn
      0).2.stepOn 0).2.stepOn 0).2.isClosed := by cbv
  exact ⟨hroot, _, handed, hclose, hclosed, Run.valid_of_isClosed hroot hclose hclosed⟩

end Proof

end SequentSearch
