import SequentSearch.Proofs.Applications
import SequentSearch.Proofs.Indices
import SequentSearch.Proofs.ProofTree

/-!
# Runs

A run starts with the root as its only goal. Then goals are asked for applications, and applications
that were handed out are made, in any order: an application may be made long after it was handed
out, when other applications have changed its goal. `Proof.Run` says what the proofs and the
applications are that arise this way.

A goal carries a match index and a queue beside its sequent. `Goal.Fits` says that they are right
for it: every application in them came about by matching formulas that have a given property. It
holds of every goal that a step leaves if it held before (`Goal.Fits.successor`), where
`Proof.goal_of_apply` says what the goals after a step are.
-/

namespace SequentSearch

/-! ## Goals -/

namespace Goal

variable {base : RuleBase} {Q Q' : Term → Prop}
  {R R' : SchemaVar → Instantiation → Prop} {goal : Goal}

/-- **What search knows of a goal fits its sequent.** -/
structure Fits (base : RuleBase) (Q : Term → Prop) (R : SchemaVar → Instantiation → Prop)
    (goal : Goal) : Prop where
  /-- the formulas have the property -/
  sequent : goal.sequent.All fun _ f => Q f.term
  /-- the index holds what matching found -/
  index : ∀ app ∈ goal.index.apps, app.Matched base R ∧ ∀ seq, app.AssumedIn seq
  /-- the queue holds automatic applications that are complete for the sequent -/
  queue : ∀ e ∈ goal.queue.get.entries,
    e.2.Matched base R ∧ e.2.AssumedIn goal.sequent ∧ e.2.rule.automatic

/-- A goal that fits also does so if less is asked. -/
theorem Fits.mono (h : goal.Fits base Q R) (hQ : ∀ t, Q t → Q' t) (hR : ∀ sv v, R sv v → R' sv v) :
    goal.Fits base Q' R' where
  sequent side f hf := hQ _ (h.sequent side f hf)
  index app happ := ⟨(h.index app happ).1.mono hR, (h.index app happ).2⟩
  queue e he := ⟨(h.queue e he).1.mono hR, (h.queue e he).2⟩

/-- Filling the queue of a goal offers what the strategy makes of the index. -/
theorem mem_fill {strategy : Strategy} {e : Cost × RuleApp} :
    e ∈ (goal.fill strategy).queue.get.entries ↔
      e ∈ strategy.offers goal.context goal.index goal.sequent :=
  List.mem_mergeSort

/-- A goal whose index fits still fits after its queue was filled. -/
theorem fits_fill (hS : base.Sources Q R) {strategy : Strategy} (hstrategy : strategy.Regular)
    (hsequent : goal.sequent.All fun _ f => Q f.term)
    (hindex : ∀ app ∈ goal.index.apps, app.Matched base R ∧ ∀ seq, app.AssumedIn seq) :
    (goal.fill strategy).Fits base Q R where
  sequent := hsequent
  index := hindex
  queue := by
    rintro ⟨cost, done⟩ he
    obtain ⟨app, happ, -, hdone, -, hfinite⟩ := Strategy.mem_offers.mp (mem_fill.mp he)
    obtain ⟨hmatched, hassumed⟩ := hindex app happ
    rw [hstrategy.complete] at hdone
    obtain ⟨hmatched, hassumed, -⟩ := hmatched.completions hS hsequent (hassumed _) hdone
    exact ⟨hmatched, hassumed, hstrategy.automatic _ _ hfinite⟩

/-- **The goal for a successor fits** if the formulas that were added have the property. -/
theorem Fits.successor {p : Proof} (hS : p.base.Sources Q R) (hstrategy : p.strategy.Regular)
    (h : goal.Fits p.base Q R) (app : RuleApp) (node : NodeId) {s : Successor} {kept : Sequent}
    {new : List (Side × SeqFormula)} (hadds : s.change.Adds goal.sequent kept new)
    (hnew : ∀ e ∈ new, Q e.2.term) :
    (p.successorGoal goal app node s).Fits p.base Q R := by
  refine fits_fill hS hstrategy (fun side f hf => ?_) fun a ha => ?_
  · rcases hadds.mem hf with hold | hf
    · exact h.sequent side f hold
    · exact hnew _ hf
  · rcases MatchIndex.mem_update ha with hold | ⟨e, he, ha⟩
    · exact h.index a hold
    · exact ⟨RuleApp.matched_of_mem_matchesIn hS (hnew e (hadds.added e he)) ha,
        RuleApp.assumedIn_of_mem_matchesIn ha⟩

/-- The index of a sequent holds what matching finds in it. -/
theorem matched_ofSequent (hS : base.Sources Q R) {root : Sequent}
    (hroot : root.All fun _ f => Q f.term) :
    ∀ app ∈ (MatchIndex.ofSequent base root).apps, app.Matched base R ∧
      ∀ seq, app.AssumedIn seq := by
  intro app happ
  rcases (MatchIndex.follows_ofSequent base root).mem_apps.mp happ with
    ⟨side, f, hf, happ⟩ | ⟨rule, hrule, rfl⟩
  · exact ⟨RuleApp.matched_of_mem_matchesIn hS (hroot side f hf) happ,
      RuleApp.assumedIn_of_mem_matchesIn happ⟩
  · exact ⟨RuleApp.matched_withoutFocus hrule, RuleApp.assumedIn_ofMatch rule _ _⟩

end Goal

namespace Proof

variable {p q : Proof} {g h : GoalId} {goal goal' : Goal} {app : RuleApp}

/-! ## What a step does to goals, rules and names -/

/-- **The rules and the strategy stay the same, and names stay in use.** -/
theorem apply_keeps (htree : p.Tree) (g : GoalId) (app : RuleApp) :
    (p.apply g app).2.base = p.base ∧ (p.apply g app).2.strategy = p.strategy ∧
      ∀ n ∈ p.names.used, n ∈ (p.apply g app).2.names.used := by
  have hcases := apply_cases p g app
  generalize (p.apply g app).2 = q at hcases ⊢
  cases hcases with
  | failed hnames => exact ⟨rfl, rfl, hnames⟩
  | closed hgoal hexec => exact ⟨rfl, rfl, RuleApp.execute_grows hexec⟩
  | @split goal names succs hgoal hexec hne =>
    obtain ⟨n, hn, -⟩ := (htree.recordApp goal.node app names).goal_node g goal hgoal
    have hsplits := splits_split (lt_size_of_getElem? hn) g app succs
    refine ⟨hsplits.base, hsplits.strategy, fun n hn => ?_⟩
    rw [hsplits.names]
    exact RuleApp.execute_grows hexec n hn

/-- Numbers of goals are handed out in increasing order. -/
theorem nextGoal_le_apply (p : Proof) (g : GoalId) (app : RuleApp) :
    p.nextGoal ≤ (p.apply g app).2.nextGoal := by
  have hcases := apply_cases p g app
  generalize (p.apply g app).2 = q at hcases ⊢
  cases hcases with
  | failed hnames => exact Nat.le_refl _
  | closed hgoal hexec => exact Nat.le_refl _
  | split hgoal hexec hne => exact Nat.le_add_right ..

/-- **The goals after a step.** A goal was there before, or it is that of a successor of the goal
the step was made on; then it has the number of that goal or a new one. -/
theorem goal_of_apply (htree : p.Tree) (hq : (p.apply g app).2.goal? h = some goal') :
    p.goal? h = some goal' ∨ ∃ goal succs, p.goal? g = some goal ∧
      app.execute goal.sequent p.names = (.ok succs, (p.apply g app).2.names) ∧
      ∃ s ∈ succs, ∃ node, goal' = p.successorGoal goal app node s ∧ (h = g ∨ p.nextGoal ≤ h) := by
  have hcases := apply_cases p g app
  generalize (p.apply g app).2 = q at hcases hq ⊢
  cases hcases with
  | failed hnames => exact .inl hq
  | closed hgoal hexec =>
    have hget : ((p.goals.erase g).get? h) = some goal' := hq
    rw [IdTable.get?_erase] at hget
    split at hget
    · cases hget
    · exact .inl hget
  | @split goal names succs hgoal hexec hne =>
    have htree' := htree.recordApp goal.node app names
    obtain ⟨n, hn, -⟩ := htree'.goal_node g goal hgoal
    have hsplits := splits_split (lt_size_of_getElem? hn) g app succs
    have hnum : Numbered _ (split _ g goal app succs).2 g _ :=
      numbered_split hne (htree'.goal_lt g goal hgoal)
    rcases hsplits.goal_cases hq with ⟨hold, -⟩ | ⟨k, e, he, rfl, rfl⟩
    · exact .inl hold
    · have hmem := List.mem_of_getElem? he
      refine .inr ⟨goal, succs, hgoal, ?_, e.2, ?_, _, rfl, hnum.new e hmem⟩
      · rw [hsplits.names]
        exact hexec
      · rw [← map_snd_splitEntries _ g hne]
        exact List.mem_map_of_mem hmem

/-- **The nodes after a step**: a node keeps its place in the tree and its sequent. -/
theorem node_of_apply (htree : p.Tree) (g : GoalId) (app : RuleApp) {i : NodeId} {n : Node}
    (hn : p.nodes[i]? = some n) :
    ∃ n', (p.apply g app).2.nodes[i]? = some n' ∧ n'.parent = n.parent ∧
      n'.sequent = n.sequent := by
  have hrecord : ∀ (goal : Goal) (names : NameSupply),
      ∃ n', ({ p with names := names }.recordApp goal.node app).nodes[i]? = some n' ∧
        n'.parent = n.parent ∧ n'.sequent = n.sequent := by
    intro goal names
    rcases sameNodes_recordApp { p with names := names } goal.node app i with
      ⟨hnone, -⟩ | ⟨m, n', hm, hn', hsame, -⟩
    · cases hn.symm.trans hnone
    · cases hn.symm.trans hm
      exact ⟨n', hn', hsame.1, hsame.2.2⟩
  have hcases := apply_cases p g app
  generalize (p.apply g app).2 = q at hcases ⊢
  cases hcases with
  | failed hnames => exact ⟨n, hn, rfl, rfl⟩
  | @closed goal names hgoal hexec =>
    obtain ⟨m, hm, hparent, hseq⟩ := hrecord goal names
    rcases closeUp_same (goal.node :: goal.steps.map Step.node)
      ({ p with names := names }.recordApp goal.node app).nodes i with
      ⟨hnone, -⟩ | ⟨m', n', hm', hn', hsame, -⟩
    · cases hm.symm.trans hnone
    · cases hm.symm.trans hm'
      exact ⟨n', hn', hsame.1.trans hparent, hsame.2.2.trans hseq⟩
  | @split goal names succs hgoal hexec hne =>
    obtain ⟨leaf, hleaf, -⟩ := (htree.recordApp goal.node app names).goal_node g goal hgoal
    obtain ⟨m, hm, hparent, hseq⟩ := hrecord goal names
    have hsplits := splits_split (lt_size_of_getElem? hleaf) g app succs
    obtain ⟨n', hn', hparent', hseq', -⟩ := hsplits.exists_node hm
    exact ⟨n', hn', hparent'.trans hparent, hseq'.trans hseq⟩

/-- **What a step that can be executed leaves**: a goal for each successor, under the number of the
goal or new ones, and all other goals as they were. -/
theorem apply_of_execute (htree : p.Tree) (hgoal : p.goal? g = some goal) {succs : List Successor}
    {names : NameSupply} (hexec : app.execute goal.sequent p.names = (.ok succs, names)) :
    ∃ new, (p.apply g app).1 = .ok new ∧ (∀ h ∈ new, h = g ∨ p.nextGoal ≤ h) ∧
      List.Forall₂ (fun h s => ∃ node,
        (p.apply g app).2.goal? h = some (p.successorGoal goal app node s)) new succs ∧
      ∀ h, h ∉ new → (p.apply g app).2.goal? h = if h = g then none else p.goal? h := by
  cases succs with
  | nil =>
    rw [apply_eq_close hgoal hexec]
    exact ⟨[], rfl, fun h hh => (nomatch hh), .nil, fun h _ => IdTable.get?_erase ..⟩
  | cons s rest =>
    let q := { p with names := names }.recordApp goal.node app
    have hne : s :: rest ≠ [] := List.cons_ne_nil s rest
    have htree' : q.Tree := htree.recordApp goal.node app names
    obtain ⟨n, hn, -⟩ := htree'.goal_node g goal hgoal
    have hsplits := splits_split (lt_size_of_getElem? hn) g app (s :: rest)
    have hnum : Numbered q (q.split g goal app (s :: rest)).2 g _ :=
      numbered_split hne (htree'.goal_lt g goal hgoal)
    have hids := map_fst_splitEntries q g hne
    rw [apply_eq_split hgoal hexec hne]
    refine ⟨_, rfl, fun h hh => ?_, ?_, fun h hh => ?_⟩
    · rw [← hids] at hh
      obtain ⟨e, he, rfl⟩ := List.mem_map.mp hh
      exact hnum.new e he
    · refine List.forall₂_iff_zip.mpr ⟨length_splitIds q g hne, fun {h s'} hmem => ?_⟩
      obtain ⟨k, hk⟩ := List.mem_iff_getElem?.mp hmem
      exact ⟨_, hsplits.goal_new hnum.nodup k _ hk⟩
    · have hg : h ≠ g := fun heq => hh (heq ▸ List.mem_cons_self)
      rw [if_neg hg]
      refine hsplits.goal_old h fun e he heq => hh ?_
      rw [← hids, ← heq]
      exact List.mem_map_of_mem he

/-- **What a step does to the goals**: new ones take the place of a goal. -/
structure Supplants (p q : Proof) (g : GoalId) (goal : Goal) (new : List GoalId) : Prop where
  /-- the new goals are open -/
  isOpen : ∀ h ∈ new, q.isOpen h
  /-- apart from the goal itself they were not there before -/
  fresh : ∀ h ∈ new, h ≠ g → p.goal? h = none
  /-- the other goals stay as they are -/
  old : ∀ h, h ∉ new → q.goal? h = if h = g then none else p.goal? h
  /-- and are not below the node of the goal -/
  parent : ∀ h goal', p.goal? h = some goal' → h ≠ g →
    (q.nodes[goal'.node]?.bind Node.parent) ≠ some goal.node

/-- **A step that can be executed** replaces the goal by goals for the successors. -/
theorem supplants_of_execute (htree : p.Tree) (hgoal : p.goal? g = some goal)
    {succs : List Successor} {names : NameSupply}
    (hexec : app.execute goal.sequent p.names = (.ok succs, names)) :
    ∃ new, (p.apply g app).1 = .ok new ∧ p.Supplants (p.apply g app).2 g goal new ∧
      List.Forall₂ (fun h s => ∃ node,
        (p.apply g app).2.goal? h = some (p.successorGoal goal app node s)) new succs := by
  obtain ⟨new, hnew, hids, hgoals, hold⟩ := apply_of_execute htree hgoal hexec
  refine ⟨new, hnew, ⟨fun h hh => ?_, fun h hh hne =>
    ?_, hold, fun h goal' hgoal' hne => ?_⟩, hgoals⟩
  · obtain ⟨s, -, node, hget⟩ := exists_right_of_forall₂ hgoals hh
    rw [Proof.isOpen, hget]
    rfl
  · cases hget : p.goal? h with
    | none => rfl
    | some goal' =>
      rcases hids h hh with heq | hle
      · exact absurd heq hne
      · exact absurd hle (Nat.not_le_of_lt (htree.goal_lt h goal' hget))
  · -- the node of the goal had no children before the step, and other nodes keep their parents
    intro hparent
    obtain ⟨n, hn, -, hchildren, -⟩ := htree.goal_node g goal hgoal
    obtain ⟨m, hm, -⟩ := htree.goal_node h goal' hgoal'
    obtain ⟨m', hm', hsame, -⟩ := node_of_apply htree g app hm
    rw [hm', Option.bind_some, hsame] at hparent
    obtain ⟨n', hn', hchild⟩ := htree.parent _ m hm _ hparent
    cases hn.symm.trans hn'
    rw [hchildren] at hchild
    cases hchild

theorem nextApp_keeps (p : Proof) (g : GoalId) : (p.nextApp g).2.base = p.base ∧
    (p.nextApp g).2.strategy = p.strategy ∧ (p.nextApp g).2.names = p.names ∧
    (p.nextApp g).2.nodes = p.nodes ∧ (p.nextApp g).2.nextGoal = p.nextGoal := by
  rcases nextApp_cases p g with heq | ⟨goal, queue, -, -, heq, -⟩
  · rw [heq]
    exact ⟨rfl, rfl, rfl, rfl, rfl⟩
  · rw [heq]
    exact ⟨rfl, rfl, rfl, rfl, rfl⟩

/-- After a goal was asked for an application, its queue has lost entries at most, and all other
goals are as they were. -/
theorem goal?_nextApp (hgoal : p.goal? g = some goal) : ∃ queue : Queue RuleApp,
    (∀ e ∈ queue.entries, e ∈ goal.queue.get.entries) ∧ ∀ h, (p.nextApp g).2.goal? h =
      if h = g then some { goal with queue := .pure queue } else p.goal? h := by
  let queue := (goal.queue.get.dropUntil (p.strategy.approves goal.context)).tail
  have hnext : (p.nextApp g).2 =
      { p with goals := p.goals.insert g { goal with queue := .pure queue } } := by
    rw [Proof.nextApp, hgoal]
  refine ⟨queue, fun e he => ?_, fun h => ?_⟩
  · exact (List.dropWhile_sublist _).subset (List.mem_of_mem_tail he)
  · rw [hnext]
    exact IdTable.get?_insert ..

/-- The goals after one was asked for an application: they differ in their queues only, which have
lost entries at most. -/
theorem goal_of_nextApp (hq : (p.nextApp g).2.goal? h = some goal') :
    ∃ goal, p.goal? h = some goal ∧
    (∀ e ∈ goal'.queue.get.entries, e ∈ goal.queue.get.entries) ∧
    ∃ queue, goal' = { goal with queue := queue } := by
  cases hgoal : p.goal? g with
  | none =>
    have hsame : (p.nextApp g).2 = p := by rw [Proof.nextApp, hgoal]
    exact ⟨goal', hsame ▸ hq, fun e he => he, _, rfl⟩
  | some goal =>
    obtain ⟨queue, hsub, hget⟩ := goal?_nextApp hgoal
    rw [hget] at hq
    split at hq <;> rename_i hh
    · cases hq
      subst hh
      exact ⟨goal, hgoal, hsub, _, rfl⟩
    · exact ⟨goal', hq, fun e he => he, _, rfl⟩

/-! ## Goals keep fitting -/

section Fits

variable {Q : Term → Prop} {R : SchemaVar → Instantiation → Prop}

/-- The first goal fits if the root has the property. -/
theorem fits_start {root : Sequent} {rules : List Rule} (hS : (RuleBase.ofRules rules).Sources Q R)
    (hroot : root.All fun _ f => Q f.term) {strategy : Strategy}
    (hstrategy : strategy.Regular) (g : GoalId) (goal : Goal)
    (hg : (start root rules strategy).goal? g = some goal) :
    goal.Fits (.ofRules rules) Q R := by
  obtain ⟨-, rfl⟩ := goal?_start root rules strategy hg
  exact Goal.fits_fill hS hstrategy hroot (Goal.matched_ofSequent hS hroot)

/-- Goals still fit after one of them was asked for an application. -/
theorem fits_nextApp {base : RuleBase}
    (hgoals : ∀ i goal, p.goal? i = some goal → goal.Fits base Q R) (i : GoalId) (goal' : Goal)
    (hi : (p.nextApp g).2.goal? i = some goal') : goal'.Fits base Q R := by
  obtain ⟨goal, hgoal, hsub, queue, rfl⟩ := goal_of_nextApp hi
  have hfits := hgoals i goal hgoal
  exact ⟨hfits.sequent, hfits.index, fun e he => hfits.queue e (hsub e he)⟩

/-- The application that a goal hands out was found by matching, for automatic search. -/
theorem matched_nextApp {base : RuleBase}
    (hgoals : ∀ i goal, p.goal? i = some goal → goal.Fits base Q R)
    (happ : (p.nextApp g).1 = some app) :
    app.Matched base R ∧ app.rule.automatic ∧ ∃ goal, p.goal? g = some goal := by
  rcases nextApp_cases p g with hnone | ⟨goal, queue, hgoal, -, -, hfrom⟩
  · rw [hnone] at happ
    cases happ
  · obtain ⟨-, cost, hmem⟩ := hfrom app happ
    obtain ⟨hmatched, -, hauto⟩ := (hgoals g goal hgoal).queue _ hmem
    exact ⟨hmatched, hauto, goal, hgoal⟩

/-- **Goals still fit after a step** if the formulas that it adds have the property. -/
theorem fits_apply (htree : p.Tree) (hS : p.base.Sources Q R) (hstrategy : p.strategy.Regular)
    (hgoals : ∀ i goal, p.goal? i = some goal → goal.Fits p.base Q R)
    (hnew : ∀ goal succs, p.goal? g = some goal →
      app.execute goal.sequent p.names = (.ok succs, (p.apply g app).2.names) → ∀ s ∈ succs,
      ∃ kept new, s.change.Adds goal.sequent kept new ∧ ∀ e ∈ new, Q e.2.term)
    (i : GoalId) (goal' : Goal) (hi : (p.apply g app).2.goal? i = some goal') :
    goal'.Fits p.base Q R := by
  rcases goal_of_apply htree hi with hold | ⟨goal, succs, hgoal, hexec, s, hs, node, rfl, -⟩
  · exact hgoals i goal' hold
  · obtain ⟨kept, new, hadds, hQ⟩ := hnew goal succs hgoal hexec s hs
    exact (hgoals g goal hgoal).successor hS hstrategy app node hadds hQ

end Fits

/-! ## Proofs that can be reached -/

variable {root : Sequent} {rules : List Rule} {strategy : Strategy}

/-- **The proofs that can be reached from a root**, whatever applications are made. -/
inductive Reached (root : Sequent) (rules : List Rule) (strategy : Strategy) : Proof → Prop where
  /-- the root is the only goal -/
  | start : Reached root rules strategy (start root rules strategy)
  /-- a goal is asked for its next application -/
  | ask {p : Proof} (h : Reached root rules strategy p) (g : GoalId) :
      Reached root rules strategy (p.nextApp g).2
  /-- an application is made -/
  | apply {p : Proof} (h : Reached root rules strategy p) (g : GoalId) (app : RuleApp) :
      Reached root rules strategy (p.apply g app).2

/-- **The nodes always form a tree.** -/
theorem Reached.tree (h : Reached root rules strategy p) : p.Tree := by
  induction h with
  | start => exact tree_start root rules strategy
  | ask _ g ih => exact ih.nextApp g
  | apply _ g app ih => exact ih.apply g app

/-- The rules stay the same. -/
theorem Reached.base_eq (h : Reached root rules strategy p) : p.base = .ofRules rules := by
  induction h with
  | start => rfl
  | ask _ g ih => exact (nextApp_keeps _ g).1.trans ih
  | apply h g app ih => exact (apply_keeps h.tree g app).1.trans ih

/-- So does the strategy. -/
theorem Reached.strategy_eq (h : Reached root rules strategy p) : p.strategy = strategy := by
  induction h with
  | start => rfl
  | ask _ g ih => exact (nextApp_keeps _ g).2.1.trans ih
  | apply h g app ih => exact (apply_keeps h.tree g app).2.1.trans ih

/-- A default strategy is regular all along. -/
theorem Reached.regular {strategy : DefaultStrategy} (h : Reached root rules strategy p) :
    p.strategy.Regular := by
  rw [h.strategy_eq]
  exact strategy.regular

/-- The first node always has the root as its sequent. -/
theorem Reached.root_sequent (h : Reached root rules strategy p) :
    ∃ n, p.nodes[Proof.root]? = some n ∧ n.sequent = root := by
  induction h with
  | start => exact ⟨_, rfl, rfl⟩
  | ask _ g ih =>
    rw [(nextApp_keeps _ g).2.2.2.1]
    exact ih
  | apply h g app ih =>
    obtain ⟨n, hn, hseq⟩ := ih
    obtain ⟨n', hn', -, hseq'⟩ := node_of_apply h.tree g app hn
    exact ⟨n', hn', hseq'.trans hseq⟩

/-! ## Runs -/

/-- **The runs of a proof from a root**, together with the applications that were handed out so far,
each for its goal. -/
inductive Run (root : Sequent) (rules : List Rule) (strategy : Strategy) :
    Proof → List (GoalId × RuleApp) → Prop where
  /-- the root is the only goal -/
  | start : Run root rules strategy (start root rules strategy) []
  /-- a goal is asked for its next application, which is handed out if there is one -/
  | ask {p : Proof} {handed : List (GoalId × RuleApp)} (h : Run root rules strategy p handed)
      (g : GoalId) :
      Run root rules strategy (p.nextApp g).2 ((p.nextApp g).1.toList.map (g, ·) ++ handed)
  /-- an application is made that was handed out for the goal -/
  | apply {p : Proof} {handed : List (GoalId × RuleApp)} {g : GoalId} {app : RuleApp}
      (h : Run root rules strategy p handed) (happ : (g, app) ∈ handed) :
      Run root rules strategy (p.apply g app).2 handed

variable {handed : List (GoalId × RuleApp)}

theorem Run.reached (h : Run root rules strategy p handed) : Reached root rules strategy p := by
  induction h with
  | start => exact .start
  | ask _ g ih => exact ih.ask g
  | apply _ _ ih => exact ih.apply _ _

/-- A step of automatic search asks a goal for its next application and makes it. -/
theorem Run.stepOn (h : Run root rules strategy p handed) (g : GoalId) :
    ∃ handed', Run root rules strategy (p.stepOn g).2 handed' := by
  unfold Proof.stepOn
  split
  · rename_i goal app q hgoal hnext
    have hask := h.ask g
    rw [hnext] at hask
    exact ⟨_, hask.apply (List.mem_cons_self ..)⟩
  · rename_i x q hnext _
    have hask := h.ask g
    rw [hnext] at hask
    exact ⟨_, hask⟩

end Proof

end SequentSearch
