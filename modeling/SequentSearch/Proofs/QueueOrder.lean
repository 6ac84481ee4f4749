import Mathlib
import SequentSearch.Proofs.Advances
import SequentSearch.Proofs.CompleteIndices
import SequentSearch.Proofs.Offers
import SequentSearch.Proofs.QuantifierInstances
import SequentSearch.Proofs.Rematching

/-!
# What a goal hands out, and in which order

The applications for a goal are made up in three stages. A strategy that rejects a match does not
look at its completions, the completions of finite cost are sorted, and an entry that is rejected by
the time it is due is passed over. For the usual strategy neither of the two tests loses anything: a
goal hands out all completions of finite cost of what automatic rules match (`Strategy.allOffers`),
in the order of their costs.

* `Queue.sorts_fill`: filling a queue sorts its entries, and keeps the order of those of equal cost.
* `RuleApp.same_of_mem_completions`: an application that was made says the same as a match only if
  all variables of the match have values. Then there is nothing left to complete, so it says the
  same as each completion. This is why rejecting a repeated match rejects no new completion.
* `Proof.Worked` collects the proofs in which the applications that were made are of this kind, with
  the goals that were asked since they came about.
-/

namespace SequentSearch

/-! ## Sorting by cost -/

namespace Cost

theorem le_self (c : Cost) : c.le c := by
  cases c <;> simp [le]

theorem le_trans (a b c : Cost) (hab : a.le b) (hbc : b.le c) : a.le c := by
  cases a <;> cases b <;> cases c <;> simp_all [le]
  omega

theorem le_total (a b : Cost) : a.le b || b.le a := by
  cases a <;> cases b <;> simp [le]
  omega

end Cost

namespace Queue

variable {α : Type}

/-- **A stable order by cost**: cheaper entries come first, and those of equal cost as they came
in. -/
structure Sorts (entries sorted : List (Cost × α)) : Prop where
  /-- no entry comes after one that costs more -/
  ordered : sorted.Pairwise fun a b => a.1.le b.1
  /-- the entries of each cost are the given ones, in their order -/
  stable : ∀ cost, (sorted.filter fun e => e.1 = cost) = entries.filter fun e => e.1 = cost

/-- **Filling a queue sorts its entries.** -/
theorem sorts_fill (entries : List (Cost × α)) : Sorts entries (fill entries).entries := by
  have htrans : ∀ a b c : Cost × α, a.1.le b.1 → b.1.le c.1 → a.1.le c.1 := fun a b c =>
    Cost.le_trans a.1 b.1 c.1
  have htotal : ∀ a b : Cost × α, a.1.le b.1 || b.1.le a.1 := fun a b => Cost.le_total a.1 b.1
  refine ⟨List.pairwise_mergeSort htrans htotal entries, fun cost => ?_⟩
  -- the entries of one cost are in order as they are, so sorting does not take them apart
  have hequal : (entries.filter fun e => e.1 = cost).Pairwise fun a b => a.1.le b.1 := by
    refine List.pairwise_of_forall_mem_list fun a ha b hb => ?_
    have hcost : a.1 = b.1 := by
      rw [of_decide_eq_true (List.mem_filter.mp ha).2, of_decide_eq_true (List.mem_filter.mp hb).2]
    exact hcost ▸ Cost.le_self a.1
  have hsub := (List.sublist_mergeSort htrans htotal hequal List.filter_sublist).filter
    fun e => e.1 = cost
  simp only [List.filter_filter, Bool.and_self] at hsub
  have hlength := ((List.mergeSort_perm entries fun a b => a.1.le b.1).filter
    fun e => e.1 = cost).length_eq
  exact (hsub.eq_of_length hlength.symm).symm

end Queue

/-! ## Applications that were made before -/

namespace Instantiations

variable {σ τ : Instantiations} {sv : SchemaVar}

theorem has_of_same (h : σ.same τ) (hsv : σ.has sv) : τ.has sv := by
  obtain ⟨v, hv⟩ := Option.isSome_iff_exists.mp hsv
  have hall := (Bool.and_eq_true_iff.mp h).2
  have hmem : (sv, v) ∈ σ.bindings := by
    obtain ⟨before, after, heq, -⟩ := List.lookup_eq_some_iff.mp hv
    rw [heq]
    exact List.mem_append_right _ List.mem_cons_self
  have hsame := List.all_eq_true.mp hall (sv, v) hmem
  rw [has, eq_of_beq hsame]
  rfl

theorem context_of_same (h : σ.same τ) : σ.context = τ.context :=
  eq_of_beq (Bool.and_eq_true_iff.mp (Bool.and_eq_true_iff.mp h).1).1

end Instantiations

namespace RuleApp

variable {app done c : RuleApp} {σ : Instantiations} {focus : Option Occurrence} {seq : Sequent}

/-- Only an empty assumes part is matched from the beginning. -/
theorem isSome_assumed_ofMatch (rule : Rule) (σ : Instantiations) (focus : Option Occurrence) :
    (ofMatch rule σ focus).assumed.isSome = rule.assumes.isEmpty := by
  rw [ofMatch]
  cases rule.assumes.isEmpty <;> rfl

/-- An application has no open variables if all variables but those for fresh constants have
values. -/
theorem openVars_eq_nil_iff : app.openVars = [] ↔
    ∀ sv ∈ app.rule.schemaVars.filter fun sv => !sv.isSkolem, app.insts.has sv := by
  rw [openVars, List.filter_eq_nil_iff]
  simp only [List.mem_filter, and_imp, Bool.and_eq_true, Bool.not_eq_true', not_and,
    Bool.not_eq_false]

/-- **How applications come about**: from a match, by completing the assumes part and by supplying
terms. -/
inductive Formed : RuleApp → Prop where
  /-- a rule with values that were found somehow -/
  | ofMatch (rule : Rule) (σ : Instantiations) (focus : Option Occurrence) :
      Formed (ofMatch rule σ focus)
  /-- the assumes part is completed in a sequent -/
  | findAssumed {app done : RuleApp} {seq : Sequent} (h : Formed app)
      (hfound : app.findAssumed seq = some done) : Formed done
  /-- a term is supplied -/
  | supply {app done : RuleApp} {sv : SchemaVar} {t : Term} (h : Formed app)
      (hsupply : app.supply sv t = some done) : Formed done

/-- The assumes part of an application is completed by matching it, and the values are kept. -/
theorem Formed.matchAssumes (h : app.Formed) (hassumed : app.assumed.isSome) :
    app.rule.assumes.isEmpty ∨
    ∃ seq focus σ τ found, app.rule.matchAssumes .empty seq focus σ = some (τ, found) ∧
      τ ≤ app.insts := by
  induction h with
  | ofMatch rule σ focus => exact .inl (isSome_assumed_ofMatch rule σ focus ▸ hassumed)
  | findAssumed _ hfound ih =>
    rcases findAssumed_cases hfound with rfl | ⟨τ, found, -, hmatch, rfl⟩
    · exact ih hassumed
    · exact .inr ⟨_, _, _, τ, found, hmatch, Instantiations.le_refl τ⟩
  | supply _ hsupply ih =>
    obtain ⟨-, σ, hadd, rfl⟩ := add_of_supply hsupply
    refine (ih hassumed).imp_right ?_
    rintro ⟨seq, focus, σ', τ, found, hmatch, hle⟩
    exact ⟨seq, focus, σ', τ, found, hmatch,
      Instantiations.le_trans hle (Instantiations.le_of_add hadd)⟩

theorem Formed.completions (h : app.Formed) (hdone : done ∈ app.completions seq) : done.Formed := by
  unfold RuleApp.completions at hdone
  split at hdone <;> rename_i hfound
  · cases hdone
  · split at hdone
    · refine mem_supplyAll (P := Formed) (fun t _ ha hsupply => ha.supply hsupply) ?_
        (List.mem_filter.mp hdone).1
      exact List.forall_mem_singleton.mpr (h.findAssumed hfound)
    · cases hdone

/-- If matching the assumes part records a context, an application with a completed assumes part has
one. -/
theorem Formed.isSome_context (h : app.Formed) (hassumed : app.assumed.isSome)
    (hassumes : app.rule.assumes.isEmpty = false) {svs : List SchemaVar}
    (hread : ∀ seq focus σ τ found, app.rule.matchAssumes .empty seq focus σ = some (τ, found) →
      Instantiations.Reads svs true σ τ) : app.insts.context.isSome := by
  rcases h.matchAssumes hassumed with hempty | ⟨seq, focus, σ, τ, found, hmatch, hle⟩
  · cases hempty.symm.trans hassumes
  · have hsome := (hread seq focus σ τ found hmatch).context
    rw [Bool.or_true] at hsome
    obtain ⟨ctx, hctx⟩ := Option.isSome_iff_exists.mp hsome
    rw [Instantiations.context_of_le hle hctx]
    rfl

/-- Where finding the assumes part leaves no variable open, there is nothing else to complete. -/
theorem findAssumed_of_mem_completions
    (hopen : ∀ found, app.findAssumed seq = some found → found.openVars = [])
    (hc : c ∈ app.completions seq) :
    app.findAssumed seq = some c := by
  unfold completions at hc
  split at hc <;> rename_i hfound
  · cases hc
  · rw [hopen _ hfound] at hc
    obtain rfl := List.mem_singleton.mp (List.mem_filter.mp hc).1
    exact hfound

/-- **An application that was made and says the same as a match says the same as its completions.**
All variables have values by then, so completing the match changes none of them. Nor does it record
a context: if the assumes part of the rule asks for one, it was recorded when the application was
completed. -/
theorem same_of_mem_completions (hrule : done.rule.Accepted) (hformed : done.Formed)
    (hcomplete : done.isComplete) (hsame : done.same (ofMatch done.rule σ focus))
    (hc : c ∈ (ofMatch done.rule σ focus).completions seq) : done.same c := by
  obtain ⟨-, hinsts⟩ := Bool.and_eq_true_iff.mp hsame
  obtain ⟨hassumed, hopen⟩ := Bool.and_eq_true_iff.mp (Bool.and_eq_true_iff.mp hcomplete).1
  have hvalues := openVars_eq_nil_iff.mp (List.isEmpty_iff.mp hopen)
  have hhas : ∀ sv ∈ done.rule.schemaVars.filter fun sv => !sv.isSkolem, σ.has sv := fun sv hsv =>
    Instantiations.has_of_same hinsts (hvalues sv hsv)
  obtain ⟨active, hread⟩ := done.rule.exists_reads_matchAssumes hrule
  have hkept : ∀ found, (ofMatch done.rule σ focus).findAssumed seq = some found →
      found.rule = done.rule ∧ found.focus = focus ∧ found.insts = σ := by
    intro found hfound
    rcases findAssumed_cases hfound with rfl | ⟨τ, occs, hnone, hmatch, rfl⟩
    · exact ⟨rfl, rfl, rfl⟩
    · refine ⟨rfl, rfl, (hread _ _ _ _ _ _ hmatch).eq hhas ?_⟩
      rintro rfl
      have hassumes : done.rule.assumes.isEmpty = false := by
        rw [← isSome_assumed_ofMatch done.rule σ focus, hnone]
        rfl
      rw [← Instantiations.context_of_same hinsts]
      exact hformed.isSome_context hassumed hassumes (hread .empty)
  have hfound : (ofMatch done.rule σ focus).findAssumed seq = some c := by
    refine findAssumed_of_mem_completions (fun found hfound => ?_) hc
    obtain ⟨hruleEq, -, hinstsEq⟩ := hkept found hfound
    rw [openVars_eq_nil_iff, hruleEq, hinstsEq]
    exact hhas
  obtain ⟨hruleEq, hfocusEq, hinstsEq⟩ := hkept c hfound
  rw [same, hruleEq, hfocusEq, hinstsEq]
  exact hsame

end RuleApp

/-! ## What could be offered -/

/-- Members for which nothing is listed may be left out. -/
theorem flatMap_filter_of_eq_nil {α β : Type} {l : List α} {test : α → Bool} {f : α → List β}
    (h : ∀ a ∈ l, test a = false → f a = []) : (l.filter test).flatMap f = l.flatMap f := by
  induction l with
  | nil => rfl
  | cons a l ih =>
    obtain ⟨ha, hl⟩ := List.forall_mem_cons.mp h
    cases htest : test a with
    | true => rw [List.filter_cons_of_pos htest, List.flatMap_cons, List.flatMap_cons, ih hl]
    | false =>
      rw [List.filter_cons_of_neg (by simp [htest]), List.flatMap_cons, ha htest,
        List.nil_append, ih hl]

/-- **A branch on which rules of a base were applied**, by complete applications. -/
def Trail.MadeFrom (base : RuleBase) (trail : Trail) : Prop :=
  ∀ done ∈ trail, done.rule ∈ base.rules ∧ done.Formed ∧ done.isComplete

namespace Strategy

variable {rules : List Rule} {ctx : FeatureContext} {index : MatchIndex} {seq : Sequent}
  {app c : RuleApp}

/-- **All that could be offered**: the completions of finite cost of what automatic rules match. -/
def allOffers (s : Strategy) (ctx : FeatureContext) (index : MatchIndex) (seq : Sequent) :
    List (Cost × RuleApp) :=
  ((index.apps.filter (·.rule.automatic)).flatMap fun app =>
    (app.completions seq).map fun c => (s.cost ctx c, c)).filter fun o => !o.1.isTop

/-- **The usual strategy approves of a match if it approves of one of its completions.** -/
theorem approves_of_mem_completions (settings : Settings) (hrules : ∀ r ∈ rules, r.Accepted)
    (htrail : ctx.trail.MadeFrom (.ofRules rules)) (hfound : (RuleBase.ofRules rules).Finds app)
    (hc : c ∈ app.completions seq) (happroves : (ofSettings settings).approves ctx c) :
    (ofSettings settings).approves ctx app := by
  rw [approves_ofSettings, hfound.rule_eq hc, Bool.and_eq_true] at happroves
  rw [approves_ofSettings, Bool.and_eq_true]
  refine ⟨happroves.1, ?_⟩
  rw [Bool.not_eq_true', List.any_eq_false] at happroves ⊢
  intro done hdone hsame
  obtain ⟨hmem, hformed, hcomplete⟩ := htrail done hdone
  obtain ⟨rule, hrule, σ, focus, rfl⟩ := hfound.exists_ofMatch
  -- the two rules have one name, and only one rule of that name is in force
  obtain rfl : done.rule = rule := by
    have hname := (Bool.and_eq_true_iff.mp (Bool.and_eq_true_iff.mp hsame).1).1
    exact (RuleBase.mem_ofRules_iff.mp hmem).eq_of_name_eq (RuleBase.mem_ofRules_iff.mp hrule)
      (eq_of_beq hname)
  have haccepted := hrules done.rule (RuleBase.mem_ofRules hmem)
  exact happroves.2 done hdone (RuleApp.same_of_mem_completions haccepted hformed
    hcomplete hsame hc)

/-- **The early test loses nothing.** -/
theorem offers_eq_allOffers (settings : Settings) (hrules : ∀ r ∈ rules, r.Accepted)
    (htrail : ctx.trail.MadeFrom (.ofRules rules))
    (hindex : ∀ app ∈ index.apps, (RuleBase.ofRules rules).Finds app) (seq : Sequent) :
    (ofSettings settings).offers ctx index seq = (ofSettings settings).allOffers ctx index seq := by
  have hnil : ∀ app : RuleApp, (∀ c ∈ app.completions seq,
      (ofSettings settings).approves ctx c = false) →
      (((app.completions seq).map fun c => ((ofSettings settings).cost ctx c, c)).filter
        fun o => !o.1.isTop) = [] := by
    intro app hrejects
    refine List.filter_eq_nil_iff.mpr fun o ho => ?_
    obtain ⟨c, hc, rfl⟩ := List.mem_map.mp ho
    exact Bool.eq_false_iff.mp (hrejects c hc)
  have hoffers : (ofSettings settings).offers ctx index seq =
      (index.apps.filter fun app =>
          app.rule.automatic && (ofSettings settings).approves ctx app).flatMap fun app =>
        ((app.completions seq).map fun c => ((ofSettings settings).cost ctx c, c)).filter
          fun o => !o.1.isTop := rfl
  rw [hoffers, allOffers, List.filter_flatMap, flatMap_filter_of_eq_nil, flatMap_filter_of_eq_nil]
  · intro app happ hauto
    refine hnil app fun c hc => Bool.eq_false_iff.mpr fun happroves => ?_
    have hautomatic := automatic_of_approves happroves
    rw [(hindex app happ).rule_eq hc, hauto] at hautomatic
    cases hautomatic
  · intro app happ hrejects
    refine hnil app fun c hc => Bool.eq_false_iff.mpr fun happroves => ?_
    have happroved := approves_of_mem_completions settings hrules htrail
        (hindex app happ) hc happroves
    rw [automatic_of_approves happroved, happroved] at hrejects
    cases hrejects

end Strategy

/-! ## Goals that were not asked yet -/

namespace Proof

variable {root : Sequent} {rules : List Rule} {settings : Settings} {p q : Proof}
  {g : GoalId} {goal : Goal} {app : RuleApp} {asked new : List GoalId}

/-- **The proofs that applications of their rules lead to**, and the goals that were asked for an
application since they came about. It does not matter where the applications come from. -/
inductive Worked (root : Sequent) (rules : List Rule) (settings : Settings) :
    Proof → List GoalId → Prop where
  /-- the root is the only goal -/
  | start : Worked root rules settings (start root rules (.ofSettings settings)) []
  /-- a goal is asked for its next application -/
  | ask {p : Proof} {asked : List GoalId} (h : Worked root rules settings p asked) (g : GoalId) :
      Worked root rules settings (p.nextApp g).2 (g :: asked)
  /-- an application is made, and new goals come about -/
  | made {p q : Proof} {asked new : List GoalId} {g : GoalId} {app : RuleApp}
      (h : Worked root rules settings p asked) (hrule : app.rule ∈ p.base.rules)
      (hformed : app.Formed) (happly : p.apply g app = (.ok new, q)) :
      Worked root rules settings q (asked.filter (· ∉ new))
  /-- an application cannot be made -/
  | failed {p q : Proof} {asked : List GoalId} {g : GoalId} {app : RuleApp} {e : ProofError}
      (h : Worked root rules settings p asked) (happly : p.apply g app = (.error e, q)) :
      Worked root rules settings q asked

theorem Worked.reached (h : Worked root rules settings p asked) :
    Reached root rules (.ofSettings settings) p := by
  induction h with
  | start => exact .start
  | ask _ g ih => exact ih.ask g
  | @made p q _ _ g app _ _ _ happly ih =>
    have hreached := ih.apply g app
    rwa [happly] at hreached
  | @failed p q _ g app _ _ happly ih =>
    have hreached := ih.apply g app
    rwa [happly] at hreached

/-- What a goal hands out is one of the applications that may be made. -/
theorem Worked.made_of_nextApp (h : Worked root rules settings p asked)
    (happ : (p.nextApp g).1 = some app) (happly : (p.nextApp g).2.apply g app = (.ok new, q)) :
    Worked root rules settings q ((g :: asked).filter (· ∉ new)) := by
  obtain ⟨goal, hgoal⟩ : ∃ goal, p.goal? g = some goal := by
    rcases nextApp_cases p g with hnone | ⟨goal, -, hgoal, -⟩
    · rw [hnone] at happ
      cases happ
    · exact ⟨goal, hgoal⟩
  obtain ⟨found, -, hfinds, hdone⟩ := h.reached.completes hgoal happ
  have hrule := hfinds.rule_eq hdone
  obtain ⟨rule, hmem, σ, focus, rfl⟩ := hfinds.exists_ofMatch
  refine (h.ask g).made ?_ (RuleApp.Formed.completions (.ofMatch rule σ focus) hdone) happly
  rw [hrule, (nextApp_keeps p g).1, h.reached.base_eq]
  exact hmem

/-- A goal on which an application is made is open. -/
theorem exists_goal_of_apply (happly : p.apply g app = (.ok new, q)) :
    ∃ goal, p.goal? g = some goal := by
  cases hgoal : p.goal? g with
  | none =>
    rw [Proof.apply, hgoal] at happly
    cases happly
  | some goal => exact ⟨goal, rfl⟩

/-- A step that fails leaves the goals as they are. -/
theorem goal?_of_apply_error {e : ProofError} (happly : p.apply g app = (.error e, q))
    (k : GoalId) :
    q.goal? k = p.goal? k := by
  cases hgoal : p.goal? g with
  | none =>
    rw [Proof.apply, hgoal] at happly
    cases happly
    rfl
  | some goal =>
    obtain ⟨_, names, -, -, rfl⟩ := apply_eq_error hgoal happly
    rfl

/-- **The applications on a branch are complete applications of the rules.** -/
theorem Worked.madeFrom (h : Worked root rules settings p asked) (hgoal : p.goal? g = some goal) :
    goal.trail.MadeFrom (.ofRules rules) := by
  induction h generalizing g goal with
  | start =>
    obtain ⟨-, rfl⟩ := goal?_start root rules (.ofSettings settings) hgoal
    exact fun done hdone => (nomatch hdone)
  | ask _ k ih =>
    obtain ⟨goal, hold, -, queue, rfl⟩ := goal_of_nextApp hgoal
    have hmade := ih hold
    exact hmade
  | @made p q asked new k app h hrule hformed happly ih =>
    obtain ⟨leaf, hleaf⟩ := exists_goal_of_apply happly
    obtain ⟨succs, hexec⟩ := execute_of_apply hleaf happly
    have hadvances := advances_of_apply h.reached.tree hleaf happly
    rcases hadvances.goal_cases hgoal with hnew | ⟨-, -, hold⟩
    · obtain ⟨node, s, -, hsuccessor⟩ := hadvances.successor g hnew
      cases hgoal.symm.trans hsuccessor
      exact List.forall_mem_cons.mpr
        ⟨⟨h.reached.base_eq ▸ hrule, hformed, (RuleApp.execute_spec hexec).1⟩, ih hleaf⟩
    · exact ih hold
  | failed _ happly ih => exact ih ((goal?_of_apply_error happly g).symm.trans hgoal)

/-- **The queue of a goal that was not asked holds all that is offered for it.** -/
theorem Worked.queue_eq (h : Worked root rules settings p asked) (hgoal : p.goal? g = some goal)
    (hasked : g ∉ asked) : goal.queue.get = goal.offered (.ofSettings settings) := by
  induction h generalizing g goal with
  | start =>
    obtain ⟨-, rfl⟩ := goal?_start root rules (.ofSettings settings) hgoal
    rfl
  | ask _ k ih =>
    obtain ⟨hne, hasked⟩ := List.ne_and_not_mem_of_not_mem_cons hasked
    exact ih ((goal?_nextApp_of_ne hne).symm.trans hgoal) hasked
  | @made p q asked new k app h hrule hformed happly ih =>
    obtain ⟨leaf, hleaf⟩ := exists_goal_of_apply happly
    have hadvances := advances_of_apply h.reached.tree hleaf happly
    rcases hadvances.goal_cases hgoal with hnew | ⟨hnotNew, -, hold⟩
    · obtain ⟨node, s, -, hsuccessor⟩ := hadvances.successor g hnew
      cases hgoal.symm.trans hsuccessor
      rw [← h.reached.strategy_eq]
      rfl
    · exact ih hold fun hmem => hasked (List.mem_filter.mpr ⟨hmem, by simpa using hnotNew⟩)
  | failed _ happly ih => exact ih ((goal?_of_apply_error happly g).symm.trans hgoal) hasked

/-! ## Asking a goal again and again -/

/-- **What a goal hands out** if it is asked until it has nothing left. -/
inductive HandsOut (g : GoalId) : Proof → List RuleApp → Prop where
  /-- there is nothing left -/
  | nothing {p : Proof} (h : (p.nextApp g).1 = none) : HandsOut g p []
  /-- an application is handed out, and the goal is asked again -/
  | next {p : Proof} {app : RuleApp} {apps : List RuleApp} (h : (p.nextApp g).1 = some app)
      (hrest : HandsOut g (p.nextApp g).2 apps) : HandsOut g p (app :: apps)

/-- **A goal hands out its queue** if the strategy approves of all entries. -/
theorem handsOut_of_approves (hgoal : p.goal? g = some goal)
    (happroves : ∀ e ∈ goal.queue.get.entries, p.strategy.approves goal.context e.2) :
    HandsOut g p (goal.queue.get.entries.map (·.2)) := by
  generalize hentries : goal.queue.get.entries = entries
  induction entries generalizing p goal with
  | nil =>
    refine .nothing ?_
    rw [nextApp_of_approves hgoal happroves, Goal.peek?, Queue.peek?, hentries]
    rfl
  | cons e rest ih =>
    have hnext := nextApp_of_approves hgoal happroves
    have hrest : (p.nextApp g).2.goal? g =
        some { goal with queue := .pure goal.queue.get.tail } := by
      rw [hnext]
      exact (IdTable.get?_insert ..).trans (if_pos rfl)
    have htail : goal.queue.get.tail.entries = rest := by
      rw [Queue.tail, hentries]
      rfl
    refine .next ?_ (ih hrest (fun e' he' => ?_) htail)
    · rw [hnext, Goal.peek?, Queue.peek?, hentries]
      rfl
    · rw [(nextApp_keeps p g).2.1]
      exact happroves e' (List.mem_of_mem_tail he')

/-- **A goal that was not asked yet hands out all that could be offered, in the order of the
costs.** These are the completions of finite cost of the matches of automatic rules in its index,
cheaper ones first and those of equal cost in the order of the index. A match that the strategy
rejects has no completion of finite cost, and no completion of finite cost is rejected when it is
due. -/
theorem Worked.handsOut_sorted (hrules : ∀ r ∈ rules, r.Accepted)
    (h : Worked root rules settings p asked) (hgoal : p.goal? g = some goal) (hasked : g ∉ asked) :
    (∃ sorted, HandsOut g p (sorted.map (·.2)) ∧
      Queue.Sorts ((Strategy.ofSettings settings).allOffers goal.context goal.index goal.sequent)
        sorted) ∧
    (∀ app ∈ goal.index.apps, ((Strategy.ofSettings settings).cost goal.context app).isTop →
      ∀ c ∈ app.completions goal.sequent,
        ((Strategy.ofSettings settings).cost goal.context c).isTop) ∧
    ∀ e ∈ (Strategy.ofSettings settings).allOffers goal.context goal.index goal.sequent,
      (Strategy.ofSettings settings).approves goal.context e.2 := by
  have hindex := (h.reached.stocked hgoal).index
  have hmade : goal.context.trail.MadeFrom (.ofRules rules) := h.madeFrom hgoal
  have hoffers := Strategy.offers_eq_allOffers settings hrules hmade hindex goal.sequent
  have happroves : ∀ e ∈ (Strategy.ofSettings settings).allOffers goal.context
      goal.index goal.sequent,
      (Strategy.ofSettings settings).approves goal.context e.2 := by
    rintro ⟨cost, c⟩ he
    rw [← hoffers] at he
    obtain ⟨-, -, -, -, -, happroves⟩ := Strategy.mem_offers_ofSettings.mp he
    exact happroves
  refine ⟨⟨_, handsOut_of_approves hgoal fun e he => ?_, ?_⟩,
    fun app happ htop c hc => ?_, happroves⟩
  · rw [h.queue_eq hgoal hasked, Goal.offered, Queue.fill, List.mem_mergeSort, hoffers] at he
    rw [h.reached.strategy_eq]
    exact happroves e he
  · rw [h.queue_eq hgoal hasked, Goal.offered, hoffers]
    exact Queue.sorts_fill _
  · by_contra hfinite
    have happroved := Strategy.isTop_cost_ofSettings.mp (Bool.eq_false_iff.mpr hfinite)
    have happ := Strategy.approves_of_mem_completions settings hrules hmade
        (hindex app happ) hc happroved
    rw [← Strategy.isTop_cost_ofSettings, htop] at happ
    cases happ

/-- Notes what is assumed on the other side as well. -/
private def noting : RuleDraft where
  name := "noting"
  ruleSets := ["alpha"]
  find := .antec (.schema (Calculus.formulaVar "#phi"))
  templates := [{ add := { succ := [.neg (.schema (Calculus.formulaVar "#phi"))] } }]

/-- `!p, !q ==>` -/
private def twoFacts : Sequent where
  antec := [⟨.neg (.atom "p"), rfl⟩, ⟨.neg (.atom "q"), rfl⟩]

/-- A proof attempt with the rule. -/
private def unnoted : Proof := start twoFacts (RuleDraft.acceptAll [noting]) (.ofSettings {})

/-- After a step on `!p`, the rule still matches both formulas. The match of `!p` is rejected, since
it was made before, and what is left is handed out. -/
theorem handsOut_sorted_noting : ∃ q goal sorted,
    Worked twoFacts (RuleDraft.acceptAll [noting]) {} q [] ∧ q.goal? 0 = some goal ∧
    goal.trail.length = 1 ∧ goal.index.apps.length = 2 ∧
    (goal.index.apps.any fun app => ((Strategy.ofSettings {}).cost goal.context app).isTop) ∧
    ((Strategy.ofSettings {}).allOffers goal.context goal.index goal.sequent).length = 1 ∧
    HandsOut 0 q (sorted.map (·.2)) ∧
    Queue.Sorts ((Strategy.ofSettings {}).allOffers goal.context goal.index goal.sequent)
      sorted := by
  have hrun : (unnoted.nextApp 0).1.any fun app =>
      decide (((unnoted.nextApp 0).2.apply 0 app).1.toOption = some [0]) &&
      (((unnoted.nextApp 0).2.apply 0 app).2.goal? 0).any fun goal => goal.trail.length == 1 &&
        goal.index.apps.length == 2 &&
        (goal.index.apps.any fun app => ((Strategy.ofSettings {}).cost goal.context app).isTop) &&
        ((Strategy.ofSettings {}).allOffers goal.context goal.index goal.sequent).length == 1 := by
    cbv
  obtain ⟨app, happ, hstep⟩ := (Option.any_eq_true _ _).mp hrun
  obtain ⟨hmade, hgoals⟩ := Bool.and_eq_true_iff.mp hstep
  obtain ⟨goal, hgoal, htests⟩ := (Option.any_eq_true _ _).mp hgoals
  simp only [Bool.and_eq_true, beq_iff_eq] at htests
  obtain ⟨⟨⟨htrail, hsize⟩, htop⟩, hoffers⟩ := htests
  have happly : (unnoted.nextApp 0).2.apply 0 app =
      (.ok [0], ((unnoted.nextApp 0).2.apply 0 app).2) := by
    refine Prod.ext ?_ rfl
    have hnew := of_decide_eq_true hmade
    generalize ((unnoted.nextApp 0).2.apply 0 app).1 = result at hnew
    cases result with
    | error e => cases hnew
    | ok new => exact congrArg Except.ok (Option.some.inj hnew)
  have hstart : Worked twoFacts (RuleDraft.acceptAll [noting]) {} unnoted [] := .start
  have hworked := hstart.made_of_nextApp happ happly
  obtain ⟨⟨sorted, hhands, hsorts⟩, -⟩ := hworked.handsOut_sorted
    (fun r hr => RuleDraft.accepted_of_mem_acceptAll hr) hgoal (by decide)
  exact ⟨_, goal, sorted, hworked, hgoal, htrail, hsize, htop, hoffers, hhands, hsorts⟩

end Proof

end SequentSearch
