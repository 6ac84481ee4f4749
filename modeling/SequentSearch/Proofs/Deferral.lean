import Mathlib
import SequentSearch.Proofs.Rounds
import SequentSearch.Proofs.StepLimits
import SequentSearch.Proofs.Turns

/-!
# Putting off denied goals

A balanced chooser puts off a goal that the stop condition denies, and hands it out when it comes up
again. To put off a goal it moves the first goal of the list to the end. The goal that came up need
not be the first one, as goals come up from what is left of a pass over the list. So a denied goal
can come up again before others have come up at all, and then it is handed out although another one
**may proceed** (`Searcher.exists_ends_at_denied`).

What can be relied on is said by the **order** in which goals come up (`DepthFirst.order`): what is
left of this pass, and then the list, moved on by as many places. A goal that may proceed, or
another one that does, is handed out in each of these cases
(`Balanced.Play.exists_next_mayProceed`).

* The call begins a round.
* The goal is owed a step.
* Before the goal comes up, no denied goal comes up twice, or another goal is still owed a step; and
  the next step of the goal is not significant, or by then all others have taken the steps that they
  were owed.

The answers of a stop condition can be spoken of without saying when it is asked, since its answer
about a goal does not depend on what it was asked before (`StopCondition.allows_probed`).
-/

namespace SequentSearch

/-! ## Answers -/

namespace StepLimit

variable {l l' : StepLimit} {p : Proof} {g k : GoalId} {goal : Goal} {allowed : Bool}

/-- The answer about a goal: what was decided for its node, or whether there are steps left for
it. -/
theorem allows_eq (hgoal : p.goal? g = some goal) : (l.allows p g).1 =
    (!goal.peek?.any l.significance.holds ||
      (l.decided.get? goal.node).getD (decide (l.executedOn g < l.limit))) := by
  rw [allows, hgoal]
  simp only
  cases hsignificant : goal.peek?.any l.significance.holds with
  | false => rfl
  | true =>
    rw [if_pos rfl]
    cases l.decided.get? goal.node with
    | some allowed => rfl
    | none =>
      by_cases hlt : l.executedOn g < l.limit <;> simp [decideAt, hlt]

/-- Asking again about a goal gives the same answer. -/
theorem Answers.allows_again (h : Answers l p g allowed l') (hgoal : p.goal? g = some goal) :
    (l'.allows p g).1 = allowed := by
  rw [allows_eq hgoal]
  cases h with
  | free hfree => rw [hfree goal hgoal, Bool.not_false, Bool.true_or]
  | again hk hsignificant hdecided =>
    cases hgoal.symm.trans hk
    simp [hsignificant, hdecided]
  | counted hk _ _ _ =>
    cases hgoal.symm.trans hk
    simp
  | refused hk hsignificant _ =>
    cases hgoal.symm.trans hk
    simp [hsignificant]

/-- Asking about another goal changes no answer about a goal, as the two are at different nodes. -/
theorem Answers.allows_of_ne (h : Answers l p k allowed l') (htree : p.Tree)
    (hgoal : p.goal? g = some goal) (hne : g ≠ k) : (l'.allows p g).1 = (l.allows p g).1 := by
  have hnode : ∀ {goal'}, p.goal? k = some goal' → goal.node ≠ goal'.node :=
    fun hgoal' heq => hne (htree.goal_inj g k _ _ hgoal hgoal' heq)
  rw [allows_eq hgoal, allows_eq hgoal]
  cases h with
  | free _ => rfl
  | again _ _ _ => rfl
  | counted hk _ _ _ => rw [executedOn_insert, if_neg hne, IdTable.get?_insert, if_neg (hnode hk)]
  | refused hk _ _ =>
    rw [IdTable.get?_insert, if_neg (hnode hk)]
    rfl

theorem allows_allows (htree : p.Tree) (l : StepLimit) (k g : GoalId) :
    ((l.allows p k).2.allows p g).1 = (l.allows p g).1 := by
  have hanswers := answers_allows l p k
  cases hgoal : p.goal? g with
  | none => simp [allows, hgoal]
  | some goal =>
    by_cases hne : g = k
    · subst hne
      exact hanswers.allows_again hgoal
    · exact hanswers.allows_of_ne htree hgoal hne

end StepLimit

namespace StopCondition

variable {p : Proof} {stop stop' : StopCondition} {g : GoalId}

/-- A compound allows what both parts allow. -/
theorem allows_both (first second : StopCondition) (d s : Option Part) (p : Proof) (g : GoalId)
    (b : Budget) :
    ((both first second d s).allows p g b).1 =
      ((first.allows p g b).1 && (second.allows p g b).1) := by
  rw [allows]
  rcases first.allows p g b with ⟨_ | _, first'⟩
  · rfl
  · rcases second.allows p g b with ⟨_ | _, second'⟩ <;> rfl

theorem allows_allows (htree : p.Tree) (stop : StopCondition) (k g : GoalId) (b : Budget) :
    ((stop.allows p k b).2.allows p g b).1 = (stop.allows p g b).1 := by
  induction stop with
  | budget => rfl
  | stepLimit s => exact s.allows_allows htree k g
  | both first second d s ihfirst ihsecond =>
    rw [allows_both, ← ihfirst, allows]
    rcases first.allows p k b with ⟨_ | _, first'⟩
    · exact allows_both ..
    · rw [← ihsecond]
      rcases second.allows p k b with ⟨_ | _, second'⟩ <;> exact allows_both ..

/-- **What a stop condition answers about a goal does not depend on what it was asked before.** -/
theorem allows_probed (htree : p.Tree) (h : Probed p stop stop') (g : GoalId) :
    (stop'.allows p g .probe).1 = (stop.allows p g .probe).1 := by
  induction h with
  | refl => rfl
  | tail _ hask ih =>
    obtain ⟨k, rfl⟩ := hask
    exact (allows_allows htree _ k g .probe).trans ih

end StopCondition

/-! ## The order in which goals come up -/

namespace DepthFirst

variable {p : Proof} {c : DepthFirst} {g : GoalId} {l : List GoalId}

/-- **The order in which goals come up** as long as each of them is put off: what is left of this
pass over the list, and then the list, which has been moved on by one place for each of them. -/
def order (p : Proof) (c : DepthFirst) : List GoalId :=
  c.pending.filter p.isAutomatic ++
    (c.selected.rotate (c.pending.filter p.isAutomatic).length).filter p.isAutomatic

theorem mem_order (hg : g ∈ c.selected) (hauto : p.isAutomatic g) : g ∈ c.order p :=
  List.mem_append_right _ (List.mem_filter.mpr ⟨List.mem_rotate.mpr hg, hauto⟩)

theorem length_order_le (h : c.pending.Subperm c.selected) :
    (c.order p).length ≤ 2 * c.selected.length := by
  have hpending := (List.length_filter_le p.isAutomatic c.pending).trans h.length_le
  have hselected := List.length_filter_le p.isAutomatic
    (c.selected.rotate (c.pending.filter p.isAutomatic).length)
  rw [List.length_rotate] at hselected
  rw [order, List.length_append]
  omega

theorem rotate_eq (c : DepthFirst) : c.rotate = { c with selected := c.selected.rotate 1 } := by
  rcases c with ⟨_ | ⟨g, rest⟩, pending⟩
  · rfl
  · rw [rotate, List.rotate_cons_succ, List.rotate_zero]

/-- Goals that cannot be worked on do not come up. -/
theorem filter_dropWhile (p : Proof) (l : List GoalId) :
    (l.dropWhile (!p.isAutomatic ·)).filter p.isAutomatic = l.filter p.isAutomatic := by
  conv_rhs =>
    rw [← List.takeWhile_append_dropWhile (p := (!p.isAutomatic ·)) (l := l), List.filter_append]
  have hnone : (l.takeWhile (!p.isAutomatic ·)).filter p.isAutomatic = [] := by
    refine List.filter_eq_nil_iff.mpr fun g hg => ?_
    simpa using List.mem_takeWhile_imp hg
  rw [hnone, List.nil_append]

theorem filter_of_dropWhile {rest : List GoalId} (h : l.dropWhile (!p.isAutomatic ·) = g :: rest) :
    l.filter p.isAutomatic = g :: rest.filter p.isAutomatic := by
  have hhead := List.head?_dropWhile_not (!p.isAutomatic ·) l
  rw [h] at hhead
  rw [← filter_dropWhile, h, List.filter_cons_of_pos (by simpa using hhead)]

/-- **The first goal of the order comes up next**, and then the others, if it is put off. -/
theorem next_of_order (h : c.order p = g :: l) :
    ∃ rest, c.next p = (some g, { c with pending := rest }) ∧
    l <+: (rotate { c with pending := rest }).order p := by
  rw [next]
  cases hpending : c.pending.dropWhile (!p.isAutomatic ·) with
  | cons g' rest =>
    -- the pass goes on, and the list that comes after it is moved on by one of the places
    have hfilter := filter_of_dropWhile hpending
    rw [order, hfilter, List.cons_append, List.cons.injEq] at h
    obtain ⟨rfl, rfl⟩ := h
    refine ⟨rest, rfl, ?_⟩
    rw [rotate_eq, order, List.rotate_rotate, Nat.add_comm 1]
    exact List.prefix_rfl
  | nil =>
    -- a pass begins, and the rest of it is what comes after the goal
    have hnone : c.pending.filter p.isAutomatic = [] := by
      rw [← filter_dropWhile, hpending, List.filter_nil]
    rw [order, hnone, List.nil_append, List.length_nil, List.rotate_zero] at h
    cases hselected : c.selected.dropWhile (!p.isAutomatic ·) with
    | nil =>
      rw [← filter_dropWhile, hselected] at h
      cases h
    | cons g' rest =>
      rw [filter_of_dropWhile hselected, List.cons.injEq] at h
      obtain ⟨rfl, rfl⟩ := h
      refine ⟨rest, by simp only, ?_⟩
      rw [rotate_eq, order]
      exact List.prefix_append ..

end DepthFirst

/-! ## Looking for a goal -/

namespace Balanced

variable {p : Proof} {stop : StopCondition} {c : Balanced} {g : GoalId} {fuel : Nat}
  {denied before : List GoalId} {first : Option GoalId} {inner : DepthFirst}

/-- **A goal may proceed** if its next step is not significant, or if the stop condition allows
it. -/
def MayProceed (p : Proof) (stop : StopCondition) (c : Balanced) (g : GoalId) : Prop :=
  c.significance.atGoal p g = false ∨ (stop.allows p g .probe).1

/-- Under a limit on the steps that count for the chooser, the goals that may proceed are those that
are allowed. -/
theorem mayProceed_stepLimit {l : StepLimit} (hl : l.significance = c.significance) :
    c.MayProceed p (.stepLimit l) g ↔ (l.allows p g).1 := by
  refine ⟨fun h => h.elim (fun hfree => ?_) id, .inr⟩
  rw [Significance.atGoal, Proof.peek?, ← hl] at hfree
  rw [StepLimit.allows]
  cases hgoal : p.goal? g with
  | none => rfl
  | some goal =>
    rw [hgoal, Option.bind_some] at hfree
    simp [hfree]

theorem mayProceed_probed {stop' : StopCondition} (htree : p.Tree)
    (hprobed : StopCondition.Probed p stop stop') :
    c.MayProceed p stop' g ↔ c.MayProceed p stop g := by
  rw [MayProceed, MayProceed, StopCondition.allows_probed htree hprobed]

/-- **What becomes of a goal that comes up.** -/
inductive Looks (p : Proof) (fuel : Nat) (denied : List GoalId) (first : Option GoalId)
    (c : Balanced) (stop : StopCondition) (g : GoalId) (inner : DepthFirst) : Prop where
  /-- it may proceed, and is handed out -/
  | handed (hmay : c.MayProceed p stop g)
      (hlook : (look p (fuel + 1) denied first c stop).1 = some g)
  /-- others are owed a step and it is not, so it is put off -/
  | skipped (hsignificant : c.significance.atGoal p g) (howed : g ∉ c.preferred)
      (hothers : c.preferred ≠ []) (hlook : look p (fuel + 1) denied first c stop =
        look p fuel denied (first.or (some g)) { c with inner := inner.rotate } stop)
  /-- it is denied, and put off -/
  | deferred {stop' : StopCondition} (hmay : ¬c.MayProceed p stop g) (hnew : g ∉ denied)
      (hprobed : StopCondition.Probed p stop stop')
      (hlook : look p (fuel + 1) denied first c stop =
        look p fuel (g :: denied) (first.or (some g))
          { c with inner := inner.rotate, preferred := c.preferred.erase g } stop')
  /-- it is denied again, when it is owed a step or no other goal is, and handed out -/
  | again (hmay : ¬c.MayProceed p stop g) (hdenied : g ∈ denied)
      (hdue : g ∈ c.preferred ∨ c.preferred.erase g = [])
      (hlook : (look p (fuel + 1) denied first c stop).1 = some g)

theorem looks_of_next (hnext : c.inner.next p = (some g, inner)) (fuel : Nat) (denied : List GoalId)
    (first : Option GoalId) (stop : StopCondition) : Looks p fuel denied first c stop g inner := by
  have hlook := (rfl : look p (fuel + 1) denied first c stop =
      look p (fuel + 1) denied first c stop)
  conv_rhs at hlook => rw [look]
  simp only [hnext] at hlook
  split at hlook <;> rename_i hsignificant
  · exact .handed (.inl (by simpa using hsignificant)) (congrArg Prod.fst hlook)
  · have hsignificant : c.significance.atGoal p g := by simpa using hsignificant
    split at hlook <;> rename_i hdue
    · have hdue : g ∈ c.preferred ∨ c.preferred.erase g = [] := by simpa using hdue
      have hprobed := stop.probed_allows p g
      rcases hallows : stop.allows p g .probe with ⟨_ | _, stop'⟩ <;>
        simp only [StopCondition.arbiter_allows, hallows] at hlook hprobed
      · have hmay : ¬c.MayProceed p stop g := by simp [MayProceed, hsignificant, hallows]
        split at hlook <;> rename_i hdenied
        · exact .again hmay (by simpa using hdenied) hdue (congrArg Prod.fst hlook)
        · exact .deferred hmay (by simpa using hdenied) hprobed hlook
      · exact .handed (.inr (by rw [hallows])) (congrArg Prod.fst hlook)
    · obtain ⟨howed, hothers⟩ : g ∉ c.preferred ∧ c.preferred.erase g ≠ [] := by simpa using hdue
      rw [List.erase_of_not_mem howed] at hlook hothers
      exact .skipped hsignificant howed hothers hlook

/-- **A goal comes up in time** behind others, when some goals are owed a step and some have been
denied. -/
structure InTime (p : Proof) (stop : StopCondition) (owed denied before : List GoalId)
    (c : Balanced) (g : GoalId) : Prop where
  /-- the others come up, and then the goal -/
  order : before ++ [g] <+: c.inner.order p
  /-- none that may not proceed comes up twice before the goal, unless by then another one is still
  owed a step -/
  once : (∃ k ∈ owed, k ∉ before) ∨ ∀ k, ¬c.MayProceed p stop k →
  before.count k + denied.count k ≤ 1
  /-- the next step of the goal is not significant, or it is owed one, or by then no other goal
  is -/
  due : c.significance.atGoal p g = false ∨ g ∈ owed ∨ owed ⊆ before

section InTime

variable {owed : List GoalId} {x : GoalId} (h : c.InTime p stop owed denied (x :: before) g)
  (horder : before ++ [g] <+: inner.order p)
include h

include horder in
/-- It is still in time when a goal has been put off that is not owed a step. -/
theorem InTime.skip (hx : x ∉ owed) :
    InTime p stop owed denied before { c with inner := inner } g where
  order := horder
  once := by
    rcases h.once with ⟨k, hk, hlast⟩ | hcount
    · exact .inl ⟨k, hk, fun hmem => hlast (.tail x hmem)⟩
    · exact .inr fun k hk => (Nat.add_le_add_right (List.count_le_count_cons ..) _).trans
        (hcount k hk)
  due := by
    refine h.due.imp_right (.imp_right fun hsub k hk => ?_)
    exact (List.mem_cons.mp (hsub hk)).resolve_left fun heq => hx (heq ▸ hk)

include horder in
/-- It is still in time when a goal has been put off that was denied, which is owed no step any
more. -/
theorem InTime.defer {stop' : StopCondition} (htree : p.Tree)
    (hprobed : StopCondition.Probed p stop stop') (hnodup : owed.Nodup) (hne : g ≠ x) :
    InTime p stop' (owed.erase x) (x :: denied) before
      { c with inner := inner, preferred := owed.erase x } g where
  order := horder
  once := by
    rcases h.once with ⟨k, hk, hlast⟩ | hcount
    · refine .inl ⟨k, hnodup.mem_erase_iff.mpr ⟨?_, hk⟩, fun hmem => hlast (.tail x hmem)⟩
      rintro rfl
      exact hlast (.head before)
    · refine .inr fun k hk => ?_
      have hle := hcount k fun hk' => hk ((mayProceed_probed htree hprobed).mpr hk')
      rw [List.count_cons] at hle ⊢
      omega
  due := by
    refine h.due.imp_right (.imp (hnodup.mem_erase_iff.mpr ⟨hne, ·⟩) fun hsub k hk => ?_)
    obtain ⟨hkx, hk'⟩ := hnodup.mem_erase_iff.mp hk
    exact (List.mem_cons.mp (hsub hk')).resolve_left hkx

/-- When no goal is owed a step, a goal that comes up again may proceed. -/
theorem InTime.mayProceed_of_mem (hx : x ∈ denied) (hnil : owed = []) : c.MayProceed p stop x := by
  by_contra hnot
  rcases h.once with ⟨k, hk, -⟩ | hcount
  · rw [hnil] at hk
    cases hk
  · have hle := hcount x hnot
    have hpos := List.count_pos_iff.mpr hx
    rw [List.count_cons_self] at hle
    omega

end InTime

/-- **A goal that may proceed is found** if it comes up in time, or another one before it. A goal
that may not proceed would have to come up for the second time when no goal is owed a step any
more. -/
theorem mayProceed_look (htree : p.Tree) (hmay : c.MayProceed p stop g) (hnodup : c.preferred.Nodup)
    (hdenied : ∀ k ∈ denied, k ∉ c.preferred) (h : c.InTime p stop c.preferred denied before g)
    (hfuel : before.length < fuel) :
    ∃ k, (look p fuel denied first c stop).1 = some k ∧ c.MayProceed p stop k := by
  -- each goal that comes up before it is handed out or put off, and then one less is left
  induction before generalizing c stop denied first fuel with
  | nil =>
    obtain ⟨after, horder⟩ := h.order
    obtain ⟨rest, hnext, -⟩ := DepthFirst.next_of_order horder.symm
    obtain ⟨fuel, rfl⟩ := Nat.exists_eq_add_one_of_ne_zero (Nat.ne_of_gt hfuel)
    cases looks_of_next hnext fuel denied first stop with
    | handed hmay hlook => exact ⟨g, hlook, hmay⟩
    | skipped hsignificant howed hothers _ =>
      rcases h.due with hfree | hg | hsub
      · cases hfree.symm.trans hsignificant
      · exact absurd hg howed
      · exact absurd (List.subset_nil.mp hsub) hothers
    | deferred hnot _ _ _ => exact absurd hmay hnot
    | again hnot _ _ _ => exact absurd hmay hnot
  | cons x before ih =>
    obtain ⟨after, horder⟩ := h.order
    obtain ⟨rest, hnext, hrest⟩ := DepthFirst.next_of_order horder.symm
    have hlater := (List.prefix_append (before ++ [g]) after).trans hrest
    obtain ⟨fuel, rfl⟩ := Nat.exists_eq_add_one_of_ne_zero (Nat.ne_of_gt (Nat.zero_lt_of_lt hfuel))
    have hfuel' : before.length < fuel := Nat.lt_of_succ_lt_succ hfuel
    cases looks_of_next hnext fuel denied first stop with
    | handed hmay hlook => exact ⟨x, hlook, hmay⟩
    | skipped _ howed _ hlook =>
      rw [hlook]
      exact ih hmay hnodup hdenied (h.skip hlater howed) hfuel'
    | @deferred stop' hnot _ hprobed hlook =>
      have hmay' : ∀ k, c.MayProceed p stop' k ↔ c.MayProceed p stop k :=
        fun k => mayProceed_probed htree hprobed
      have hne : g ≠ x := fun heq => hnot (heq ▸ hmay)
      have hdenied' : ∀ k ∈ x :: denied, k ∉ c.preferred.erase x := by
        intro k hk hmem
        obtain ⟨hkx, hk'⟩ := hnodup.mem_erase_iff.mp hmem
        exact hdenied k ((List.mem_cons.mp hk).resolve_left hkx) hk'
      rw [hlook]
      obtain ⟨k, hchosen, hk⟩ := ih
        (c := { c with
          inner := DepthFirst.rotate { c.inner with pending := rest }, preferred :=
            c.preferred.erase x })
        ((hmay' g).mpr hmay) (hnodup.erase x) hdenied'
          (h.defer hlater htree hprobed hnodup hne) hfuel'
      exact ⟨k, hchosen, (hmay' k).mp hk⟩
    | again hnot hmem hdue _ =>
      -- a goal that was denied is not owed a step, so no other goal is
      have howed := hdenied x hmem
      have hnil : c.preferred = [] := List.erase_of_not_mem howed ▸ hdue.resolve_left howed
      exact absurd (h.mayProceed_of_mem hmem hnil) hnot

/-- The goals that are allowed. -/
theorem mem_allowedOf (htree : p.Tree) (goals : List GoalId) (stop : StopCondition) :
    g ∈ (allowedOf p goals stop).1 ↔ g ∈ goals ∧ (stop.allows p g .probe).1 := by
  induction goals generalizing stop with
  | nil => simp [allowedOf]
  | cons k goals ih =>
    have hrest := ih (stop.allows p k .probe).2
    rw [StopCondition.allows_allows htree] at hrest
    cases hallows : (stop.allows p k .probe).1 with
    | false =>
      simp only [allowedOf, StopCondition.arbiter_allows, hallows, Bool.false_eq_true, if_false,
        hrest, List.mem_cons]
      refine and_congr_left fun hg => (or_iff_right ?_).symm
      rintro rfl
      cases hallows.symm.trans hg
    | true =>
      simp only [allowedOf, StopCondition.arbiter_allows, hallows, if_true, List.mem_cons, hrest]
      rw [or_and_right]
      refine or_congr_left (and_iff_left_of_imp ?_).symm
      rintro rfl
      exact hallows

section Next

variable (h : c.Orderly) (htree : p.Tree) (hmay : c.MayProceed p stop g)
include h htree hmay

/-- **The next goal may proceed** if another one comes up in time that may. -/
theorem Orderly.mayProceed_next (htwo : 2 ≤ c.inner.selected.length)
    (hin : c.InTime p stop (c.begun p stop).preferred [] before g) :
    ∃ k, (c.next p stop).1 = some k ∧ c.MayProceed p stop k := by
  obtain ⟨stop', hprobed, hnext⟩ := next_eq_look (p := p) stop htwo
  have hmay' : ∀ k, (c.begun p stop).MayProceed p stop' k ↔ c.MayProceed p stop k := by
    intro k
    rw [mayProceed_probed htree hprobed, MayProceed, significance_begun, MayProceed]
  have hin' : (c.begun p stop).InTime p stop' (c.begun p stop).preferred [] before g := by
    refine ⟨?_, ?_, ?_⟩
    · rw [inner_begun]
      exact hin.order
    · exact hin.once.imp_right fun hcount k hk => hcount k fun hk' => hk ((hmay' k).mpr hk')
    · rw [significance_begun]
      exact hin.due
  have hfuel : before.length < 2 * c.inner.selected.length + 1 := by
    have hle := hin.order.length_le.trans (DepthFirst.length_order_le h.sound)
    rw [List.length_append, List.length_singleton] at hle
    omega
  obtain ⟨k, hchosen, hk⟩ := mayProceed_look htree ((hmay' g).mpr hmay) h.nodup_begun
    (fun k hk => absurd hk List.not_mem_nil) hin' hfuel
  exact ⟨k, hnext ▸ hchosen, (hmay' k).mp hk⟩

/-- A goal that is owed a step comes up in time. -/
theorem Orderly.mayProceed_next_of_owed (htwo : 2 ≤ c.inner.selected.length)
    (hg : g ∈ (c.begun p stop).preferred) :
    ∃ k, (c.next p stop).1 = some k ∧ c.MayProceed p stop k := by
  obtain ⟨hselected, hauto⟩ := h.mem_begun hg
  obtain ⟨before, after, horder, hnot⟩ :=
    List.eq_append_cons_of_mem (DepthFirst.mem_order hselected hauto)
  have hbefore : before ++ [g] <+: c.inner.order p :=
    ⟨after, by rw [horder, List.append_assoc, List.singleton_append]⟩
  exact h.mayProceed_next htree hmay htwo ⟨hbefore, .inl ⟨g, hg, hnot⟩, .inr (.inl hg)⟩

/-- When a round begins, a goal is owed a step that may proceed. -/
theorem Orderly.mayProceed_next_of_done (htwo : 2 ≤ c.inner.selected.length)
    (hselected : g ∈ c.inner.selected) (hauto : p.isAutomatic g) (hdone : c.Done p) :
    ∃ k, (c.next p stop).1 = some k ∧ c.MayProceed p stop k := by
  -- if no goal is allowed then all are owed a step, this one included
  have hbegun := preferred_begun_eq hdone stop
  split at hbegun <;> rename_i hempty
  · refine h.mayProceed_next_of_owed htree hmay htwo ?_
    rw [hbegun, List.mem_eraseDups]
    exact List.mem_filter.mpr ⟨hselected, hauto⟩
  · obtain ⟨k, hk⟩ := List.exists_mem_of_ne_nil _ fun hnil => hempty (List.isEmpty_iff.mpr hnil)
    refine h.mayProceed_next_of_owed htree (.inr ((mem_allowedOf htree _ stop).mp hk).2) htwo ?_
    rw [hbegun, List.mem_eraseDups]
    exact hk

omit htree in
/-- If there is one goal only, then it is the next one. -/
theorem Orderly.mayProceed_next_of_lt (hlt : c.inner.selected.length < 2)
    (hselected : g ∈ c.inner.selected) (hauto : p.isAutomatic g) :
    ∃ k, (c.next p stop).1 = some k ∧ c.MayProceed p stop k := by
  have hone : ∀ k ∈ c.inner.selected, k = g := by
    obtain ⟨k, hk⟩ := List.length_eq_one_iff.mp
      (Nat.le_antisymm (Nat.le_of_lt_succ hlt) (List.length_pos_of_mem hselected))
    rw [hk] at hselected ⊢
    exact fun i hi => (List.mem_singleton.mp hi).trans (List.mem_singleton.mp hselected).symm
  obtain ⟨-, -, hworkable, hnone⟩ := Chooser.chooses_depthFirst h.sound p
  have hnext : (c.next p stop).1 = (c.inner.next p).1 := by rw [Balanced.next, if_pos hlt]
  rw [hnext]
  cases hchosen : (c.inner.next p).1 with
  | none => cases (hnone hchosen g hselected).symm.trans hauto
  | some k => exact ⟨k, rfl, hone k (hworkable k hchosen).1 ▸ hmay⟩

end Next

namespace Play

variable {s : Play} {goals : List GoalId} {events : Nat → Event} {n : Nat}

/-- **A goal that may proceed is not passed over for one that is denied** if the chooser has no
other goals, if a round begins, if the goal is owed a step, or if it comes up in time. A chooser is
given goals. Then it is asked for goals, applications are made, goals are removed, and anything may
be asked of the proof, in any order and as often as one likes. Whenever there is such a goal, the
next goal is one that may proceed, be it this one or another. Under a limit on the steps that count
for the chooser, that is to say that it is allowed. -/
theorem exists_next_mayProceed (hp : p.Attained) (hs : s = (start p c goals).after events n)
    (hg : g ∈ s.chooser.inner.selected) (hauto : s.proof.isAutomatic g)
    (hmay : s.chooser.MayProceed s.proof stop g)
    (hcases : s.chooser.inner.selected.length < 2 ∨ s.chooser.Done s.proof ∨
      g ∈ s.chooser.preferred ∨
      ∃ before, s.chooser.InTime s.proof stop (s.chooser.preferred.filter s.proof.isAutomatic)
        [] before g) :
    ∃ k, (s.chooser.next s.proof stop).1 = some k ∧ s.chooser.MayProceed s.proof stop k ∧
      ∀ l, stop = .stepLimit l → l.significance = s.chooser.significance →
        (l.allows s.proof k).1 := by
  have horderly : s.Orderly :=
    hs ▸ Orderly.after (s := start p c goals) ⟨hp, orderly_select c p goals⟩ events n
  have h := horderly.chooser
  have htree := horderly.attained.inOrder.tree
  suffices hnext : ∃ k, (s.chooser.next s.proof stop).1 = some k ∧
      s.chooser.MayProceed s.proof stop k by
    obtain ⟨k, hchosen, hk⟩ := hnext
    refine ⟨k, hchosen, hk, ?_⟩
    rintro l rfl hl
    exact (mayProceed_stepLimit hl).mp hk
  rcases Nat.lt_or_ge s.chooser.inner.selected.length 2 with hlt | htwo
  · exact h.mayProceed_next_of_lt hmay hlt hg hauto
  by_cases hdone : s.chooser.Done s.proof
  · exact h.mayProceed_next_of_done htree hmay htwo hg hauto hdone
  have howed := preferred_begun_of_not_done hdone stop
  rcases hcases with hlt | hdone' | hpreferred | ⟨before, hin⟩
  · exact absurd hlt (Nat.not_lt.mpr htwo)
  · exact absurd hdone' hdone
  · refine h.mayProceed_next_of_owed htree hmay htwo ?_
    rw [howed]
    exact List.mem_filter.mpr ⟨hpreferred, hauto⟩
  · exact h.mayProceed_next htree hmay htwo (howed ▸ hin)

/-- Make the next application on a goal. -/
private def advanced (p : Proof) (g : GoalId) : Proof :=
  ((p.nextApp g).1.map fun app => p.perform (.apply g app)).getD p

private theorem attained_advanced (hp : p.Attained) (g : GoalId) : (advanced p g).Attained := by
  rw [advanced]
  cases (p.nextApp g).1 with
  | none => exact hp
  | some app => exact hp.perform (.apply g app)

/-- A proof attempt for `(!p | !q) | !r ==>` with the three goals `!p ==>`, `!q ==>` and
`!r ==>`. -/
private def threefold : Proof :=
  let atom (name : String) : Term := .app (.predicate name 0) []
  advanced (advanced (.start (.ofFormulas
    [⟨.disj (.disj (.neg (atom "p")) (.neg (atom "q"))) (.neg (atom "r")), rfl⟩] [])
      Calculus.propositional (.ofSettings {})) 0) 0

/-- A limit of one step that the third goal has made. -/
private def usedUp : StepLimit :=
  { limit := 1, significance := .everyStep, executed := ({} : IdTable Nat).insert 2 1 }

/-- Two goals have been asked for, so the third one is owed a step. It is denied and put off. The
second one comes up in time behind it. -/
theorem exists_next_mayProceed_threefold :
    let s := (start threefold { significance := .everyStep } [0, 1, 2]).after
      (fun _ => .next .budget) 2
    s.chooser.preferred = [2] ∧ s.chooser.inner.order s.proof = [2, 1, 2, 0] ∧
      (usedUp.allows s.proof 2).1 = false ∧
      s.chooser.InTime s.proof (.stepLimit usedUp) [2] [] [2] 1 ∧
      ∃ k, (s.chooser.next s.proof (StopCondition.stepLimit usedUp)).1 = some k ∧
        (usedUp.allows s.proof k).1 := by
  intro s
  have heval : (s.chooser.preferred, s.chooser.preferred.filter s.proof.isAutomatic,
      s.chooser.inner.order s.proof, s.chooser.inner.selected, s.proof.isAutomatic 1,
      (usedUp.allows s.proof 1).1, (usedUp.allows s.proof 2).1) =
        ([2], [2], [2, 1, 2, 0], [0, 1, 2], true, true, false) := by
    cbv
  simp only [Prod.mk.injEq] at heval
  obtain ⟨hpreferred, howed, horder, hselected, hauto, hallowed, hdenied⟩ := heval
  have hin : s.chooser.InTime s.proof (.stepLimit usedUp) [2] [] [2] 1 :=
    ⟨horder ▸ ⟨[2, 0], rfl⟩, .inr fun k _ => List.count_le_length, .inr (.inr (List.Subset.refl _))⟩
  have hmay : s.chooser.MayProceed s.proof (.stepLimit usedUp) 1 := .inr hallowed
  have hsame : s.chooser.significance = usedUp.significance :=
    (Chooser.significance_next ..).trans (Chooser.significance_next ..)
  obtain ⟨k, hchosen, -, hk⟩ := exists_next_mayProceed
    (attained_advanced (attained_advanced (.start ..) 0) 0) (rfl : s = _)
    (hselected ▸ .tail _ (.head _) : 1 ∈ s.chooser.inner.selected) hauto hmay
    (.inr (.inr (.inr ⟨[2], howed ▸ hin⟩)))
  exact ⟨hpreferred, horder, hdenied, hin, k, hchosen, hk usedUp rfl hsame.symm⟩

end Play

end Balanced

/-! ## A search that ends at a denied goal -/

namespace Searcher

/-- `r, (p | !!q) | !r ==>`. -/
private def disjoined : Proof :=
  let atom (name : String) : Term := .app (.predicate name 0) []
  .start (.ofFormulas [⟨atom "r", rfl⟩,
    ⟨.disj (.disj (atom "p") (.neg (.neg (atom "q")))) (.neg (atom "r")), rfl⟩] [])
      Calculus.propositional (.ofSettings {})

/-- The steps that close goals are significant, and none of them is allowed. -/
private def closingDenied : Searcher where
  chooser := .newBalanced (.inRuleSet "closure")
  stop := .significant 0 (.inRuleSet "closure")

/-- The state after so many steps, if the search has not ended by then. -/
private def afterSteps (env : Surroundings) : Nat → Search → Option Search
  | 0, s => some s
  | n + 1, s =>
    match s.step env with
    | (.ok _, t) => afterSteps env n t
    | (.error _, _) => none

private theorem makes_of_afterSteps {env : Surroundings} {n : Nat} {s t : Search}
    (h : afterSteps env n s = some t) : Relation.ReflTransGen (Search.Makes env) s t := by
  induction n generalizing s with
  | zero =>
    cases h
    exact .refl
  | succ n ih =>
    rw [afterSteps] at h
    rcases hstep : s.step env with ⟨_ | made, u⟩ <;> simp only [hstep] at h
    · cases h
    · exact .head ⟨made, hstep⟩ (ih h)

/-- **A denied goal ends the search while another may proceed.** After four steps the goals
`r ==> !q` and `r ==> r` are left, in this order, and the second one is owed a step. It comes up
first and is denied, since its next step would close it. To put it off, the first goal of the list
is moved to the end, so that the denied one is the first. It comes up again, is handed out, and the
search ends there. The next step of the other goal is not significant. -/
theorem exists_ends_at_denied :
    ∃ s, Relation.ReflTransGen (Search.Makes {})
      (closingDenied.begin disjoined { goals := [0], maxSteps := 10 }) s ∧
    s.chooser.selected = [2, 1] ∧ s.proof.isAutomatic 2 ∧
    (Significance.inRuleSet "closure").atGoal s.proof 2 = false ∧
    (s.stop.allows s.proof 2 .probe).1 ∧
    s.nextGoal.1 = some 1 ∧ (Significance.inRuleSet "closure").atGoal s.proof 1 ∧
    (s.stop.allows s.proof 1 .probe).1 = false ∧
    ∃ report d q, closingDenied.start {} disjoined { goals := [0], maxSteps := 10 } =
      some (report, d, q) ∧
      report.ending.goal = some 1 ∧ report.applied = 4 := by
  have hstate : (afterSteps {} 4
      (closingDenied.begin disjoined { goals := [0], maxSteps := 10 })).map (fun s =>
        (s.chooser.selected, s.proof.isAutomatic 2,
        (Significance.inRuleSet "closure").atGoal s.proof 2, (s.stop.allows s.proof 2 .probe).1,
        s.nextGoal.1, (Significance.inRuleSet "closure").atGoal s.proof 1,
        (s.stop.allows s.proof 1 .probe).1)) =
      some ([2, 1], true, false, true, some 1, true, false) := by
    cbv
  have hrun : (closingDenied.start {} disjoined { goals := [0], maxSteps := 10 }).map
      (fun r => (r.1.ending.goal, r.1.applied)) = some (some 1, 4) := by
    cbv
  obtain ⟨s, hs, hstate⟩ := Option.map_eq_some_iff.mp hstate
  obtain ⟨⟨report, d, q⟩, hstart, hrun⟩ := Option.map_eq_some_iff.mp hrun
  simp only [Prod.mk.injEq] at hstate hrun
  obtain ⟨hselected, hauto, hfree, hallowed, hnext, hsignificant, hdenied⟩ := hstate
  exact ⟨s, makes_of_afterSteps hs, hselected, hauto, hfree, hallowed, hnext, hsignificant, hdenied,
    report, d, q, hstart, hrun⟩

end Searcher

end SequentSearch
