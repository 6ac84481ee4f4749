import Mathlib
import SequentSearch.Calculus.Propositional
import SequentSearch.Proofs.AcceptedRules
import SequentSearch.Proofs.Choosing

/-!
# Rounds

A balanced chooser keeps a list of the goals that are **owed** a significant step. When the list is
empty a new round begins, and all goals that automatic search may work on are put into it. In a
round a goal is handed out for a significant step only if it is owed one, and then it is owed none
any more.

So a round is fair, as long as the stop condition has no objections. No goal takes a second
significant step in it, and none is left out when the next round begins, unless it was closed,
removed, or kept from automatic search (`Balanced.rounds_fair`). The latter needs that the chooser
always finds a goal that is owed a step. It looks at the goals that are left in this pass over the
list and then begins another pass, so each goal comes up within two passes (`DepthFirst.ComesUp`).
-/

namespace SequentSearch

/-! ## Looking at goals in order -/

namespace DepthFirst

variable {p : Proof} {c : DepthFirst} {g : GoalId} {fuel : Nat}

/-- **A goal comes up** among the next goals: it is left in this pass over the list, or there is
time for the rest of this pass and for all of the next. -/
def ComesUp (g : GoalId) (fuel : Nat) (c : DepthFirst) : Prop :=
  (g ∈ c.pending ∧ c.pending.length ≤ fuel) ∨ c.pending.length + c.selected.length ≤ fuel

theorem ComesUp.rotate (h : c.ComesUp g fuel) : c.rotate.ComesUp g fuel := by
  rw [ComesUp, pending_rotate, c.selected_rotate.length_eq]
  exact h

theorem ComesUp.pos (h : c.ComesUp g fuel) (hg : g ∈ c.selected) : 0 < fuel := by
  rcases h with ⟨hmem, hle⟩ | hle
  · exact Nat.lt_of_lt_of_le (List.length_pos_of_mem hmem) hle
  · exact Nat.lt_of_lt_of_le (List.length_pos_of_mem hg) (Nat.le_trans (Nat.le_add_left ..) hle)

/-- **The next goal is the one that comes up, or it still comes up after it.** -/
theorem ComesUp.next (h : c.ComesUp g (fuel + 1)) (hg : g ∈ c.selected) (hauto : p.isAutomatic g) :
    ∃ g' rest, c.next p = (some g', { c with pending := rest }) ∧
      (g' = g ∨ ComesUp g fuel { c with pending := rest }) := by
  -- a goal of a list that can be worked on is not dropped with those that cannot
  have hdrop : ∀ l : List GoalId, g ∈ l → ∃ g' rest, l.dropWhile (!p.isAutomatic ·) = g' :: rest ∧
      (g' = g ∨ g ∈ rest) := by
    intro l hl
    rw [← List.takeWhile_append_dropWhile (p := (!p.isAutomatic ·)) (l := l), List.mem_append] at hl
    have hmem : g ∈ l.dropWhile (!p.isAutomatic ·) := by
      refine hl.resolve_left fun htake => ?_
      simpa [hauto] using List.mem_takeWhile_imp htake
    obtain ⟨g', rest, heq⟩ := List.exists_cons_of_ne_nil (List.ne_nil_of_mem hmem)
    rw [heq] at hmem
    exact ⟨g', rest, heq, (List.mem_cons.mp hmem).imp_left Eq.symm⟩
  have hlength : ∀ {l rest : List GoalId} {g' : GoalId},
      l.dropWhile (!p.isAutomatic ·) = g' :: rest → rest.length < l.length := by
    intro l rest g' heq
    have hle := (List.dropWhile_sublist (l := l) (!p.isAutomatic ·)).length_le
    rwa [heq] at hle
  rw [DepthFirst.next]
  cases hpending : c.pending.dropWhile (!p.isAutomatic ·) with
  | cons g' rest =>
    have hlt := hlength hpending
    refine ⟨g', rest, rfl, ?_⟩
    rcases h with ⟨hmem, hle⟩ | hle
    · obtain ⟨_, _, heq, hcases⟩ := hdrop c.pending hmem
      cases hpending.symm.trans heq
      exact hcases.imp_right fun hrest => .inl ⟨hrest, show rest.length ≤ fuel by omega⟩
    · exact .inr (.inr (show rest.length + c.selected.length ≤ fuel by omega))
  | nil =>
    have hle : c.pending.length + c.selected.length ≤ fuel + 1 := by
      refine h.resolve_left fun ⟨hmem, _⟩ => ?_
      obtain ⟨_, _, heq, -⟩ := hdrop c.pending hmem
      cases hpending.symm.trans heq
    obtain ⟨g', rest, heq, hcases⟩ := hdrop c.selected hg
    have hlt := hlength heq
    simp only [heq]
    exact ⟨g', rest, rfl, hcases.imp_right fun hrest =>
      .inl ⟨hrest, show rest.length ≤ fuel by omega⟩⟩

end DepthFirst

/-! ## Probes -/

namespace StopCondition

variable {p : Proof} {stop : StopCondition}

/-- A stop condition after a chooser has asked it about goals, any number of times. -/
def Probed (p : Proof) : StopCondition → StopCondition → Prop :=
  Relation.ReflTransGen fun stop stop' => ∃ g, stop' = (stop.allows p g .probe).2

/-- **A condition that has no objections** to what a chooser asks it, now or after other
questions. -/
def AllowsProbes (p : Proof) (stop : StopCondition) : Prop :=
  ∀ stop', Probed p stop stop' → ∀ g, (stop'.allows p g .probe).1

theorem probed_allows (p : Proof) (stop : StopCondition) (g : GoalId) :
    Probed p stop (stop.allows p g .probe).2 := .single ⟨g, rfl⟩

theorem AllowsProbes.probed {stop' : StopCondition} (h : stop.AllowsProbes p)
    (hprobed : Probed p stop stop') :
    stop'.AllowsProbes p := fun last hlast => h last (hprobed.trans hlast)

theorem AllowsProbes.allows (h : stop.AllowsProbes p) (g : GoalId) :
    ∃ stop', stop.allows p g .probe = (true, stop') ∧ stop'.AllowsProbes p :=
  ⟨_, Prod.ext (h stop .refl g) rfl, h.probed (probed_allows p stop g)⟩

/-- A budget has no objections to probes, as they have no limits. -/
theorem allowsProbes_budget (p : Proof) : AllowsProbes p budget := by
  intro stop' hprobed g
  have heq : stop' = budget := by
    induction hprobed with
    | refl => rfl
    | tail _ hprobe ih =>
      obtain ⟨g, rfl⟩ := hprobe
      rw [ih]
      rfl
  rw [heq]
  rfl

end StopCondition

/-! ## Goals that search may work on -/

namespace Proof

variable {p q : Proof} {g : GoalId}

/-- A step does not keep search from a goal, other than by closing it. -/
theorem isAutomatic_apply (htree : p.Tree) {k : GoalId} {app : RuleApp} (hauto : p.isAutomatic g)
    (hopen : (p.apply k app).2.isOpen g) : (p.apply k app).2.isAutomatic g := by
  cases hk : p.goal? k with
  | none =>
    rw [apply, hk]
    exact hauto
  | some goal =>
    rcases happly : p.apply k app with ⟨_ | new, q⟩ <;> rw [happly] at hopen
    · obtain ⟨-, names, -, -, rfl⟩ := apply_eq_error hk happly
      exact hauto
    · have hadvances := advances_of_apply htree hk happly
      obtain ⟨goal', hg⟩ := isOpen_iff.mp hopen
      obtain ⟨goal₀, hgoal₀, hauto₀⟩ := (Option.any_eq_true _ _).mp hauto
      rcases hadvances.goal_cases hg with hnew | ⟨-, -, hold⟩
      · obtain ⟨node, s, -, hsuccessor⟩ := hadvances.successor g hnew
        have heq : g = k := by
          by_contra hne
          cases hgoal₀.symm.trans (hadvances.fresh g hnew hne)
        cases (heq ▸ hgoal₀).symm.trans hk
        show q.isAutomatic g = true
        rw [isAutomatic, hsuccessor]
        exact hauto₀
      · show q.isAutomatic g = true
        rw [isAutomatic, hg, ← hold]
        exact hauto

/-- **Search is kept from a goal only by a request to do so**, as long as the goal is open. -/
theorem isAutomatic_perform (htree : p.Tree) {r : Request} (hauto : p.isAutomatic g)
    (hopen : (p.perform r).isOpen g) (hr : r ≠ .setAutomatic g false) :
    (p.perform r).isAutomatic g := by
  cases r with
  | apply k app => exact isAutomatic_apply htree hauto hopen
  | applyInteractive k app =>
    rw [perform, applyInteractive] at hopen ⊢
    split at hopen <;> rename_i hinteractive
    · rw [if_pos hinteractive]
      exact isAutomatic_apply htree hauto hopen
    · rw [if_neg hinteractive]
      exact hauto
  | nextApp k =>
    rcases nextApp_cases p k with heq | ⟨goal, queue, hk, -, heq, -⟩
    · rw [perform, heq]
      exact hauto
    · rw [perform, heq, isAutomatic, goal?, IdTable.get?_insert]
      split <;> rename_i hg
      · rwa [isAutomatic, hg, hk] at hauto
      · exact hauto
  | peek k => exact hauto
  | setAutomatic k automatic =>
    rw [perform, setAutomatic]
    split
    · rw [isAutomatic, goal?, IdTable.get?_modify]
      split <;> rename_i hg
      · subst hg
        obtain ⟨goal, hgoal, -⟩ := (Option.any_eq_true _ _).mp hauto
        cases automatic with
        | false => exact absurd rfl hr
        | true =>
          rw [show p.goals.get? g = some goal from hgoal]
          rfl
      · exact hauto
    · exact hauto
  | setStrategy strategy =>
    rw [perform, setStrategy, isAutomatic, goal?, IdTable.get?_map, Option.any_map]
    exact hauto

end Proof

/-! ## A round -/

namespace Balanced

variable {p : Proof} {stop stop' : StopCondition} {c c' : Balanced} {g : GoalId}
  {chosen : Option GoalId} {fuel : Nat} {denied owed : List GoalId} {first : Option GoalId}
  {significance : Significance}

/-- **What the chooser hands out in a round, and who is owed a step after it.** -/
inductive Hands (p : Proof) (significance : Significance) (owed : List GoalId) :
    Option GoalId → List GoalId → Prop where
  /-- there is nothing to hand out -/
  | nothing (hnone : owed = []) : Hands p significance owed none owed
  /-- the next step of the goal is not significant -/
  | free {g : GoalId} (hfree : significance.atGoal p g = false) :
      Hands p significance owed (some g) owed
  /-- the goal takes the step that it is owed -/
  | due {g : GoalId} (hsignificant : significance.atGoal p g) (hg : g ∈ owed) :
      Hands p significance owed (some g) (owed.erase g)

theorem Hands.sublist {owed' : List GoalId} (h : Hands p significance owed chosen owed') :
    owed'.Sublist owed := by
  cases h with
  | nothing _ => exact .refl _
  | free _ => exact .refl _
  | due _ _ => exact List.erase_sublist

theorem Hands.due_of_significant {owed' : List GoalId}
    (h : Hands p significance owed (some g) owed') (hsignificant : significance.atGoal p g) :
    g ∈ owed ∧ owed' = owed.erase g := by
  cases h with
  | free hfree => cases hfree.symm.trans hsignificant
  | due _ hg => exact ⟨hg, rfl⟩

/-- A goal that is not handed out is still owed its step. -/
theorem Hands.mem_of_mem {owed' : List GoalId} (h : Hands p significance owed chosen owed')
    (hg : g ∈ owed) (hnot : ¬(chosen = some g ∧ significance.atGoal p g)) : g ∈ owed' := by
  cases h with
  | nothing _ => exact hg
  | free _ => exact hg
  | due hsignificant _ =>
    refine (List.mem_erase_of_ne ?_).mpr hg
    rintro rfl
    exact hnot ⟨rfl, hsignificant⟩

/-- **Looking for a goal finds one that is owed a step**, unless one comes first whose step is not
significant. -/
theorem hands_look (hallows : stop.AllowsProbes p) (hg : g ∈ c.preferred)
    (hselected : g ∈ c.inner.selected) (hauto : p.isAutomatic g) (hup : c.inner.ComesUp g fuel)
    (hlook : look p fuel denied first c stop = (chosen, c', stop')) :
    Hands p c.significance c.preferred chosen c'.preferred := by
  induction fuel generalizing denied first c with
  | zero => exact absurd (hup.pos hselected) (Nat.lt_irrefl 0)
  | succ fuel ih =>
    obtain ⟨g', rest, hnext, hcases⟩ := hup.next hselected hauto
    rw [look] at hlook
    simp only [hnext] at hlook
    split at hlook <;> rename_i hsignificant
    · cases hlook
      exact .free (by simpa using hsignificant)
    · by_cases hmem : g' ∈ c.preferred
      · obtain ⟨stop₁, hallowed, -⟩ := hallows.allows g'
        simp only [List.contains_iff_mem.mpr hmem, Bool.true_or, if_true,
          StopCondition.arbiter_allows, hallowed] at hlook
        cases hlook
        exact .due (by simpa using hsignificant) hmem
      · -- the goal is not owed a step but another one is, so it is put off
        have hothers : (c.preferred.contains g' || c.preferred.isEmpty) = false := by
          rw [List.contains_eq_mem, decide_eq_false hmem,
            List.isEmpty_eq_false_iff_exists_mem.mpr ⟨g, hg⟩]
          rfl
        have hne : g' ≠ g := fun heq => hmem (heq ▸ hg)
        simp only [List.erase_of_not_mem hmem, hothers, Bool.false_eq_true, if_false] at hlook
        refine ih (c := { c with inner := .rotate { c.inner with pending := rest } }) hg ?_
          (hcases.resolve_left hne).rotate hlook
        exact (DepthFirst.selected_rotate { c.inner with pending := rest }).mem_iff.mpr hselected

/-- All goals are allowed by a condition that has no objections. -/
theorem allowedOf_eq (hallows : stop.AllowsProbes p) (goals : List GoalId) :
    (allowedOf p goals stop).1 = goals := by
  induction goals generalizing stop with
  | nil => rfl
  | cons g goals ih =>
    obtain ⟨stop', hallowed, hallows'⟩ := hallows.allows g
    simp only [allowedOf, StopCondition.arbiter_allows, hallowed, if_true]
    exact congrArg (g :: ·) (ih hallows')

/-- Only goals of the list are allowed. -/
theorem allowedOf_sublist (goals : List GoalId) (stop : StopCondition) :
    (allowedOf p goals stop).1.Sublist goals := by
  induction goals generalizing stop with
  | nil => exact .refl _
  | cons g goals ih =>
    simp only [allowedOf]
    split
    · exact (ih _).cons_cons g
    · exact (ih _).cons g

theorem probed_allowedOf (p : Proof) (goals : List GoalId) (stop : StopCondition) :
    StopCondition.Probed p stop (allowedOf p goals stop).2 := by
  induction goals generalizing stop with
  | nil => exact .refl
  | cons g goals ih => exact .trans (stop.probed_allows p g) (ih _)

/-- The chooser when it begins to look for the next goal: goals that automatic search may not work
on are owed nothing, and if that leaves none then a new round has begun. -/
def begun (p : Proof) (stop : StopCondition) (c : Balanced) : Balanced :=
  (({ c with preferred := c.preferred.filter p.isAutomatic } : Balanced).refill p stop).1

/-- **The next goal begins a round** if no goal is owed a step that automatic search may work on. -/
def Done (p : Proof) (c : Balanced) : Prop := c.preferred.filter p.isAutomatic = []

/-- In the middle of a round. -/
theorem preferred_begun_of_not_done (h : ¬c.Done p) (stop : StopCondition) :
    (c.begun p stop).preferred = c.preferred.filter p.isAutomatic := by
  rw [begun, refill, if_neg]
  exact fun hempty => h (List.isEmpty_iff.mp hempty)

/-- When a round begins: the goals that are allowed are owed a step, or all if none is. -/
theorem preferred_begun_eq (h : c.Done p) (stop : StopCondition) :
    (c.begun p stop).preferred =
      (if (allowedOf p (c.inner.selected.filter p.isAutomatic) stop).1.isEmpty
        then c.inner.selected.filter p.isAutomatic
        else (allowedOf p (c.inner.selected.filter p.isAutomatic) stop).1).eraseDups := by
  rw [begun, refill, if_pos (List.isEmpty_iff.mpr h)]

theorem preferred_begun_of_done (hallows : stop.AllowsProbes p) (h : c.Done p) :
    (c.begun p stop).preferred = (c.inner.selected.filter p.isAutomatic).eraseDups := by
  rw [preferred_begun_eq h, allowedOf_eq hallows, ite_self]

/-- If no goal is owed a step then there is none that automatic search may work on. -/
theorem isAutomatic_of_begun_eq_nil (hallows : stop.AllowsProbes p)
    (hnil : (c.begun p stop).preferred = []) :
    ∀ g ∈ c.inner.selected, p.isAutomatic g = false := by
  have hdone : c.Done p := by
    by_contra hnot
    exact hnot ((preferred_begun_of_not_done hnot stop).symm.trans hnil)
  rw [preferred_begun_of_done hallows hdone] at hnil
  intro g hg
  by_contra hauto
  have hmem := List.mem_eraseDups.mpr (List.mem_filter.mpr ⟨hg, Bool.eq_true_of_not_eq_false hauto⟩)
  rw [hnil] at hmem
  cases hmem

/-- While the chooser looks for a goal, nobody comes to be owed a step. -/
theorem preferred_look_sublist :
    (look p fuel denied first c stop).2.1.preferred.Sublist c.preferred := by
  induction fuel generalizing denied first c stop with
  | zero => exact .refl _
  | succ fuel ih =>
    rw [look]
    rcases c.inner.next p with ⟨_ | g, inner⟩ <;> simp only
    · exact .refl _
    · split
      · exact .refl _
      · split
        · rcases Arbiter.allows p g .probe stop with ⟨_ | _, stop₁⟩ <;> simp only
          · split
            · exact List.erase_sublist
            · exact ih.trans List.erase_sublist
          · exact List.erase_sublist
        · exact ih.trans List.erase_sublist

theorem inner_begun (c : Balanced) (p : Proof) (stop : StopCondition) :
    (c.begun p stop).inner = c.inner :=
  (Chooser.refill_cases ..).1

theorem significance_begun (c : Balanced) (p : Proof) (stop : StopCondition) :
    (c.begun p stop).significance = c.significance := Chooser.significance_refill ..

/-- If there are fewer than two goals to choose from then no round goes on. -/
theorem preferred_next_of_lt (hlt : c.inner.selected.length < 2) :
    (c.next p stop).2.1.preferred = c.preferred := by
  rw [next, if_pos hlt]

/-- If there are at least two goals to choose from then the chooser looks for one. -/
theorem next_eq_look (stop : StopCondition) (htwo : 2 ≤ c.inner.selected.length) :
    ∃ stop', StopCondition.Probed p stop stop' ∧
      c.next p stop = look p (2 * c.inner.selected.length + 1) [] none (c.begun p stop) stop' := by
  refine ⟨(({ c with preferred := c.preferred.filter p.isAutomatic } : Balanced).refill p stop).2,
    ?_, ?_⟩
  · rw [refill]
    split
    · exact probed_allowedOf ..
    · exact .refl
  · rw [next, if_neg (Nat.not_lt.mpr htwo)]
    exact congrArg (fun inner : DepthFirst =>
      look p (2 * inner.selected.length + 1) [] none (c.begun p stop) _) (inner_begun c p stop)

/-- **What holds of a balanced chooser all along.** -/
structure Orderly (c : Balanced) : Prop where
  /-- the goals that are left to hand out are selected -/
  sound : (Chooser.balanced c).Sound
  /-- so are those that are owed a step -/
  preferred : c.preferred ⊆ c.inner.selected
  /-- which are owed one only -/
  nodup : c.preferred.Nodup

section Orderly

variable (h : c.Orderly)
include h

theorem Orderly.mem_begun (hg : g ∈ (c.begun p stop).preferred) :
    g ∈ c.inner.selected ∧ p.isAutomatic g := by
  by_cases hdone : c.Done p
  · rw [preferred_begun_eq hdone, List.mem_eraseDups] at hg
    split at hg
    · exact List.mem_filter.mp hg
    · exact List.mem_filter.mp ((allowedOf_sublist ..).subset hg)
  · rw [preferred_begun_of_not_done hdone, List.mem_filter] at hg
    exact hg.imp_left (h.preferred ·)

theorem Orderly.nodup_begun : (c.begun p stop).preferred.Nodup := by
  by_cases hdone : c.Done p
  · exact preferred_begun_eq hdone stop ▸ nodup_eraseDups _
  · exact preferred_begun_of_not_done hdone stop ▸ h.nodup.filter _

/-- **What the chooser hands out** when there are at least two goals to choose from. -/
theorem Orderly.hands_next (hallows : stop.AllowsProbes p) (htwo : 2 ≤ c.inner.selected.length) :
    Hands p c.significance (c.begun p stop).preferred (c.next p stop).1
      (c.next p stop).2.1.preferred := by
  obtain ⟨stop₁, hprobed, hnext⟩ := next_eq_look (p := p) stop htwo
  have hsound : c.inner.pending.Subperm c.inner.selected := h.sound
  rw [hnext, ← significance_begun c p stop]
  cases howed : (c.begun p stop).preferred with
  | nil =>
    have hnone := isAutomatic_of_begun_eq_nil hallows howed
    rcases DepthFirst.next_cases p hsound with ⟨g, -, -, hg, hauto, -⟩ | ⟨hend, -⟩
    · cases (hnone g hg).symm.trans hauto
    · rw [look, inner_begun, hend]
      exact howed ▸ .nothing howed
  | cons g rest =>
    rw [← howed]
    obtain ⟨hselected, hauto⟩ := h.mem_begun (howed ▸ List.mem_cons_self)
    refine hands_look (hallows.probed hprobed) (howed ▸ List.mem_cons_self) ?_ hauto (.inr ?_) rfl
    · rwa [inner_begun]
    · rw [inner_begun]
      have hle := hsound.length_le
      omega

/-- Asking for a goal leaves a chooser as it should be, whatever the stop condition answers. -/
theorem Orderly.next : (c.next p stop).2.1.Orderly := by
  have hchooses := Chooser.chooses_next h.sound
    (show (Chooser.balanced c).next p stop = (_, .balanced (c.next p stop).2.1, _) from rfl)
  have hperm : (c.next p stop).2.1.inner.selected.Perm c.inner.selected := hchooses.perm
  have hpreferred : (c.next p stop).2.1.preferred ⊆ c.inner.selected ∧
      (c.next p stop).2.1.preferred.Nodup := by
    rcases Nat.lt_or_ge c.inner.selected.length 2 with hlt | htwo
    · rw [preferred_next_of_lt hlt]
      exact ⟨h.preferred, h.nodup⟩
    · obtain ⟨stop₁, -, heq⟩ := next_eq_look (p := p) stop htwo
      have hsublist : (c.next p stop).2.1.preferred.Sublist (c.begun p stop).preferred :=
        heq ▸ preferred_look_sublist
      exact ⟨fun g hg => (h.mem_begun (hsublist.subset hg)).1, hsublist.nodup h.nodup_begun⟩
  exact ⟨hchooses.sound, fun g hg => hperm.mem_iff.mpr (hpreferred.1 hg), hpreferred.2⟩

end Orderly

theorem Orderly.remove (h : c.Orderly) (g : GoalId) : (c.remove g).Orderly where
  sound := h.sound.remove g
  preferred i hi := by
    obtain ⟨hne, hmem⟩ := h.nodup.mem_erase_iff.mp hi
    exact List.mem_filter.mpr ⟨h.preferred hmem, by simpa using hne⟩
  nodup := h.nodup.erase g

/-- **After a step the goals that are owed a step are still selected**: those that are gone are owed
none. -/
theorem Orderly.update (h : c.Orderly) {q : Proof} {goal : Goal} {new : List GoalId}
    (hsupplants : p.Supplants q g goal new) : (c.update q goal.node new).Orderly where
  sound := Chooser.sound_update (.balanced c) q goal.node new
  preferred i hi := by
    obtain ⟨hmem, hopen⟩ := List.mem_filter.mp hi
    obtain ⟨goal', hi'⟩ := Proof.isOpen_iff.mp hopen
    refine (Chooser.mem_selected_update (.balanced c) hsupplants i).mpr ?_
    refine (hsupplants.goal_cases hi').imp_right fun ⟨_, hne, hold⟩ => ⟨h.preferred hmem, hne, ?_⟩
    exact Proof.isOpen_of_goal? hold
  nodup := h.nodup.filter _

theorem orderly_select (c : Balanced) (p : Proof) (goals : List GoalId) :
    Orderly { c with inner := .select p goals, preferred := [] } :=
  ⟨List.nil_subperm, List.nil_subset _, .nil⟩

/-! ## Plays -/

/-- A proof, and the chooser that a search of it uses. -/
structure Play where
  /-- the proof -/
  proof : Proof
  /-- the chooser -/
  chooser : Balanced

/-- What happens while a search goes on. -/
inductive Event where
  /-- the chooser is asked for a goal under a stop condition -/
  | next (stop : StopCondition)
  /-- an application is made on a goal, and the chooser is told -/
  | step (g : GoalId) (app : RuleApp)
  /-- the chooser is told not to choose a goal any more -/
  | remove (g : GoalId)
  /-- something else is asked of the proof -/
  | request (r : Proof.Request)

namespace Play

variable {s : Play} {e : Event} {events : Nat → Event} {i j : Nat}

/-- What becomes of proof and chooser. -/
def perform (s : Play) : Event → Play
  | .next stop => { s with chooser := (s.chooser.next s.proof stop).2.1 }
  | .step g app =>
    match s.proof.goal? g, s.proof.apply g app with
    | some goal, (.ok new, q) => ⟨q, s.chooser.update q goal.node new⟩
    | _, (_, q) => { s with proof := q }
  | .remove g => { s with chooser := s.chooser.remove g }
  | .request r => { s with proof := s.proof.perform r }

/-- The play after so many events. -/
def after (events : Nat → Event) (s : Play) : Nat → Play
  | 0 => s
  | n + 1 => (after events s n).perform (events n)

/-- **A round begins**: the chooser is asked for one of at least two goals, and none of them is owed
a step. -/
def BeginsRound (s : Play) (e : Event) : Prop :=
  ∃ stop, e = .next stop ∧ 2 ≤ s.chooser.inner.selected.length ∧ s.chooser.Done s.proof

/-- **A goal is owed a step** in the round that begins. -/
def Owes (g : GoalId) (s : Play) (e : Event) : Prop :=
  ∃ stop, e = .next stop ∧ g ∈ (s.chooser.begun s.proof stop).preferred

/-- **A goal is handed out for a significant step**, one of at least two. -/
def HandsOut (g : GoalId) (s : Play) (e : Event) : Prop :=
  ∃ stop, e = .next stop ∧ 2 ≤ s.chooser.inner.selected.length ∧
    (s.chooser.next s.proof stop).1 = some g ∧ s.chooser.significance.atGoal s.proof g

/-- **A goal leaves the play**: it is closed, it is removed, or search is kept from it. -/
def Leaves (g : GoalId) (s : Play) (e : Event) : Prop :=
  (s.proof.isOpen g ∧ (s.perform e).proof.isOpen g = false) ∨ e = .remove g ∨
    e = .request (.setAutomatic g false)

/-- The stop condition has no objections to what the chooser asks it. -/
def Permits (s : Play) (e : Event) : Prop := ∀ stop, e = .next stop → stop.AllowsProbes s.proof

/-- **What holds of a play all along.** -/
structure Orderly (s : Play) : Prop where
  /-- the proof has come about by requests -/
  attained : s.proof.Attained
  /-- the chooser is as it should be -/
  chooser : s.chooser.Orderly

/-- What an application comes to. -/
theorem perform_step_cases (h : s.Orderly) (g : GoalId) (app : RuleApp) :
    (∃ goal new q, s.proof.Advances q g goal app new ∧ q = (s.proof.apply g app).2 ∧
      s.perform (.step g app) = ⟨q, s.chooser.update q goal.node new⟩) ∨
    s.perform (.step g app) = { s with proof := (s.proof.apply g app).2 } := by
  rw [perform]
  cases hgoal : s.proof.goal? g with
  | none => exact .inr rfl
  | some goal =>
    rcases happly : s.proof.apply g app with ⟨_ | new, q⟩
    · exact .inr rfl
    · exact .inl ⟨goal, new, q, Proof.advances_of_apply h.attained.inOrder.tree hgoal happly,
        rfl, rfl⟩

theorem Orderly.perform (h : s.Orderly) (e : Event) : (s.perform e).Orderly := by
  cases e with
  | next stop => exact ⟨h.attained, h.chooser.next⟩
  | step g app =>
    have hattained := h.attained.perform (.apply g app)
    rcases perform_step_cases h g app with ⟨goal, new, q, hadvances, rfl, heq⟩ | heq <;> rw [heq]
    · exact ⟨hattained, h.chooser.update hadvances.toSupplants⟩
    · exact ⟨hattained, h.chooser⟩
  | remove g => exact ⟨h.attained, h.chooser.remove g⟩
  | request r => exact ⟨h.attained.perform r, h.chooser⟩

theorem Orderly.after (h : s.Orderly) (events : Nat → Event) (n : Nat) :
    (s.after events n).Orderly := by
  induction n with
  | zero => exact h
  | succ n ih => exact ih.perform (events n)

/-! ## Fair rounds -/

section Step

variable {g : GoalId} (h : s.Orderly) (hpermits : s.Permits e)
include h hpermits

/-- **A goal that is handed out was owed the step, or a round has begun.** Then it is owed none. -/
theorem Orderly.of_handsOut (hout : s.HandsOut g e) :
    (s.BeginsRound e ∨ g ∈ s.chooser.preferred) ∧ g ∉ (s.perform e).chooser.preferred := by
  obtain ⟨stop, rfl, htwo, hchosen, hsignificant⟩ := hout
  have hallows := hpermits stop rfl
  obtain ⟨howed, hafter⟩ :=
    (hchosen ▸ h.chooser.hands_next hallows htwo).due_of_significant hsignificant
  refine ⟨?_, fun hmem => ?_⟩
  · by_cases hdone : s.chooser.Done s.proof
    · exact .inl ⟨stop, rfl, htwo, hdone⟩
    · rw [preferred_begun_of_not_done hdone] at howed
      exact .inr (List.mem_filter.mp howed).1
  · exact (h.chooser.nodup_begun).not_mem_erase (hafter ▸ hmem)

/-- **Within a round nobody else comes to be owed a step.** -/
theorem Orderly.not_mem_perform (hnot : g ∉ s.chooser.preferred) (hround : ¬s.BeginsRound e) :
    g ∉ (s.perform e).chooser.preferred := by
  intro hmem
  cases e with
  | next stop =>
    have hmem' : g ∈ (s.chooser.next s.proof stop).2.1.preferred := hmem
    rcases Nat.lt_or_ge s.chooser.inner.selected.length 2 with hlt | htwo
    · exact hnot (preferred_next_of_lt hlt ▸ hmem')
    · have hdone : ¬s.chooser.Done s.proof := fun hdone => hround ⟨stop, rfl, htwo, hdone⟩
      have hbegun := (h.chooser.hands_next (hpermits stop rfl) htwo).sublist.subset hmem'
      rw [preferred_begun_of_not_done hdone] at hbegun
      exact hnot (List.mem_filter.mp hbegun).1
  | step k app =>
    rcases perform_step_cases h k app with ⟨goal, new, q, -, -, heq⟩ | heq <;> rw [heq] at hmem
    · exact hnot (List.mem_filter.mp hmem).1
    · exact hnot hmem
  | remove k => exact hnot (List.mem_of_mem_erase hmem)
  | request r => exact hnot hmem

omit h in
/-- **A round owes a step to all goals that automatic search may work on.** -/
theorem owes_iff (hround : s.BeginsRound e) :
    s.Owes g e ↔ g ∈ s.chooser.inner.selected ∧ s.proof.isAutomatic g := by
  obtain ⟨stop, rfl, -, hdone⟩ := hround
  have hbegun := preferred_begun_of_done (hpermits stop rfl) hdone
  have hmem : g ∈ (s.chooser.begun s.proof stop).preferred ↔
      g ∈ s.chooser.inner.selected ∧ s.proof.isAutomatic g := by
    rw [hbegun, List.mem_eraseDups, List.mem_filter]
  refine ⟨fun ⟨stop', heq, howed⟩ => ?_, fun hg => ⟨stop, rfl, hmem.mpr hg⟩⟩
  cases heq
  exact hmem.mp howed

/-- **A goal that is owed a step is handed out, or it is still owed it.** -/
theorem Orderly.mem_perform_of_owes (htwo : 2 ≤ s.chooser.inner.selected.length)
    (howes : s.Owes g e) (hout : ¬s.HandsOut g e) :
    g ∈ (s.perform e).chooser.preferred ∧ (s.perform e).proof.isAutomatic g := by
  obtain ⟨stop, rfl, hbegun⟩ := howes
  have hallows := hpermits stop rfl
  refine ⟨(h.chooser.hands_next hallows htwo).mem_of_mem hbegun fun ⟨hchosen, hsignificant⟩ => ?_,
    (h.chooser.mem_begun hbegun).2⟩
  exact hout ⟨stop, rfl, htwo, hchosen, hsignificant⟩

/-- **A goal is owed its step until it is handed out or leaves the play.** -/
theorem Orderly.mem_perform (hmem : g ∈ s.chooser.preferred) (hauto : s.proof.isAutomatic g)
    (hout : ¬s.HandsOut g e) (hleaves : ¬s.Leaves g e) :
    g ∈ (s.perform e).chooser.preferred ∧ (s.perform e).proof.isAutomatic g := by
  have hopen : (s.perform e).proof.isOpen g := by
    by_contra hclosed
    obtain ⟨goal, hgoal, -⟩ := (Option.any_eq_true _ _).mp hauto
    exact hleaves (.inl ⟨Proof.isOpen_of_goal? hgoal, Bool.eq_false_iff.mpr hclosed⟩)
  have htree := h.attained.inOrder.tree
  cases e with
  | next stop =>
    rcases Nat.lt_or_ge s.chooser.inner.selected.length 2 with hlt | htwo
    · exact ⟨show g ∈ (s.chooser.next s.proof stop).2.1.preferred from
        (preferred_next_of_lt hlt).symm ▸ hmem, hauto⟩
    · have hfilter : g ∈ s.chooser.preferred.filter s.proof.isAutomatic :=
        List.mem_filter.mpr ⟨hmem, hauto⟩
      have hdone : ¬s.chooser.Done s.proof := List.ne_nil_of_mem hfilter
      refine h.mem_perform_of_owes hpermits htwo ⟨stop, rfl, ?_⟩ hout
      rwa [preferred_begun_of_not_done hdone]
  | step k app =>
    rcases perform_step_cases h k app with ⟨goal, new, q, -, rfl, heq⟩ | heq <;> rw [heq] at hopen ⊢
    · exact ⟨List.mem_filter.mpr ⟨hmem, hopen⟩, Proof.isAutomatic_apply htree hauto hopen⟩
    · exact ⟨hmem, Proof.isAutomatic_apply htree hauto hopen⟩
  | remove k =>
    refine ⟨(List.mem_erase_of_ne ?_).mpr hmem, hauto⟩
    rintro rfl
    exact hleaves (.inr (.inl rfl))
  | request r =>
    refine ⟨hmem, Proof.isAutomatic_perform htree hauto hopen ?_⟩
    rintro rfl
    exact hleaves (.inr (.inr rfl))

end Step

section Run

variable {g : GoalId} (h : s.Orderly)
  (hpermits : ∀ n, (s.after events n).Permits (events n)) (hij : i < j)
include h hpermits hij

/-- **Between two significant steps of a goal a round begins.** -/
theorem Orderly.exists_beginsRound (hfirst : (s.after events i).HandsOut g (events i))
    (hsecond : (s.after events j).HandsOut g (events j)) :
    ∃ k, i < k ∧ k ≤ j ∧ (s.after events k).BeginsRound (events k) := by
  by_contra hnone
  -- otherwise the goal would still not be owed a step when it is handed out again
  have hnot : ∀ k, i + 1 ≤ k → k ≤ j → g ∉ (s.after events k).chooser.preferred := by
    intro k hk
    induction k, hk using Nat.le_induction with
    | base => exact fun _ => ((h.after events i).of_handsOut (hpermits i) hfirst).2
    | succ k hk ih =>
      intro hle
      refine (h.after events k).not_mem_perform (hpermits k)
        (ih (Nat.le_of_lt hle)) fun hround => ?_
      exact hnone ⟨k, hk, Nat.le_of_lt hle, hround⟩
  rcases ((h.after events j).of_handsOut (hpermits j) hsecond).1 with hround | howed
  · exact hnone ⟨j, hij, Nat.le_refl j, hround⟩
  · exact hnot j hij (Nat.le_refl j) howed

/-- **When the next round begins, nobody has been left out.** -/
theorem Orderly.exists_handsOut_or_leaves (hround : (s.after events i).BeginsRound (events i))
    (hnext : (s.after events j).BeginsRound (events j))
    (howes : (s.after events i).Owes g (events i)) :
    ∃ k, i ≤ k ∧ k < j ∧
      ((s.after events k).HandsOut g (events k) ∨ (s.after events k).Leaves g (events k)) := by
  by_contra hnone
  have hout : ∀ k, i ≤ k → k < j → ¬(s.after events k).HandsOut g (events k) :=
    fun k hk hlt hout => hnone ⟨k, hk, hlt, .inl hout⟩
  -- otherwise the goal would still be owed its step
  have howed : ∀ k, i + 1 ≤ k → k ≤ j →
      g ∈ (s.after events k).chooser.preferred ∧ (s.after events k).proof.isAutomatic g := by
    intro k hk
    induction k, hk using Nat.le_induction with
    | base =>
      obtain ⟨-, -, htwo, -⟩ := hround
      exact fun _ => (h.after events i).mem_perform_of_owes (hpermits i) htwo howes
        (hout i (Nat.le_refl i) hij)
    | succ k hk ih =>
      intro hle
      obtain ⟨hmem, hauto⟩ := ih (Nat.le_of_lt hle)
      refine (h.after events k).mem_perform (hpermits k) hmem hauto
        (hout k (Nat.le_of_lt hk) hle) fun hleaves => ?_
      exact hnone ⟨k, Nat.le_of_lt hk, hle, .inr hleaves⟩
  obtain ⟨-, -, -, hdone⟩ := hnext
  exact List.ne_nil_of_mem (List.mem_filter.mpr (howed j hij (Nat.le_refl j))) hdone

end Run

/-- A search begins: the chooser is given the goals to choose from. -/
def start (p : Proof) (c : Balanced) (goals : List GoalId) : Play :=
  ⟨p, { c with inner := .select p goals, preferred := [] }⟩

/-- **Rounds are fair.** A chooser is given goals. Then it is asked for goals, applications are
made, goals are removed, and anything may be asked of the proof, in any order and as often as one
likes. If the stop condition has no objections then each round owes a step to all goals that
automatic search may work on. A goal is not handed out for a second significant step before another
round begins. And when a round begins, each goal that was owed a step in a round before has been
handed out for it, or it was closed, removed, or kept from automatic search. -/
theorem rounds_fair (hp : p.Attained) (c : Balanced) (goals : List GoalId) (events : Nat → Event)
    (hpermits : ∀ n, ((start p c goals).after events n).Permits (events n)) :
    (∀ i g, ((start p c goals).after events i).BeginsRound (events i) →
      (((start p c goals).after events i).Owes g (events i) ↔
        g ∈ ((start p c goals).after events i).chooser.inner.selected ∧
          ((start p c goals).after events i).proof.isAutomatic g)) ∧
    (∀ i j g, i < j → ((start p c goals).after events i).HandsOut g (events i) →
      ((start p c goals).after events j).HandsOut g (events j) →
        ∃ k, i < k ∧ k ≤ j ∧ ((start p c goals).after events k).BeginsRound (events k)) ∧
    ∀ i j g, i < j → ((start p c goals).after events i).BeginsRound (events i) →
      ((start p c goals).after events j).BeginsRound (events j) →
        ((start p c goals).after events i).Owes g (events i) →
          ∃ k, i ≤ k ∧ k < j ∧ (((start p c goals).after events k).HandsOut g (events k) ∨
            ((start p c goals).after events k).Leaves g (events k)) := by
  have h : (start p c goals).Orderly := ⟨hp, orderly_select c p goals⟩
  exact ⟨fun i g => owes_iff (hpermits i), fun i j g hij => h.exists_beginsRound hpermits hij,
    fun i j g hij => h.exists_handsOut_or_leaves hpermits hij⟩

/-- A proof attempt for `(p -> p) & (q -> q)`, after the first step. -/
private def forked : Proof :=
  let atom (name : String) : Term := .app (.predicate name 0) []
  let p := Proof.start (.ofFormulas []
      [⟨.conj (.impl (atom "p") (atom "p")) (.impl (atom "q") (atom "q")),
    by decide⟩]) Calculus.propositional (.ofSettings {})
  match (p.nextApp 0).1 with
  | some app => p.perform (.apply 0 app)
  | none => p

private theorem attained_forked : forked.Attained := by
  rw [forked]
  split
  · exact .perform (.start ..) _
  · exact .start ..

/-- Three goals are asked for one after another. The first goal is handed out first and third. So
the third question begins a round, and the second goal has been handed out before it. -/
theorem rounds_fair_forked :
    let s := start forked { significance := .everyStep } [0, 1]
    let events : Nat → Event := fun _ => .next .budget
    (s.after events 0).BeginsRound (events 0) ∧ (s.after events 0).HandsOut 0 (events 0) ∧
      (s.after events 2).HandsOut 0 (events 2) ∧
      (∃ k, 0 < k ∧ k ≤ 2 ∧ (s.after events k).BeginsRound (events k)) ∧
      (s.after events 2).BeginsRound (events 2) ∧ (s.after events 0).Owes 1 (events 0) ∧
      ∃ k, 0 ≤ k ∧ k < 2 ∧
        ((s.after events k).HandsOut 1 (events k) ∨ (s.after events k).Leaves 1 (events k)) := by
  intro s events
  have hpermits : ∀ n, (s.after events n).Permits (events n) := by
    rintro n stop ⟨⟩
    exact StopCondition.allowsProbes_budget _
  have heval : (s.chooser.inner.selected, (s.chooser.next s.proof StopCondition.budget).1,
      s.chooser.significance.atGoal s.proof 0, s.proof.isAutomatic 1,
      (s.after events 2).chooser.inner.selected, (s.after events 2).chooser.preferred,
      ((s.after events 2).chooser.next s.proof StopCondition.budget).1,
      (s.after events 2).chooser.significance.atGoal s.proof 0) =
        ([0, 1], some 0, true, true, [0, 1], [], some 0, true) := by
    cbv
  simp only [Prod.mk.injEq] at heval
  obtain ⟨hselected, hchosen, hsignificant, hauto, hselected', hdone, hchosen',
      hsignificant'⟩ := heval
  have htwo : 2 ≤ (s.after events 0).chooser.inner.selected.length := hselected ▸ Nat.le_refl 2
  have htwo' : 2 ≤ (s.after events 2).chooser.inner.selected.length := hselected' ▸ Nat.le_refl 2
  have hround : (s.after events 0).BeginsRound (events 0) := ⟨.budget, rfl, htwo, rfl⟩
  have hround' : (s.after events 2).BeginsRound (events 2) :=
    ⟨.budget, rfl, htwo', by rw [Done, hdone]; rfl⟩
  have hfirst : (s.after events 0).HandsOut 0 (events 0) :=
    ⟨.budget, rfl, htwo, hchosen, hsignificant⟩
  have hsecond : (s.after events 2).HandsOut 0 (events 2) :=
    ⟨.budget, rfl, htwo', hchosen', hsignificant'⟩
  obtain ⟨howes, hbetween, hall⟩ :=
    rounds_fair attained_forked { significance := .everyStep } [0, 1] events hpermits
  have hmem : 1 ∈ (s.after events 0).chooser.inner.selected :=
    (congrArg (1 ∈ ·) hselected).mpr (.tail _ (.head _))
  have howes' : (s.after events 0).Owes 1 (events 0) := (howes 0 1 hround).mpr ⟨hmem, hauto⟩
  exact ⟨hround, hfirst, hsecond, hbetween 0 2 0 (by decide) hfirst hsecond, hround', howes',
    hall 0 2 1 (by decide) hround hround' howes'⟩

end Play

end Balanced

end SequentSearch
