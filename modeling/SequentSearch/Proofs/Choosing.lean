import SequentSearch.Proofs.Advances
import SequentSearch.Search.Chooser

/-!
# Choosing goals

Both choosers keep a list of **selected** goals and hand out goals of it. They go through it by a
second list, of the goals that are left in this pass, and the balanced chooser changes the order of
the first. No goal may get lost in this. `Chooser.Chooses` says what choosing comes to, for both of
them:

* the selected goals stay the same, in another order perhaps;
* the goal that is chosen is one of them, and automatic search may work on it;
* if none is chosen then automatic search may work on none of them.

A step replaces the goal it was made on by the new goals, and keeps all others that are open
(`Chooser.mem_selected_update`).
-/

namespace SequentSearch

/-! ## Depth first -/

namespace DepthFirst

variable {p q : Proof} {c : DepthFirst} {g : GoalId} {goal : Goal} {node : NodeId}
  {new : List GoalId}

/-- The goals behind the last one that passes a test do not pass it. -/
theorem behindLast_sublist (test : GoalId → Bool) (goals : List GoalId) :
    (behindLast test goals).Sublist (goals.filter (!test ·)) := by
  have hsub := (List.takeWhile_sublist (l := goals.reverse) (!test ·)).filter (!test ·)
  rw [List.filter_eq_self.mpr fun _ => List.mem_takeWhile_imp, List.filter_reverse] at hsub
  simpa [behindLast] using hsub.reverse

/-- **What is handed out can be worked on**; nothing is if there is no such goal. -/
theorem next_cases (p : Proof) (h : c.pending.Subperm c.selected) :
    (∃ g rest, c.next p = (some g, { c with pending := rest }) ∧ g ∈ c.selected ∧ p.isAutomatic g ∧
      rest.Subperm c.selected) ∨
    (c.next p = (none, { c with pending := [] }) ∧ ∀ g ∈ c.selected, p.isAutomatic g = false) := by
  -- the first goal of a list that can be worked on, and what is behind it
  have hfirst : ∀ {l rest : List GoalId} {g : GoalId}, l.Subperm c.selected →
      l.dropWhile (!p.isAutomatic ·) = g :: rest →
        g ∈ c.selected ∧ p.isAutomatic g ∧ rest.Subperm c.selected := by
    intro l rest g hl hdrop
    have hsub : (g :: rest).Subperm c.selected :=
      hdrop ▸ (List.dropWhile_sublist _).subperm.trans hl
    have hpass := List.head?_dropWhile_not (!p.isAutomatic ·) l
    rw [hdrop] at hpass
    exact ⟨hsub.subset List.mem_cons_self, by simpa using hpass, .trans .cons_self hsub⟩
  unfold next
  split <;> rename_i hpending
  · exact .inl ⟨_, _, rfl, hfirst h hpending⟩
  · split <;> rename_i hselected
    · exact .inl ⟨_, _, rfl, hfirst (.refl _) hselected⟩
    · refine .inr ⟨rfl, fun g hg => ?_⟩
      simpa using List.dropWhile_eq_nil_iff.mp hselected g hg

/-- **The goals to choose from after a step**: those that were not replaced, and the new ones. -/
theorem selected_update (c : DepthFirst) (p : Proof) (node : NodeId) (new : List GoalId) :
    (c.update p node new).selected.Perm
      (c.selected.filter (!isReplaced p node new ·) ++ new.filter p.isOpen) := by
  simp only [update]
  split <;> rename_i hany
  · have hkept : c.selected.filter (!isReplaced p node new ·) =
        c.selected.takeWhile (!isReplaced p node new ·) ++
          (c.selected.dropWhile (!isReplaced p node new ·)).filter (!isReplaced p node new ·) := by
      conv_lhs =>
        rw [← List.takeWhile_append_dropWhile (p := (!isReplaced p node new ·)) (l := c.selected)]
      rw [List.filter_append, List.filter_eq_self.mpr fun _ => List.mem_takeWhile_imp]
    rw [hkept, List.append_assoc, List.append_assoc]
    exact List.perm_append_comm.append_left _
  · have hkept : c.selected.filter (!isReplaced p node new ·) = c.selected := by
      refine List.filter_eq_self.mpr fun i hi => ?_
      simpa using List.any_eq_false.mp (Bool.not_eq_true _ ▸ hany) i hi
    rw [hkept]

/-- After a step the goals that are left to hand out are still goals to choose from. -/
theorem pending_update (c : DepthFirst) (p : Proof) (node : NodeId) (new : List GoalId) :
    (c.update p node new).pending.Subperm (c.update p node new).selected := by
  refine .trans ?_ (selected_update c p node new).symm.subperm
  refine .trans ?_ (List.sublist_append_left ..).subperm
  simp only [update]
  split
  · exact (behindLast_sublist ..).subperm
  · exact List.nil_subperm

/-- What is replaced by a step: the goal it was made on, and goals that are gone. -/
theorem isReplaced_iff (h : p.Supplants q g goal new) {i : GoalId} :
    isReplaced q goal.node new i ↔ i = g ∨ p.goal? i = none := by
  have hnot : ∀ goal', p.goal? i = some goal' → i ≠ g → isReplaced q goal.node new i = false := by
    intro goal' hi hne
    obtain ⟨hmem, hq⟩ := h.keeps hi hne
    have hparent := h.parent i goal' hi hne
    simp [isReplaced, hq, hparent, hmem]
  constructor
  · intro hreplaced
    by_cases hne : i = g
    · exact .inl hne
    · refine .inr (Option.eq_none_iff_forall_not_mem.mpr fun goal' hi => ?_)
      rw [hnot goal' hi hne] at hreplaced
      cases hreplaced
  · intro hgone
    by_cases hmem : i ∈ new
    · simp [isReplaced, hmem]
    · have hq : q.goal? i = none := by
        rw [h.old i hmem]
        split <;> rename_i hne
        · rfl
        · exact hgone.resolve_left hne
      simp [isReplaced, hq]

theorem selected_rotate (c : DepthFirst) : c.rotate.selected.Perm c.selected := by
  rw [rotate]
  split <;> rename_i hselected
  · exact .refl _
  · rw [hselected]
    exact List.perm_append_singleton ..

theorem pending_rotate (c : DepthFirst) : c.rotate.pending = c.pending := by
  rw [rotate]
  split <;> rfl

end DepthFirst

/-! ## Questions to a stop condition -/

namespace Arbiter

variable {σ : Type} [Arbiter σ]

/-- A stop condition after it was asked about goals of a proof, any number of times. -/
def Asked (p : Proof) : σ → σ → Prop :=
  Relation.ReflTransGen fun stop stop' => ∃ g b, stop' = (allows p g b stop).2

theorem asked_allows (p : Proof) (stop : σ) (g : GoalId) (b : Budget) :
    Asked p stop (allows p g b stop).2 := .single ⟨g, b, rfl⟩

end Arbiter

/-! ## Both choosers -/

namespace Chooser

variable {σ : Type} [Arbiter σ] {p q : Proof} {g : GoalId} {goal : Goal}
  {new selected : List GoalId} {stop stop' : σ}

/-- The goals in the order of the list. -/
def order : Chooser → DepthFirst
  | depthFirst c => c
  | balanced c => c.inner

theorem selected_eq (c : Chooser) : c.selected = c.order.selected := by cases c <;> rfl

/-- **The goals that are left to hand out are selected.** -/
def Sound (c : Chooser) : Prop := c.order.pending.Subperm c.order.selected

/-- **What choosing a goal comes to.** -/
structure Chooses (p : Proof) (selected : List GoalId) (stop : σ) (chosen : Option GoalId)
    (c : Chooser) (stop' : σ) : Prop where
  /-- the selected goals stay the same, in another order perhaps -/
  perm : c.selected.Perm selected
  /-- those that are left to hand out are among them -/
  sound : c.Sound
  /-- a goal that is chosen is one of them that can be worked on -/
  workable : ∀ g, chosen = some g → g ∈ selected ∧ p.isAutomatic g
  /-- none is chosen if there is no such goal -/
  none : chosen = none → ∀ g ∈ selected, p.isAutomatic g = false
  /-- all that was done to the stop condition is to ask it about goals -/
  asked : Arbiter.Asked p stop stop'

theorem chooses_some {c : Chooser} (hperm : c.selected.Perm selected) (hsound : c.Sound)
    (hg : g ∈ selected ∧ p.isAutomatic g) (hasked : Arbiter.Asked p stop stop') :
    Chooses p selected stop (some g) c stop' :=
  ⟨hperm, hsound, fun _ heq => Option.some.inj heq ▸ hg, fun hnone => (nomatch hnone), hasked⟩

theorem chooses_none {c : Chooser} (hperm : c.selected.Perm selected) (hsound : c.Sound)
    (hnone : ∀ g ∈ selected, p.isAutomatic g = false) (hasked : Arbiter.Asked p stop stop') :
    Chooses p selected stop none c stop' :=
  ⟨hperm, hsound, fun _ heq => (nomatch heq), fun _ => hnone, hasked⟩

/-- Choosing depth first. -/
theorem chooses_depthFirst {c : DepthFirst} (h : c.pending.Subperm c.selected) (p : Proof) :
    (c.next p).2.selected = c.selected ∧ (c.next p).2.pending.Subperm (c.next p).2.selected ∧
      (∀ g, (c.next p).1 = some g → g ∈ c.selected ∧ p.isAutomatic g) ∧
      ((c.next p).1 = none → ∀ g ∈ c.selected, p.isAutomatic g = false) := by
  rcases DepthFirst.next_cases p h with ⟨g, rest, hnext, hg, hauto, hrest⟩ | ⟨hnext, hnone⟩
  · rw [hnext]
    exact ⟨rfl, hrest, fun _ heq => Option.some.inj heq ▸ ⟨hg, hauto⟩, fun heq => (nomatch heq)⟩
  · rw [hnext]
    exact ⟨rfl, List.nil_subperm, fun _ heq => (nomatch heq), fun _ => hnone⟩

/-- Asking which goals are allowed. -/
theorem asked_allowedOf (p : Proof) (goals : List GoalId) (stop : σ) :
    Arbiter.Asked p stop (Balanced.allowedOf p goals stop).2 := by
  induction goals generalizing stop with
  | nil => exact .refl
  | cons g goals ih => exact .trans (Arbiter.asked_allows p stop g .probe) (ih _)

/-- Starting a round does not change the list. -/
theorem refill_cases (p : Proof) (c : Balanced) (stop : σ) :
    (c.refill p stop).1.inner = c.inner ∧ Arbiter.Asked p stop (c.refill p stop).2 := by
  rw [Balanced.refill]
  split
  · exact ⟨rfl, asked_allowedOf p _ stop⟩
  · exact ⟨rfl, .refl⟩

/-- **Looking for a goal to hand out.** A goal that is put off stays in the list. When all the fuel
is used up, the first goal that was looked at is handed out, so some goal has to be looked at. -/
theorem chooses_look {fuel : Nat} {denied : List GoalId} {first chosen : Option GoalId}
    {c c' : Balanced} {stop₀ : σ} (hperm : c.inner.selected.Perm selected)
    (hsound : c.inner.pending.Subperm c.inner.selected) (hasked : Arbiter.Asked p stop₀ stop)
    (hfirst : ∀ g, first = some g → g ∈ selected ∧ p.isAutomatic g)
    (hfuel : fuel = 0 → first ≠ none)
    (hlook : Balanced.look p fuel denied first c stop = (chosen, c', stop')) :
    Chooses p selected stop₀ chosen (.balanced c') stop' := by
  induction fuel generalizing denied first c stop with
  | zero =>
    obtain ⟨g, rfl⟩ := Option.ne_none_iff_exists'.mp (hfuel rfl)
    cases hlook
    exact chooses_some hperm hsound (hfirst g rfl) hasked
  | succ fuel ih =>
    rw [Balanced.look] at hlook
    rcases DepthFirst.next_cases p hsound with ⟨g, rest, hnext, hg, hauto, hrest⟩ | ⟨hnext, hnone⟩
    · have hworkable : g ∈ selected ∧ p.isAutomatic g := ⟨hperm.mem_iff.mp hg, hauto⟩
      have hfirst' : ∀ g', first.or (some g) = some g' → g' ∈ selected ∧ p.isAutomatic g' := by
        intro g' heq
        cases first with
        | none => exact Option.some.inj heq ▸ hworkable
        | some _ => exact hfirst g' heq
      -- looking goes on with the same goals in another order
      have hlater : ∀ {denied preferred stop₁}, Arbiter.Asked p stop₀ stop₁ →
          Balanced.look p fuel denied (first.or (some g))
            { c with
              inner := DepthFirst.rotate { c.inner with pending := rest }
              preferred := preferred }
            stop₁ = (chosen, c', stop') → Chooses p selected stop₀ chosen (.balanced c') stop' := by
        intro denied preferred stop₁ hasked' hlook'
        have hrotate := DepthFirst.selected_rotate { c.inner with pending := rest }
        refine ih (hrotate.trans hperm) ?_ hasked' hfirst' (fun _ => by cases first <;> simp) hlook'
        rw [DepthFirst.pending_rotate]
        exact hrest.trans hrotate.symm.subperm
      simp only [hnext] at hlook
      split at hlook
      · cases hlook
        exact chooses_some hperm hrest hworkable hasked
      · split at hlook
        · have hasked' := hasked.trans (Arbiter.asked_allows p stop g .probe)
          rcases hallows : Arbiter.allows p g .probe stop with ⟨_ | _, stop₁⟩ <;>
            simp only [hallows] at hlook hasked'
          · split at hlook
            · cases hlook
              exact chooses_some hperm hrest hworkable hasked'
            · exact hlater hasked' hlook
          · cases hlook
            exact chooses_some hperm hrest hworkable hasked'
        · exact hlater hasked hlook
    · simp only [hnext] at hlook
      cases hlook
      exact chooses_none hperm List.nil_subperm (fun g hg => hnone g (hperm.mem_iff.mpr hg)) hasked

/-- **Choosing hands out a goal that can be worked on if there is one, and loses none.** -/
theorem chooses_next {c c' : Chooser} (h : c.Sound) {chosen : Option GoalId}
    (hnext : c.next p stop = (chosen, c', stop')) : Chooses p c.selected stop chosen c' stop' := by
  obtain ⟨hselected, hpending, hworkable, hnone⟩ := chooses_depthFirst h p
  cases c with
  | depthFirst c =>
    cases hnext
    exact ⟨.of_eq hselected, hpending, hworkable, hnone, .refl⟩
  | balanced c =>
    rcases hchosen : c.next p stop with ⟨chosen', c₁, stop₁⟩
    simp only [next, hchosen] at hnext
    cases hnext
    rw [Balanced.next] at hchosen
    split at hchosen
    · cases hchosen
      exact ⟨.of_eq hselected, hpending, hworkable, hnone, .refl⟩
    · obtain ⟨hinner, hasked⟩ := refill_cases p
          { c with preferred := c.preferred.filter p.isAutomatic } stop
      rcases hrefill : Balanced.refill p
          { c with preferred := c.preferred.filter p.isAutomatic } stop
        with ⟨c₂, stop₂⟩
      simp only [hrefill] at hchosen hinner hasked
      refine chooses_look (.of_eq (congrArg DepthFirst.selected hinner)) ?_ hasked ?_ ?_ hchosen
      · rw [hinner]
        exact h
      · exact fun _ heq => (nomatch heq)
      · exact fun heq => (nomatch heq)

/-! ## Changes of the list -/

/-- **The selected goals after a step**: the new ones, and those that are still open. -/
theorem mem_selected_update (c : Chooser) (h : p.Supplants q g goal new) (i : GoalId) :
    i ∈ (c.update q goal.node new).selected ↔ i ∈ new ∨ (i ∈ c.selected ∧ i ≠ g ∧ p.isOpen i) := by
  have hselected : (c.update q goal.node new).selected =
      (c.order.update q goal.node new).selected := by
    cases c <;> rfl
  have hkept : DepthFirst.isReplaced q goal.node new i = false ↔ i ≠ g ∧ p.isOpen i := by
    rw [← Bool.not_eq_true, DepthFirst.isReplaced_iff h, not_or, Proof.isOpen,
      Option.isSome_iff_ne_none]
  rw [hselected, (DepthFirst.selected_update c.order q goal.node new).mem_iff, List.mem_append,
    List.mem_filter, List.mem_filter, Bool.not_eq_true', hkept, ← selected_eq, or_comm]
  exact or_congr_left (and_iff_left_of_imp fun hi => h.isOpen i hi)

theorem sound_update (c : Chooser) (p : Proof) (node : NodeId) (new : List GoalId) :
    (c.update p node new).Sound := by
  cases c with
  | depthFirst c => exact DepthFirst.pending_update c p node new
  | balanced c => exact DepthFirst.pending_update c.inner p node new

theorem selected_remove (c : Chooser) (g : GoalId) :
    (c.remove g).selected = c.selected.filter (· != g) := by cases c <;> rfl

theorem Sound.remove {c : Chooser} (h : c.Sound) (g : GoalId) : (c.remove g).Sound := by
  cases c <;> exact List.Subperm.filter _ h

theorem selected_select (c : Chooser) (p : Proof) (goals : List GoalId) :
    (c.select p goals).selected = goals.filter p.isOpen := by cases c <;> rfl

theorem sound_select (c : Chooser) (p : Proof) (goals : List GoalId) :
    (c.select p goals).Sound := by
  cases c <;> exact List.nil_subperm

/-! ## The way goals are chosen

What is left of a chooser when it forgets all goals is the way it chooses them. No operation changes
it. -/

theorem significance_look {fuel : Nat} {denied : List GoalId} {first : Option GoalId}
    {c : Balanced} :
    (Balanced.look p fuel denied first c stop).2.1.significance = c.significance := by
  induction fuel generalizing denied first c stop with
  | zero => rfl
  | succ fuel ih =>
    rw [Balanced.look]
    rcases c.inner.next p with ⟨_ | g, inner⟩ <;> simp only
    split
    · rfl
    · split
      · rcases Arbiter.allows p g .probe stop with ⟨_ | _, stop₁⟩ <;> simp only
        split
        · rfl
        · exact ih
      · exact ih

theorem significance_refill (c : Balanced) (p : Proof) (stop : σ) :
    (c.refill p stop).1.significance = c.significance := by
  rw [Balanced.refill]
  split <;> rfl

theorem significance_next (c : Balanced) (p : Proof) (stop : σ) :
    (c.next p stop).2.1.significance = c.significance := by
  rw [Balanced.next]
  split
  · rfl
  · exact significance_look.trans (significance_refill ..)

theorem clear_next (c : Chooser) (p : Proof) (stop : σ) : (c.next p stop).2.1.clear = c.clear := by
  cases c with
  | depthFirst c => rfl
  | balanced c =>
    exact congrArg (fun significance => balanced { significance := significance })
      (significance_next c p stop)

theorem clear_update (c : Chooser) (p : Proof) (node : NodeId) (new : List GoalId) :
    (c.update p node new).clear = c.clear := by cases c <;> rfl

theorem clear_remove (c : Chooser) (g : GoalId) : (c.remove g).clear = c.clear := by cases c <;> rfl

/-- A chooser that is to choose among goals forgets all others. -/
theorem select_clear (c : Chooser) (p : Proof) (goals : List GoalId) :
    c.clear.select p goals = c.select p goals := by cases c <;> rfl

theorem clear_select (c : Chooser) (p : Proof) (goals : List GoalId) :
    (c.select p goals).clear = c.clear := by cases c <;> rfl

end Chooser

end SequentSearch
