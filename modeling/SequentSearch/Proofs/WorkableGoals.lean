import SequentSearch.Proofs.Choosing

/-!
# Choosers hand out goals that can be worked on

A chooser goes through its list by a snapshot of it, and goals are closed, removed or kept from
automatic search in the meantime. Whatever was done to it and to the proof before, a chooser hands
out a selected goal that is open and automatic if there is one, and gives up only if there is none
(`Chooser.next_workable`). All that this needs of its state is that the snapshot holds selected
goals only, and every call keeps that (`Chooser.Sound.perform`).

The balanced chooser asks the proof for the goals that it looks at. That would be a fault for a goal
that is not open. `Chooser.nextChecked` is choosing with this fault made visible, and it never
occurs.
-/

namespace SequentSearch

/-! ## Asking for goals -/

namespace Balanced

variable {σ : Type} [Arbiter σ]

/-- To look at goals as `look` does, where each goal is asked of the proof: a fault if it is not
open. -/
def lookChecked (p : Proof) :
    Nat → List GoalId → Option GoalId → Balanced → σ → Except Fault (Option GoalId × Balanced × σ)
  | 0, _, first, c, stop => .ok (first, c, stop)
  | fuel + 1, denied, first, c, stop =>
    match c.inner.next p with
    | (none, inner) => .ok (none, { c with inner := inner }, stop)
    | (some g, inner) => do
      let first := first.or (some g)
      let goal ← p.goal g
      if !goal.peek?.any c.significance.holds then .ok (some g, { c with inner := inner }, stop)
      else
        let owed := c.preferred.contains g
        let c := { c with inner := inner, preferred := c.preferred.erase g }
        let later := { c with inner := inner.rotate }
        if owed || c.preferred.isEmpty then
          match Arbiter.allows p g .probe stop with
          | (true, stop) => .ok (some g, c, stop)
          | (false, stop) =>
            if denied.contains g then .ok (some g, c, stop)
            else lookChecked p fuel (g :: denied) first later stop
        else lookChecked p fuel denied first later stop

/-- The next goal, where each goal that is looked at is asked of the proof. -/
def nextChecked (p : Proof) (c : Balanced) (stop : σ) :
    Except Fault (Option GoalId × Balanced × σ) :=
  if c.inner.selected.length < 2 then
    let (g, inner) := c.inner.next p
    .ok (g, { c with inner := inner }, stop)
  else
    let c := { c with preferred := c.preferred.filter p.isAutomatic }
    let (c, stop) := c.refill p stop
    lookChecked p (2 * c.inner.selected.length + 1) [] none c stop

variable {p : Proof} {c : Balanced} {stop : σ}

/-- A goal that automatic search may work on can be asked for. -/
theorem exists_goal_of_isAutomatic {g : GoalId} (h : p.isAutomatic g) :
    ∃ goal, p.goal g = .ok goal ∧ p.peek? g = goal.peek? := by
  rw [Proof.isAutomatic] at h
  cases hgoal : p.goal? g with
  | none =>
    rw [hgoal] at h
    cases h
  | some goal =>
    exact ⟨goal, by rw [Proof.goal, hgoal], by rw [Proof.peek?, hgoal, Option.bind_some]⟩

/-- **No goal is asked for that is not open**, as long as the goals that are left to hand out are
selected: only goals that automatic search may work on are looked at, and putting one off changes
nothing in this. -/
theorem lookChecked_eq {fuel : Nat} {denied : List GoalId} {first : Option GoalId}
    (h : c.inner.pending.Subperm c.inner.selected) :
    lookChecked p fuel denied first c stop = .ok (look p fuel denied first c stop) := by
  induction fuel generalizing denied first c stop with
  | zero => rfl
  | succ fuel ih =>
    rw [lookChecked, look]
    rcases DepthFirst.next_cases p h with ⟨g, rest, hnext, -, hauto, hrest⟩ | ⟨hnext, -⟩
    · obtain ⟨goal, hgoal, hpeek⟩ := exists_goal_of_isAutomatic hauto
      -- looking goes on with the same goals in another order
      have hrotate := DepthFirst.selected_rotate { c.inner with pending := rest }
      have hlater : (DepthFirst.rotate { c.inner with pending := rest }).pending.Subperm
          (DepthFirst.rotate { c.inner with pending := rest }).selected := by
        rw [DepthFirst.pending_rotate]
        exact hrest.trans hrotate.symm.subperm
      simp only [hnext, hgoal, Significance.atGoal, hpeek, bind, Except.bind]
      split
      · rfl
      · split
        · rcases Arbiter.allows p g .probe stop with ⟨_ | _, stop₁⟩ <;> simp only
          split
          · rfl
          · exact ih hlater
        · exact ih hlater
    · simp only [hnext]

theorem nextChecked_eq (h : c.inner.pending.Subperm c.inner.selected) :
    c.nextChecked p stop = .ok (c.next p stop) := by
  rw [nextChecked, next]
  split
  · rfl
  · have hinner := (Chooser.refill_cases p
        { c with preferred := c.preferred.filter p.isAutomatic } stop).1
    have hsame : ∀ {c' : Balanced}, c'.inner = c.inner →
        c'.inner.pending.Subperm c'.inner.selected := by
      rintro c' heq
      rwa [heq]
    exact lookChecked_eq (hsame hinner)

end Balanced

/-! ## Calls of a chooser -/

namespace Chooser

variable {σ : Type} [Arbiter σ]

/-- The next goal, where each goal that is looked at is asked of the proof. -/
def nextChecked (p : Proof) (stop : σ) : Chooser → Except Fault (Option GoalId × Chooser × σ)
  | depthFirst c =>
    let (g, c) := c.next p
    .ok (g, depthFirst c, stop)
  | balanced c => do
    let (g, c, stop) ← c.nextChecked p stop
    .ok (g, balanced c, stop)

/-- What can be asked of a chooser. Anything may have happened to the proof between two calls, so
each one comes with the proof that it finds, and each choice with a stop condition of its own. -/
inductive Call where
  /-- to choose among goals from now on -/
  | select (p : Proof) (goals : List GoalId)
  /-- the next goal, under a stop condition -/
  | next {σ : Type} [Arbiter σ] (p : Proof) (stop : σ)
  /-- to put goals in the place of the one that a step at a node was made on -/
  | update (p : Proof) (node : NodeId) (new : List GoalId)
  /-- to stop choosing a goal -/
  | remove (g : GoalId)
  /-- to forget all goals -/
  | clear

/-- The chooser after a call. -/
def perform (c : Chooser) : Call → Chooser
  | .select p goals => c.select p goals
  | @Call.next _ _ p stop => (c.next p stop).2.1
  | .update p node new => c.update p node new
  | .remove g => c.remove g
  | .clear => c.clear

variable {c : Chooser}

theorem sound_clear (c : Chooser) : c.clear.Sound := by
  cases c <;> exact List.nil_subperm

/-- **Every call keeps the goals that are left to hand out among the selected ones.** -/
theorem Sound.perform (h : c.Sound) (call : Call) : (c.perform call).Sound := by
  cases call with
  | select p goals => exact c.sound_select p goals
  | @next σ _ p stop =>
    exact (chooses_next h (rfl : c.next p stop = _)).sound
  | update p node new => exact c.sound_update p node new
  | remove g => exact h.remove g
  | clear => exact c.sound_clear

theorem Sound.foldl_perform (h : c.Sound) (calls : List Call) :
    (calls.foldl Chooser.perform c).Sound := by
  induction calls generalizing c with
  | nil => exact h
  | cons call calls ih => exact ih (h.perform call)

theorem Sound.nextChecked_eq (h : c.Sound) (p : Proof) (stop : σ) :
    c.nextChecked p stop = .ok (c.next p stop) := by
  cases c with
  | depthFirst c => rfl
  | balanced c =>
    rw [nextChecked, Balanced.nextChecked_eq h]
    rfl

/-- **Choosers hand out goals that can be worked on, and give up only if there is none.** A chooser
of either kind starts without goals. After any calls, for any proof and any stop condition that
leaves the proof alone, choosing asks the proof for no goal that is not open. It hands out a goal if
and only if there is a selected one that is open and that automatic search may work on, and then
such a goal is handed out. -/
theorem next_workable (c₀ : Chooser) (calls : List Call) (p : Proof) (stop : σ) :
    let c := calls.foldl perform c₀.clear
    c.nextChecked p stop = .ok (c.next p stop) ∧
      ((c.next p stop).1.isSome ↔ ∃ g ∈ c.selected, p.isOpen g ∧ p.isAutomatic g) ∧
      ∀ g ∈ (c.next p stop).1, g ∈ c.selected ∧ p.isOpen g ∧ p.isAutomatic g := by
  intro c
  have hsound : c.Sound := Sound.foldl_perform c₀.sound_clear calls
  have hchooses : Chooses p c.selected stop (c.next p stop).1 (c.next p stop).2.1
      (c.next p stop).2.2 :=
    chooses_next hsound rfl
  have hopen : ∀ {g}, p.isAutomatic g → p.isOpen g := by
    intro g hauto
    exact Option.isSome_of_any hauto
  have hworkable : ∀ g ∈ (c.next p stop).1, g ∈ c.selected ∧ p.isOpen g ∧ p.isAutomatic g := by
    intro g hg
    obtain ⟨hmem, hauto⟩ := hchooses.workable g hg
    exact ⟨hmem, hopen hauto, hauto⟩
  refine ⟨hsound.nextChecked_eq p stop, ⟨fun hsome => ?_, ?_⟩, hworkable⟩
  · obtain ⟨g, hg⟩ := Option.isSome_iff_exists.mp hsome
    exact ⟨g, hworkable g hg⟩
  · rintro ⟨g, hmem, -, hauto⟩
    refine Option.isSome_iff_ne_none.mpr fun hnone => ?_
    rw [hchooses.none hnone g hmem] at hauto
    cases hauto

end Chooser

end SequentSearch
