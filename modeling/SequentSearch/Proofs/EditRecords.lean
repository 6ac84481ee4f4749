import Mathlib.Data.List.Nodup
import Mathlib.Data.Multiset.AddSub
import Mathlib.Logic.Relation
import SequentSearch.Proofs.Editing

/-!
# The records of edits

A side of a sequent is **irredundant** if its formulas are pairwise different up to renaming and
none is trivial there. Edits keep a sequent irredundant, and their combined record tells exactly
what they did: on each side the formulas after the edits are those before, without the removed ones
and with the added ones. A record of nothing belongs to edits that left the sequent as it was, down
to the order.

Layers:

* `Change.Elementary`: one formula is inserted, removed or rejected, and the record is extended by
  that. Every edit comes apart into such steps.
* `Change.Faithful`: what ties a record to the sequent before the edits and to the one after them.
  Each elementary step keeps it, so sequences of edits do.

That a sequent is irredundant is what makes a removal cancel the right addition: a formula stands on
a side once, so the one that is removed is the one that was added.
-/

namespace SequentSearch

/-! ## Irredundant sequents -/

/-- A side that says nothing twice and nothing trivial. -/
structure Semisequent.Irredundant (side : Side) (fs : Semisequent) : Prop where
  /-- no two formulas are equal up to renaming -/
  apart : fs.Pairwise fun f g => ¬f.term.alphaEq g.term
  /-- no formula is trivial on the side -/
  nontrivial : ∀ f ∈ fs, ¬f.isTrivialOn side

namespace Semisequent.Irredundant

variable {side : Side} {fs : Semisequent}

theorem nodup (h : Irredundant side fs) : fs.Nodup := by
  refine h.apart.imp ?_
  rintro f g hfg rfl
  exact hfg f.term.alphaEq_self

theorem sublist {gs : Semisequent} (h : Irredundant side fs) (hgs : gs.Sublist fs) :
    Irredundant side gs :=
  ⟨h.apart.sublist hgs, fun f hf => h.nontrivial f (hgs.subset hf)⟩

/-- **A formula that is not redundant may be inserted anywhere.** -/
theorem insertIdx (h : Irredundant side fs) {f : SeqFormula}
    (hf : ¬isRedundant side f fs) {idx : Nat} (hidx : idx ≤ fs.length) :
    Irredundant side (fs.insertIdx idx f) := by
  rw [isRedundant, Bool.or_eq_true, List.any_eq_true, not_or] at hf
  obtain ⟨htrivial, hnew⟩ := hf
  have hperm := List.perm_insertIdx f fs hidx
  constructor
  · -- the test for redundancy looks one way, and a side is apart both ways
    have hsymm : ∀ {f g : SeqFormula}, ¬f.term.alphaEq g.term → ¬g.term.alphaEq f.term :=
      fun hfg hgf => hfg (Term.alphaEq_symm hgf)
    rw [hperm.pairwise_iff hsymm, List.pairwise_cons]
    exact ⟨fun g hg => hsymm fun hgf => hnew ⟨g, hg, hgf⟩, h.apart⟩
  · intro g hg
    rcases List.mem_cons.mp (hperm.mem_iff.mp hg) with rfl | hg
    · exact htrivial
    · exact h.nontrivial g hg

end Semisequent.Irredundant

/-- Both sides are irredundant. -/
def Sequent.Irredundant (s : Sequent) : Prop := ∀ side, Semisequent.Irredundant side (s.side side)

theorem Sequent.Irredundant.withSide {s : Sequent} {side : Side} {fs : Semisequent}
    (h : s.Irredundant) (hfs : Semisequent.Irredundant side fs) :
    (s.withSide side fs).Irredundant := by
  intro side'
  by_cases heq : side' = side
  · subst heq
    rwa [Sequent.side_withSide]
  · rw [Sequent.side_withSide_of_ne _ _ heq]
    exact h side'

/-! ## Edits come apart into elementary steps -/

theorem Sequent.withSide_self (s : Sequent) (side : Side) : s.withSide side (s.side side) = s := by
  cases side <;> rfl

theorem Sequent.withSide_withSide (s : Sequent) (side : Side) (fs gs : Semisequent) :
    (s.withSide side fs).withSide side gs = s.withSide side gs := by
  cases side <;> rfl

namespace Change

/-- Insert a formula before an index, and record it. -/
def addAt (c : Change) (side : Side) (idx : Nat) (f : SeqFormula) : Change :=
  { c with
    added := c.added ++ [(side, f)]
    sequent := c.sequent.withSide side ((c.sequent.side side).insertIdx idx f) }

/-- Remove the formula at an index, which is `f`, and record it. -/
def removeAt (c : Change) (side : Side) (idx : Nat) (f : SeqFormula) : Change :=
  { c.recordRemoval (side, f) with
    sequent := c.sequent.withSide side ((c.sequent.side side).eraseIdx idx) }

/-- One formula is inserted, removed or rejected, and the record is extended by that. -/
inductive Elementary (c : Change) : Change → Prop
  /-- a formula that is not redundant is inserted -/
  | insert {side : Side} {idx : Nat} {f : SeqFormula}
      (hidx : idx ≤ (c.sequent.side side).length)
      (hf : ¬Semisequent.isRedundant side f (c.sequent.side side)) :
      Elementary c (c.addAt side idx f)
  /-- a formula is removed -/
  | remove {side : Side} {idx : Nat} {f : SeqFormula}
      (hf : (c.sequent.side side)[idx]? = some f) :
      Elementary c (c.removeAt side idx f)
  /-- a formula is rejected -/
  | reject (e : Side × SeqFormula) :
      Elementary c { c with rejected := c.rejected ++ [e] }

/-- Any number of elementary steps. -/
abbrev Steps : Change → Change → Prop := Relation.ReflTransGen Elementary

/-- An insertion takes a step for each formula. -/
theorem steps_insertAll (c : Change) (side : Side) (idx : Nat) (new : Semisequent) :
    Steps c (c.combine (c.sequent.insertAll side idx new)) := by
  induction new generalizing c idx with
  | nil =>
    have hnone : c.combine (c.sequent.insertAll side idx []) = c := by
      simp [combine_insertAll, Semisequent.insertAll, Sequent.withSide_self]
    rw [hnone]
  | cons f new ih =>
    by_cases hf : Semisequent.isRedundant side f (c.sequent.side side)
    · refine .head (.reject (side, f)) ?_
      have hrest := ih { c with rejected := c.rejected ++ [(side, f)] } idx
      rw [combine_insertAll] at hrest ⊢
      rw [Semisequent.insertAll_redundant hf]
      simpa using hrest
    · refine .head (.insert (Nat.min_le_right idx _) hf) ?_
      have hrest := ih (c.addAt side (min idx (c.sequent.side side).length) f) (idx + 1)
      rw [combine_insertAll] at hrest ⊢
      rw [Semisequent.insertAll_novel hf]
      simpa [addAt, Sequent.withSide_withSide] using hrest

/-- A replacement is a removal with an insertion after it. -/
theorem combine_replace (c : Change) (side : Side) (idx : Nat) (new : Semisequent)
    (old : SeqFormula) :
    c.combine (c.sequent.record side
        { Semisequent.insertAll side idx new ((c.sequent.side side).eraseIdx idx) with
          removed := [old] }) =
      (c.removeAt side idx old).combine
        ((c.removeAt side idx old).sequent.insertAll side idx new) := by
  rw [combine_insertAll]
  simp [combine, removeAt, Sequent.record, Sequent.withSide_withSide]

/-- **Every edit takes elementary steps**, and the record of them is the combined one. -/
theorem steps_edit {c step : Change} {e : Edit} (h : c.sequent.edit e = .ok step) :
    Steps c (c.combine step) := by
  cases e with
  | insert side idx new =>
    obtain rfl : c.sequent.insertAll side idx new = step := Except.ok.inj h
    exact steps_insertAll c side idx new
  | remove side idx =>
    obtain ⟨i, hi, hstep⟩ := bind_eq_ok.mp h
    obtain rfl : c.sequent.record side i = step := Except.ok.inj hstep
    rw [Semisequent.remove] at hi
    split at hi
    · rename_i f hf
      obtain rfl := Except.ok.inj hi
      refine .single ?_
      have hremove := Elementary.remove hf
      simpa [combine, Sequent.record, removeAt] using hremove
    · cases hi
  | replace side idx new =>
    obtain ⟨i, hi, hstep⟩ := bind_eq_ok.mp h
    obtain rfl : c.sequent.record side i = step := Except.ok.inj hstep
    obtain ⟨old, hold, ⟨f, rfl, halpha, rfl⟩ | rfl⟩ := Semisequent.replace_cases hi
    · refine .single ?_
      have hreject := Elementary.reject (c := c) (side, f)
      simpa [combine, Sequent.record, Sequent.withSide_self] using hreject
    · rw [combine_replace]
      exact .head (.remove hold) (steps_insertAll _ side idx new)

end Change

/-! ## What an elementary step does to the sides -/

/-- A test that an element fails does not see where it is inserted. -/
theorem filter_insertIdx_of_neg {α : Type} {p : α → Bool} {a : α} (ha : p a = false) (l : List α)
    (idx : Nat) : (l.insertIdx idx a).filter p = l.filter p := by
  induction l generalizing idx with
  | nil => cases idx <;> simp [ha]
  | cons b l ih => cases idx <;> simp [List.filter_cons, ha, ih]

namespace Sequent

variable {s : Sequent} {side : Side} {idx : Nat} {f : SeqFormula}

theorem count_insertIdx (hidx : idx ≤ (s.side side).length) (side' : Side) (g : SeqFormula) :
    ((s.withSide side ((s.side side).insertIdx idx f)).side side').count g =
      (s.side side').count g + [(side, f)].count (side', g) := by
  by_cases heq : side' = side
  · subst heq
    rw [side_withSide, (List.perm_insertIdx f _ hidx).count_eq]
    simp [List.count_cons]
  · rw [side_withSide_of_ne _ _ heq]
    simp [Ne.symm heq]

theorem count_eraseIdx (hf : (s.side side)[idx]? = some f) (side' : Side) (g : SeqFormula) :
    ((s.withSide side ((s.side side).eraseIdx idx)).side side').count g +
      [(side, f)].count (side', g) = (s.side side').count g := by
  by_cases heq : side' = side
  · subst heq
    rw [side_withSide, (Semisequent.perm_of_getElem? hf).count_eq]
    simp [List.count_cons]
  · rw [side_withSide_of_ne _ _ heq]
    simp [Ne.symm heq]

/-- A test that the inserted formula fails sees the sides as they were. -/
theorem filter_insertIdx {p : Side × SeqFormula → Bool} (hp : p (side, f) = false) (side' : Side) :
    ((s.withSide side ((s.side side).insertIdx idx f)).side side').filter (fun g => p (side', g)) =
      (s.side side').filter fun g => p (side', g) := by
  by_cases heq : side' = side
  · subst heq
    rw [side_withSide]
    exact filter_insertIdx_of_neg (p := fun g => p (side', g)) hp _ _
  · rw [side_withSide_of_ne _ _ heq]

/-- Where every formula stands once, the removed one is the only one that is gone. -/
theorem side_eraseIdx (hs : s.Nodup) (hf : (s.side side)[idx]? = some f) (side' : Side) :
    (s.withSide side ((s.side side).eraseIdx idx)).side side' =
      (s.side side').filter fun g => (side', g) ≠ (side, f) := by
  by_cases heq : side' = side
  · subst heq
    obtain ⟨hidx, rfl⟩ := List.getElem?_eq_some_iff.mp hf
    rw [side_withSide, ← (hs side').erase_getElem idx hidx, (hs side').erase_eq_filter]
    refine List.filter_congr fun g _ => ?_
    simp [bne, beq_eq_decide]
  · rw [side_withSide_of_ne _ _ heq]
    simp [heq]

end Sequent

/-! ## Faithful records -/

namespace Change

/-- **A record is faithful** to the sequent `s` before the edits: the sequent after them is
irredundant and has the formulas that the record tells, in the order that they had. -/
structure Faithful (s : Sequent) (c : Change) : Prop where
  /-- the sequent after the edits is irredundant -/
  irredundant : c.sequent.Irredundant
  /-- what was there and what was added is there or was removed -/
  balance : ∀ side f, (c.sequent.side side).count f + c.removed.count (side, f) =
    (s.side side).count f + c.added.count (side, f)
  /-- what is recorded as removed was there -/
  removed_le : ∀ side f, c.removed.count (side, f) ≤ (s.side side).count f
  /-- what was neither added nor removed has kept its order -/
  order : ∀ side, (c.sequent.side side).filter (fun f => (side, f) ∉ c.added) =
    (s.side side).filter fun f => (side, f) ∉ c.removed

namespace Faithful

variable {s : Sequent} {c : Change} {side : Side} {idx : Nat} {f : SeqFormula}

theorem unchanged (h : s.Irredundant) : Faithful s (unchanged s) where
  irredundant := h
  balance _ _ := rfl
  removed_le _ _ := Nat.zero_le _
  order _ := rfl

/-- No formula is recorded as added twice. -/
theorem count_added_le_one (h : Faithful s c) (side : Side) (f : SeqFormula) :
    c.added.count (side, f) ≤ 1 := by
  have hbalance := h.balance side f
  have hle := h.removed_le side f
  have honce := List.nodup_iff_count_le_one.mp (h.irredundant side).nodup f
  omega

/-- Inserting a formula keeps a record faithful. -/
theorem addAt (h : Faithful s c) (hidx : idx ≤ (c.sequent.side side).length)
    (hf : ¬Semisequent.isRedundant side f (c.sequent.side side)) :
    Faithful s (c.addAt side idx f) := by
  refine ⟨h.irredundant.withSide ((h.irredundant side).insertIdx hf hidx), fun side' g => ?_,
    h.removed_le, fun side' => ?_⟩
  · have hbalance := h.balance side' g
    have hcount := Sequent.count_insertIdx (f := f) hidx side' g
    simp only [Change.addAt, List.count_append]
    omega
  · -- the new formula was not there, so the test for the old additions does not see the new one
    have hsame : ∀ g ∈ c.sequent.side side', (side', g) ≠ (side, f) := by
      rintro g hg heq
      cases heq
      exact Semisequent.not_mem_of_not_redundant hf hg
    have hfails : decide ((side, f) ∉ c.added ++ [(side, f)]) = false := by simp
    refine (Sequent.filter_insertIdx (p := fun e => decide (e ∉ c.added ++ [(side, f)])) hfails
      side').trans ?_
    refine Eq.trans (List.filter_congr fun g hg => ?_) (h.order side')
    simp [hsame g hg]

/-- Taking an addition back keeps a record faithful. -/
theorem cancel (h : Faithful s c) (hf : (c.sequent.side side)[idx]? = some f)
    (hadded : (side, f) ∈ c.added) :
    Faithful s { c with
      added := c.added.erase (side, f)
      sequent := c.sequent.withSide side ((c.sequent.side side).eraseIdx idx) } := by
  have hsub := List.eraseIdx_sublist (c.sequent.side side) idx
  have hperm := List.perm_cons_erase hadded
  have honce := h.count_added_le_one side f
  rw [hperm.count_eq, List.count_cons_self] at honce
  have hgone : (side, f) ∉ c.added.erase (side, f) := List.count_eq_zero.mp (by omega)
  refine ⟨h.irredundant.withSide ((h.irredundant side).sublist hsub), fun side' g => ?_,
    h.removed_le, fun side' => ?_⟩
  · have hbalance := h.balance side' g
    have hcount := Sequent.count_eraseIdx hf side' g
    rw [hperm.count_eq, List.count_cons, ← List.count_singleton] at hbalance
    show ((c.sequent.withSide side ((c.sequent.side side).eraseIdx idx)).side side').count g +
      c.removed.count (side', g) = (s.side side').count g +
        (c.added.erase (side, f)).count (side', g)
    omega
  · rw [Sequent.side_eraseIdx (fun side => (h.irredundant side).nodup) hf, ← h.order side',
      List.filter_filter]
    refine List.filter_congr fun g _ => ?_
    by_cases heq : (side', g) = (side, f)
    · simp [heq, hadded]
    · simp [heq, List.mem_erase_of_ne heq]

/-- Recording a removal keeps a record faithful. -/
theorem remove (h : Faithful s c) (hf : (c.sequent.side side)[idx]? = some f)
    (hadded : (side, f) ∉ c.added) :
    Faithful s { c with
      removed := c.removed ++ [(side, f)]
      sequent := c.sequent.withSide side ((c.sequent.side side).eraseIdx idx) } := by
  have hsub := List.eraseIdx_sublist (c.sequent.side side) idx
  refine ⟨h.irredundant.withSide ((h.irredundant side).sublist hsub), fun side' g => ?_,
    fun side' g => ?_, fun side' => ?_⟩
  · have hbalance := h.balance side' g
    have hcount := Sequent.count_eraseIdx hf side' g
    simp only [List.count_append]
    omega
  · have hbalance := h.balance side' g
    have hcount := Sequent.count_eraseIdx hf side' g
    have hle := h.removed_le side' g
    simp only [List.count_append]
    by_cases heq : (side', g) = (side, f)
    · have hnone : c.added.count (side', g) = 0 := by rw [heq]; exact List.count_eq_zero.mpr hadded
      omega
    · have hnone : [(side, f)].count (side', g) = 0 := by
        rw [List.count_eq_zero, List.mem_singleton]
        exact heq
      omega
  · rw [Sequent.side_eraseIdx (fun side => (h.irredundant side).nodup) hf, List.filter_filter]
    refine Eq.trans (b := ((c.sequent.side side').filter fun g => (side', g) ∉ c.added).filter
      fun g => (side', g) ≠ (side, f)) ?_ ?_
    · rw [List.filter_filter]
      exact List.filter_congr fun g _ => Bool.and_comm _ _
    · rw [h.order side', List.filter_filter]
      refine List.filter_congr fun g _ => ?_
      simp [Bool.and_comm]

/-- **Elementary steps keep a record faithful.** -/
theorem elementary {d : Change} (h : Faithful s c) (hstep : Elementary c d) : Faithful s d := by
  cases hstep with
  | insert hidx hf => exact h.addAt hidx hf
  | @remove side idx f hf =>
    rw [removeAt, recordRemoval]
    split <;> rename_i hadded
    · exact h.cancel hf (List.contains_iff_mem.mp hadded)
    · exact h.remove hf fun hmem => hadded (List.contains_iff_mem.mpr hmem)
  | reject e => exact ⟨h.irredundant, h.balance, h.removed_le, h.order⟩

theorem steps {d : Change} (h : Faithful s c) (hsteps : Steps c d) : Faithful s d := by
  induction hsteps with
  | refl => exact h
  | tail _ hstep ih => exact ih.elementary hstep

/-- Of a faithful record of nothing, the sequent is the one before the edits. -/
theorem sequent_eq (h : Faithful s c) (hc : c.hasChanged = false) : c.sequent = s := by
  obtain ⟨hadded, hremoved⟩ : c.added = [] ∧ c.removed = [] := by
    simpa [hasChanged] using hc
  have hside : ∀ side, c.sequent.side side = s.side side := by
    intro side
    have horder := h.order side
    simpa [hadded, hremoved] using horder
  have hantec := hside .antec
  have hsucc := hside .succ
  cases hs : c.sequent
  cases s
  simp_all [Sequent.side]

end Faithful

end Change

/-! ## Sequences of edits -/

/-- The index of an edit is that of a formula; formulas can be inserted before any index. -/
def Edit.InRange (s : Sequent) : Edit → Prop
  | .insert .. => True
  | .remove side idx => idx < (s.side side).length
  | .replace side idx _ => idx < (s.side side).length

instance (s : Sequent) (e : Edit) : Decidable (e.InRange s) :=
  match e with
  | .insert .. => .isTrue trivial
  | .remove side idx => inferInstanceAs (Decidable (idx < (s.side side).length))
  | .replace side idx _ => inferInstanceAs (Decidable (idx < (s.side side).length))

/-- An edit in range is made. -/
theorem Sequent.exists_edit {s : Sequent} {e : Edit} (h : e.InRange s) :
    ∃ step, s.edit e = .ok step := by
  cases e with
  | insert side idx new => exact ⟨_, rfl⟩
  | remove side idx =>
    have hold := List.getElem?_eq_getElem h
    obtain ⟨i, hi⟩ : ∃ i, Semisequent.remove idx (s.side side) = .ok i := by
      rw [Semisequent.remove, hold]
      exact ⟨_, rfl⟩
    exact ⟨_, bind_eq_ok.mpr ⟨i, hi, rfl⟩⟩
  | replace side idx new =>
    have hold := List.getElem?_eq_getElem h
    obtain ⟨i, hi⟩ : ∃ i, Semisequent.replace side idx new (s.side side) = .ok i := by
      rw [Semisequent.replace, hold]
      dsimp only
      split
      · split
        · exact ⟨_, rfl⟩
        · exact ⟨_, rfl⟩
      · exact ⟨_, rfl⟩
    exact ⟨_, bind_eq_ok.mpr ⟨i, hi, rfl⟩⟩

namespace Change

/-- Make edits one after another, and combine their records with that of the edits before. -/
def editAll (c : Change) : List Edit → Except Fault Change
  | [] => .ok c
  | e :: es => do (c.combine (← c.sequent.edit e)).editAll es

/-- Every edit is in range of the sequent that the edits before it leave. -/
def AllInRange (c : Change) : List Edit → Prop
  | [] => True
  | e :: es => e.InRange c.sequent ∧
      ∀ step, c.sequent.edit e = .ok step → (c.combine step).AllInRange es

theorem AllInRange.take {c : Change} {es : List Edit} (h : c.AllInRange es) (n : Nat) :
    c.AllInRange (es.take n) := by
  induction es generalizing c n with
  | nil => rwa [List.take_nil]
  | cons e es ih =>
    cases n with
    | zero => trivial
    | succ n => exact ⟨h.1, fun step hstep => ih (h.2 step hstep) n⟩

/-- **Edits in range are made**, and take elementary steps. -/
theorem exists_editAll {c : Change} {es : List Edit} (h : c.AllInRange es) :
    ∃ d, c.editAll es = .ok d ∧ Steps c d := by
  induction es generalizing c with
  | nil => exact ⟨c, rfl, .refl⟩
  | cons e es ih =>
    obtain ⟨step, hstep⟩ := Sequent.exists_edit h.1
    obtain ⟨d, hd, hsteps⟩ := ih (h.2 step hstep)
    exact ⟨d, bind_eq_ok.mpr ⟨step, hstep, hd⟩, (steps_edit hstep).trans hsteps⟩

/-- The formulas that a record tells of one side. -/
def onSide (side : Side) (es : List (Side × SeqFormula)) : Multiset SeqFormula :=
  ((es.filter fun e => e.1 = side).map Prod.snd : List SeqFormula)

theorem count_onSide (side : Side) (es : List (Side × SeqFormula)) (f : SeqFormula) :
    (onSide side es).count f = es.count (side, f) := by
  rw [onSide, Multiset.coe_count]
  induction es with
  | nil => rfl
  | cons e es ih =>
    obtain ⟨side', g⟩ := e
    by_cases heq : side' = side
    · subst heq
      simp [List.count_cons, ih]
    · simp [heq, ih]

/-- **On each side the formulas after the edits are those before, without the removed ones and with
the added ones.** -/
theorem Faithful.sub_add {s : Sequent} {c : Change} (h : Faithful s c) (side : Side) :
    onSide side c.removed ≤ s.side side ∧
      (c.sequent.side side : Multiset SeqFormula) =
        s.side side - onSide side c.removed + onSide side c.added := by
  constructor
  · refine Multiset.le_iff_count.mpr fun f => ?_
    rw [count_onSide, Multiset.coe_count]
    exact h.removed_le side f
  · ext f
    have hbalance := h.balance side f
    have hle := h.removed_le side f
    rw [Multiset.count_add, Multiset.count_sub, count_onSide, count_onSide, Multiset.coe_count,
      Multiset.coe_count]
    omega

/-- **Edits keep a sequent irredundant and tell exactly what they did.** From an irredundant
sequent, a sequence of edits in range is made to its end; the sequent is irredundant after each of
them. On each side the formulas at the end are those at the beginning, without the removed ones
(which were all there) and with the added ones, and a record without changes belongs to edits that
left the sequent as it was. -/
theorem editAll_tells {s : Sequent} (hs : s.Irredundant) {es : List Edit}
    (hes : (unchanged s).AllInRange es) :
    (∀ n, ∃ d, (unchanged s).editAll (es.take n) = .ok d ∧ d.sequent.Irredundant) ∧
      ∃ c, (unchanged s).editAll es = .ok c ∧
        (∀ side, onSide side c.removed ≤ s.side side ∧
          (c.sequent.side side : Multiset SeqFormula) =
            s.side side - onSide side c.removed + onSide side c.added) ∧
        (c.hasChanged = false → c.sequent = s) := by
  constructor
  · intro n
    obtain ⟨d, hd, hsteps⟩ := exists_editAll (hes.take n)
    exact ⟨d, hd, ((Faithful.unchanged hs).steps hsteps).irredundant⟩
  · obtain ⟨c, hc, hsteps⟩ := exists_editAll hes
    have hfaithful := (Faithful.unchanged hs).steps hsteps
    exact ⟨c, hc, hfaithful.sub_add, hfaithful.sequent_eq⟩

/-- A sequent with one formula on each side. -/
private def opposed : Sequent where
  antec := [⟨.quantify .all [.logic { name := "x", sort := .any }] (.atom "p"), rfl⟩]
  succ := [⟨.atom "q", rfl⟩]

/-- Edits of it: a formula is added, one that differs by renaming only is rejected, the addition is
replaced by `true`, which is trivial there, and the other side stays as it is. -/
private def fruitless : List Edit :=
  [.insert .antec 0 [⟨.atom "r", rfl⟩,
      ⟨.quantify .all [.logic { name := "y", sort := .any }] (.atom "p"), rfl⟩],
    .replace .antec 0 [⟨.top, rfl⟩, ⟨.top, rfl⟩],
    .replace .succ 0 [⟨.atom "q", rfl⟩]]

theorem editAll_tells_fruitless :
    ∃ c, (unchanged opposed).editAll fruitless = .ok c ∧ c.rejected.length = 4 ∧
      c.sequent = opposed := by
  have hs : opposed.Irredundant := by
    rintro (_ | _) <;> exact ⟨List.pairwise_singleton _ _, by decide⟩
  have hes : (unchanged opposed).AllInRange fruitless := by
    refine ⟨trivial, fun step hstep => ?_⟩
    obtain rfl := Except.ok.inj hstep
    refine ⟨by decide, fun step hstep => ?_⟩
    obtain rfl := Except.ok.inj hstep
    exact ⟨by decide, fun _ _ => trivial⟩
  obtain ⟨-, c, hc, -, hsame⟩ := editAll_tells hs hes
  have hrun : (unchanged opposed).editAll fruitless = .ok _ := rfl
  obtain rfl := Except.ok.inj (hrun.symm.trans hc)
  exact ⟨_, hc, rfl, hsame rfl⟩

end Change

end SequentSearch
