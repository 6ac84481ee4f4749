import Mathlib.Algebra.Order.BigOperators.Group.List
import Mathlib.Algebra.Order.Ring.Nat
import Mathlib.Data.List.Forall2
import Mathlib.Data.List.Perm.Basic
import SequentSearch.Proofs.Alpha
import SequentSearch.Sequent.Edit

/-!
# What edits do to a sequent

Adding formulas leaves out the redundant ones, so the sequent after an edit need not hold all
formulas that were to be added. It still *says* the same. A property of formulas **respects
redundancy** if trivial formulas have it and equality up to renaming keeps it; for such a property,
all formulas of the result have it if and only if all old and all new ones do.

`Change.Adds s kept new c` collects what the record `c` of a sequence of edits tells: `s` is the
sequent before, `kept` what is left of it after the replaced formula is gone, and `new` the formulas
that were to be added. Each edit establishes or extends it, so it holds of everything that a rule
does to a sequent.
-/

namespace SequentSearch

/-- A computation that succeeds does so in both its parts. -/
theorem bind_eq_ok {ε α β : Type} {x : Except ε α} {f : α → Except ε β} {b : β} :
    x >>= f = .ok b ↔ ∃ a, x = .ok a ∧ f a = .ok b := by
  cases x with
  | error e =>
    constructor
    · intro h
      cases h
    · rintro ⟨a, h, -⟩
      cases h
  | ok a =>
    constructor
    · exact fun h => ⟨a, rfl, h⟩
    · rintro ⟨a', ha', h⟩
      obtain rfl : a = a' := Except.ok.inj ha'
      exact h

/-- A list of computations that succeeds does so in each of them. -/
theorem mapM_eq_ok {ε α β : Type} {f : α → Except ε β} {l : List α} {l' : List β} :
    l.mapM f = .ok l' ↔ List.Forall₂ (fun a b => f a = .ok b) l l' := by
  induction l generalizing l' with
  | nil =>
    rw [List.mapM_nil, List.forall₂_nil_left_iff]
    exact ⟨fun h => (Except.ok.inj h).symm, fun h => h ▸ rfl⟩
  | cons a l ih =>
    rw [List.mapM_cons, List.forall₂_cons_left_iff]
    constructor
    · intro h
      obtain ⟨b, hb, h⟩ := bind_eq_ok.mp h
      obtain ⟨bs, hbs, h⟩ := bind_eq_ok.mp h
      exact ⟨b, bs, hb, ih.mp hbs, (Except.ok.inj h).symm⟩
    · rintro ⟨b, bs, hb, hbs, rfl⟩
      exact bind_eq_ok.mpr ⟨b, hb, bind_eq_ok.mpr ⟨bs, ih.mpr hbs, rfl⟩⟩

/-! ## Sides -/

/-- What is related to a list from the left is related to a member of it. -/
theorem exists_left_of_forall₂ {α β : Type} {R : α → β → Prop} {l : List α} {l' : List β} {b : β}
    (h : List.Forall₂ R l l') (hb : b ∈ l') : ∃ a ∈ l, R a b := by
  induction h with
  | nil => cases hb
  | cons hR _ ih =>
    rcases List.mem_cons.mp hb with rfl | hb
    · exact ⟨_, List.mem_cons_self .., hR⟩
    · obtain ⟨a, ha, hab⟩ := ih hb
      exact ⟨a, List.mem_cons_of_mem _ ha, hab⟩

theorem exists_right_of_forall₂ {α β : Type} {R : α → β → Prop} {l : List α} {l' : List β} {a : α}
    (h : List.Forall₂ R l l') (ha : a ∈ l) : ∃ b ∈ l', R a b :=
  exists_left_of_forall₂ h.flip ha

namespace Sequent

@[simp] theorem side_withSide (s : Sequent) (side : Side) (fs : Semisequent) :
    (s.withSide side fs).side side = fs := by
  cases side <;> rfl

theorem side_withSide_of_ne (s : Sequent) {side side' : Side} (fs : Semisequent)
    (h : side' ≠ side) : (s.withSide side fs).side side' = s.side side' := by
  cases side <;> cases side' <;> simp_all [withSide, Sequent.side]

theorem mem_formulas {s : Sequent} {side : Side} {f : SeqFormula} :
    (side, f) ∈ s.formulas ↔ f ∈ s.side side := by
  cases side <;> simp [formulas, Sequent.side]

/-- All formulas of a sequent have a property that may depend on the side. -/
def All (R : Side → SeqFormula → Prop) (s : Sequent) : Prop := ∀ side, ∀ f ∈ s.side side, R side f

theorem all_withSide {R : Side → SeqFormula → Prop} (s : Sequent) (side : Side) (fs : Semisequent) :
    (s.withSide side fs).All R ↔
      (∀ f ∈ fs, R side f) ∧ ∀ f ∈ s.side side.other, R side.other f := by
  constructor
  · intro h
    refine ⟨fun f hf => h side f (by rwa [side_withSide]), fun f hf => h side.other f ?_⟩
    rw [side_withSide_of_ne]
    · exact hf
    · cases side <;> simp [Side.other]
  · rintro ⟨hhere, hthere⟩ side' f hf
    by_cases heq : side' = side
    · subst heq
      exact hhere f (by rwa [side_withSide] at hf)
    · obtain rfl : side' = side.other := by cases side <;> cases side' <;> simp_all [Side.other]
      exact hthere f (by rwa [side_withSide_of_ne s fs heq] at hf)

theorem all_iff {R : Side → SeqFormula → Prop} (s : Sequent) (side : Side) :
    s.All R ↔ (∀ f ∈ s.side side, R side f) ∧ ∀ f ∈ s.side side.other, R side.other f := by
  have h := all_withSide (R := R) s side (s.side side)
  cases side <;> exact h

/-- No formula is on one side twice. -/
def Nodup (s : Sequent) : Prop := ∀ side, (s.side side).Nodup

/-- The sum of a weight over all formulas. -/
def total (w : SeqFormula → Nat) (s : Sequent) : Nat := (s.antec.map w).sum + (s.succ.map w).sum

theorem total_withSide (w : SeqFormula → Nat) (s : Sequent) (side : Side) (fs : Semisequent) :
    (s.withSide side fs).total w = (fs.map w).sum + ((s.side side.other).map w).sum := by
  cases side <;> simp [withSide, total, Side.other, Sequent.side, Nat.add_comm]

theorem total_eq (w : SeqFormula → Nat) (s : Sequent) (side : Side) :
    s.total w = ((s.side side).map w).sum + ((s.side side.other).map w).sum := by
  cases side <;> simp [total, Side.other, Sequent.side, Nat.add_comm]

end Sequent

/-- A property of the formulas on a side that does not see redundancy: trivial formulas have it, and
formulas that are equal up to renaming have it together. -/
structure RespectsRedundancy (R : Side → SeqFormula → Prop) : Prop where
  /-- trivial formulas have the property -/
  trivial : ∀ {side f}, f.isTrivialOn side → R side f
  /-- renaming keeps the property -/
  alpha : ∀ {side f g}, f.term.alphaEq g.term → (R side f ↔ R side g)

/-! ## Edits of one side -/

namespace Semisequent

variable {side : Side} {fs new : Semisequent} {idx : Nat}

theorem insertAll_redundant {f : SeqFormula} (h : isRedundant side f fs) :
    insertAll side idx (f :: new) fs =
      { insertAll side idx new fs with rejected := f :: (insertAll side idx new fs).rejected } := by
  rw [insertAll, if_pos h]

theorem insertAll_novel {f : SeqFormula} (h : ¬isRedundant side f fs) :
    insertAll side idx (f :: new) fs =
      let c := insertAll side (idx + 1) new (fs.insertIdx (min idx fs.length) f)
      { c with added := f :: c.added } := by
  rw [insertAll, if_neg h]

/-- A formula that is not redundant is not there yet. -/
theorem not_mem_of_not_redundant {f : SeqFormula} (h : ¬isRedundant side f fs) : f ∉ fs := by
  intro hf
  refine h ?_
  rw [isRedundant, Bool.or_eq_true, List.any_eq_true]
  exact .inr ⟨f, hf, f.term.alphaEq_self⟩

/-- **Insertion adds what it records**: the new side has the old formulas and the added ones. -/
theorem insertAll_perm (side : Side) (idx : Nat) (new fs : Semisequent) :
    (insertAll side idx new fs).result.Perm ((insertAll side idx new fs).added ++ fs) := by
  induction new generalizing idx fs with
  | nil => exact List.Perm.refl _
  | cons f new ih =>
    by_cases h : isRedundant side f fs
    · rw [insertAll_redundant h]
      exact ih idx fs
    · rw [insertAll_novel h]
      refine (ih _ _).trans ?_
      refine ((List.perm_insertIdx f fs (Nat.min_le_right ..)).append_left _).trans ?_
      exact List.perm_middle

theorem insertAll_added_sublist (side : Side) (idx : Nat) (new fs : Semisequent) :
    (insertAll side idx new fs).added.Sublist new := by
  induction new generalizing idx fs with
  | nil => exact .slnil
  | cons f new ih =>
    by_cases h : isRedundant side f fs
    · rw [insertAll_redundant h]
      exact (ih idx fs).cons f
    · rw [insertAll_novel h]
      exact (ih _ _).cons_cons f

theorem insertAll_removed (side : Side) (idx : Nat) (new fs : Semisequent) :
    (insertAll side idx new fs).removed = [] := by
  induction new generalizing idx fs with
  | nil => rfl
  | cons f new ih =>
    by_cases h : isRedundant side f fs
    · rw [insertAll_redundant h]
      exact ih idx fs
    · rw [insertAll_novel h]
      exact ih _ _

theorem nodup_insertAll (h : fs.Nodup) : (insertAll side idx new fs).result.Nodup := by
  induction new generalizing idx fs with
  | nil => exact h
  | cons f new ih =>
    by_cases hf : isRedundant side f fs
    · rw [insertAll_redundant hf]
      exact ih h
    · rw [insertAll_novel hf]
      refine ih ((List.perm_insertIdx f fs (Nat.min_le_right ..)).nodup_iff.mpr ?_)
      exact List.nodup_cons.mpr ⟨not_mem_of_not_redundant hf, h⟩

/-- **Leaving out redundant formulas loses nothing**: a property that respects redundancy holds of
all formulas after the insertion if and only if it holds of the old and the new ones. -/
theorem forall_insertAll {R : Side → SeqFormula → Prop} (hR : RespectsRedundancy R) (side : Side)
    (idx : Nat) (new fs : Semisequent) :
    (∀ f ∈ (insertAll side idx new fs).result, R side f) ↔
      (∀ f ∈ fs, R side f) ∧ ∀ f ∈ new, R side f := by
  induction new generalizing idx fs with
  | nil =>
    have : (∀ f ∈ fs, R side f) ∧ (∀ f ∈ ([] : Semisequent), R side f) ↔ ∀ f ∈ fs, R side f := by
      simp
    exact this.symm
  | cons f new ih =>
    by_cases h : isRedundant side f fs
    · rw [insertAll_redundant h, ih]
      have hf : (∀ g ∈ fs, R side g) → R side f := by
        intro hfs
        rcases Bool.or_eq_true_iff.mp h with h | h
        · exact hR.trivial h
        · obtain ⟨g, hg, hgf⟩ := List.any_eq_true.mp h
          exact (hR.alpha hgf).mp (hfs g hg)
      rw [List.forall_mem_cons]
      constructor
      · rintro ⟨hfs, hnew⟩
        exact ⟨hfs, hf hfs, hnew⟩
      · rintro ⟨hfs, -, hnew⟩
        exact ⟨hfs, hnew⟩
    · rw [insertAll_novel h]
      simp only [ih, List.mem_insertIdx (Nat.min_le_right idx fs.length), List.forall_mem_cons,
        forall_eq_or_imp]
      constructor
      · rintro ⟨⟨hf, hfs⟩, hnew⟩
        exact ⟨hfs, hf, hnew⟩
      · rintro ⟨hfs, hf, hnew⟩
        exact ⟨⟨hf, hfs⟩, hnew⟩

theorem perm_of_getElem? {old : SeqFormula} (h : fs[idx]? = some old) :
    fs.Perm (old :: fs.eraseIdx idx) := by
  obtain ⟨hidx, rfl⟩ := List.getElem?_eq_some_iff.mp h
  exact (List.getElem_cons_eraseIdx_perm hidx).symm

/-- **The two ways to replace a formula**: a single formula that is equal to it up to renaming
changes nothing, and anything else is inserted in its place. -/
theorem replace_cases {c : SideChange} (h : replace side idx new fs = .ok c) :
    ∃ old, fs[idx]? = some old ∧
      ((∃ f, new = [f] ∧ f.term.alphaEq old.term ∧ c = { rejected := [f], result := fs }) ∨
        c = { insertAll side idx new (fs.eraseIdx idx) with removed := [old] }) := by
  rw [replace] at h
  split at h
  · cases h
  · rename_i old hold
    refine ⟨old, hold, ?_⟩
    split at h
    · split at h <;> rename_i halpha
      · exact .inl ⟨_, rfl, halpha, (Except.ok.inj h).symm⟩
      · exact .inr (Except.ok.inj h).symm
    · exact .inr (Except.ok.inj h).symm

end Semisequent

/-- No formula is in a sequent of given formulas twice. -/
theorem Sequent.nodup_ofFormulas (antec succ : List SeqFormula) :
    (ofFormulas antec succ).Nodup := by
  intro side
  cases side with
  | antec => exact Semisequent.nodup_insertAll List.nodup_nil
  | succ => exact Semisequent.nodup_insertAll List.nodup_nil

/-! ## Sequences of edits -/

namespace Change

/-- What a sequence of edits does to the sequent `s`: it leaves `kept` of it and adds `new` to that,
as far as it is not redundant. -/
structure Adds (s kept : Sequent) (new : List (Side × SeqFormula)) (c : Change) : Prop where
  /-- what respects redundancy holds after the edits if it holds of what is kept and what is new -/
  all_iff : ∀ {R}, RespectsRedundancy R →
    (c.sequent.All R ↔ kept.All R ∧ ∀ e ∈ new, R e.1 e.2)
  /-- a formula after the edits was there before or is new -/
  mem : ∀ {side f}, f ∈ c.sequent.side side → f ∈ s.side side ∨ (side, f) ∈ new
  /-- only new formulas are recorded as added -/
  added : ∀ e ∈ c.added, e ∈ new
  /-- no formula is added twice -/
  nodup : s.Nodup → c.sequent.Nodup
  /-- a formula is there after the edits if it is recorded as added, or it was there and is not
  recorded as removed -/
  stays : ∀ {side f}, (side, f) ∈ c.added ∨ f ∈ s.side side ∧ (side, f) ∉ c.removed →
    f ∈ c.sequent.side side
  /-- and only then, if no formula was there twice -/
  recorded : s.Nodup → ∀ {side f}, f ∈ c.sequent.side side →
    (side, f) ∈ c.added ∨ f ∈ s.side side ∧ (side, f) ∉ c.removed
  /-- a weight that does not see renaming grows by no more than that of the new formulas -/
  total_le : ∀ w : SeqFormula → Nat, (∀ f g, f.term.alphaEq g.term → w f = w g) →
    c.sequent.total w ≤ kept.total w + (new.map fun e => w e.2).sum

theorem adds_unchanged (s : Sequent) : Adds s s [] (unchanged s) where
  all_iff _ := by simp [unchanged]
  mem hf := .inl hf
  added _ he := he
  nodup h := h
  stays hf := by simpa [unchanged] using hf
  recorded _ _ _ hf := by simpa [unchanged] using hf
  total_le _ _ := by simp [unchanged]

/-- The record of edits says which formulas are there after them. -/
theorem Adds.tracks {s kept : Sequent} {new : List (Side × SeqFormula)} {c : Change}
    (h : Adds s kept new c) (hs : s.Nodup) {side : Side} {f : SeqFormula} :
    f ∈ c.sequent.side side ↔
      (side, f) ∈ c.added ∨ f ∈ s.side side ∧ (side, f) ∉ c.removed :=
  ⟨h.recorded hs, h.stays⟩

/-- The record of edits after which formulas were inserted on a side. -/
theorem combine_insertAll (c : Change) (side : Side) (idx : Nat) (fs : Semisequent) :
    c.combine (c.sequent.insertAll side idx fs) =
      let i := Semisequent.insertAll side idx fs (c.sequent.side side)
      { added := c.added ++ i.added.map (side, ·), removed := c.removed
        rejected := c.rejected ++ i.rejected.map (side, ·)
        sequent := c.sequent.withSide side i.result } := by
  have hremoved := Semisequent.insertAll_removed side idx fs (c.sequent.side side)
  rw [combine, Sequent.insertAll, Sequent.record, hremoved]
  rfl

theorem foldl_recordRemoval {c : Change} (hc : c.added = []) (removed : List (Side × SeqFormula)) :
    removed.foldl recordRemoval c = { c with removed := c.removed ++ removed } := by
  induction removed generalizing c with
  | nil => simp
  | cons e removed ih =>
    have he : c.recordRemoval e = { c with removed := c.removed ++ [e] } := by
      rw [recordRemoval, hc]
      simp
    have hrest := ih (c := { c with removed := c.removed ++ [e] }) hc
    rw [List.foldl_cons, he, hrest, List.append_assoc, List.singleton_append]

/-- The record of a first edit is the record of the edit. -/
theorem unchanged_combine (s : Sequent) (next : Change) : (unchanged s).combine next = next := by
  rw [combine, foldl_recordRemoval rfl]
  simp [unchanged]

variable {s kept : Sequent} {new : List (Side × SeqFormula)} {c : Change}

theorem forall_mem_map_side {R : Side → SeqFormula → Prop} {side : Side} {fs : Semisequent} :
    (∀ e ∈ fs.map (side, ·), R e.1 e.2) ↔ ∀ f ∈ fs, R side f := by
  simp

theorem sum_map_side {w : SeqFormula → Nat} {side : Side} {fs : Semisequent} :
    ((fs.map (side, ·)).map fun e => w e.2).sum = (fs.map w).sum := by
  rw [List.map_map]
  rfl

theorem mem_withSide {s : Sequent} {side side' : Side} {fs : Semisequent} {f : SeqFormula} :
    f ∈ (s.withSide side fs).side side' ↔
      (side' = side ∧ f ∈ fs) ∨ (side' ≠ side ∧ f ∈ s.side side') := by
  by_cases heq : side' = side
  · subst heq
    simp [Sequent.side_withSide]
  · simp [Sequent.side_withSide_of_ne s fs heq, heq]

/-- **Inserting after other edits** adds the inserted formulas to the new ones. -/
theorem Adds.insertAll (h : Adds s kept new c) (side : Side) (idx : Nat) (fs : Semisequent) :
    Adds s kept (new ++ fs.map (side, ·)) (c.combine (c.sequent.insertAll side idx fs)) := by
  have hperm := Semisequent.insertAll_perm side idx fs (c.sequent.side side)
  have hsub := Semisequent.insertAll_added_sublist side idx fs (c.sequent.side side)
  rw [combine_insertAll]
  generalize hi : Semisequent.insertAll side idx fs (c.sequent.side side) = i at hperm hsub
  -- a formula of the result was added now or was there after the edits before
  have hmem : ∀ {side' f}, f ∈ (c.sequent.withSide side i.result).side side' ↔
      (side' = side ∧ f ∈ i.added) ∨ f ∈ c.sequent.side side' := by
    intro side' f
    rw [mem_withSide]
    by_cases heq : side' = side
    · subst heq
      simp [hperm.mem_iff]
    · simp [heq]
  have hadded : ∀ {side' f}, (side', f) ∈ i.added.map (side, ·) ↔ side' = side ∧ f ∈ i.added := by
    simp [eq_comm, and_comm]
  refine ⟨fun hR => ?_, fun hf => ?_, fun e he => ?_, fun hs side' => ?_, fun hf =>
    ?_, fun hs _ _ hf => ?_, fun w hw => ?_⟩
  · rw [Sequent.all_withSide, ← hi, Semisequent.forall_insertAll hR, and_right_comm,
      ← Sequent.all_iff, h.all_iff hR, and_assoc, ← forall_mem_map_side, List.forall_mem_append]
  · rcases hmem.mp hf with ⟨rfl, hfi⟩ | hfc
    · exact .inr (List.mem_append_right _ (List.mem_map_of_mem (hsub.subset hfi)))
    · exact (h.mem hfc).imp id (List.mem_append_left _)
  · rcases List.mem_append.mp he with he | he
    · exact List.mem_append_left _ (h.added e he)
    · obtain ⟨f, hf, rfl⟩ := List.mem_map.mp he
      exact List.mem_append_right _ (List.mem_map_of_mem (hsub.subset hf))
  · by_cases heq : side' = side
    · subst heq
      rw [Sequent.side_withSide, ← hi]
      exact Semisequent.nodup_insertAll (h.nodup hs side')
    · rw [Sequent.side_withSide_of_ne _ _ heq]
      exact h.nodup hs side'
  · rcases hf with hf | hkept
    · rcases List.mem_append.mp hf with hold | hnew
      · exact hmem.mpr (.inr (h.stays (.inl hold)))
      · exact hmem.mpr (.inl (hadded.mp hnew))
    · exact hmem.mpr (.inr (h.stays (.inr hkept)))
  · rcases hmem.mp hf with hnew | hold
    · exact .inl (List.mem_append_right _ (hadded.mpr hnew))
    · exact (h.recorded hs hold).imp_left (List.mem_append_left _)
  · have hsum := (hperm.map w).sum_nat
    rw [List.map_append, List.sum_append] at hsum
    have hle := h.total_le w hw
    have hnew := (hsub.map w).sum_le_sum fun _ _ => Nat.zero_le _
    rw [Sequent.total_eq w _ side] at hle
    rw [Sequent.total_withSide, hsum, List.map_append, List.sum_append, sum_map_side]
    omega

section Replace

variable {side : Side} {idx : Nat} {fs : Semisequent} {old : SeqFormula}

/-- What is left when the formula at an index is gone. -/
theorem all_eraseIdx (hold : (s.side side)[idx]? = some old) {R : Side → SeqFormula → Prop} :
    s.All R ↔ R side old ∧ (s.withSide side ((s.side side).eraseIdx idx)).All R := by
  have hperm := Semisequent.perm_of_getElem? hold
  rw [Sequent.all_iff s side, Sequent.all_withSide, ← and_assoc, ← List.forall_mem_cons]
  simp only [hperm.mem_iff]

theorem total_eraseIdx (hold : (s.side side)[idx]? = some old) (w : SeqFormula → Nat) :
    s.total w = w old + (s.withSide side ((s.side side).eraseIdx idx)).total w := by
  have hsum := ((Semisequent.perm_of_getElem? hold).map w).sum_nat
  rw [List.map_cons, List.sum_cons] at hsum
  rw [Sequent.total_eq w s side, Sequent.total_withSide, hsum, Nat.add_assoc]

/-- Replacing a formula by one that is equal to it up to renaming. -/
theorem adds_replace_alpha (hold : (s.side side)[idx]? = some old) {f : SeqFormula}
    (halpha : f.term.alphaEq old.term) :
    Adds s (s.withSide side ((s.side side).eraseIdx idx)) [(side, f)]
      (s.record side { rejected := [f], result := s.side side }) := by
  have hsame : (s.record side { rejected := [f], result := s.side side }).sequent = s := by
    cases side <;> rfl
  refine ⟨fun hR => ?_, fun hg => ?_, fun e he => (nomatch he), fun hs => ?_, fun hg => ?_,
    fun _ _ _ hg => ?_, fun w hw => ?_⟩
  · rw [hsame, all_eraseIdx hold, ← hR.alpha halpha, and_comm]
    simp
  · rw [hsame] at hg
    exact .inl hg
  · rwa [hsame]
  · rw [hsame]
    simpa [Sequent.record] using hg
  · rw [hsame] at hg
    simpa [Sequent.record] using hg
  · rw [hsame, total_eraseIdx hold, ← hw f old halpha]
    simp [Nat.add_comm]

/-- Replacing a formula by what is inserted in its place. -/
theorem adds_replace_insert (hold : (s.side side)[idx]? = some old) :
    Adds s (s.withSide side ((s.side side).eraseIdx idx)) (fs.map (side, ·))
      (s.record side { Semisequent.insertAll side idx fs ((s.side side).eraseIdx idx) with
        removed := [old] }) := by
  have hperm := Semisequent.insertAll_perm side idx fs ((s.side side).eraseIdx idx)
  have hsub := Semisequent.insertAll_added_sublist side idx fs ((s.side side).eraseIdx idx)
  have hsplit := Semisequent.perm_of_getElem? hold
  generalize hi : Semisequent.insertAll side idx fs ((s.side side).eraseIdx idx) = i at hperm hsub
  refine ⟨fun hR => ?_, fun hf => ?_, fun e he => ?_, fun hs side' => ?_, fun {side' f} hf => ?_,
    fun hs side' f hf => ?_, fun w hw => ?_⟩
  · rw [Sequent.record, Sequent.all_withSide, Sequent.all_withSide, ← hi,
      Semisequent.forall_insertAll hR, and_right_comm, forall_mem_map_side]
  · rcases mem_withSide.mp hf with ⟨rfl, hfi⟩ | ⟨-, hfs⟩
    · rcases List.mem_append.mp (hperm.mem_iff.mp hfi) with hfi | hfi
      · exact .inr (List.mem_map_of_mem (hsub.subset hfi))
      · exact .inl (List.mem_of_mem_eraseIdx hfi)
    · exact .inl hfs
  · obtain ⟨f, hf, rfl⟩ := List.mem_map.mp he
    exact List.mem_map_of_mem (hsub.subset hf)
  · by_cases heq : side' = side
    · subst heq
      rw [Sequent.record, Sequent.side_withSide, ← hi]
      exact Semisequent.nodup_insertAll ((hs side').sublist (List.eraseIdx_sublist _ _))
    · rw [Sequent.record, Sequent.side_withSide_of_ne _ _ heq]
      exact hs side'
  · rcases hf with hnew | ⟨hbefore, hkept⟩
    · obtain ⟨g, hg, heq⟩ := List.mem_map.mp hnew
      cases heq
      exact mem_withSide.mpr (.inl ⟨rfl, hperm.mem_iff.mpr (List.mem_append_left _ hg)⟩)
    · by_cases heq : side' = side
      · subst heq
        have hne : f ≠ old := fun hfold => hkept (List.mem_singleton.mpr (hfold ▸ rfl))
        have hleft := (List.mem_cons.mp (hsplit.mem_iff.mp hbefore)).resolve_left hne
        exact mem_withSide.mpr (.inl ⟨rfl, hperm.mem_iff.mpr (List.mem_append_right _ hleft)⟩)
      · exact mem_withSide.mpr (.inr ⟨heq, hbefore⟩)
  · rcases mem_withSide.mp hf with ⟨rfl, hfi⟩ | ⟨hne, hbefore⟩
    · rcases List.mem_append.mp (hperm.mem_iff.mp hfi) with hnew | hleft
      · exact .inl (List.mem_map_of_mem hnew)
      · -- the side had the old formula once only, so what is left of it is something else
        have hnot := (List.nodup_cons.mp (hsplit.nodup_iff.mp (hs side'))).1
        refine .inr ⟨List.mem_of_mem_eraseIdx hleft, fun hmem => hnot ?_⟩
        cases List.mem_singleton.mp hmem
        exact hleft
    · exact .inr ⟨hbefore, fun hmem => hne (Prod.ext_iff.mp (List.mem_singleton.mp hmem)).1⟩
  · have hsum := (hperm.map w).sum_nat
    rw [List.map_append, List.sum_append] at hsum
    have hadded := (hsub.map w).sum_le_sum fun _ _ => Nat.zero_le _
    rw [Sequent.record, Sequent.total_withSide, Sequent.total_withSide, sum_map_side, hsum]
    omega

/-- **Replacing a formula** keeps the others and adds the formulas in its place. -/
theorem adds_replace {step : Change} (h : s.replace side idx fs = .ok step) :
    Adds s (s.withSide side ((s.side side).eraseIdx idx)) (fs.map (side, ·))
      ((unchanged s).combine step) := by
  rw [unchanged_combine]
  obtain ⟨i, hi, hstep⟩ := bind_eq_ok.mp h
  obtain rfl : s.record side i = step := Except.ok.inj hstep
  obtain ⟨old, hold, ⟨f, rfl, halpha, rfl⟩ | rfl⟩ := Semisequent.replace_cases hi
  · exact adds_replace_alpha hold halpha
  · exact adds_replace_insert hold

end Replace

end Change

end SequentSearch
