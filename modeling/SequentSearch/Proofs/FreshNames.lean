import Mathlib.Data.List.Nodup
import Mathlib.Data.List.Perm.Subperm
import SequentSearch.NameSupply
import SequentSearch.Proofs.Term
import SequentSearch.Term.Subst

/-!
# Names that are made up are new

Two places make up names: renaming a binder out of the way (`freshVariant`) and drawing a constant
(`NameSupply.fresh`). Both try numbered variants of a stem, one more than there are names to avoid.
The variants are pairwise different, so one of them is free (`exists_unused`), and the search finds
it.

A name supply only ever grows, and after `registerSequent` it holds the name of every function
symbol of the sequent.
-/

namespace SequentSearch

/-- Different numbers are written differently. -/
theorem toString_nat_injective : Function.Injective (toString : Nat → String) := by
  intro m n h
  have hdigits : Nat.toDigits 10 m = Nat.toDigits 10 n := by
    rw [Nat.toString_eq_repr, Nat.toString_eq_repr] at h
    exact String.ofList_injective h
  calc m = Nat.ofDigitChars 10 (Nat.toDigits 10 m) 0 :=
        (Nat.ofDigitChars_toDigits (by decide) (by decide)).symm
    _ = Nat.ofDigitChars 10 (Nat.toDigits 10 n) 0 := by rw [hdigits]
    _ = n := Nat.ofDigitChars_toDigits (by decide) (by decide)

/-- **Pigeonhole**: among one more numbered names than there are names to avoid, one is free. -/
theorem exists_unused {name : Nat → String} (hname : Function.Injective name) (used : List String) :
    ∃ i < used.length + 1, name i ∉ used := by
  by_contra hall
  push Not at hall
  have hsub : (List.range (used.length + 1)).map name ⊆ used := by
    intro n hn
    obtain ⟨i, hi, rfl⟩ := List.mem_map.mp hn
    exact hall i (List.mem_range.mp hi)
  have hlen := (List.Nodup.subperm (List.nodup_range.map hname) hsub).length_le
  simp only [List.length_map, List.length_range] at hlen
  omega

theorem append_toString_injective (stem : String) (k : Nat) :
    Function.Injective fun i => stem ++ toString (i + k) := by
  intro i j h
  have := toString_nat_injective (String.append_right_inj _ |>.mp h)
  omega

/-- **A variant of a name avoids the names in use.** -/
theorem freshVariant_not_mem (stem : String) (used : List String) :
    freshVariant stem used ∉ used := by
  obtain ⟨i, hi, hfree⟩ := exists_unused (append_toString_injective stem 1) used
  unfold freshVariant
  cases hfind : (numberedNames stem used).find? fun n => !used.contains n with
  | some n => simpa using List.find?_some hfind
  | none =>
    have := List.find?_eq_none.mp hfind _ (List.mem_map.mpr ⟨i, List.mem_range.mpr hi, rfl⟩)
    exact absurd hfree (by simpa using this)

namespace NameSupply

theorem isUnused_iff {ns : NameSupply} {name : String} : ns.isUnused name ↔ name ∉ ns.used := by
  simp [isUnused]

/-- **The first unused number**, counted from that of the next name: no more numbers are passed over
than there are names in use, and the names of all of these are in use. -/
theorem firstUnused_spec (ns : NameSupply) (stem : String) :
    ∃ i ≤ ns.used.length, ns.firstUnused stem = ns.gen.count + i ∧
      NameGen.numbered stem (ns.gen.count + i) ∉ ns.used ∧
      ∀ j < i, NameGen.numbered stem (ns.gen.count + j) ∈ ns.used := by
  obtain ⟨k, hk, hfree⟩ :=
    exists_unused (append_toString_injective (stem ++ "_") ns.gen.count) ns.used
  unfold firstUnused
  rw [List.find?_map]
  cases hfind : (List.range (ns.used.length + 1)).find?
      ((fun n => ns.isUnused (NameGen.numbered stem n)) ∘ (ns.gen.count + ·)) with
  | none =>
    have hused := List.find?_eq_none.mp hfind k (List.mem_range.mpr hk)
    rw [Function.comp_apply, isUnused_iff, Nat.add_comm] at hused
    exact absurd hfree hused
  | some i =>
    obtain ⟨hfree, hi, hpassed⟩ := List.find?_range_eq_some.mp hfind
    refine ⟨i, Nat.le_of_lt_succ (List.mem_range.mp hi), rfl, isUnused_iff.mp hfree, fun j hj => ?_⟩
    simpa [isUnused] using hpassed j hj

/-- **A drawn name was not in use.** -/
theorem fresh_not_mem (ns : NameSupply) (stem : String) : (ns.fresh stem).1 ∉ ns.used := by
  obtain ⟨i, -, hfirst, hfree, -⟩ := ns.firstUnused_spec stem
  show NameGen.numbered stem (ns.firstUnused stem) ∉ ns.used
  rwa [hfirst]

theorem mem_register {ns : NameSupply} {name n : String} :
    n ∈ (ns.register name).used ↔ n = name ∨ n ∈ ns.used := by
  unfold register
  split <;> rename_i h
  · have : name ∈ ns.used := by simpa using h
    constructor
    · exact .inr
    · rintro (rfl | hn)
      · exact this
      · exact hn
  · exact List.mem_cons

/-- After drawing, the names in use are those before and the new one. -/
theorem mem_fresh {ns : NameSupply} {stem n : String} :
    n ∈ (ns.fresh stem).2.used ↔ n = (ns.fresh stem).1 ∨ n ∈ ns.used := mem_register

theorem mem_foldl_register {names : List String} {ns : NameSupply} {n : String} :
    n ∈ (names.foldl register ns).used ↔ n ∈ names ∨ n ∈ ns.used := by
  induction names generalizing ns with
  | nil => simp
  | cons name names ih =>
    rw [List.foldl_cons, ih, mem_register, List.mem_cons]
    tauto

/-- A name supply holds the names of all function symbols of a term. -/
def Covers (ns : NameSupply) (t : Term) : Prop := ∀ f ∈ t.symbols, f.name ∈ ns.used

theorem mem_registerTerm_of_mem {ns : NameSupply} {t : Term} {n : String} (hn : n ∈ ns.used) :
    n ∈ (ns.registerTerm t).used := mem_foldl_register.mpr (.inr hn)

theorem registerTerm_covers (ns : NameSupply) (t : Term) : (ns.registerTerm t).Covers t := by
  intro f hf
  obtain ⟨u, hu, hop⟩ := Term.mem_symbols.mp hf
  refine mem_foldl_register.mpr (.inl (List.mem_flatMap.mpr ⟨u, hu, ?_⟩))
  simp [ownNames, hop]

theorem mem_foldl_registerTerm_of_mem {fs : List (Side × SeqFormula)} {ns : NameSupply} {n : String}
    (hn : n ∈ ns.used) : n ∈ (fs.foldl (fun ns f => ns.registerTerm f.2.term) ns).used := by
  induction fs generalizing ns with
  | nil => exact hn
  | cons f fs ih => exact ih (mem_registerTerm_of_mem hn)

/-- **A registered sequent is covered.** -/
theorem registerSequent_covers (ns : NameSupply) (s : Sequent) {f : Side × SeqFormula}
    (hf : f ∈ s.formulas) : (ns.registerSequent s).Covers f.2.term := by
  unfold registerSequent
  generalize s.formulas = fs at hf
  induction fs generalizing ns with
  | nil => exact nomatch hf
  | cons g fs ih =>
    rcases List.mem_cons.mp hf with rfl | hf
    · intro c hc
      rw [List.foldl_cons]
      exact mem_foldl_registerTerm_of_mem (registerTerm_covers ns _ c hc)
    · exact ih _ hf

end NameSupply

end SequentSearch
