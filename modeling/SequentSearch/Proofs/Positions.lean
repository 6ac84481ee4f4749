import Mathlib.Data.List.Nodup
import SequentSearch.Proofs.Term

/-!
# Positions

A position is a path of 16-bit words. Listing the positions of a term cuts the numbers of arguments
down to such words, while looking up a subterm and replacing it take the words as they are. So a
position that was not cut down belongs to the subterm that it is listed with. One that was belongs
to another subterm, or to none.

To tell the two apart, every subterm has a *way*: the numbers of the arguments on the way down to
it, however large. No two ways are the same (`Term.nodup_ways`), and positions are ways cut down
(`Term.positions_eq`). A term is *narrow* if no operator in it has more arguments than there are
words. Then no position is cut down (`Term.Narrow.exactPositions_eq`); in all other terms, two
subterms share a position (`Term.nodup_positions_iff`).

Replacement is a matter of positions alone. The new subterm is found at the position, and nothing
changes at the positions that are neither above nor below it (`Term.subtermAt_replaceAt_of_apart`).
-/

namespace SequentSearch

namespace Position

/-- The numbers of a way are 16-bit words. -/
def Fits (way : List Nat) : Prop := ∀ i ∈ way, i < 65536

instance : DecidablePred Fits := fun way => inferInstanceAs (Decidable (∀ i ∈ way, i < 65536))

theorem fits_cons {i : Nat} {way : List Nat} : Fits (i :: way) ↔ i < 65536 ∧ Fits way :=
  List.forall_mem_cons

theorem toNat_ofNat {i : Nat} (hi : i < 65536) : (UInt16.ofNat i).toNat = i := by
  rw [UInt16.toNat_ofNat', Nat.mod_eq_of_lt hi]

/-- A way that fits can be read off its position. -/
theorem map_toNat_ofIndices {way : List Nat} (h : Fits way) :
    (ofIndices way).map UInt16.toNat = way := by
  rw [ofIndices, List.map_map]
  exact (List.map_congr_left fun i hi => toNat_ofNat (h i hi)).trans (List.map_id _)

/-- A position is that of its own words. -/
theorem ofIndices_map_toNat (pos : Position) : ofIndices (pos.map UInt16.toNat) = pos := by
  rw [ofIndices, List.map_map]
  exact (List.map_congr_left fun i _ => UInt16.ofNat_toNat).trans (List.map_id _)

theorem fits_map_toNat (pos : Position) : Fits (pos.map UInt16.toNat) := by
  intro i hi
  obtain ⟨w, -, rfl⟩ := List.mem_map.mp hi
  exact w.toNat_lt

end Position

namespace Term

variable {op : Operator} {args : List (List Binder × Term)} {labels : List Label} {t u v t' : Term}
  {pos : Position}

/-! ## Ways -/

mutual

/-- The term and all its subterms with their ways, in pre-order. -/
def ways : Term → List (List Nat × Term)
  | node op args labels => ([], node op args labels) :: waysArgs 0 args

/-- The subterms of the arguments, the first of which has number `i`, with their ways. -/
def waysArgs (i : Nat) : List (List Binder × Term) → List (List Nat × Term)
  | [] => []
  | (_, t) :: rest => (t.ways.map fun w => (i :: w.1, w.2)) ++ waysArgs (i + 1) rest

end

/-- The position of a subterm that is reached by a way. -/
def cutDown (w : List Nat × Term) : Position × Term := (Position.ofIndices w.1, w.2)

/-- **Positions are ways cut down.** -/
theorem positions_eq (t : Term) : t.positions = t.ways.map cutDown := by
  induction t with
  | node op args labels ih =>
    rw [positions, ways, List.map_cons]
    congr 1
    generalize 0 = i
    induction args generalizing i with
    | nil => rfl
    | cons a args iha =>
      obtain ⟨ha, hargs⟩ := List.forall_mem_cons.mp ih
      rw [positionsArgs, waysArgs, List.map_append, List.map_map, ha, iha hargs, List.map_map]
      rfl

theorem mem_waysArgs {i : Nat} {w : List Nat × Term} :
    w ∈ waysArgs i args ↔
      ∃ j a, args[j]? = some a ∧ ∃ x ∈ a.2.ways, w = ((i + j) :: x.1, x.2) := by
  induction args generalizing i with
  | nil => simp [waysArgs]
  | cons a args ih =>
    rw [waysArgs, List.mem_append, List.mem_map, ih]
    constructor
    · rintro (⟨x, hx, rfl⟩ | ⟨j, b, hb, x, hx, rfl⟩)
      · exact ⟨0, a, rfl, x, hx, rfl⟩
      · exact ⟨j + 1, b, hb, x, hx, by rw [Nat.add_right_comm, Nat.add_assoc]⟩
    · rintro ⟨_ | j, b, hb, x, hx, rfl⟩
      · cases hb
        exact .inl ⟨x, hx, rfl⟩
      · exact .inr ⟨j, b, hb, x, hx, by rw [Nat.add_right_comm, Nat.add_assoc]⟩

/-- A way stays at the term, or goes into one of its arguments and on from there. -/
theorem mem_ways_node {w : List Nat × Term} :
    w ∈ (node op args labels).ways ↔
      w = ([], node op args labels) ∨
        ∃ i a, args[i]? = some a ∧ ∃ x ∈ a.2.ways, w = (i :: x.1, x.2) := by
  rw [ways, List.mem_cons, mem_waysArgs]
  simp only [Nat.zero_add]

theorem self_mem_ways (t : Term) : ([], t) ∈ t.ways := by
  cases t
  exact mem_ways_node.mpr (.inl rfl)

/-- Ways can be continued. -/
theorem mem_ways_append {way way' : List Nat} (h : (way, u) ∈ t.ways) (h' : (way', v) ∈ u.ways) :
    (way ++ way', v) ∈ t.ways := by
  induction t generalizing way with
  | node op args labels ih =>
    rcases mem_ways_node.mp h with heq | ⟨i, a, hi, x, hx, heq⟩
    · cases heq
      exact h'
    · cases heq
      exact mem_ways_node.mpr (.inr ⟨i, a, hi, _, ih a (List.mem_of_getElem? hi) hx, rfl⟩)

/-- Every argument has a way of its own. -/
theorem mem_ways_arg {i : Nat} {a : List Binder × Term} (hi : t.args[i]? = some a) :
    ([i], a.2) ∈ t.ways := by
  obtain ⟨op, args, labels⟩ := t
  exact mem_ways_node.mpr (.inr ⟨i, a, hi, _, self_mem_ways a.2, rfl⟩)

/-- Every subterm has a way. -/
theorem exists_way_of_mem_subterms (h : u ∈ t.subterms) : ∃ way, (way, u) ∈ t.ways := by
  rw [← map_snd_positions, positions_eq, List.map_map] at h
  obtain ⟨⟨way, _⟩, hw, rfl⟩ := List.mem_map.mp h
  exact ⟨way, hw⟩

theorem nodup_waysArgs (h : ∀ a ∈ args, (a.2.ways.map Prod.fst).Nodup) (i : Nat) :
    ((waysArgs i args).map Prod.fst).Nodup := by
  induction args generalizing i with
  | nil => exact List.nodup_nil
  | cons a args ih =>
    obtain ⟨ha, hargs⟩ := List.forall_mem_cons.mp h
    rw [waysArgs, List.map_append, List.nodup_append]
    refine ⟨?_, ih hargs (i + 1), ?_⟩
    · have hfirst := ha.map (List.cons_injective (a := i))
      rwa [List.map_map] at hfirst ⊢
    · -- the ways of the other arguments begin with larger numbers
      rintro _ hway _ hway' rfl
      obtain ⟨w, hw, rfl⟩ := List.mem_map.mp hway
      obtain ⟨x, -, rfl⟩ := List.mem_map.mp hw
      obtain ⟨w', hw', heq⟩ := List.mem_map.mp hway'
      obtain ⟨j, b, -, y, -, rfl⟩ := mem_waysArgs.mp hw'
      have hhead : i + 1 + j = i := (List.cons.inj heq).1
      omega

/-- **No two ways are the same.** -/
theorem nodup_ways (t : Term) : (t.ways.map Prod.fst).Nodup := by
  induction t with
  | node op args labels ih =>
    rw [ways, List.map_cons, List.nodup_cons]
    refine ⟨fun h => ?_, nodup_waysArgs ih 0⟩
    obtain ⟨w, hw, heq⟩ := List.mem_map.mp h
    obtain ⟨j, a, -, x, -, rfl⟩ := mem_waysArgs.mp hw
    cases heq

/-! ## Looking up -/

theorem subtermAt_of_mem_ways {way : List Nat} (h : (way, u) ∈ t.ways) (hfits : Position.Fits way) :
    t.subtermAt (.ofIndices way) = .ok u := by
  induction t generalizing way with
  | node op args labels ih =>
    rcases mem_ways_node.mp h with heq | ⟨i, a, hi, x, hx, heq⟩
    · cases heq
      rfl
    · cases heq
      obtain ⟨hlt, hfits⟩ := Position.fits_cons.mp hfits
      rw [Position.ofIndices, List.map_cons, subtermAt, Position.toNat_ofNat hlt, args_node, hi]
      exact ih a (List.mem_of_getElem? hi) hx hfits

theorem mem_ways_of_subtermAt (h : t.subtermAt pos = .ok u) :
    (pos.map UInt16.toNat, u) ∈ t.ways := by
  induction pos generalizing t with
  | nil =>
    obtain rfl : t = u := Except.ok.inj h
    exact self_mem_ways t
  | cons i rest ih =>
    obtain ⟨op, args, labels⟩ := t
    rw [subtermAt] at h
    split at h <;> rename_i hw
    · exact mem_ways_node.mpr (.inr ⟨i.toNat, _, hw, _, ih h, rfl⟩)
    · cases h

/-- The positions that are not cut down, with their subterms, in pre-order. -/
def exactPositions (t : Term) : List (Position × Term) :=
  (t.ways.filter fun w => Position.Fits w.1).map cutDown

theorem mem_exactPositions :
    (pos, u) ∈ t.exactPositions ↔ ∃ way, (way, u) ∈ t.ways ∧ Position.Fits way ∧
    .ofIndices way = pos := by
  simp [exactPositions, cutDown, and_assoc]

/-- **The exact positions are those at which there is a subterm**, and it is the one that is
listed. -/
theorem mem_exactPositions_iff_subtermAt :
    (pos, u) ∈ t.exactPositions ↔ t.subtermAt pos = .ok u := by
  rw [mem_exactPositions]
  constructor
  · rintro ⟨way, hway, hfits, rfl⟩
    exact subtermAt_of_mem_ways hway hfits
  · intro h
    exact ⟨_, mem_ways_of_subtermAt h, Position.fits_map_toNat pos,
      Position.ofIndices_map_toNat pos⟩

theorem exactPositions_sublist (t : Term) : t.exactPositions.Sublist t.positions := by
  rw [positions_eq]
  exact List.filter_sublist.map cutDown

theorem mem_subterms_of_subtermAt (h : t.subtermAt pos = .ok u) : u ∈ t.subterms :=
  mem_subterms_of_mem_positions
    ((exactPositions_sublist t).subset (mem_exactPositions_iff_subtermAt.mpr h))

/-- No two exact positions are the same: they are cut down from ways that can be read off them. -/
theorem nodup_exactPositions (t : Term) : (t.exactPositions.map Prod.fst).Nodup := by
  have hways : ((t.ways.filter fun w => Position.Fits w.1).map Prod.fst).Nodup :=
    (nodup_ways t).sublist (List.filter_sublist.map _)
  have hfirst : t.exactPositions.map Prod.fst =
      ((t.ways.filter fun w => Position.Fits w.1).map Prod.fst).map Position.ofIndices := by
    rw [exactPositions, List.map_map, List.map_map]
    rfl
  have hfits : ∀ way ∈ (t.ways.filter fun w => Position.Fits w.1).map Prod.fst,
      Position.Fits way := by
    intro way hway
    obtain ⟨w, hw, rfl⟩ := List.mem_map.mp hway
    simpa using (List.mem_filter.mp hw).2
  rw [hfirst]
  refine hways.map_on fun way hway way' hway' heq => ?_
  rw [← Position.map_toNat_ofIndices (hfits way hway), heq,
    Position.map_toNat_ofIndices (hfits way' hway')]

/-! ## Narrow terms -/

/-- Operators have at most as many arguments as positions can tell apart. -/
def Narrow (t : Term) : Prop := ∀ u ∈ t.subterms, u.args.length ≤ 65536

instance (t : Term) : Decidable t.Narrow :=
  inferInstanceAs (Decidable (∀ u ∈ t.subterms, u.args.length ≤ 65536))

theorem narrow_node : (node op args labels).Narrow ↔ args.length ≤ 65536 ∧ ∀ a ∈ args, a.2.Narrow :=
  forall_subterms_node

theorem Narrow.fits {w : List Nat × Term} (ht : t.Narrow) (hw : w ∈ t.ways) :
    Position.Fits w.1 := by
  induction t generalizing w with
  | node op args labels ih =>
    obtain ⟨hlen, hargs⟩ := narrow_node.mp ht
    rcases mem_ways_node.mp hw with rfl | ⟨i, a, hi, x, hx, rfl⟩
    · exact nofun
    · have ha := List.mem_of_getElem? hi
      have hlt := (List.getElem?_eq_some_iff.mp hi).1
      exact Position.fits_cons.mpr ⟨by omega, ih a ha (hargs a ha) hx⟩

/-- In a narrow term, no position is cut down. -/
theorem Narrow.exactPositions_eq (ht : t.Narrow) : t.exactPositions = t.positions := by
  have hall : (t.ways.filter fun w => Position.Fits w.1) = t.ways :=
    List.filter_eq_self.mpr fun w hw => by simpa using ht.fits hw
  rw [exactPositions, hall, positions_eq]

/-- **Listed subterms are at their positions.** -/
theorem Narrow.subtermAt_of_mem_positions (ht : t.Narrow) (h : (pos, u) ∈ t.positions) :
    t.subtermAt pos = .ok u := by
  rw [← ht.exactPositions_eq] at h
  exact mem_exactPositions_iff_subtermAt.mp h

/-- **The positions of a term are pairwise different if and only if it is narrow**: the argument
number 65536 of an operator gets the position of the first. -/
theorem nodup_positions_iff : (t.positions.map Prod.fst).Nodup ↔ t.Narrow := by
  constructor
  · intro hnodup u hu
    by_contra hwide
    obtain ⟨way, hway⟩ := exists_way_of_mem_subterms hu
    have harg : ∀ i < u.args.length, ∃ w, (way ++ [i], w) ∈ t.ways := fun i hi =>
      ⟨_, mem_ways_append hway (mem_ways_arg (List.getElem?_eq_getElem hi))⟩
    obtain ⟨w, hw⟩ := harg 0 (by omega)
    obtain ⟨w', hw'⟩ := harg 65536 (by omega)
    rw [positions_eq, List.map_map] at hnodup
    have hsame : (Prod.fst ∘ cutDown) (way ++ [0], w) = (Prod.fst ∘ cutDown)
        (way ++ [65536], w') := by
      simp [cutDown, Position.ofIndices]
    have heq := List.inj_on_of_nodup_map hnodup hw hw' hsame
    simp at heq
  · intro ht
    rw [← ht.exactPositions_eq]
    exact nodup_exactPositions t

/-! ## Replacing -/

/-- Any term can be put in the place of a subterm. -/
theorem exists_replaceAt (h : t.subtermAt pos = .ok u) (v : Term) :
    ∃ t', t.replaceAt pos v = .ok t' := by
  induction pos generalizing t with
  | nil => exact ⟨v, rfl⟩
  | cons i rest ih =>
    cases hi : t.args[i.toNat]? with
    | none =>
      rw [subtermAt, hi] at h
      cases h
    | some a =>
      obtain ⟨bound, s⟩ := a
      obtain ⟨s', hs'⟩ := ih (subtermAt_cons hi h)
      exact ⟨_, by rw [replaceAt, hi]; simp only [hs']; rfl⟩

/-- The new subterm is found at its position. -/
theorem subtermAt_replaceAt (h : t.replaceAt pos v = .ok t') : t'.subtermAt pos = .ok v := by
  induction pos generalizing t t' with
  | nil => exact h.symm
  | cons i rest ih =>
    obtain ⟨bound, w, w', hw, hw', rfl⟩ := replaceAt_cons h
    have hi : i.toNat < t.args.length := (List.getElem?_eq_some_iff.mp hw).1
    rw [subtermAt, args_node, List.getElem?_set_self hi]
    exact ih hw'

/-- **Replacement changes nothing elsewhere**: at a position neither above nor below that of the new
subterm there is what has been there before. -/
theorem subtermAt_replaceAt_of_apart {q : Position} (h : t.replaceAt pos v = .ok t')
    (hbelow : ¬ pos <+: q) (habove : ¬ q <+: pos) : t'.subtermAt q = t.subtermAt q := by
  induction pos generalizing t t' q with
  | nil => exact absurd List.nil_prefix hbelow
  | cons i rest ih =>
    obtain ⟨bound, w, w', hw, hw', rfl⟩ := replaceAt_cons h
    cases q with
    | nil => exact absurd List.nil_prefix habove
    | cons j q =>
      rw [subtermAt, subtermAt, args_node]
      by_cases hij : i = j
      · subst hij
        have hi : i.toNat < t.args.length := (List.getElem?_eq_some_iff.mp hw).1
        rw [List.getElem?_set_self hi, hw]
        simp only [List.cons_prefix_cons, true_and] at hbelow habove
        exact ih hw' hbelow habove
      · rw [List.getElem?_set_ne fun heq => hij (UInt16.toNat_inj.mp heq)]

/-! ## Identification -/

/-- **Listed positions identify the subterms** that they are listed with. -/
structure Identifies (t : Term) (listed : List (Position × Term)) : Prop where
  /-- they are pairwise different -/
  nodup : (listed.map Prod.fst).Nodup
  /-- the subterm at a position is the one that is listed with it -/
  subtermAt : ∀ e ∈ listed, t.subtermAt e.1 = .ok e.2
  /-- a term can be put at each position, is found there, and leaves the subterms at the positions
  that are neither above nor below as they are -/
  replaceAt : ∀ e ∈ listed, ∀ v, ∃ t', t.replaceAt e.1 v = .ok t' ∧ t'.subtermAt e.1 = .ok v ∧
    ∀ e' ∈ listed, ¬ e.1 <+: e'.1 → ¬ e'.1 <+: e.1 → t'.subtermAt e'.1 = .ok e'.2

theorem identifies_exactPositions (t : Term) : t.Identifies t.exactPositions where
  nodup := nodup_exactPositions t
  subtermAt _ he := mem_exactPositions_iff_subtermAt.mp he
  replaceAt e he v := by
    obtain ⟨t', ht'⟩ := exists_replaceAt (mem_exactPositions_iff_subtermAt.mp he) v
    refine ⟨t', ht', subtermAt_replaceAt ht', fun e' he' hbelow habove => ?_⟩
    rw [subtermAt_replaceAt_of_apart ht' hbelow habove]
    exact mem_exactPositions_iff_subtermAt.mp he'

/-- **Positions identify subterms up to the width of words.** The exact positions, which are those
at which there is a subterm, identify the subterms of every term. They are some of the listed
positions, and the listed positions all identify their subterms if and only if the term is
narrow. -/
theorem positions_identify (t : Term) :
    t.Identifies t.exactPositions ∧
      (∀ pos u, (pos, u) ∈ t.exactPositions ↔ t.subtermAt pos = .ok u) ∧
      t.exactPositions.Sublist t.positions ∧
      (t.Identifies t.positions ↔ t.Narrow) := by
  refine ⟨identifies_exactPositions t, fun pos u => mem_exactPositions_iff_subtermAt,
    exactPositions_sublist t, fun h => nodup_positions_iff.mp h.nodup, fun ht => ?_⟩
  rw [← ht.exactPositions_eq]
  exact identifies_exactPositions t

/-- Without binders and labels, terms are built plainly. -/
theorem build_eq_plain {subs : List Term} (h : op.arity = subs.length) :
    build op subs [] [] = .ok (plain op subs) := by
  have hargs : (padBinders subs.length []).zip subs = subs.map fun t => ([], t) := by
    rw [padBinders, List.nil_append, List.length_nil, Nat.sub_zero, ← List.map_const',
      List.map_prod_right_eq_zip]
  rw [build, if_pos h, List.length_nil, if_pos subs.length.zero_le, hargs, plain]

/-- One argument more than there are words: the last one is listed at the position of the first. -/
theorem exists_not_identifies :
    ∃ t, build (.func (.predicate "p" 65537))
        (List.replicate 65536 (const "a" .any) ++ [const "b" .any]) [] [] = .ok t ∧
      ([0], const "b" .any) ∈ t.positions ∧ t.subtermAt [0] = .ok (const "a" .any) ∧
      ¬ (t.positions.map Prod.fst).Nodup ∧ ¬ t.Identifies t.positions := by
  have hlen : (List.replicate 65536 (const "a" .any) ++ [const "b" .any]).length = 65537 := by
    rw [List.length_append, List.length_replicate]
    rfl
  have hfirst : (List.replicate 65536 (const "a" .any) ++ [const "b" .any])[0]? =
      some (const "a" .any) := by
    rw [List.getElem?_append_left (by rw [List.length_replicate]; decide),
      List.getElem?_replicate_of_lt (by decide)]
  have hlast :
      (List.replicate 65536 (const "a" .any) ++ [const "b" .any])[65536]? =
        some (const "b" .any) := by
    rw [List.getElem?_append_right (Nat.le_of_eq List.length_replicate), List.length_replicate]
    rfl
  generalize List.replicate 65536 (const "a" .any) ++ [const "b" .any] = subs at hlen hfirst hlast ⊢
  have hrepeated : ¬ ((plain (.func (.predicate "p" 65537)) subs).positions.map
      Prod.fst).Nodup := by
    intro hnodup
    have hle := nodup_positions_iff.mp hnodup _ (self_mem_subterms _)
    simp [plain, hlen] at hle
  refine ⟨_, build_eq_plain (by rw [hlen]; rfl), ?_, ?_, hrepeated, fun h => hrepeated h.nodup⟩
  · have hway := mem_ways_arg (t := plain (.func (.predicate "p" 65537)) subs)
      (show _ = some ([], const "b" .any) by rw [plain, args_node, List.getElem?_map, hlast]; rfl)
    rw [positions_eq]
    exact List.mem_map.mpr ⟨_, hway, rfl⟩
  · simp [subtermAt, plain, hfirst]

end Term

end SequentSearch
