import SequentSearch.MatchIndex
import SequentSearch.Proofs.Editing

/-!
# Match indices follow their sequents

A match index is not built anew when its sequent changes: entries of formulas that went are erased,
and entries of formulas that came are made. `MatchIndex.Follows` says what an index should hold, and
`MatchIndex.Follows.update` that it holds it after every change whose record is right. Then its
applications are those that matching finds in the sequent, no more and no less
(`MatchIndex.Follows.mem_apps`).

That it holds no more (`MatchIndex.Within`) needs less of a record: all that it does not record as
removed is still there. This is so even in a sequent that has a formula twice, where the entry of
both is erased with the first one.
-/

namespace SequentSearch

namespace MatchIndex

variable {base : RuleBase} {index : MatchIndex} {key e : Side × SeqFormula} {app : RuleApp}

theorem mem_apps :
    app ∈ index.apps ↔ (∃ entry ∈ index.entries, app ∈ entry.2) ∨ app ∈ index.unfocused := by
  rw [apps, List.mem_append, List.mem_flatMap]

/-- An entry of the index is up to date. -/
def Has (base : RuleBase) (index : MatchIndex) (e : Side × SeqFormula) : Prop :=
  (e, base.matchesIn e.1 e.2) ∈ index.entries

theorem mem_setEntry {apps : List RuleApp} {entries : List ((Side × SeqFormula) × List RuleApp)}
    {entry : (Side × SeqFormula) × List RuleApp} (h : entry ∈ setEntry key apps entries) :
    entry = (key, apps) ∨ entry ∈ entries := by
  induction entries with
  | nil => exact .inl (List.mem_singleton.mp h)
  | cons old entries ih =>
    rw [setEntry] at h
    split at h
    · rcases List.mem_cons.mp h with h | h
      · exact .inl h
      · exact .inr (List.mem_cons_of_mem _ h)
    · rcases List.mem_cons.mp h with rfl | h
      · exact .inr (List.mem_cons_self ..)
      · exact (ih h).imp_right (List.mem_cons_of_mem _)

theorem key_mem_setEntry (key : Side × SeqFormula) (apps : List RuleApp)
    (entries : List ((Side × SeqFormula) × List RuleApp)) :
    (key, apps) ∈ setEntry key apps entries := by
  induction entries with
  | nil => exact List.mem_singleton.mpr rfl
  | cons old entries ih =>
    rw [setEntry]
    split
    · exact List.mem_cons_self ..
    · exact List.mem_cons_of_mem _ ih

theorem mem_setEntry_of_ne {apps : List RuleApp}
    {entries : List ((Side × SeqFormula) × List RuleApp)}
    {entry : (Side × SeqFormula) × List RuleApp} (hne : entry.1 ≠ key) (h : entry ∈ entries) :
    entry ∈ setEntry key apps entries := by
  induction entries with
  | nil => cases h
  | cons old entries ih =>
    rw [setEntry]
    split <;> rename_i hold
    · rcases List.mem_cons.mp h with rfl | h
      · exact absurd hold hne
      · exact List.mem_cons_of_mem _ h
    · rcases List.mem_cons.mp h with rfl | h
      · exact List.mem_cons_self ..
      · exact List.mem_cons_of_mem _ (ih h)

/-- Looking for applications in one more formula keeps the entries that are up to date. -/
theorem Has.insert (h : Has base index e) (key : Side × SeqFormula) :
    Has base (index.insert base key) e := by
  by_cases heq : e = key
  · subst heq
    exact key_mem_setEntry ..
  · exact mem_setEntry_of_ne heq h

theorem has_insert (base : RuleBase) (index : MatchIndex) (key : Side × SeqFormula) :
    Has base (index.insert base key) key := key_mem_setEntry ..

theorem Has.erase (h : Has base index e) (hne : e ≠ key) : Has base (index.erase key) e :=
  List.mem_filter.mpr ⟨h, bne_iff_ne.mpr hne⟩

theorem Has.foldl_insert (h : Has base index e) (keys : List (Side × SeqFormula)) :
    Has base (keys.foldl (MatchIndex.insert base) index) e := by
  induction keys generalizing index with
  | nil => exact h
  | cons key keys ih => exact ih (h.insert key)

theorem has_foldl_insert {keys : List (Side × SeqFormula)} (h : e ∈ keys) :
    Has base (keys.foldl (MatchIndex.insert base) index) e := by
  induction keys generalizing index with
  | nil => cases h
  | cons key keys ih =>
    rcases List.mem_cons.mp h with rfl | h
    · exact (has_insert base index e).foldl_insert keys
    · exact ih h

theorem Has.foldl_erase {keys : List (Side × SeqFormula)} (h : Has base index e) (hne : e ∉ keys) :
    Has base (keys.foldl MatchIndex.erase index) e := by
  induction keys generalizing index with
  | nil => exact h
  | cons key keys ih =>
    obtain ⟨hkey, hkeys⟩ := not_or.mp (mt List.mem_cons.mpr hne)
    exact ih (h.erase hkey) hkeys

/-- **An index invents nothing**: an entry was made for a formula that was added. -/
theorem mem_entries_foldl_insert {keys : List (Side × SeqFormula)}
    {entry : (Side × SeqFormula) × List RuleApp}
    (h : entry ∈ (keys.foldl (MatchIndex.insert base) index).entries) :
    entry ∈ index.entries ∨ entry.1 ∈ keys ∧ entry.2 = base.matchesIn entry.1.1 entry.1.2 := by
  induction keys generalizing index with
  | nil => exact .inl h
  | cons key keys ih =>
    rcases ih h with h | ⟨hkey, heq⟩
    · rcases mem_setEntry h with rfl | h
      · exact .inr ⟨List.mem_cons_self .., rfl⟩
      · exact .inl h
    · exact .inr ⟨List.mem_cons_of_mem _ hkey, heq⟩

theorem mem_entries_foldl_erase {keys : List (Side × SeqFormula)}
    {entry : (Side × SeqFormula) × List RuleApp}
    (h : entry ∈ (keys.foldl MatchIndex.erase index).entries) :
    entry ∈ index.entries ∧ entry.1 ∉ keys := by
  induction keys generalizing index with
  | nil => exact ⟨h, List.not_mem_nil⟩
  | cons key keys ih =>
    obtain ⟨h, hkeys⟩ := ih h
    obtain ⟨h, hkey⟩ := List.mem_filter.mp h
    refine ⟨h, fun hmem => ?_⟩
    rcases List.mem_cons.mp hmem with heq | hmem
    · exact bne_iff_ne.mp hkey heq
    · exact hkeys hmem

theorem unfocused_foldl_insert (keys : List (Side × SeqFormula)) (index : MatchIndex) :
    (keys.foldl (MatchIndex.insert base) index).unfocused = index.unfocused := by
  induction keys generalizing index with
  | nil => rfl
  | cons key keys ih => exact ih _

theorem unfocused_foldl_erase (keys : List (Side × SeqFormula)) (index : MatchIndex) :
    (keys.foldl MatchIndex.erase index).unfocused = index.unfocused := by
  induction keys generalizing index with
  | nil => rfl
  | cons key keys ih => exact ih _

theorem unfocused_update (base : RuleBase) (index : MatchIndex) (change : Change) :
    (index.update base change).unfocused = index.unfocused :=
  (unfocused_foldl_insert ..).trans (unfocused_foldl_erase ..)

/-- After a change, an entry was there and was not removed, or it was made for a formula that was
added. -/
theorem mem_entries_update {change : Change} {entry : (Side × SeqFormula) × List RuleApp}
    (h : entry ∈ (index.update base change).entries) :
    (entry ∈ index.entries ∧ entry.1 ∉ change.removed) ∨
      entry.1 ∈ change.added ∧ entry.2 = base.matchesIn entry.1.1 entry.1.2 :=
  (mem_entries_foldl_insert h).imp_left mem_entries_foldl_erase

/-- After a change, an application was there before or was found in a formula that was added. -/
theorem mem_update {change : Change} (h : app ∈ (index.update base change).apps) :
    app ∈ index.apps ∨ ∃ e ∈ change.added, app ∈ base.matchesIn e.1 e.2 := by
  rcases mem_apps.mp h with ⟨entry, hentry, happ⟩ | happ
  · rcases mem_entries_update hentry with ⟨hold, -⟩ | ⟨hadded, heq⟩
    · exact .inl (mem_apps.mpr (.inl ⟨entry, hold, happ⟩))
    · exact .inr ⟨entry.1, hadded, heq ▸ happ⟩
  · rw [unfocused_update] at happ
    exact .inl (mem_apps.mpr (.inr happ))

/-! ## Indices that follow a sequent -/

/-- **An index that holds nothing but what is in a sequent**: each entry is that of a formula, and
holds what matching finds in it. -/
structure Within (base : RuleBase) (seq : Sequent) (index : MatchIndex) : Prop where
  /-- each entry is that of a formula -/
  entries : ∀ entry ∈ index.entries,
    entry.1.2 ∈ seq.side entry.1.1 ∧ entry.2 = base.matchesIn entry.1.1 entry.1.2
  /-- and there are the applications without a focus -/
  unfocused : index.unfocused = base.withoutFocus.map fun rule => .ofMatch rule .empty none

/-- **The index of a sequent**: it has an entry for each formula and no others, and an entry holds
what matching finds in its formula. -/
structure Follows (base : RuleBase) (seq : Sequent) (index : MatchIndex) : Prop
    extends Within base seq index where
  /-- each formula has an entry -/
  has : ∀ {side f}, f ∈ seq.side side → Has base index (side, f)

variable {seq : Sequent}

/-- The applications of such an index are found by matching in the sequent. -/
theorem Within.of_mem_apps (h : Within base seq index) (happ : app ∈ index.apps) :
    (∃ side, ∃ f ∈ seq.side side, app ∈ base.matchesIn side f) ∨
      ∃ rule ∈ base.withoutFocus, app = .ofMatch rule .empty none := by
  rcases MatchIndex.mem_apps.mp happ with ⟨entry, hentry, happ⟩ | happ
  · obtain ⟨hmem, heq⟩ := h.entries entry hentry
    exact .inl ⟨entry.1.1, entry.1.2, hmem, heq ▸ happ⟩
  · rw [h.unfocused] at happ
    obtain ⟨rule, hrule, rfl⟩ := List.mem_map.mp happ
    exact .inr ⟨rule, hrule, rfl⟩

/-- The applications of the index of a sequent are those that matching finds in it. -/
theorem Follows.mem_apps (h : Follows base seq index) : app ∈ index.apps ↔
    (∃ side, ∃ f ∈ seq.side side, app ∈ base.matchesIn side f) ∨
      ∃ rule ∈ base.withoutFocus, app = .ofMatch rule .empty none := by
  refine ⟨h.of_mem_apps, fun happ => MatchIndex.mem_apps.mpr ?_⟩
  rcases happ with ⟨side, f, hf, happ⟩ | ⟨rule, hrule, rfl⟩
  · exact .inl ⟨_, h.has hf, happ⟩
  · rw [h.unfocused]
    exact .inr (List.mem_map_of_mem hrule)

/-- **The index of a sequent is right.** -/
theorem follows_ofSequent (base : RuleBase) (seq : Sequent) :
    Follows base seq (ofSequent base seq) where
  has hf := has_foldl_insert (Sequent.mem_formulas.mpr hf)
  entries entry hentry := by
    rcases mem_entries_foldl_insert hentry with hold | ⟨hkey, heq⟩
    · cases hold
    · exact ⟨Sequent.mem_formulas.mp hkey, heq⟩
  unfocused := unfocused_foldl_insert ..

/-- An index holds nothing but what is in the sequent after a change that leaves what it does not
record as removed. -/
theorem Within.update {change : Change} (h : Within base seq index)
    (hstays : ∀ {side f}, (side, f) ∈ change.added ∨ f ∈ seq.side side ∧
      (side, f) ∉ change.removed →
      f ∈ change.sequent.side side) :
    Within base change.sequent (index.update base change) where
  entries entry hentry := by
    rcases mem_entries_update hentry with ⟨hold, hkept⟩ | ⟨hadded, heq⟩
    · obtain ⟨hmem, heq⟩ := h.entries entry hold
      exact ⟨hstays (.inr ⟨hmem, hkept⟩), heq⟩
    · exact ⟨hstays (.inl hadded), heq⟩
  unfocused := (unfocused_update ..).trans h.unfocused

/-- **An index that is right stays right when it follows a change.** -/
theorem Follows.update {change : Change} (h : Follows base seq index)
    (htracks : ∀ {side f}, f ∈ change.sequent.side side ↔
      (side, f) ∈ change.added ∨ f ∈ seq.side side ∧ (side, f) ∉ change.removed) :
    Follows base change.sequent (index.update base change) where
  toWithin := h.toWithin.update htracks.mpr
  has hf := by
    rcases htracks.mp hf with hadded | ⟨hold, hkept⟩
    · exact has_foldl_insert hadded
    · exact ((h.has hold).foldl_erase hkept).foldl_insert _

end MatchIndex

end SequentSearch
