import SequentSearch.Proofs.Editing
import SequentSearch.Rule.Accept

/-!
# What accepted rules are like

A rule comes from a draft that passed all checks (`Rule.Accepted`). So its schema variables are
listed once each, those of its patterns are among them and are not for fresh constants, and what its
templates put in the place of the focus fits the find part. In particular a rule without a focus
replaces nothing.
-/

namespace SequentSearch

theorem nodup_eraseDups {α : Type} [BEq α] [LawfulBEq α] (l : List α) : l.eraseDups.Nodup := by
  induction hn : l.length using Nat.strong_induction_on generalizing l with
  | _ n ih =>
    cases l with
    | nil => exact .nil
    | cons a l =>
      rw [List.eraseDups_cons, List.nodup_cons, List.mem_eraseDups]
      refine ⟨by simp, ih _ ?_ _ rfl⟩
      exact hn ▸ Nat.lt_succ_of_le (List.length_filter_le ..)

/-- The patterns of an assumes part are matched. -/
theorem RuleDraft.mem_patterns_of_mem_sided {d : RuleDraft} {e : Side × Term}
    (h : e ∈ d.assumes.sided) :
    e.2 ∈ d.patterns := by
  refine List.mem_append_right _ ?_
  simp only [SequentPattern.sided, List.mem_append, List.mem_map] at h
  rcases h with ⟨p, hp, rfl⟩ | ⟨p, hp, rfl⟩
  · exact List.mem_append_left _ hp
  · exact List.mem_append_right _ hp

/-- A rule that was accepted. -/
def Rule.Accepted (r : Rule) : Prop := ∃ d : RuleDraft, d.accept = .ok r

namespace RuleDraft

variable {d : RuleDraft} {r : Rule}

/-- **What acceptance checks**, as far as it is used here, and what the rule is. -/
theorem accept_eq_ok (h : d.accept = .ok r) :
    d.checkPatterns = .ok () ∧ d.checkTemplates 0 d.templates = .ok () ∧
      r = { d with schemaVars := (d.matchedVars ++ d.usedVars ++ d.external).eraseDups } := by
  unfold accept at h
  obtain ⟨⟨⟩, hpatterns, h⟩ := bind_eq_ok.mp h
  obtain ⟨-, -, h⟩ := bind_eq_ok.mp h
  obtain ⟨⟨⟩, htemplates, h⟩ := bind_eq_ok.mp h
  obtain ⟨-, -, h⟩ := bind_eq_ok.mp h
  obtain ⟨-, -, h⟩ := bind_eq_ok.mp h
  exact ⟨hpatterns, htemplates, (Except.ok.inj h).symm⟩

theorem toRuleDraft_of_accept (h : d.accept = .ok r) : r.toRuleDraft = d := by
  obtain ⟨-, -, rfl⟩ := accept_eq_ok h
  rfl

theorem exists_accept_of_mem_acceptAll {ds : List RuleDraft} (h : r ∈ acceptAll ds) :
    ∃ d ∈ ds, d.accept = .ok r := by
  obtain ⟨d, hd, hr⟩ := List.mem_filterMap.mp h
  cases haccept : d.accept with
  | error e =>
    rw [haccept] at hr
    cases hr
  | ok r' =>
    rw [haccept] at hr
    cases hr
    exact ⟨d, hd, haccept⟩

theorem mem_acceptAll {ds : List RuleDraft} (h : r ∈ acceptAll ds) : r.toRuleDraft ∈ ds := by
  obtain ⟨d, hd, haccept⟩ := exists_accept_of_mem_acceptAll h
  rwa [toRuleDraft_of_accept haccept]

theorem accepted_of_mem_acceptAll {ds : List RuleDraft} (h : r ∈ acceptAll ds) : r.Accepted := by
  obtain ⟨d, -, haccept⟩ := exists_accept_of_mem_acceptAll h
  exact ⟨d, haccept⟩

theorem isSkolem_of_checkPatterns (h : d.checkPatterns = .ok ()) {sv : SchemaVar}
    (hsv : sv ∈ d.matchedVars) : sv.isSkolem = false := by
  unfold checkPatterns at h
  split at h <;> rename_i hfind
  · cases h
  · exact (Bool.not_eq_true _).mp (List.find?_eq_none.mp hfind sv hsv)

theorem fits_of_checkReplacement {n : Nat} {replace : Replacement}
    (h : d.checkReplacement n replace = .ok ()) : d.find.fits replace := by
  unfold checkReplacement at h
  split at h
  · assumption
  · cases h

theorem fits_of_checkTemplates {n : Nat} {gs : List GoalTemplate}
    (h : d.checkTemplates n gs = .ok ()) {g : GoalTemplate} (hg : g ∈ gs) :
    d.find.fits g.replace := by
  induction gs generalizing n with
  | nil => cases hg
  | cons g' gs ih =>
    rw [checkTemplates] at h
    obtain ⟨⟨⟩, hreplacement, h⟩ := bind_eq_ok.mp h
    obtain ⟨-, -, h⟩ := bind_eq_ok.mp h
    rcases List.mem_cons.mp hg with rfl | hg
    · exact fits_of_checkReplacement hreplacement
    · exact ih h hg

end RuleDraft

namespace Rule.Accepted

variable {r : Rule} (h : r.Accepted)
include h

/-- Schema variables are listed once. -/
theorem nodup_schemaVars : r.schemaVars.Nodup := by
  obtain ⟨d, hd⟩ := h
  obtain ⟨-, -, rfl⟩ := RuleDraft.accept_eq_ok hd
  exact nodup_eraseDups _

/-- **The schema variables of patterns are listed**, and none is for a fresh constant. -/
theorem mem_schemaVars {p : Term} (hp : p ∈ r.toRuleDraft.patterns) {sv : SchemaVar}
    (hsv : sv ∈ p.schemaVars) : sv ∈ r.schemaVars ∧ sv.isSkolem = false := by
  obtain ⟨d, hd⟩ := h
  obtain ⟨hpatterns, -, rfl⟩ := RuleDraft.accept_eq_ok hd
  have hmatched : sv ∈ d.matchedVars := List.mem_flatMap.mpr ⟨p, hp, hsv⟩
  refine ⟨?_, RuleDraft.isSkolem_of_checkPatterns hpatterns hmatched⟩
  exact List.mem_eraseDups.mpr (List.mem_append_left _ (List.mem_append_left _ hmatched))

/-- What a template puts in the place of the focus fits the find part. -/
theorem fits {g : GoalTemplate} (hg : g ∈ r.templates) : r.find.fits g.replace := by
  obtain ⟨d, hd⟩ := h
  obtain ⟨-, htemplates, rfl⟩ := RuleDraft.accept_eq_ok hd
  exact RuleDraft.fits_of_checkTemplates htemplates hg

/-- **A rule without a focus replaces nothing.** -/
theorem replace_eq_keep (hnone : r.find.pattern? = none) {g : GoalTemplate} (hg : g ∈ r.templates) :
    g.replace = .keep := by
  have hfits := h.fits hg
  cases hfind : r.find with
  | nothing =>
    rw [hfind] at hfits
    cases hreplace : g.replace <;> simp_all [FindPart.fits]
  | subterm | antec | succ => simp [hfind, FindPart.pattern?] at hnone

end Rule.Accepted

end SequentSearch
