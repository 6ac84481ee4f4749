import SequentSearch.Proofs.Matching
import SequentSearch.Proofs.Term

/-!
# What matching binds

A schema variable in the place of a term is bound to a part of the candidate: a subterm that fits
its kind, or a variable that the candidate binds. Variables in programs and labels are bound to
program elements and labels. So a property of the candidate that its parts inherit
(`Term.Hereditary`) is a property of every term that matching binds.

Matching is a run of bindings (`Instantiations.Steps`), each of a value with a property `R`, to be
read as "nothing but this is ever bound". From the run follows what is true of the values at its end
(`Instantiations.Steps.all`), and that the values at its beginning are kept
(`Instantiations.Steps.le`).
-/

namespace SequentSearch

/-- A property of terms that their parts inherit. -/
structure Term.Hereditary (Q : Term → Prop) : Prop where
  /-- arguments have it -/
  arg : ∀ {t : Term} {a : List Binder × Term}, Q t → a ∈ t.args → Q a.2
  /-- variables bound by the term have it -/
  binder : ∀ {t : Term} {y : LogicVar}, Q t → .logic y ∈ t.boundHere → Q (.var y)

theorem Term.Hereditary.of_mem_subterms {Q : Term → Prop} (hQ : Hereditary Q)
    {t u : Term} (ht : Q t) (hu : u ∈ t.subterms) : Q u := by
  induction t with
  | node op args labels ih =>
    rcases mem_subterms_node.mp hu with rfl | ⟨a, ha, hu⟩
    · exact ht
    · exact ih a ha (hQ.arg ht ha) hu

namespace Instantiations

variable {R : SchemaVar → Instantiation → Prop} {σ τ υ : Instantiations}

/-- All values have a property that may depend on the variable. -/
def All (R : SchemaVar → Instantiation → Prop) (σ : Instantiations) : Prop :=
  ∀ sv v, σ.get? sv = some v → R sv v

theorem all_empty : All R empty := fun _ _ h => (nomatch h)

/-- Where no terms are bound yet, a variable is bound to the very term it is matched with. -/
theorem get?_of_add_term_of_all {sv : SchemaVar} {t : Term}
    (hσ : σ.All fun _ v => v.term? = none) (h : σ.add sv (.term t) = some τ) :
    τ.get? sv = some (.term t) := by
  rcases add_cases h with ⟨-, old, hold, heq⟩ | ⟨-, rfl⟩
  · have hnone := hσ _ _ hold
    cases old with
    | term u => cases hnone
    | _ => simp [Instantiation.equivalent] at heq
  · rw [get?_cons, if_pos rfl]

/-- A run of bindings of values with a property. -/
inductive Steps (R : SchemaVar → Instantiation → Prop) (σ : Instantiations) :
    Instantiations → Prop where
  /-- nothing is bound -/
  | refl : Steps R σ σ
  /-- a variable is bound, or had a value that says the same -/
  | add {τ υ : Instantiations} {sv : SchemaVar} {v : Instantiation} (h : Steps R σ τ) (hv : R sv v)
      (hadd : τ.add sv v = some υ) : Steps R σ υ
  /-- the context is recorded -/
  | withContext {τ υ : Instantiations} {ctx : ProgramContext} (h : Steps R σ τ)
      (hctx : τ.withContext ctx = some υ) : Steps R σ υ

theorem Steps.trans (h : Steps R σ τ) (h' : Steps R τ υ) : Steps R σ υ := by
  induction h' with
  | refl => exact h
  | add _ hv hadd ih => exact ih.add hv hadd
  | withContext _ hctx ih => exact ih.withContext hctx

theorem Steps.le (h : Steps R σ τ) : σ ≤ τ := by
  induction h with
  | refl => exact le_refl σ
  | add _ _ hadd ih => exact le_trans ih (le_of_add hadd)
  | withContext _ hctx ih => exact le_trans ih (le_of_withContext hctx)

theorem Steps.all (h : Steps R σ τ) (hσ : σ.All R) : τ.All R := by
  induction h with
  | refl => exact hσ
  | @add τ υ sv v _ hv hadd ih =>
    rcases add_cases hadd with ⟨rfl, -⟩ | ⟨-, rfl⟩
    · exact ih
    · intro sv' v' hv'
      rw [get?_cons] at hv'
      split at hv' <;> rename_i heq
      · cases hv'
        exact heq ▸ hv
      · exact ih sv' v' hv'
  | withContext _ hctx ih =>
    rcases withContext_cases hctx with ⟨rfl, -⟩ | ⟨-, rfl⟩
    · exact ih
    · exact ih

end Instantiations

namespace Program

variable {R : SchemaVar → Instantiation → Prop}

/-- Matching the pattern binds values of a property only. -/
def Binds (R : SchemaVar → Instantiation → Prop) (p : Program) : Prop :=
  ∀ c σ₀ σ τ, Instantiations.Steps R σ₀ σ → p.matchInto c σ = some τ → Instantiations.Steps R σ₀ τ

/-- Matching the sequence of patterns binds values of a property only. -/
def RunBinds (R : SchemaVar → Instantiation → Prop) (ps : List Program) : Prop :=
  ∀ cs σ₀ σ τ n, Instantiations.Steps R σ₀ σ → matchRun ps cs σ = some (τ, n) →
    Instantiations.Steps R σ₀ τ

theorem runBinds_of_forall (hR : ∀ sv v, v.term? = none → R sv v) {ps : List Program}
    (hps : ∀ p ∈ ps, p.Binds R) : RunBinds R ps := by
  induction ps with
  | nil =>
    intro cs σ₀ σ τ n hσ h
    obtain ⟨rfl, rfl⟩ : σ = τ ∧ 0 = n := by simpa [matchRun] using h
    exact hσ
  | cons p ps ih =>
    have ih := ih fun q hq => hps q (List.mem_cons_of_mem _ hq)
    intro cs σ₀ σ υ n hσ h
    cases hp : p.listVar? with
    | some sv =>
      obtain ⟨run, rest, τ, m, -, hadd, hrest, -⟩ := matchRun_listVar hp h
      exact ih _ _ _ _ _ (hσ.add (hR _ _ rfl) hadd) hrest
    | none =>
      rw [matchRun.eq_def] at h
      simp only [hp] at h
      cases cs with
      | nil => cases h
      | cons c cs =>
        simp only at h
        split at h <;> rename_i hfirst
        · obtain ⟨⟨υ', m⟩, hrest, heq⟩ := Option.map_eq_some_iff.mp h
          obtain ⟨rfl, -⟩ : υ' = υ ∧ m + 1 = n := by simpa using heq
          exact ih _ _ _ _ _ (hps p (List.mem_cons_self ..) _ _ _ _ hσ hfirst) hrest
        · cases h

/-- **Programs bind program elements only**, never terms. As for `Program.reproduces`, each element
carries the law for its children along. -/
theorem binds (hR : ∀ sv v, v.term? = none → R sv v) (p : Program) : p.Binds R := by
  suffices h : p.Binds R ∧ RunBinds R p.children from h.1
  induction p using induct with
  | node kind children ih =>
    have hrun : RunBinds R children := runBinds_of_forall hR fun c hc => (ih c hc).1
    refine ⟨fun c σ₀ σ τ hσ h => ?_, hrun⟩
    by_cases hsv : ∃ sv, kind = .schema sv
    · obtain ⟨sv, rfl⟩ := hsv
      rw [matchInto, matchVar] at h
      split at h
      · split at h
        · exact hσ.add (hR _ _ (by split <;> rfl)) h
        · cases h
      · cases h
    by_cases hactive : ∃ active, kind = .block ∧ children = [node .context active]
    · obtain ⟨active, rfl, rfl⟩ := hactive
      rw [matchInto, matchActive] at h
      split at h
      · split at h <;> rename_i hfound
        · obtain ⟨block, -, -, hfront⟩ := leadingBlock_of_findActive hfound
          exact ((ih _ (List.mem_cons_self ..)).2 _ _ _ _ _ hσ hfront).withContext h
        · cases h
      · cases h
    by_cases hctx : kind = .context
    · rw [hctx, matchInto] at h
      cases h
    rw [matchInto] at h
    · split at h
      · split at h <;> rename_i hmatch
        · split at h
          · cases h
            exact hrun _ _ _ _ _ hσ hmatch
          · cases h
        · cases h
      · cases h
    · exact fun active hk hc => hactive ⟨active, hk, hc⟩
    · exact not_exists.mp hsv
    · exact hctx

end Program

namespace Term

variable {Q : Term → Prop} {R : SchemaVar → Instantiation → Prop} {σ₀ σ τ : Instantiations}

/-- The values other than terms that a pattern may bind have a property: the labels bound to its
label variables, and what its programs bind. -/
def AllowsParts (R : SchemaVar → Instantiation → Prop) (p : Term) : Prop :=
  ∀ u ∈ p.subterms, (∀ sv, .schema sv ∈ u.labels → ∀ ls, R sv (.labels ls)) ∧
    ∀ m q, u.op = .modal m q → ∀ sv v, v.term? = none → R sv v

theorem matchLabels_steps {ls cs : List Label}
    (hls : ∀ sv, .schema sv ∈ ls → ∀ found, R sv (.labels found)) (hσ : Instantiations.Steps R σ₀ σ)
    (h : matchLabels ls cs σ = some τ) : Instantiations.Steps R σ₀ τ := by
  induction ls generalizing σ with
  | nil =>
    cases h
    exact hσ
  | cons l ls ih =>
    have hrest : ∀ sv, .schema sv ∈ ls → ∀ found, R sv (.labels found) :=
      fun sv hsv => hls sv (List.mem_cons_of_mem _ hsv)
    cases l with
    | name n => exact ih hrest hσ h
    | schema sv =>
      rw [matchLabels] at h
      split at h <;> rename_i hadd
      · exact ih hrest (hσ.add (hls sv (List.mem_cons_self ..) _) hadd) h
      · cases h

theorem matchBinders_steps {ps cs : List Binder} {ρ ρ' : Renaming}
    (hcs : ∀ y, .logic y ∈ cs → Q (var y))
    (hR : ∀ sv u, Q u → fitsKind sv u → R sv (.term u)) (hσ : Instantiations.Steps R σ₀ σ)
    (h : matchBinders ps cs ρ σ = some (ρ', τ)) : Instantiations.Steps R σ₀ τ := by
  induction ps generalizing cs ρ σ with
  | nil =>
    cases cs with
    | nil =>
      cases h
      exact hσ
    | cons c cs => cases h
  | cons b ps ih =>
    rcases cs with _ | ⟨c, cs⟩
    · cases b <;> cases h
    · have hrest : ∀ y, .logic y ∈ cs → Q (var y) := fun y hy => hcs y (List.mem_cons_of_mem _ hy)
      rcases b with x | sv <;> rcases c with y | sv'
      · rw [matchBinders] at h
        split at h
        · exact ih hrest hσ h
        · cases h
      · cases h
      · rw [matchBinders] at h
        split at h <;> rename_i hkind
        · split at h <;> rename_i hsort
          · split at h <;> rename_i hadd
            · have hfits : fitsKind sv (var y) := by
                simpa [fitsKind, hkind, var, plain, logicVar?] using hsort
              exact ih hrest (hσ.add (hR sv _ (hcs y (List.mem_cons_self ..)) hfits) hadd) h
            · cases h
          · cases h
        · cases h
      · cases h

theorem matchArgs_steps {ps cs : List (List Binder × Term)} {ρ : Renaming}
    (hR : ∀ sv u, Q u → fitsKind sv u → R sv (.term u))
    (hcs : ∀ c ∈ cs, Q c.2 ∧ ∀ y, .logic y ∈ c.1 → Q (var y))
    (hps : ∀ p ∈ ps, ∀ {c ρ σ τ}, Q c → Instantiations.Steps R σ₀ σ →
      p.2.matchInto ρ c σ = some τ → Instantiations.Steps R σ₀ τ)
    (hσ : Instantiations.Steps R σ₀ σ) (h : matchArgs ρ ps cs σ = some τ) :
    Instantiations.Steps R σ₀ τ := by
  induction ps generalizing cs σ with
  | nil =>
    cases cs with
    | nil =>
      cases h
      exact hσ
    | cons c cs => cases h
  | cons p ps ih =>
    rcases cs with _ | ⟨c, cs⟩
    · cases h
    · obtain ⟨hc, hcs⟩ := List.forall_mem_cons.mp hcs
      obtain ⟨hp, hps⟩ := List.forall_mem_cons.mp hps
      rw [matchArgs] at h
      split at h <;> rename_i hbinders
      · split at h <;> rename_i hfirst
        · have hσ' := matchBinders_steps hc.2 hR hσ hbinders
          exact ih hcs hps (hp hc.1 hσ' hfirst) h
        · cases h
      · cases h

theorem matchOperator_steps {o o' : Operator}
    (ho : ∀ m q, o = .modal m q → ∀ sv v, v.term? = none → R sv v)
    (hσ : Instantiations.Steps R σ₀ σ) (h : matchOperator o o' σ = some τ) :
    Instantiations.Steps R σ₀ τ := by
  unfold matchOperator at h
  split at h
  · split at h
    · exact Program.binds (ho _ _ rfl) _ _ _ _ _ hσ h
    · cases h
  · split at h
    · cases h
      exact hσ
    · cases h

/-- **Matching binds parts of the candidate.** If the candidate has a property that parts inherit,
then matching it is a run of bindings of fitting terms with this property. -/
theorem matchInto_steps (hQ : Hereditary Q) (hR : ∀ sv u, Q u → fitsKind sv u → R sv (.term u))
    {p c : Term} {ρ : Renaming} (hp : p.AllowsParts R) (hc : Q c) (hσ : Instantiations.Steps R σ₀ σ)
    (h : p.matchInto ρ c σ = some τ) : Instantiations.Steps R σ₀ τ := by
  induction p generalizing c ρ σ τ with
  | node op args labels ih =>
    obtain ⟨hlabels, hmodal⟩ := hp _ (self_mem_subterms _)
    rw [labels_node] at hlabels
    by_cases hsv : ∃ sv, op = .schema sv
    · obtain ⟨sv, rfl⟩ := hsv
      rw [matchInto, matchVar] at h
      split at h <;> rename_i hmatch
      · split at hmatch <;> rename_i hfits
        · have hfits : fitsKind sv c :=
            (Bool.and_eq_true_iff.mp (Bool.and_eq_true_iff.mp hfits).1).1
          exact matchLabels_steps hlabels (hσ.add (hR sv c hc hfits) hmatch) h
        · cases hmatch
      · cases h
    by_cases hvar : ∃ x, op = .var x
    · obtain ⟨x, rfl⟩ := hvar
      rw [matchInto] at h
      split at h
      · split at h
        · exact matchLabels_steps hlabels hσ h
        · cases h
      · cases h
    rw [matchInto] at h
    · split at h <;> rename_i hop
      · split at h <;> rename_i hargs
        · refine matchLabels_steps hlabels ?_ h
          refine matchArgs_steps hR (fun a ha => ⟨hQ.arg hc ha, fun y hy => ?_⟩) (fun a ha => ?_)
            (matchOperator_steps hmodal hσ hop) hargs
          · exact hQ.binder hc (List.mem_flatMap.mpr ⟨a, ha, hy⟩)
          · intro c ρ σ τ hc hσ h
            exact ih a ha (fun u hu => hp u (mem_subterms_of_arg ha hu)) hc hσ h
        · cases h
      · cases h
    · exact not_exists.mp hsv
    · exact not_exists.mp hvar

end Term

end SequentSearch
