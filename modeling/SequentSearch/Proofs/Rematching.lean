import SequentSearch.Proofs.AssumedFormulas

/-!
# Matching what is bound already

Matching binds the schema variables of a pattern that have no value yet, and for those that have one
it only compares. So where all of them have values nothing is bound. The context of active
statements is recorded in the same way, once. Whether one is recorded at all depends on the pattern
alone, since a match that succeeds goes through all of the pattern.

`Instantiations.Reads` says both of a step, and steps of this kind compose. The results are
`Term.exists_reads` for patterns and `Rule.exists_reads_matchAssumes` for the assumes part of a
rule.
-/

namespace SequentSearch

namespace Instantiations

variable {svs svs' : List SchemaVar} {active active' : Bool} {σ τ υ : Instantiations}

/-- **What matching does to the values that are there**: it keeps them, it binds nothing if the
given variables have values, and it may record a context. -/
structure Reads (svs : List SchemaVar) (active : Bool) (σ τ : Instantiations) : Prop where
  /-- values and context stay -/
  le : σ ≤ τ
  /-- where the variables have values nothing is bound -/
  bindings : (∀ sv ∈ svs, σ.has sv) → τ.bindings = σ.bindings
  /-- there is a context afterwards if there was one or if one is recorded -/
  context : τ.context.isSome = (σ.context.isSome || active)

theorem reads_refl (σ : Instantiations) : Reads svs false σ σ := ⟨le_refl σ, fun _ => rfl, by simp⟩

theorem Reads.mono (h : Reads svs active σ τ) (hsub : svs ⊆ svs') : Reads svs' active σ τ :=
  ⟨h.le, fun hhas => h.bindings fun sv hsv => hhas sv (hsub hsv), h.context⟩

theorem Reads.trans (h : Reads svs active σ τ) (h' : Reads svs active' τ υ) :
    Reads svs (active || active') σ υ := by
  refine ⟨le_trans h.le h'.le, fun hhas => ?_, ?_⟩
  · have hsame := h.bindings hhas
    have hhas' : ∀ sv ∈ svs, τ.has sv := by
      intro sv hsv
      rw [has, get?, hsame]
      exact hhas sv hsv
    exact (h'.bindings hhas').trans hsame
  · rw [h'.context, h.context, Bool.or_assoc]

theorem reads_of_add {sv : SchemaVar} {v : Instantiation} (hsv : sv ∈ svs)
    (h : σ.add sv v = some τ) :
    Reads svs false σ τ := by
  refine ⟨le_of_add h, fun hhas => ?_, ?_⟩
  · obtain ⟨old, hold⟩ := Option.isSome_iff_exists.mp (hhas sv hsv)
    rcases add_cases h with ⟨rfl, -⟩ | ⟨hnone, -⟩
    · rfl
    · cases hold.symm.trans hnone
  · rw [context_of_add h]
    simp

theorem reads_of_withContext {ctx : ProgramContext} (h : σ.withContext ctx = some τ) :
    Reads svs true σ τ := by
  refine ⟨le_of_withContext h, fun _ => ?_, ?_⟩
  · rcases withContext_cases h with ⟨rfl, -⟩ | ⟨-, rfl⟩ <;> rfl
  · rw [context_of_withContext h]
    simp

/-- **Matching changes nothing** where all variables are bound, and the context is recorded if there
is one. -/
theorem Reads.eq (h : Reads svs active σ τ) (hhas : ∀ sv ∈ svs, σ.has sv)
    (hactive : active → σ.context.isSome) : τ = σ := by
  have hcontext : τ.context = σ.context := by
    cases hctx : σ.context with
    | some ctx => exact context_of_le h.le hctx
    | none =>
      have hpassive : active = false := Bool.eq_false_iff.mpr fun hactive' => by
        have hsome := hactive hactive'
        rw [hctx] at hsome
        cases hsome
      have hnone := h.context
      rw [hctx, hpassive] at hnone
      exact Option.not_isSome_iff_eq_none.mp (Bool.eq_false_iff.mp hnone)
  obtain ⟨bindings, context⟩ := τ
  obtain rfl : bindings = σ.bindings := h.bindings hhas
  obtain rfl : context = σ.context := hcontext
  rfl

end Instantiations

open Instantiations (Reads)

/-! ## Programs -/

namespace Program

/-- Matching the pattern reads its variables; whether it records a context is given. -/
def ReadsVars (p : Program) (active : Bool) : Prop :=
  ∀ c σ τ, p.matchInto c σ = some τ → Reads p.schemaVars active σ τ

/-- Matching a sequence of patterns reads their variables. -/
def RunReadsVars (ps : List Program) (active : Bool) : Prop :=
  ∀ cs σ τ n, matchRun ps cs σ = some (τ, n) → Reads (schemaVarsList ps) active σ τ

theorem mem_schemaVars_of_listVar? {p : Program} {sv : SchemaVar} (h : p.listVar? = some sv) :
    sv ∈ p.schemaVars := by
  obtain ⟨kind, children⟩ := p
  unfold listVar? at h
  split at h <;> rename_i hkind
  · split at h
    · cases h
      obtain rfl : kind = .schema sv := hkind
      simp [schemaVars]
    · cases h
  · cases h

theorem schemaVarsList_subset (kind : ProgramKind) (children : List Program) :
    schemaVarsList children ⊆ (node kind children).schemaVars := by
  intro sv hsv
  unfold schemaVars
  split
  · rename_i heq
    cases heq
    exact List.mem_cons_of_mem _ hsv
  · rename_i heq
    cases heq
    exact hsv

theorem exists_runReadsVars {ps : List Program} (hps : ∀ p ∈ ps, ∃ active, p.ReadsVars active) :
    ∃ active, RunReadsVars ps active := by
  induction ps with
  | nil =>
    refine ⟨false, fun cs σ τ n h => ?_⟩
    obtain ⟨rfl, -⟩ : σ = τ ∧ 0 = n := by simpa [matchRun] using h
    exact Instantiations.reads_refl σ
  | cons p ps ih =>
    obtain ⟨⟨active, hp⟩, hps⟩ := List.forall_mem_cons.mp hps
    obtain ⟨active', hrun⟩ := ih hps
    have hfirst : p.schemaVars ⊆ schemaVarsList (p :: ps) := List.subset_append_left ..
    have hothers : schemaVarsList ps ⊆ schemaVarsList (p :: ps) := List.subset_append_right ..
    cases hlist : p.listVar? with
    | some sv =>
      refine ⟨active', fun cs σ υ n h => ?_⟩
      obtain ⟨run, rest, τ, m, -, hadd, hrest, -⟩ := matchRun_listVar hlist h
      have hsv := hfirst (mem_schemaVars_of_listVar? hlist)
      have hread := (Instantiations.reads_of_add hsv hadd).trans ((hrun _ _ _ _ hrest).mono hothers)
      rwa [Bool.false_or] at hread
    | none =>
      refine ⟨active || active', fun cs σ υ n h => ?_⟩
      rw [matchRun.eq_def] at h
      simp only [hlist] at h
      cases cs with
      | nil => cases h
      | cons c cs =>
        simp only at h
        split at h <;> rename_i hmatch
        · obtain ⟨⟨υ', m⟩, hrest, heq⟩ := Option.map_eq_some_iff.mp h
          obtain ⟨rfl, -⟩ : υ' = υ ∧ m + 1 = n := by simpa using heq
          exact ((hp _ _ _ hmatch).mono hfirst).trans ((hrun _ _ _ _ hrest).mono hothers)
        · cases h

/-- **Program patterns read their variables.** As for `Program.binds`, each element carries the law
for its children along, which the pattern for active statements needs. -/
theorem exists_readsVars (p : Program) : ∃ active, p.ReadsVars active := by
  suffices h : (∃ active, p.ReadsVars active) ∧ ∃ active, RunReadsVars p.children active from h.1
  induction p using induct with
  | node kind children ih =>
    have hrun := exists_runReadsVars fun c hc => (ih c hc).1
    refine ⟨?_, hrun⟩
    have hsub := schemaVarsList_subset kind children
    by_cases hsv : ∃ sv, kind = .schema sv
    · obtain ⟨sv, rfl⟩ := hsv
      refine ⟨false, fun c σ τ h => ?_⟩
      rw [matchInto, matchVar] at h
      split at h
      · split at h
        · exact Instantiations.reads_of_add (by simp [schemaVars]) h
        · cases h
      · cases h
    by_cases hactive : ∃ active, kind = .block ∧ children = [node .context active]
    · obtain ⟨statements, rfl, rfl⟩ := hactive
      obtain ⟨active, hstatements⟩ := (ih _ (List.mem_cons_self ..)).2
      refine ⟨active || true, fun c σ τ h => ?_⟩
      rw [matchInto, matchActive] at h
      split at h
      · split at h <;> rename_i hfound
        · obtain ⟨block, -, -, hfront⟩ := leadingBlock_of_findActive hfound
          have hread := hstatements _ _ _ _ hfront
          have hinner : schemaVarsList statements ⊆ schemaVarsList [node .context statements] :=
            fun sv hsv => List.mem_append_left _ (schemaVarsList_subset .context statements hsv)
          exact (hread.mono fun sv hsv =>
            hsub (hinner hsv)).trans (Instantiations.reads_of_withContext h)
        · cases h
      · cases h
    by_cases hctx : kind = .context
    · refine ⟨false, fun c σ τ h => ?_⟩
      rw [hctx, matchInto] at h
      cases h
    obtain ⟨active, hchildren⟩ := hrun
    refine ⟨active, fun c σ τ h => ?_⟩
    rw [matchInto] at h
    · split at h
      · split at h <;> rename_i hmatch
        · split at h
          · cases h
            exact (hchildren _ _ _ _ hmatch).mono hsub
          · cases h
        · cases h
      · cases h
    · exact fun active hk hc => hactive ⟨active, hk, hc⟩
    · exact not_exists.mp hsv
    · exact hctx

end Program

/-! ## Terms -/

namespace Term

variable {svs : List SchemaVar} {σ τ : Instantiations}

theorem matchLabels_reads {ls cs : List Label} (hls : ls.filterMap Label.schema? ⊆ svs)
    (h : matchLabels ls cs σ = some τ) : Reads svs false σ τ := by
  induction ls generalizing σ with
  | nil =>
    cases h
    exact Instantiations.reads_refl _
  | cons l ls ih =>
    cases l with
    | name n => exact ih hls h
    | schema sv =>
      obtain ⟨hsv, hls⟩ := List.cons_subset.mp hls
      rw [matchLabels] at h
      split at h <;> rename_i hadd
      · exact (Instantiations.reads_of_add hsv hadd).trans (ih hls h)
      · cases h

theorem matchBinders_reads {ps cs : List Binder} {ρ ρ' : Renaming}
    (hps : ps.filterMap Binder.schema? ⊆ svs) (h : matchBinders ps cs ρ σ = some (ρ', τ)) :
    Reads svs false σ τ := by
  induction ps generalizing cs ρ σ with
  | nil =>
    cases cs with
    | nil =>
      cases h
      exact Instantiations.reads_refl _
    | cons c cs => cases h
  | cons b ps ih =>
    rcases cs with _ | ⟨c, cs⟩
    · cases b <;> cases h
    · rcases b with x | sv <;> rcases c with y | sv'
      · rw [matchBinders] at h
        split at h
        · exact ih hps h
        · cases h
      · cases h
      · obtain ⟨hsv, hps⟩ := List.cons_subset.mp hps
        rw [matchBinders] at h
        split at h
        · split at h
          · split at h <;> rename_i hadd
            · exact (Instantiations.reads_of_add hsv hadd).trans (ih hps h)
            · cases h
          · cases h
        · cases h
      · cases h

theorem exists_reads_matchOperator (o : Operator) :
    ∃ active, ∀ o' σ τ, matchOperator o o' σ = some τ → Reads o.schemaVars active σ τ := by
  by_cases hmodal : ∃ m q, o = .modal m q
  · obtain ⟨m, q, rfl⟩ := hmodal
    obtain ⟨active, hq⟩ := q.exists_readsVars
    refine ⟨active, fun o' σ τ h => ?_⟩
    unfold matchOperator at h
    split at h <;> rename_i heq
    · cases heq
      split at h
      · exact hq _ _ _ h
      · cases h
    · split at h <;> rename_i hsame
      · exact absurd hsame.symm (heq m q m q rfl)
      · cases h
  · refine ⟨false, fun o' σ τ h => ?_⟩
    unfold matchOperator at h
    split at h
    · exact absurd ⟨_, _, rfl⟩ hmodal
    · split at h
      · cases h
        exact Instantiations.reads_refl σ
      · cases h

theorem exists_reads_matchArgs {args : List (List Binder × Term)}
    (hargs : ∀ a ∈ args, a.1.filterMap Binder.schema? ⊆ svs ∧
      ∃ active, ∀ ρ c σ τ, a.2.matchInto ρ c σ = some τ → Reads svs active σ τ) :
    ∃ active, ∀ ρ cs σ τ, matchArgs ρ args cs σ = some τ → Reads svs active σ τ := by
  induction args with
  | nil =>
    refine ⟨false, fun ρ cs σ τ h => ?_⟩
    cases cs with
    | nil =>
      cases h
      exact Instantiations.reads_refl σ
    | cons c cs => cases h
  | cons a args ih =>
    obtain ⟨⟨hbinders, active, ha⟩, hargs⟩ := List.forall_mem_cons.mp hargs
    obtain ⟨active', hrest⟩ := ih hargs
    refine ⟨false || active || active', fun ρ cs σ υ h => ?_⟩
    cases cs with
    | nil => cases h
    | cons c cs =>
      rw [matchArgs] at h
      split at h <;> rename_i hbound
      · split at h <;> rename_i hfirst
        · exact ((matchBinders_reads hbinders hbound).trans (ha _ _ _ _ hfirst)).trans
            (hrest _ _ _ _ h)
        · cases h
      · cases h

theorem schemaVars_subset_of_mem_subterms {t u : Term} (hu : u ∈ t.subterms) :
    u.schemaVars ⊆ t.schemaVars := by
  intro sv hsv
  obtain ⟨v, hv, hsv⟩ := List.mem_flatMap.mp hsv
  exact List.mem_flatMap.mpr ⟨v, mem_subterms_trans hu hv, hsv⟩

/-- **Patterns read their variables**, and whether a context is recorded depends on the pattern
alone. -/
theorem exists_reads (p : Term) :
    ∃ active, ∀ ρ c σ τ, p.matchInto ρ c σ = some τ → Reads p.schemaVars active σ τ := by
  induction p with
  | node op args labels ih =>
    have hself : ∀ sv, sv ∈ op.schemaVars ++ (args.flatMap Prod.fst).filterMap Binder.schema? ++
        labels.filterMap Label.schema? → sv ∈ (node op args labels).schemaVars :=
      fun sv hsv => List.mem_flatMap.mpr ⟨_, self_mem_subterms _, hsv⟩
    have hop : op.schemaVars ⊆ (node op args labels).schemaVars :=
      fun sv hsv => hself sv (List.mem_append_left _ (List.mem_append_left _ hsv))
    have hlabels : labels.filterMap Label.schema? ⊆ (node op args labels).schemaVars :=
      fun sv hsv => hself sv (List.mem_append_right _ hsv)
    have hargs : ∀ a ∈ args, a.1.filterMap Binder.schema? ⊆ (node op args labels).schemaVars ∧
        ∃ active, ∀ ρ c σ τ, a.2.matchInto ρ c σ = some τ →
          Reads (node op args labels).schemaVars active σ τ := by
      intro a ha
      refine ⟨fun sv hsv => ?_, ?_⟩
      · obtain ⟨b, hb, hsv⟩ := List.mem_filterMap.mp hsv
        refine hself sv (List.mem_append_left _ (List.mem_append_right _ ?_))
        exact List.mem_filterMap.mpr ⟨b, List.mem_flatMap.mpr ⟨a, ha, hb⟩, hsv⟩
      · obtain ⟨active, hread⟩ := ih a ha
        have hsub : a.2 ∈ (node op args labels).subterms :=
          mem_subterms_of_arg ha (self_mem_subterms a.2)
        exact ⟨active, fun ρ c σ τ h =>
          (hread ρ c σ τ h).mono (schemaVars_subset_of_mem_subterms hsub)⟩
    obtain ⟨inOp, hreadOp⟩ := exists_reads_matchOperator op
    obtain ⟨inArgs, hreadArgs⟩ := exists_reads_matchArgs hargs
    by_cases hsv : ∃ sv, op = .schema sv
    · obtain ⟨sv, rfl⟩ := hsv
      refine ⟨false || false, fun ρ c σ υ h => ?_⟩
      rw [matchInto, matchVar] at h
      split at h <;> rename_i hvar
      · split at hvar
        · exact (Instantiations.reads_of_add (hop List.mem_cons_self) hvar).trans
            (matchLabels_reads hlabels h)
        · cases hvar
      · cases h
    by_cases hvar : ∃ x, op = .var x
    · obtain ⟨x, rfl⟩ := hvar
      refine ⟨false, fun ρ c σ τ h => ?_⟩
      rw [matchInto] at h
      split at h
      · split at h
        · exact matchLabels_reads hlabels h
        · cases h
      · cases h
    refine ⟨inOp || inArgs || false, fun ρ c σ υ h => ?_⟩
    rw [matchInto] at h
    · split at h <;> rename_i hmatch
      · split at h <;> rename_i hmatches
        · exact (((hreadOp _ _ _ hmatch).mono hop).trans (hreadArgs _ _ _ _ hmatches)).trans
            (matchLabels_reads hlabels h)
        · cases h
      · cases h
    · exact not_exists.mp hsv
    · exact not_exists.mp hvar

end Term

/-! ## The assumes part of a rule -/

namespace Rule

variable {svs : List SchemaVar}

theorem exists_reads_picks {es : List (Side × Term)} (hes : ∀ e ∈ es, e.2.schemaVars ⊆ svs) :
    ∃ active, ∀ ρ seq focus σ is found τ, Picks ρ seq focus es σ is found τ →
      Reads svs active σ τ := by
  induction es with
  | nil =>
    refine ⟨false, fun ρ seq focus σ is found τ h => ?_⟩
    cases h
    exact Instantiations.reads_refl σ
  | cons e es ih =>
    obtain ⟨he, hes⟩ := List.forall_mem_cons.mp hes
    obtain ⟨active, hfirst⟩ := e.2.exists_reads
    obtain ⟨active', hrest⟩ := ih hes
    refine ⟨active || active', fun ρ seq focus σ is found υ h => ?_⟩
    cases h with
    | cons _ _ hmatch hpicks =>
      exact ((hfirst _ _ _ _ hmatch).mono he).trans (hrest _ _ _ _ _ _ _ hpicks)

/-- **Matching the assumes part of an accepted rule reads variables that need a value anyway.**
Whether it records a context depends on the rule alone. -/
theorem exists_reads_matchAssumes {r : Rule} (hr : r.Accepted) :
    ∃ active, ∀ ρ seq focus σ τ found, r.matchAssumes ρ seq focus σ = some (τ, found) →
      Reads (r.schemaVars.filter fun sv => !sv.isSkolem) active σ τ := by
  have hsub : ∀ e ∈ r.assumes.sided, e.2.schemaVars ⊆ r.schemaVars.filter fun sv =>
      !sv.isSkolem := by
    intro e he sv hsv
    obtain ⟨hmem, hskolem⟩ := hr.mem_schemaVars (RuleDraft.mem_patterns_of_mem_sided he) hsv
    exact List.mem_filter.mpr ⟨hmem, by simp [hskolem]⟩
  obtain ⟨active, hread⟩ := exists_reads_picks hsub
  refine ⟨active, fun ρ seq focus σ τ found h => ?_⟩
  obtain ⟨hmatch, -⟩ := RuleApp.matchAssumes_iff_matchFormulas.mp h
  obtain ⟨is, hfirst⟩ := matchFormulas_eq_some_iff.mp hmatch
  exact hread _ _ _ _ _ _ _ hfirst.picks

end Rule

end SequentSearch
