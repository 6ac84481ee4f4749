import SequentSearch.Matching
import SequentSearch.Proofs.Alpha

/-!
# Matching and instantiating are inverse

Matching a pattern reads values for its schema variables off a candidate; instantiating the pattern
with these values gives the candidate back. The two are separate recursions, and a variable that
occurs twice is bound to its first value only, so what comes back is the candidate *up to renaming
of bound variables* for terms, and the candidate itself for programs.

The order `σ ≤ τ` on instantiations says that `τ` keeps all values and the context of `σ`. Matching
only goes up in this order, and the reproduction laws below are stated for **every** `υ` above the
result of the match. In this form they compose: later parts of a pattern add values, and the earlier
parts still instantiate to what they matched.

* `Program.reproduces`: a program pattern gives back the element it was matched against.
* `Term.reproduces`: a term pattern that binds schema variables only gives back the term up to
  renaming.
-/

namespace SequentSearch

theorem Instantiation.equivalent_self (v : Instantiation) : v.equivalent v := by
  cases v with
  | term t => exact t.alphaEq_self
  | program p => simp [Instantiation.equivalent]
  | programs ps => simp [Instantiation.equivalent]
  | labels ls => simp [Instantiation.equivalent]

namespace Instantiations

/-- `σ ≤ τ` if `τ` keeps all values and the context of `σ`. -/
instance : LE Instantiations where
  le σ τ :=
    (∀ sv v, σ.get? sv = some v → τ.get? sv = some v) ∧
      ∀ ctx, σ.context = some ctx → τ.context = some ctx

variable {σ τ υ : Instantiations} {sv : SchemaVar} {v : Instantiation} {ctx : ProgramContext}

theorem get?_of_le (h : σ ≤ τ) (hv : σ.get? sv = some v) : τ.get? sv = some v := h.1 sv v hv

theorem context_of_le (h : σ ≤ τ) (hctx : σ.context = some ctx) : τ.context = some ctx :=
  h.2 ctx hctx

theorem le_refl (σ : Instantiations) : σ ≤ σ := ⟨fun _ _ h => h, fun _ h => h⟩

theorem le_trans (h : σ ≤ τ) (h' : τ ≤ υ) : σ ≤ υ :=
  ⟨fun sv v hv => h'.1 sv v (h.1 sv v hv), fun ctx hctx => h'.2 ctx (h.2 ctx hctx)⟩

/-! ## Assigning once -/

theorem get?_cons {bindings : List (SchemaVar × Instantiation)} {context : Option ProgramContext}
    {sv' : SchemaVar} :
    get? ⟨(sv, v) :: bindings, context⟩ sv' =
      if sv' = sv then some v else get? ⟨bindings, context⟩ sv' := by
  unfold get?
  rw [List.lookup_cons]
  by_cases h : sv' = sv
  · simp [h]
  · rw [beq_false_of_ne h, if_neg h]

/-- **What binding a variable does**: nothing if it has a value that says the same, and otherwise
the value is put in front. -/
theorem add_cases (h : σ.add sv v = some τ) :
    (τ = σ ∧ ∃ old, σ.get? sv = some old ∧ old.equivalent v) ∨
      (σ.get? sv = none ∧ τ = ⟨(sv, v) :: σ.bindings, σ.context⟩) := by
  unfold add at h
  split at h <;> rename_i hold
  · split at h <;> rename_i heq
    · exact .inl ⟨(Option.some.inj h).symm, _, hold, heq⟩
    · cases h
  · exact .inr ⟨hold, (Option.some.inj h).symm⟩

/-- **What recording a context does**: nothing if it is recorded already. -/
theorem withContext_cases (h : σ.withContext ctx = some τ) :
    (τ = σ ∧ σ.context = some ctx) ∨ (σ.context = none ∧ τ = ⟨σ.bindings, some ctx⟩) := by
  unfold withContext at h
  split at h <;> rename_i hold
  · split at h <;> rename_i heq
    · exact .inl ⟨(Option.some.inj h).symm, heq ▸ hold⟩
    · cases h
  · exact .inr ⟨hold, (Option.some.inj h).symm⟩

/-- A new value goes above the old ones. -/
theorem le_of_add (h : σ.add sv v = some τ) : σ ≤ τ := by
  rcases add_cases h with ⟨rfl, -⟩ | ⟨hold, rfl⟩
  · exact le_refl _
  · refine ⟨fun sv' v' hv' => ?_, fun _ hctx => hctx⟩
    rw [get?_cons]
    split <;> rename_i heq
    · rw [heq, hold] at hv'
      cases hv'
    · exact hv'

/-- A variable that was bound has a value that says the same as the one asked for. -/
theorem get?_of_add (h : σ.add sv v = some τ) : ∃ w, τ.get? sv = some w ∧ w.equivalent v := by
  rcases add_cases h with ⟨rfl, old⟩ | ⟨-, rfl⟩
  · exact old
  · exact ⟨v, by rw [get?_cons, if_pos rfl], Instantiation.equivalent_self v⟩

/-- A term that was bound has a value equal to it up to renaming. -/
theorem get?_of_add_term {t : Term} (h : σ.add sv (.term t) = some τ) :
    ∃ u : Term, τ.get? sv = some (.term u) ∧ u.alphaEq t := by
  obtain ⟨w, hw, heq⟩ := get?_of_add h
  cases w with
  | term u => exact ⟨u, hw, heq⟩
  | program p => simp [Instantiation.equivalent] at heq
  | programs ps => simp [Instantiation.equivalent] at heq
  | labels ls => simp [Instantiation.equivalent] at heq

/-- Any other value is bound as it is. -/
theorem get?_of_add_of_not_term (hv : v.term? = none) (h : σ.add sv v = some τ) :
    τ.get? sv = some v := by
  obtain ⟨w, hw, heq⟩ := get?_of_add h
  have hwv : w = v := by
    cases v with
    | term t => simp [Instantiation.term?] at hv
    | program p => cases w <;> simp_all [Instantiation.equivalent]
    | programs ps => cases w <;> simp_all [Instantiation.equivalent]
    | labels ls => cases w <;> simp_all [Instantiation.equivalent]
  rw [hw, hwv]

theorem le_of_withContext (h : σ.withContext ctx = some τ) : σ ≤ τ := by
  rcases withContext_cases h with ⟨rfl, -⟩ | ⟨hold, rfl⟩
  · exact le_refl _
  · refine ⟨fun _ _ hv => hv, fun ctx' hctx' => ?_⟩
    rw [hold] at hctx'
    cases hctx'

theorem context_of_add (h : σ.add sv v = some τ) : τ.context = σ.context := by
  rcases add_cases h with ⟨rfl, -⟩ | ⟨-, rfl⟩ <;> rfl

theorem context_of_withContext (h : σ.withContext ctx = some τ) : τ.context = some ctx := by
  rcases withContext_cases h with ⟨rfl, hold⟩ | ⟨-, rfl⟩
  · exact hold
  · rfl

end Instantiations

namespace Program

/-! ## Active statements and their context -/

/-- What is found is found in a leading block. -/
theorem leadingBlock_of_findActive {α : Type} {find : List Program → Option α} {depth found : Nat}
    {p : Program} {a : α} (h : findActive find depth p = some (found, a)) :
    ∃ block, leadingBlock (found - depth) p = .ok block ∧ depth ≤ found ∧
      find block.children = some a := by
  fun_induction findActive find depth p with
  | case1 depth kind =>
    obtain ⟨a', ha', heq⟩ := Option.map_eq_some_iff.mp h
    obtain ⟨rfl, rfl⟩ : depth = found ∧ a' = a := by simpa using heq
    exact ⟨node kind [], by rw [Nat.sub_self]; rfl, Nat.le_refl _, ha'⟩
  | case2 depth kind first rest a' ha' =>
    obtain ⟨rfl, rfl⟩ : depth = found ∧ a' = a := by simpa using h
    exact ⟨node kind (first :: rest), by rw [Nat.sub_self]; rfl, Nat.le_refl _, ha'⟩
  | case3 depth kind first rest hnone hblock ih =>
    obtain ⟨block, hblock, hle, hfind⟩ := ih h
    refine ⟨block, ?_, by omega, hfind⟩
    obtain ⟨k, rfl⟩ := Nat.exists_eq_add_of_le hle
    rw [show depth + 1 + k - depth = k + 1 by omega, leadingBlock]
    rwa [show depth + 1 + k - (depth + 1) = k by omega] at hblock
  | case4 => cases h

/-- Putting the statements of a leading block back in their place changes nothing. -/
theorem spliceAt_take {depth n : Nat} {p block : Program} (h : leadingBlock depth p = .ok block)
    (hn : n ≤ block.children.length) :
    spliceAt depth n (block.children.take n) p = .ok p := by
  induction depth generalizing p with
  | zero =>
    obtain rfl : p = block := Except.ok.inj h
    obtain ⟨kind, children⟩ := p
    have hrest : statementsAfter n (node kind children) = .ok (children.drop n) := if_pos hn
    rw [spliceAt, hrest]
    exact congrArg (fun cs => Except.ok (node kind cs)) (List.take_append_drop n children)
  | succ depth ih =>
    obtain ⟨kind, children⟩ := p
    cases children with
    | nil => cases h
    | cons first rest =>
      rw [spliceAt, ih h]
      rfl

/-! ## Programs come back as they were -/

/-- Whatever the pattern matches, it instantiates to, also when more values are added. -/
def Reproduces (rule : String) (p : Program) : Prop :=
  ∀ (c : Program) (σ τ : Instantiations), p.matchInto c σ = some τ →
    σ ≤ τ ∧ ∀ υ, τ ≤ υ → p.instantiate rule υ = .ok c

/-- The same for sequences: they instantiate to the elements they took. -/
def RunReproduces (rule : String) (ps : List Program) : Prop :=
  ∀ (cs : List Program) (σ τ : Instantiations) (n : Nat), matchRun ps cs σ = some (τ, n) →
    σ ≤ τ ∧ n ≤ cs.length ∧ ∀ υ, τ ≤ υ → instantiateRun rule υ ps = .ok (cs.take n)

variable {rule : String}

/-- A list variable takes the longest run it may stand for. -/
theorem matchRun_listVar {p : Program} {ps cs : List Program} {σ υ : Instantiations} {n : Nat}
    {sv : SchemaVar} (hp : p.listVar? = some sv) (h : matchRun (p :: ps) cs σ = some (υ, n)) :
    ∃ run rest τ m, cs = run ++ rest ∧ σ.add sv (.programs run) = some τ ∧
      matchRun ps rest τ = some (υ, m) ∧ n = run.length + m := by
  rw [matchRun.eq_def] at h
  simp only [hp] at h
  split at h
  · split at h <;> rename_i hadd
    · obtain ⟨⟨υ', m⟩, hrest, heq⟩ := Option.map_eq_some_iff.mp h
      obtain ⟨rfl, rfl⟩ : υ' = υ ∧ _ = n := by simpa using heq
      refine ⟨_, _, _, m, ?_, hadd, hrest, rfl⟩
      exact (List.prefix_iff_eq_append.mp (List.takeWhile_prefix _)).symm
    · cases h
  · cases h

theorem runReproduces_of_forall {ps : List Program} (hps : ∀ p ∈ ps, p.Reproduces rule) :
    RunReproduces rule ps := by
  induction ps with
  | nil =>
    intro cs σ τ n h
    obtain ⟨rfl, rfl⟩ : σ = τ ∧ 0 = n := by simpa [matchRun] using h
    exact ⟨Instantiations.le_refl _, Nat.zero_le _,
      fun υ _ => by rw [instantiateRun, List.take_zero]⟩
  | cons p ps ih =>
    have ih := ih fun q hq => hps q (List.mem_cons_of_mem _ hq)
    intro cs σ υ n h
    cases hp : p.listVar? with
    | some sv =>
      obtain ⟨run, rest, τ, m, rfl, hadd, hrest, rfl⟩ := matchRun_listVar hp h
      obtain ⟨hτυ, hm, hback⟩ := ih _ _ _ _ hrest
      refine ⟨Instantiations.le_trans (Instantiations.le_of_add hadd) hτυ, by simp; omega, ?_⟩
      intro φ hφ
      have hval := Instantiations.get?_of_add_of_not_term rfl hadd
      have hval := Instantiations.get?_of_le (Instantiations.le_trans hτυ hφ) hval
      rw [instantiateRun]
      simp only [hp, hval, hback φ hφ]
      rw [List.take_length_add_append]
      rfl
    | none =>
      rw [matchRun.eq_def] at h
      simp only [hp] at h
      cases cs with
      | nil => cases h
      | cons c cs =>
        simp only at h
        split at h <;> rename_i hfirst
        · obtain ⟨⟨υ', m⟩, hrest, heq⟩ := Option.map_eq_some_iff.mp h
          obtain ⟨rfl, rfl⟩ : υ' = υ ∧ m + 1 = n := by simpa using heq
          obtain ⟨hle, hc⟩ := hps p (List.mem_cons_self ..) _ _ _ hfirst
          obtain ⟨hle', hm, hback⟩ := ih _ _ _ _ hrest
          refine ⟨Instantiations.le_trans hle hle', by simpa using hm, ?_⟩
          intro φ hφ
          rw [instantiateRun]
          simp only [hp, hc φ (Instantiations.le_trans hle' hφ), hback φ hφ]
          rfl
        · cases h

theorem reproduces_active {active : List Program} (hactive : RunReproduces rule active) :
    (node .block [node .context active]).Reproduces rule := by
  intro c σ υ h
  rw [matchInto, matchActive] at h
  split at h
  · split at h <;> rename_i hfound
    · rename_i depth τ n
      obtain ⟨block, hblock, -, hrun⟩ := leadingBlock_of_findActive hfound
      obtain ⟨hle, hn, hback⟩ := hactive _ _ _ _ hrun
      have hle' := Instantiations.le_of_withContext h
      refine ⟨Instantiations.le_trans hle hle', fun φ hφ => ?_⟩
      -- the context of the match is put around the statements it took
      have hctx := Instantiations.context_of_le hφ (Instantiations.context_of_withContext h)
      have hsplice : ProgramContext.splice ⟨c, depth, n⟩ (block.children.take n) = .ok c :=
        spliceAt_take hblock hn
      rw [instantiate]
      simp only [hctx, hback φ (Instantiations.le_trans hle' hφ)]
      exact congrArg TemplateError.ofFault hsplice
    · cases h
  · cases h

theorem reproduces_schema {sv : SchemaVar} {children : List Program} :
    (node (.schema sv) children).Reproduces rule := by
  intro c σ τ h
  rw [matchInto, matchVar] at h
  split at h
  · split at h
    · refine ⟨Instantiations.le_of_add h, fun φ hφ => ?_⟩
      have hnot : (if sv.list then Instantiation.programs [c] else .program c).term? = none := by
        split <;> rfl
      have hval := Instantiations.get?_of_le hφ (Instantiations.get?_of_add_of_not_term hnot h)
      rw [instantiate, hval]
      by_cases hlist : sv.list <;> simp [hlist]
    · cases h
  · cases h

/-- An element of any other kind matches child by child. -/
theorem reproduces_node {kind : ProgramKind} {children : List Program}
    (hchildren : RunReproduces rule children) (hsv : ∀ sv, kind = .schema sv → False)
    (hactive : ∀ active, kind = .block → children = [node .context active] → False) :
    (node kind children).Reproduces rule := by
  intro c σ τ h
  by_cases hctx : kind = .context
  · rw [hctx, matchInto] at h
    cases h
  · rw [matchInto] at h
    · split at h <;> rename_i hkind
      · split at h <;> rename_i hrun
        · split at h <;> rename_i hn
          · cases h
            obtain ⟨hle, -, hback⟩ := hchildren _ _ _ _ hrun
            refine ⟨hle, fun φ hφ => ?_⟩
            obtain ⟨kind', children'⟩ := c
            rw [instantiate, hback φ hφ, hn, List.take_length, hkind]
            · rfl
            · exact hactive
            · exact hsv
          · cases h
        · cases h
      · cases h
    · exact hactive
    · exact hsv
    · exact hctx

/-- **A program pattern gives back what it was matched against.** The induction is on the pattern.
Each element carries the law for its children along, since the active statements of a block are two
levels down. -/
theorem reproduces (rule : String) (p : Program) : p.Reproduces rule := by
  suffices h : p.Reproduces rule ∧ RunReproduces rule p.children from h.1
  induction p using induct with
  | node kind children ih =>
    have hrun : RunReproduces rule children := runReproduces_of_forall fun c hc => (ih c hc).1
    refine ⟨?_, hrun⟩
    by_cases hsv : ∃ sv, kind = .schema sv
    · obtain ⟨sv, rfl⟩ := hsv
      exact reproduces_schema
    · by_cases hactive : ∃ active, kind = .block ∧ children = [node .context active]
      · obtain ⟨active, rfl, rfl⟩ := hactive
        exact reproduces_active (ih _ (List.mem_cons_self ..)).2
      · exact reproduces_node hrun (not_exists.mp hsv) fun active hk hc => hactive ⟨active, hk, hc⟩

end Program

namespace Term

variable {rule : String} {σ τ υ : Instantiations}

/-! ## Labels, binders and operators -/

theorem instantiateLabels_of_match {ls cs : List Label} (h : matchLabels ls cs σ = some τ) :
    σ ≤ τ ∧ ∀ υ, τ ≤ υ → ∃ out, instantiateLabels υ ls = .ok out := by
  induction ls generalizing σ with
  | nil =>
    cases h
    exact ⟨Instantiations.le_refl _, fun υ _ => ⟨[], rfl⟩⟩
  | cons l ls ih =>
    cases l with
    | name n =>
      obtain ⟨hle, hback⟩ := ih h
      refine ⟨hle, fun υ hυ => ?_⟩
      obtain ⟨out, hout⟩ := hback υ hυ
      exact ⟨.name n :: out, by rw [instantiateLabels, hout]; rfl⟩
    | schema sv =>
      rw [matchLabels] at h
      split at h <;> rename_i hadd
      · obtain ⟨hle, hback⟩ := ih h
        refine ⟨Instantiations.le_trans (Instantiations.le_of_add hadd) hle, fun υ hυ => ?_⟩
        obtain ⟨out, hout⟩ := hback υ hυ
        have hval := Instantiations.get?_of_le (Instantiations.le_trans hle hυ)
          (Instantiations.get?_of_add_of_not_term rfl hadd)
        exact ⟨cs ++ out, by rw [instantiateLabels, hval]; simp only [hout]; rfl⟩
      · cases h

theorem logicVar?_of_alphaEq_var {t : Term} {y : LogicVar} (h : t.alphaEq (var y)) :
    t.logicVar? = some y := by
  rcases alphaEqUnder_cases h with ⟨x, z, hx, hz, hxz⟩ | ⟨hnot, heq, -⟩
  · obtain rfl : y = z := Operator.var.inj hz
    obtain rfl : x = y := by simpa [sameReference] using hxz
    rw [logicVar?, hx]
  · exact absurd heq (hnot y)

/-- Binders that are schema variables open no scope, and stand for the binders of the candidate. -/
theorem instantiateBinders_of_match {ps cs : List Binder} {ρ ρ' : Renaming}
    (hps : ∀ b ∈ ps, b.schema?.isSome) (h : matchBinders ps cs ρ σ = some (ρ', τ)) :
    ρ' = ρ ∧ σ ≤ τ ∧ ∀ υ, τ ≤ υ → instantiateBinders υ ps = .ok cs := by
  induction ps generalizing cs σ with
  | nil =>
    cases cs with
    | nil =>
      cases h
      exact ⟨rfl, Instantiations.le_refl _, fun υ _ => rfl⟩
    | cons c cs => cases h
  | cons b ps ih =>
    cases b with
    | logic x => simpa [Binder.schema?] using hps (.logic x) (List.mem_cons_self ..)
    | schema sv =>
      cases cs with
      | nil => cases h
      | cons c cs =>
        cases c with
        | schema sv' => cases h
        | logic y =>
          rw [matchBinders] at h
          split at h
          · split at h
            · split at h <;> rename_i hadd
              · obtain ⟨hρ, hle, hback⟩ := ih (fun b hb => hps b (List.mem_cons_of_mem _ hb)) h
                refine ⟨hρ, Instantiations.le_trans (Instantiations.le_of_add hadd) hle, ?_⟩
                intro υ hυ
                obtain ⟨u, hu, hvar⟩ := Instantiations.get?_of_add_term hadd
                have hval := Instantiations.get?_of_le (Instantiations.le_trans hle hυ) hu
                have hy : υ.logicVar? sv = some y := by
                  simp [Instantiations.logicVar?, Instantiations.term?, hval, Instantiation.term?,
                    logicVar?_of_alphaEq_var hvar]
                rw [instantiateBinders, hy]
                simp only [hback υ hυ]
                rfl
              · cases h
            · cases h
          · cases h

theorem instantiateOperator_of_match (rule : String) {o o' : Operator}
    (h : matchOperator o o' σ = some τ) :
    σ ≤ τ ∧ ∀ υ, τ ≤ υ → instantiateOperator rule υ o = .ok o' := by
  by_cases hmodal : ∃ m p n q, o = .modal m p ∧ o' = .modal n q
  · obtain ⟨m, p, n, q, rfl, rfl⟩ := hmodal
    rw [matchOperator] at h
    split at h <;> rename_i hmn
    · obtain ⟨hle, hback⟩ := p.reproduces rule q σ τ h
      refine ⟨hle, fun υ hυ => ?_⟩
      rw [instantiateOperator, hback υ hυ, hmn]
      rfl
    · cases h
  · rw [matchOperator] at h
    · split at h <;> rename_i heq
      · cases h
        refine ⟨Instantiations.le_refl _, fun υ _ => ?_⟩
        rw [heq, instantiateOperator]
        rintro m p rfl
        exact hmodal ⟨m, p, m, p, heq, rfl⟩
      · cases h
    · exact fun m p n q ho ho' => hmodal ⟨m, p, n, q, ho, ho'⟩

/-- Only a variable is matched by comparing it with a variable. -/
theorem ne_var_of_matchOperator {o o' : Operator} (ho : ∀ x, o ≠ .var x)
    (h : matchOperator o o' σ = some τ) (x : LogicVar) : o' ≠ .var x := by
  rintro rfl
  rw [matchOperator] at h
  · split at h <;> rename_i heq
    · exact ho x heq
    · cases h
  · rintro m p n q - hq
    cases hq

/-! ## The steps of a match -/

theorem matchOperator_modal_eq_some {m : Modality} {pat : Program} {op : Operator} :
    matchOperator (.modal m pat) op σ = some τ ↔ ∃ p, op = .modal m p ∧
    pat.matchInto p σ = some τ := by
  cases op with
  | modal n p =>
    by_cases hmn : m = n
    · simp [matchOperator, hmn]
    · simp [matchOperator, hmn, Ne.symm hmn]
  | _ => simp [matchOperator]

/-- The steps of a match of an argument list. -/
theorem matchArgs_cons_eq_some {xs ys : List Binder} {p c : Term}
    {ps cs : List (List Binder × Term)} :
    matchArgs ρ ((xs, p) :: ps) ((ys, c) :: cs) σ = some τ ↔
      ∃ ρ' υ, matchBinders xs ys ρ σ = some (ρ', υ) ∧
        ∃ φ, matchInto ρ' p c υ = some φ ∧ matchArgs ρ ps cs φ = some τ := by
  rw [matchArgs]
  cases matchBinders xs ys ρ σ with
  | none => simp
  | some out =>
    obtain ⟨ρ', υ⟩ := out
    simp only [Option.some.injEq, Prod.mk.injEq, exists_and_left, exists_eq_left', and_assoc]
    cases matchInto ρ' p c υ <;> simp

/-- The steps of a match below an operator that is no variable of either kind. -/
theorem matchInto_node_eq_some {op : Operator} {args : List (List Binder × Term)}
    {labels : List Label} {c : Term} (hsv : ∀ sv, op ≠ .schema sv) (hvar : ∀ x, op ≠ .var x) :
    matchInto ρ (node op args labels) c σ = some τ ↔
      ∃ υ, matchOperator op c.op σ = some υ ∧
        ∃ φ, matchArgs ρ args c.args υ = some φ ∧ matchLabels labels c.labels φ = some τ := by
  rw [matchInto]
  · cases matchOperator op c.op σ with
    | none => simp
    | some υ =>
      simp only [Option.some.injEq, exists_eq_left']
      cases matchArgs ρ args c.args υ <;> simp
  · exact hsv
  · exact hvar

/-! ## Terms come back up to renaming -/

/-- Whatever the pattern matches below no binder, it instantiates to up to renaming, also when more
values are added. The instance agrees with the candidate below every stack of binders, so it can
stand as an argument anywhere. -/
def Reproduces (rule : String) (p : Term) : Prop :=
  ∀ (c : Term) (σ τ : Instantiations), p.matchInto .empty c σ = some τ →
    σ ≤ τ ∧ ∀ υ, τ ≤ υ → ∃ r, p.instantiate rule υ = .ok r ∧
      ∀ stack, alphaEqUnder stack stack r c

theorem reproduces_schema {sv : SchemaVar} {args : List (List Binder × Term)}
    {labels : List Label} : (node (.schema sv) args labels).Reproduces rule := by
  intro c σ υ h
  rw [matchInto] at h
  split at h <;> rename_i hvar
  · rename_i τ
    rw [matchVar] at hvar
    split at hvar
    · obtain ⟨hle, hback⟩ := instantiateLabels_of_match h
      refine ⟨Instantiations.le_trans (Instantiations.le_of_add hvar) hle, fun φ hφ => ?_⟩
      obtain ⟨ls, hls⟩ := hback φ hφ
      obtain ⟨u, hu, halpha⟩ := Instantiations.get?_of_add_term hvar
      have hval := Instantiations.get?_of_le (Instantiations.le_trans hle hφ) hu
      refine ⟨u.addLabels ls, ?_, fun stack => ?_⟩
      · rw [instantiate, hls, instantiateVar, hval]
        rfl
      · rw [alphaEqUnder_addLabels]
        exact alphaEqUnder_of_alphaEq halpha stack
    · cases hvar
  · cases h

/-- Outside all binders a variable of the pattern matches itself only. -/
theorem reproduces_var {x : LogicVar} {labels : List Label} :
    (node (.var x) [] labels).Reproduces rule := by
  intro c σ τ h
  rw [matchInto] at h
  split at h <;> rename_i hop
  · rename_i y
    split at h <;> rename_i hxy
    · obtain rfl : x = y := by simpa [Renaming.corresponds, Renaming.empty] using hxy
      obtain ⟨hle, hback⟩ := instantiateLabels_of_match h
      refine ⟨hle, fun υ hυ => ?_⟩
      obtain ⟨ls, hls⟩ := hback υ hυ
      refine ⟨node (.var x) [] ls, by rw [instantiate, hls]; rfl; simp, fun stack => ?_⟩
      obtain ⟨o, cargs, clabels⟩ := c
      obtain rfl : o = .var x := hop
      rw [alphaEqUnder_var]
      exact sameReference_self stack x
    · cases h
  · cases h

theorem instantiateArgs_of_match {ps cs : List (List Binder × Term)}
    (hps : ∀ a ∈ ps, (∀ b ∈ a.1, b.schema?.isSome) ∧ a.2.Reproduces rule)
    (h : matchArgs .empty ps cs σ = some τ) :
    σ ≤ τ ∧ ∀ υ, τ ≤ υ → ∃ rs, instantiateArgs rule υ ps = .ok rs ∧
      ∀ stack, List.Forall₂ (AlphaArg stack stack) rs cs := by
  induction ps generalizing cs σ with
  | nil =>
    cases cs with
    | nil =>
      cases h
      exact ⟨Instantiations.le_refl _, fun υ _ => ⟨[], rfl, fun _ => .nil⟩⟩
    | cons c cs => cases h
  | cons p ps ih =>
    obtain ⟨xs, p⟩ := p
    cases cs with
    | nil => cases h
    | cons c cs =>
      obtain ⟨ys, c⟩ := c
      obtain ⟨hxs, hp⟩ := hps (xs, p) (List.mem_cons_self ..)
      rw [matchArgs] at h
      split at h <;> rename_i hbinders
      · split at h <;> rename_i hterm
        · obtain ⟨rfl, hle, hbs⟩ := instantiateBinders_of_match hxs hbinders
          obtain ⟨hle', hback⟩ := hp _ _ _ hterm
          obtain ⟨hle'', hrest⟩ := ih (fun a ha => hps a (List.mem_cons_of_mem _ ha)) h
          refine ⟨Instantiations.le_trans hle (Instantiations.le_trans hle' hle''), ?_⟩
          intro υ hυ
          have hυ' := Instantiations.le_trans hle'' hυ
          obtain ⟨r, hr, halpha⟩ := hback υ hυ'
          obtain ⟨rs, hrs, hagree⟩ := hrest υ hυ
          refine ⟨(ys, r) :: rs, ?_, fun stack => .cons ⟨rfl, halpha _⟩ (hagree stack)⟩
          rw [instantiateArgs, hr, hrs, hbs υ (Instantiations.le_trans hle' hυ')]
          rfl
        · cases h
      · cases h

/-- **A pattern that binds schema variables only gives back what it was matched against**, up to
renaming. The induction is on the pattern. Its binders open no scope, so all of it is matched below
no binder. -/
theorem reproduces {p : Term} (hwf : p.WellFormed) (hbinds : p.BindsSchematically) :
    p.Reproduces rule := by
  induction p with
  | node op args labels ih =>
    obtain ⟨harity, hargs⟩ := wellFormed_node.mp hwf
    have hbinds := bindsSchematically_node.mp hbinds
    by_cases hsv : ∃ sv, op = .schema sv
    · obtain ⟨sv, rfl⟩ := hsv
      exact reproduces_schema
    by_cases hvar : ∃ x, op = .var x
    · obtain ⟨x, rfl⟩ := hvar
      obtain rfl : args = [] := List.length_eq_zero_iff.mp harity
      exact reproduces_var
    have hsv := not_exists.mp hsv
    have hvar := not_exists.mp hvar
    intro c σ φ h
    obtain ⟨o, cargs, clabels⟩ := c
    rw [matchInto] at h
    · split at h <;> rename_i hop
      · split at h <;> rename_i hmargs
        · obtain ⟨hle, hopBack⟩ := instantiateOperator_of_match rule hop
          have hargsBack : ∀ a ∈ args, (∀ b ∈ a.1, b.schema?.isSome) ∧ a.2.Reproduces rule :=
            fun a ha => ⟨(hbinds a ha).1, ih a ha (hargs a ha) (hbinds a ha).2⟩
          obtain ⟨hle', hargsBack⟩ := instantiateArgs_of_match hargsBack hmargs
          obtain ⟨hle'', hlsBack⟩ := instantiateLabels_of_match h
          refine ⟨Instantiations.le_trans hle (Instantiations.le_trans hle' hle''), ?_⟩
          intro υ hυ
          have hυ' := Instantiations.le_trans hle'' hυ
          obtain ⟨ls, hls⟩ := hlsBack υ hυ
          obtain ⟨rs, hrs, hagree⟩ := hargsBack υ hυ'
          have ho := ne_var_of_matchOperator hvar hop
          refine ⟨node o rs ls, ?_, fun stack => (alphaEqUnder_node ho).mpr ⟨rfl, hagree stack⟩⟩
          rw [instantiate, hls, hopBack υ (Instantiations.le_trans hle' hυ'), hrs]
          · rfl
          · exact hsv
        · cases h
      · cases h
    · exact hsv
    · exact hvar

end Term

end SequentSearch
