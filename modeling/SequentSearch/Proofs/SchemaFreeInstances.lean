import SequentSearch.Proofs.Captures
import SequentSearch.Proofs.SchemaFree

/-!
# Schema variables between matching and instantiation

What matching finds in a term without schema variables has none either, whether it is a subterm, a
program element, a run of statements, the context around them, or labels (`Term.regular_matchInto`).
Under such values the instance of a template has none (`Term.regular_instantiate`): each schema
variable of the template has been replaced by its value.

The terms of program expressions have no free variables at all (`Program.ground_toTerm`), so the
variables of a program pattern bring none into an instance.
-/

namespace SequentSearch

/-! ## Values -/

/-- A value without schema variables. -/
def Instantiation.Regular : Instantiation → Prop
  | .term t => t.Regular
  | .program p => p.schemaVars = []
  | .programs ps => ∀ p ∈ ps, p.schemaVars = []
  | .labels ls => ∀ l ∈ ls, l.schema? = none

namespace Instantiations

variable {σ τ : Instantiations}

/-- The values have no schema variables, and the context has none. -/
structure Regular (σ : Instantiations) : Prop where
  values : σ.All fun _ v => v.Regular
  context : ∀ ctx, σ.context = some ctx → ctx.outer.schemaVars = []

theorem regular_empty : empty.Regular := ⟨all_empty, fun _ h => (nomatch h)⟩

theorem Regular.add {sv : SchemaVar} {v : Instantiation} (hσ : σ.Regular)
    (h : σ.add sv v = some τ) (hv : v.Regular) : τ.Regular :=
  ⟨(Steps.refl.add hv h).all hσ.values, fun ctx hctx => hσ.context ctx (context_of_add h ▸ hctx)⟩

theorem Regular.withContext {ctx : ProgramContext} (hσ : σ.Regular)
    (hctx : ctx.outer.schemaVars = []) (h : σ.withContext ctx = some τ) : τ.Regular := by
  refine ⟨(Steps.refl.withContext h).all hσ.values, fun ctx' hctx' => ?_⟩
  rw [context_of_withContext h] at hctx'
  cases hctx'
  exact hctx

end Instantiations

/-! ## Programs -/

namespace Program

variable {rule : String} {σ τ : Instantiations}

theorem schemaVars_of_mem_children {p c : Program} (hp : p.schemaVars = []) (hc : c ∈ p.children) :
    c.schemaVars = [] := by
  obtain ⟨kind, children⟩ := p
  exact (schemaVars_node_eq_nil.mp hp).2 c hc

theorem schemaVars_leadingBlock {depth : Nat} {p block : Program} (hp : p.schemaVars = [])
    (h : leadingBlock depth p = .ok block) : block.schemaVars = [] := by
  induction depth generalizing p with
  | zero =>
    cases h
    exact hp
  | succ depth ih =>
    obtain ⟨kind, children⟩ := p
    cases children with
    | nil => cases h
    | cons first rest => exact ih (schemaVars_of_mem_children hp (List.mem_cons_self ..)) h

/-- Splicing statements into a program brings in their schema variables only. -/
theorem schemaVars_spliceAt {depth consumed : Nat} {active : List Program} {p q : Program}
    (hp : p.schemaVars = []) (hactive : ∀ c ∈ active, c.schemaVars = [])
    (h : spliceAt depth consumed active p = .ok q) : q.schemaVars = [] := by
  induction depth generalizing p q with
  | zero =>
    obtain ⟨kind, children⟩ := p
    obtain ⟨hkind, hchildren⟩ := schemaVars_node_eq_nil.mp hp
    obtain ⟨rest, hrest, h⟩ := bind_eq_ok.mp h
    obtain rfl := Except.ok.inj h
    refine schemaVars_node_eq_nil.mpr ⟨hkind, List.forall_mem_append.mpr ⟨hactive, fun c hc => ?_⟩⟩
    unfold statementsAfter at hrest
    split at hrest
    · cases hrest
      exact hchildren c (List.mem_of_mem_drop hc)
    · cases hrest
  | succ depth ih =>
    obtain ⟨kind, children⟩ := p
    obtain ⟨hkind, hchildren⟩ := schemaVars_node_eq_nil.mp hp
    cases children with
    | nil => cases h
    | cons first rest =>
      obtain ⟨hfirst, hrest⟩ := List.forall_mem_cons.mp hchildren
      obtain ⟨first', hfirst', h⟩ := bind_eq_ok.mp h
      obtain rfl := Except.ok.inj h
      exact schemaVars_node_eq_nil.mpr ⟨hkind, List.forall_mem_cons.mpr ⟨ih hfirst hfirst', hrest⟩⟩

/-- Matching the pattern against programs without schema variables finds values without them. -/
def FindsRegular (p : Program) : Prop :=
  ∀ c σ τ, c.schemaVars = [] → σ.Regular → p.matchInto c σ = some τ → τ.Regular

theorem regular_matchRun {ps cs : List Program} {n : Nat} (hps : ∀ p ∈ ps, p.FindsRegular)
    (hcs : ∀ c ∈ cs, c.schemaVars = []) (hσ : σ.Regular) (h : matchRun ps cs σ = some (τ, n)) :
    τ.Regular := by
  induction ps generalizing cs σ n with
  | nil =>
    obtain ⟨rfl, -⟩ : σ = τ ∧ 0 = n := by simpa [matchRun] using h
    exact hσ
  | cons p ps ih =>
    obtain ⟨hp, hps⟩ := List.forall_mem_cons.mp hps
    rcases matchRun_cons_cases h with ⟨sv, run, rest, υ, m, -, rfl, hadd, hrest⟩ |
      ⟨c, rest, υ, m, rfl, hmatch, hrest⟩
    · obtain ⟨hrun, hcs⟩ := List.forall_mem_append.mp hcs
      exact ih hps hcs (hσ.add hadd hrun) hrest
    · obtain ⟨hc, hcs⟩ := List.forall_mem_cons.mp hcs
      exact ih hps hcs (hp c _ _ hc hσ hmatch) hrest

/-- The active statements of a block are two levels down, so each element carries the law for its
children along. -/
theorem findsRegular (p : Program) : p.FindsRegular := by
  suffices h : p.FindsRegular ∧ ∀ c ∈ p.children, c.FindsRegular from h.1
  induction p using induct with
  | node kind children ih =>
    refine ⟨fun c σ τ hc hσ h => ?_, fun c hc => (ih c hc).1⟩
    rcases matchInto_cases h with ⟨sv, children, cls, -, -, -, hadd⟩ |
      ⟨active, depth, block, υ, n, heq, hblock, hrun, hctx⟩ | ⟨-, -, hrun⟩
    · refine hσ.add hadd ?_
      split
      · exact List.forall_mem_singleton.mpr hc
      · exact hc
    · obtain ⟨rfl, rfl⟩ := node.inj heq
      have hactive := (ih _ (List.mem_singleton_self _)).2
      have hbelow := fun d => schemaVars_of_mem_children (c := d)
          (schemaVars_leadingBlock hc hblock)
      exact (regular_matchRun hactive hbelow hσ hrun).withContext hc hctx
    · exact regular_matchRun (fun d hd => (ih d hd).1) (fun d =>
        schemaVars_of_mem_children hc) hσ hrun

/-- Instances of the template have no schema variables. -/
def GivesRegular (rule : String) (σ : Instantiations) (p : Program) : Prop :=
  ∀ q, p.instantiate rule σ = .ok q → q.schemaVars = []

theorem schemaVars_instantiateRun {ps qs : List Program} (hσ : σ.Regular)
    (hps : ∀ p ∈ ps, p.GivesRegular rule σ) (h : instantiateRun rule σ ps = .ok qs) :
    ∀ q ∈ qs, q.schemaVars = [] := by
  induction ps generalizing qs with
  | nil =>
    cases h
    simp
  | cons p ps ih =>
    obtain ⟨hp, hps⟩ := List.forall_mem_cons.mp hps
    cases hlist : p.listVar? with
    | none =>
      obtain ⟨q, rest, hq, hrest, rfl⟩ := (instantiateRun_cons_eq_ok hlist).mp h
      exact List.forall_mem_cons.mpr ⟨hp q hq, ih hps hrest⟩
    | some sv =>
      rw [instantiateRun, hlist] at h
      simp only at h
      split at h <;> rename_i hrun
      · obtain ⟨rest, hrest, h⟩ := bind_eq_ok.mp h
        obtain rfl := Except.ok.inj h
        exact List.forall_mem_append.mpr ⟨hσ.values _ _ hrun, ih hps hrest⟩
      · cases h

theorem givesRegular (hσ : σ.Regular) (p : Program) : p.GivesRegular rule σ := by
  suffices h : p.GivesRegular rule σ ∧ ∀ c ∈ p.children, c.GivesRegular rule σ from h.1
  induction p using induct with
  | node kind children ih =>
    refine ⟨fun q h => ?_, fun c hc => (ih c hc).1⟩
    by_cases hsv : ∃ sv, kind = .schema sv
    · obtain ⟨sv, rfl⟩ := hsv
      rw [instantiate] at h
      split at h <;> rename_i hv
      · cases h
        exact hσ.values _ _ hv
      · cases h
        exact hσ.values _ _ hv _ (List.mem_singleton_self _)
      · cases h
    by_cases hactive : ∃ active, kind = .block ∧ children = [node .context active]
    · obtain ⟨active, rfl, rfl⟩ := hactive
      rw [instantiate] at h
      split at h <;> rename_i hctx
      · obtain ⟨stmts, hstmts, h⟩ := bind_eq_ok.mp h
        have hstmts := schemaVars_instantiateRun hσ (ih _ (List.mem_singleton_self _)).2 hstmts
        exact schemaVars_spliceAt (hσ.context _ hctx) hstmts (TemplateError.ofFault_eq_ok.mp h)
      · cases h
    · rw [instantiate] at h
      · obtain ⟨qs, hqs, h⟩ := bind_eq_ok.mp h
        obtain rfl := Except.ok.inj h
        have hqs := schemaVars_instantiateRun hσ (fun c hc => (ih c hc).1) hqs
        exact schemaVars_node_eq_nil.mpr ⟨not_exists.mp hsv, hqs⟩
      · exact fun active hk hc => hactive ⟨active, hk, hc⟩
      · exact not_exists.mp hsv

/-- **The term of an expression** has neither schema variables nor free variables. -/
theorem ground_toTerm {p : Program} {t : Term} (h : p.toTerm = .ok (some t)) :
    t.Regular ∧ t.freeVars = [] := by
  refine toTerm_forall (P := fun t => t.Regular ∧ t.freeVars = []) (fun v => ?_) (fun l => ?_) ?_ h
  · exact ⟨Term.regular_plain rfl (by simp) (by simp), rfl⟩
  · rcases l with ⟨_ | _⟩ | n <;> exact ⟨Term.regular_const _ _, rfl⟩
  · rintro op a b ⟨ha, ha'⟩ ⟨hb, hb'⟩
    refine ⟨Term.regular_plain rfl (by simp) (by simp [ha, hb]), ?_⟩
    simp [Term.app, Term.plain, Term.freeVars, Term.freeVarsArgs, ha', hb']

end Program

/-! ## Terms -/

namespace Term

variable {rule : String} {σ τ : Instantiations}

theorem regular_matchLabels {ls cs : List Label} (hcs : ∀ c ∈ cs, c.schema? = none) (hσ : σ.Regular)
    (h : matchLabels ls cs σ = some τ) : τ.Regular := by
  induction ls generalizing σ with
  | nil =>
    cases h
    exact hσ
  | cons l ls ih =>
    cases l with
    | name n => exact ih hσ h
    | schema sv =>
      obtain ⟨υ, hadd, hrest⟩ := matchLabels_schema_eq_some.mp h
      exact ih (hσ.add hadd hcs) hrest

theorem regular_matchBinders {ps cs : List Binder} {ρ ρ' : Renaming} (hσ : σ.Regular)
    (h : matchBinders ps cs ρ σ = some (ρ', τ)) : τ.Regular := by
  induction ps generalizing cs ρ σ with
  | nil =>
    cases cs with
    | nil =>
      cases h
      exact hσ
    | cons c cs => cases h
  | cons b ps ih =>
    obtain ⟨y, rest, -, ⟨sv, s, υ, -, -, -, hadd, hrest⟩ | ⟨x, -, -, hrest⟩⟩ :=
      matchBinders_cons_cases h
    · exact ih (hσ.add hadd (regular_var y)) hrest
    · exact ih hσ hrest

theorem regular_matchOperator {o o' : Operator} (ho' : o'.schemaVars = []) (hσ : σ.Regular)
    (h : matchOperator o o' σ = some τ) : τ.Regular := by
  rcases matchOperator_cases h with ⟨m, p, q, rfl, rfl, hmatch⟩ | ⟨-, rfl, -⟩
  · exact p.findsRegular q _ _ ho' hσ hmatch
  · exact hσ

theorem regular_matchArgs {args cs : List (List Binder × Term)} {ρ : Renaming}
    (hargs : ∀ a ∈ args, ∀ ρ c σ τ, c.Regular → σ.Regular →
      a.2.matchInto ρ c σ = some τ → τ.Regular)
    (hcs : ∀ c ∈ cs, c.2.Regular) (hσ : σ.Regular) (h : matchArgs ρ args cs σ = some τ) :
    τ.Regular := by
  induction args generalizing cs σ with
  | nil =>
    cases cs with
    | nil =>
      cases h
      exact hσ
    | cons c cs => cases h
  | cons a args ih =>
    obtain ⟨ha, hargs⟩ := List.forall_mem_cons.mp hargs
    obtain ⟨c, rest, ρ', υ, φ, rfl, hbinders, hterm, hrest⟩ := matchArgs_cons_cases h
    obtain ⟨hc, hcs⟩ := List.forall_mem_cons.mp hcs
    exact ih hargs hcs (ha _ _ _ _ hc (regular_matchBinders hσ hbinders) hterm) hrest

/-- **Matching a regular term finds regular values.** -/
theorem regular_matchInto {p c : Term} {ρ : Renaming} (hc : c.Regular) (hσ : σ.Regular)
    (h : p.matchInto ρ c σ = some τ) : τ.Regular := by
  induction p generalizing ρ c σ τ with
  | node op args labels ih =>
    obtain ⟨cop, cargs, clabels⟩ := c
    obtain ⟨⟨hop, hlabels, -, -⟩, hcargs⟩ := regular_node.mp hc
    rcases matchInto_cases h with ⟨sv, υ, -, -, hadd, hmatch⟩ | ⟨x, y, -, -, hmatch⟩ |
      ⟨-, -, υ, φ, hopMatch, hargsMatch, hmatch⟩
    · exact regular_matchLabels hlabels (hσ.add hadd hc) hmatch
    · exact regular_matchLabels hlabels hσ hmatch
    · have hυ := regular_matchOperator hop hσ hopMatch
      have hφ := regular_matchArgs (fun a ha ρ c σ τ hc hσ h => ih a ha hc hσ h)
        (fun a ha => (hcargs a ha).2) hυ hargsMatch
      exact regular_matchLabels hlabels hφ hmatch

theorem schema?_instantiateLabels {ls ls' : List Label} (hσ : σ.Regular)
    (h : instantiateLabels σ ls = .ok ls') : ∀ l ∈ ls', l.schema? = none := by
  induction ls generalizing ls' with
  | nil =>
    cases h
    simp
  | cons l ls ih =>
    cases l with
    | name n =>
      obtain ⟨rest, hrest, h⟩ := bind_eq_ok.mp h
      obtain rfl := Except.ok.inj h
      exact List.forall_mem_cons.mpr ⟨rfl, ih hrest⟩
    | schema sv =>
      rw [instantiateLabels] at h
      split at h <;> rename_i hv
      · obtain ⟨rest, hrest, h⟩ := bind_eq_ok.mp h
        obtain rfl := Except.ok.inj h
        exact List.forall_mem_append.mpr ⟨hσ.values _ _ hv, ih hrest⟩
      · cases h

/-- The binders of an instance are logic variables. -/
theorem isSome_logic?_instantiateBinders {bs bs' : List Binder}
    (h : instantiateBinders σ bs = .ok bs') :
    ∀ b ∈ bs', b.logic?.isSome := by
  induction bs generalizing bs' with
  | nil =>
    cases h
    simp
  | cons b bs ih =>
    obtain ⟨x, rest, -, hrest, rfl⟩ := instantiateBinders_cons_eq_ok h
    exact List.forall_mem_cons.mpr ⟨rfl, ih hrest⟩

theorem regular_instantiateVar {sv : SchemaVar} {u : Term} (hσ : σ.Regular)
    (h : instantiateVar σ sv = .ok u) : u.Regular := by
  rcases instantiateVar_eq_ok h with hv | ⟨p, -, hp⟩
  · exact hσ.values _ _ hv
  · exact (Program.ground_toTerm hp).1

theorem schemaVars_instantiateOperator {op op' : Operator} (hop : ∀ sv, op ≠ .schema sv)
    (hσ : σ.Regular) (h : instantiateOperator rule σ op = .ok op') : op'.schemaVars = [] := by
  cases op with
  | modal m p =>
    obtain ⟨q, hq, h⟩ := bind_eq_ok.mp h
    obtain rfl := Except.ok.inj h
    exact p.givesRegular hσ q hq
  | schema sv => exact absurd rfl (hop sv)
  | _ =>
    obtain rfl := Except.ok.inj h
    rfl

/-- Instantiation makes no substitution operator. -/
theorem eq_subst_of_instantiateOperator {op : Operator}
    (h : instantiateOperator rule σ op = .ok .subst) :
    op = .subst := by
  cases op with
  | modal m p =>
    obtain ⟨q, -, h⟩ := bind_eq_ok.mp h
    cases h
  | _ => exact Except.ok.inj h

/-- **Under regular values the instance of a template is regular.** -/
theorem regular_instantiate {t r : Term} (hopen : t.ReplacementsOpen) (hnarrow : t.Narrow)
    (hσ : σ.Regular) (h : t.instantiate rule σ = .ok r) : r.Regular := by
  induction t generalizing r with
  | node op args labels ih =>
    by_cases hsv : ∃ sv, op = .schema sv
    · obtain ⟨sv, rfl⟩ := hsv
      obtain ⟨ls, u, hls, hu, rfl⟩ := instantiate_schema_eq_ok.mp h
      exact (regular_instantiateVar hσ hu).addLabels (schema?_instantiateLabels hσ hls)
    · have hsv := not_exists.mp hsv
      obtain ⟨ls, op', args', hls, hop', hargs', rfl⟩ := (instantiate_node_eq_ok hsv).mp h
      obtain ⟨hhead, hopen⟩ := replacementsOpen_node.mp hopen
      obtain ⟨hlen, hnarrow⟩ := narrow_node.mp hnarrow
      have hall := forall₂_instantiateArgs hargs'
      refine regular_node.mpr ⟨⟨schemaVars_instantiateOperator hsv hσ hop',
        schema?_instantiateLabels hσ hls, ?_, hall.length_eq ▸ hlen⟩, fun a' ha' => ?_⟩
      · rintro rfl a' ha'
        obtain rfl := eq_subst_of_instantiateOperator hop'
        cases hall with
        | nil => cases ha'
        | cons hfirst _ =>
          cases ha'
          have hbinders := hfirst.2
          rw [hhead rfl _ rfl] at hbinders
          exact (Except.ok.inj hbinders).symm
      · obtain ⟨a, ha, hinst, hbinders⟩ := exists_left_of_forall₂ hall ha'
        exact ⟨isSome_logic?_instantiateBinders hbinders, ih a ha (hopen a ha) (hnarrow a ha) hinst⟩

end Term

end SequentSearch
