import Mathlib
import SequentSearch.Calculus.Execution
import SequentSearch.Proofs.Applications
import SequentSearch.Proofs.DynamicLogic
import SequentSearch.Proofs.Execution
import SequentSearch.Proofs.RuleSoundness

/-!
# Symbolic execution keeps the meaning

A symbolic execution rule finds a modality and replaces the active statements of its program. The
context of these statements, down to any depth of leading blocks, and the formula behind the
modality stay. So the formula before the rule and the one after it are true in the same states if
the active statements of the pattern run like those of the template under all values of the schema
variables (`Program.RunsAlike`, `Term.sameTruth_of_runsAlike`). That is so for all rules that
rewrite the modality. The rule that splits a conditional has two templates, and in every state one
of them is about the branch that runs (`Term.holdsIn_iff_of_split`).

What takes the place of a formula has no substitutions to execute. If the formula has none either,
truth is a matter of values alone (`Calculus.symbolicExecution_keeps_values`).
-/

namespace SequentSearch

universe u

namespace Program

variable {rule : String} {σ : Instantiations} {ps qs : List Program}

/-! ## Statements that run alike -/

/-- An instance of a conditional is made of instances of its parts. -/
theorem instantiateRun_ifElse {c a b : Program} (hc : c.listVar? = none) (ha : a.listVar? = none)
    (hb : b.listVar? = none) (h : instantiateRun rule σ [.ifElse c a b] = .ok qs) :
    ∃ c' a' b', c.instantiate rule σ = .ok c' ∧ instantiateRun rule σ [a] = .ok [a'] ∧
      instantiateRun rule σ [b] = .ok [b'] ∧ qs = [node .ifElse [c', a', b']] := by
  obtain ⟨q, hq, rfl⟩ := (instantiateRun_singleton_eq_ok rfl).mp h
  obtain ⟨qs, hqs, rfl⟩ := (instantiate_node_eq_ok (by simp) (by simp)).mp hq
  obtain ⟨c', rest, hc', hrest, rfl⟩ := (instantiateRun_cons_eq_ok hc).mp hqs
  obtain ⟨a', rest', ha', hrest', rfl⟩ := (instantiateRun_cons_eq_ok ha).mp hrest
  obtain ⟨b', hb', rfl⟩ := (instantiateRun_singleton_eq_ok hb).mp hrest'
  exact ⟨c', a', b', hc', (instantiateRun_singleton_eq_ok ha).mpr ⟨a', ha', rfl⟩, hrest', rfl⟩

/-- Active statements run alike, whatever the schema variables stand for. -/
def RunsAlike (active active' : List Program) : Prop :=
  ∀ {rule : String} {σ : Instantiations} {old new : List Program},
    instantiateRun rule σ active = .ok old → instantiateRun rule σ active' = .ok new →
      ∀ {D : Type u} [Nonempty D] (M : Interpretation D) (s : ProgState D), SameRuns M s old new

theorem runsAlike_skip : RunsAlike.{u} [.skip] [] := by
  intro rule σ old new hold hnew D _ M s
  cases hold
  cases hnew
  exact sameRuns_skip

theorem runsAlike_block (hps : ∀ active, ps ≠ [node .context active]) :
    RunsAlike.{u} [.block ps] ps := by
  intro rule σ old new hold hnew D _ M s
  obtain ⟨q, hq, rfl⟩ := (instantiateRun_singleton_eq_ok rfl).mp hold
  obtain ⟨qs, hqs, rfl⟩ := (instantiate_node_eq_ok (by simp) hps).mp hq
  cases hqs.symm.trans hnew
  exact sameRuns_block

/-- The template has the loop once more, so its instance inside the conditional is the instance
before. -/
theorem runsAlike_loop {c b : Program} (hc : c.listVar? = none) (hb : b.listVar? = none) :
    RunsAlike.{u} [.loop c b] [.ifElse c (.block [b, .loop c b]) (.block [])] := by
  intro rule σ old new hold hnew D _ M s
  obtain ⟨q, hq, rfl⟩ := (instantiateRun_singleton_eq_ok rfl).mp hold
  obtain ⟨qs, hqs, rfl⟩ := (instantiate_node_eq_ok (by simp) (by simp)).mp hq
  obtain ⟨c', rest, hc', hrest, rfl⟩ := (instantiateRun_cons_eq_ok hc).mp hqs
  obtain ⟨b', hb', rfl⟩ := (instantiateRun_singleton_eq_ok hb).mp hrest
  obtain ⟨c'', a', b'', hc'', ha', hb'', rfl⟩ := instantiateRun_ifElse hc rfl rfl hnew
  cases hc'.symm.trans hc''
  cases hb''
  obtain ⟨q, hq, heq⟩ := (instantiateRun_singleton_eq_ok rfl).mp ha'
  cases heq
  obtain ⟨qs, hqs, rfl⟩ := (instantiate_node_eq_ok (by simp) (by simp)).mp hq
  obtain ⟨b'', rest, hb'', hrest, rfl⟩ := (instantiateRun_cons_eq_ok hb).mp hqs
  cases hb'.symm.trans hb''
  cases hold.symm.trans hrest
  exact sameRuns_loop

end Program

namespace Term

variable {rule : String} {σ τ υ : Instantiations} {m : Modality} {pat : Program} {post : SchemaVar}
  {F φ r : Term}

/-! ## Matched modalities -/

/-- A schema variable as the only argument is bound to the only argument of the candidate. -/
theorem matchArgs_schema {ρ : Renaming} {args : List (List Binder × Term)}
    (h : matchArgs ρ [([], schema post)] args σ = some τ) :
    ∃ t, args = [([], t)] ∧ σ.add post (.term t) = some τ := by
  match args, h with
  | (ys, t) :: rest, h =>
    obtain ⟨ρ', υ, hbinders, υ', ht, hrest⟩ := matchArgs_cons_eq_some.mp h
    obtain rfl : rest = [] := by
      cases rest with
      | nil => rfl
      | cons _ _ => cases hrest
    cases hrest
    obtain rfl : ys = [] := by
      cases ys with
      | nil => rfl
      | cons _ _ => cases hbinders
    cases hbinders
    refine ⟨t, rfl, ?_⟩
    rw [schema, plain, matchInto] at ht
    split at ht <;> rename_i hvar
    · cases ht
      rw [matchVar] at hvar
      split at hvar
      · exact hvar
      · cases hvar
    · cases ht

/-- **A matched modality.** Its program is matched first, which binds no terms. So the variable
behind the modality is bound to the very formula there, and not to one that is equal to it up to
renaming. -/
theorem matchInto_modal (h : (modal m pat (schema post)).matchInto .empty F .empty = some σ) :
    ∃ p φ ls τ, F = node (.modal m p) [([], φ)] ls ∧ pat.matchInto p .empty = some τ ∧ τ ≤ σ ∧
      σ.get? post = some (.term φ) := by
  obtain ⟨op, args, ls⟩ := F
  obtain ⟨τ, hop, υ, hargs, hlabels⟩ := (matchInto_node_eq_some (by simp) (by simp)).mp h
  cases hlabels
  obtain ⟨p, rfl, hp⟩ := matchOperator_modal_eq_some.mp hop
  obtain ⟨φ, rfl, hφ⟩ := matchArgs_schema hargs
  have hnone : τ.All fun _ v => v.term? = none :=
    (Program.binds (fun _ _ hv => hv) pat _ _ _ _ .refl hp).all Instantiations.all_empty
  exact ⟨p, φ, ls, τ, rfl, hp, Instantiations.le_of_add hφ,
    Instantiations.get?_of_add_term_of_all hnone hφ⟩

/-- **An instance of a modality** has the formula of the matched one behind it. -/
theorem instantiate_modal (hpost : υ.get? post = some (.term φ))
    (h : (modal m pat (schema post)).instantiate rule υ = .ok r) :
    ∃ q, pat.instantiate rule υ = .ok q ∧ r = node (.modal m q) [([], φ)] [] := by
  obtain ⟨ls, op, args, hls, hop, hargs, rfl⟩ := (instantiate_node_eq_ok (by simp)).mp h
  cases hls
  obtain ⟨q, hq, hop⟩ := bind_eq_ok.mp hop
  cases hop
  obtain ⟨rs, hrs, rfl⟩ := instantiateArgs_plain hargs
  obtain ⟨φ', rest, hφ', hnil, rfl⟩ := List.forall₂_cons_left_iff.mp hrs
  cases hnil
  cases (instantiate_unlabelled_eq_ok.mp hφ').symm.trans (instantiateVar_of_term hpost)
  exact ⟨q, hq, rfl⟩

/-- **Active statements are replaced.** The formula before and the formula after are true together
in every state from which the statements have the same runs. -/
theorem holdsIn_iff_of_active {active active' : List Program}
    (hmatch : (modal m (.activeBlock active) (schema post)).matchInto .empty F .empty = some σ)
    (hle : σ ≤ υ) (hinst : (modal m (.activeBlock active') (schema post)).instantiate rule υ =
      .ok r) :
    ∃ old new, Program.instantiateRun rule υ active = .ok old ∧
      Program.instantiateRun rule υ active' = .ok new ∧
      ∀ {D : Type u} [Nonempty D] {M : Interpretation D} {β : Env D} {s : ProgState D},
        Program.SameRuns M s old new → (r.HoldsIn M β s ↔ F.HoldsIn M β s) := by
  obtain ⟨p, φ, ls, τ, rfl, hp, hτ, hpost⟩ := matchInto_modal hmatch
  obtain ⟨q, hq, rfl⟩ := instantiate_modal (Instantiations.get?_of_le hle hpost) hinst
  obtain ⟨old, new, hold, hnew, hruns⟩ :=
    Program.sameRuns_of_active hp (Instantiations.le_trans hτ hle) hq
  exact ⟨old, new, hold, hnew, fun hsame => (holdsIn_modal_congr (hruns hsame)).symm⟩

/-- Two formulas are true in the same states, whatever symbols and logic variables stand for. -/
def SameTruth (F G : Term) : Prop :=
  ∀ ⦃D : Type u⦄ [Nonempty D] (M : Interpretation D) (β : Env D) (s : ProgState D),
    F.HoldsIn M β s ↔ G.HoldsIn M β s

/-- In terms of values, if there are no substitutions to execute. -/
theorem SameTruth.evalIn_iff {G : Term} (h : SameTruth.{u} F G) (hF : F.hasRedex = false)
    (hG : G.hasRedex = false) {D : Type u} [Nonempty D] (M : Interpretation D) (β : Env D)
    (s : ProgState D) : (F.evalIn M β s).Holds ↔ (G.evalIn M β s).Holds := by
  rw [← holdsIn_of_hasRedex_eq_false hF, ← holdsIn_of_hasRedex_eq_false hG]
  exact h M β s

theorem SameTruth.executeSubsts {G : Term} (h : SameTruth.{u} F G) :
    SameTruth.{u} F.executeSubsts G :=
  fun _ _ M β s => holdsIn_executeSubsts.trans (h M β s)

/-- **Statements that run alike replace each other.** -/
theorem sameTruth_of_runsAlike {active active' : List Program}
    (halike : Program.RunsAlike.{u} active active')
    (hmatch : (modal m (.activeBlock active) (schema post)).matchInto .empty F .empty = some σ)
    (hinst : (modal m (.activeBlock active') (schema post)).instantiate rule σ = .ok r) :
    SameTruth.{u} r F := by
  obtain ⟨old, new, hold, hnew, hiff⟩ :=
    holdsIn_iff_of_active hmatch (Instantiations.le_refl σ) hinst
  exact fun _ _ M β s => hiff (halike hold hnew M s)

/-- **An empty program is dropped.** -/
theorem sameTruth_of_empty
    (hmatch : (modal m (.block []) (schema post)).matchInto .empty F .empty = some σ)
    (hinst : (schema post).instantiate rule σ = .ok r) : SameTruth.{u} r F := by
  obtain ⟨p, φ, ls, τ, rfl, hp, -, hpost⟩ := matchInto_modal hmatch
  cases (instantiate_unlabelled_eq_ok.mp hinst).symm.trans (instantiateVar_of_term hpost)
  obtain ⟨-, hback⟩ := Program.reproduces rule _ _ _ _ hp
  obtain rfl : Program.node .block [] = p := Except.ok.inj (hback τ (Instantiations.le_refl τ))
  exact fun _ _ M β s => holdsIn_modal_nil.symm

/-! ## Splitting -/

/-- An expression in the place of a term gives the term it denotes. -/
theorem toTerm_of_instantiate {sv : SchemaVar} {c : Program} {t : Term}
    (hc : (Program.schema sv).instantiate rule υ = .ok c) (ht : instantiateVar υ sv = .ok t) :
    c.toTerm = .ok (some t) := by
  rw [Program.schema, Program.instantiate] at hc
  rcases instantiateVar_eq_ok ht with hterm | ⟨p, hp, htoTerm⟩
  · rw [hterm] at hc
    cases hc
  · rw [hp] at hc
    cases hc
    exact htoTerm

/-- An instance of a condition equates the term of the condition with `TRUE`. -/
theorem instantiate_condition {sv : SchemaVar} {d : Term}
    (h : (equals (schema sv) (Literal.bool true).toTerm).instantiate rule υ = .ok d) :
    ∃ t, instantiateVar υ sv = .ok t ∧ d = equals t (Literal.bool true).toTerm := by
  obtain ⟨ls, op, args, hls, hop, hargs, rfl⟩ := (instantiate_node_eq_ok (by simp)).mp h
  cases hls
  cases hop
  obtain ⟨rs, hrs, rfl⟩ := instantiateArgs_plain hargs
  obtain ⟨t, rest, ht, hrest, rfl⟩ := List.forall₂_cons_left_iff.mp hrs
  obtain ⟨lit, last, hlit, hnil, rfl⟩ := List.forall₂_cons_left_iff.mp hrest
  cases hnil
  cases hlit
  exact ⟨t, instantiate_unlabelled_eq_ok.mp ht, rfl⟩

/-- **A conditional is split.** Where its condition is true the formula says the same as the one
with the first branch, elsewhere the same as the one with the second. That the condition is true is
itself said by a formula, which equates an expression with `TRUE`. -/
theorem holdsIn_iff_of_split {c a b : SchemaVar} {t e d : Term} (hc : c.list = false)
    (ha : a.list = false) (hb : b.list = false)
    (hmatch : (modal m (.activeBlock [.ifElse (.schema c) (.schema a) (.schema b)])
      (schema post)).matchInto .empty F .empty = some σ) (hle : σ ≤ υ)
    (ht : (modal m (.activeBlock [.schema a]) (schema post)).instantiate rule υ = .ok t)
    (he : (modal m (.activeBlock [.schema b]) (schema post)).instantiate rule υ = .ok e)
    (hd : (equals (schema c) (Literal.bool true).toTerm).instantiate rule υ = .ok d) :
    ∃ cond, d = equals cond (Literal.bool true).toTerm ∧ cond.IsExpression ∧
      ∀ ⦃D : Type u⦄ [Nonempty D] (M : Interpretation D) (β : Env D) (s : ProgState D),
        F.HoldsIn M β s ↔
          (d.HoldsIn M β s → t.HoldsIn M β s) ∧ (e.HoldsIn M β s ∨ d.HoldsIn M β s) := by
  obtain ⟨old, new, hold, hnew, hthen⟩ := holdsIn_iff_of_active hmatch hle ht
  obtain ⟨old', new', hold', hnew', helse⟩ := holdsIn_iff_of_active hmatch hle he
  cases hold.symm.trans hold'
  obtain ⟨c', a', b', hc', ha', hb', rfl⟩ :=
    Program.instantiateRun_ifElse (Program.listVar?_schema hc) (Program.listVar?_schema ha)
      (Program.listVar?_schema hb) hold
  cases hnew.symm.trans ha'
  cases hnew'.symm.trans hb'
  obtain ⟨cond, hcond, rfl⟩ := instantiate_condition hd
  have hterm := toTerm_of_instantiate hc' hcond
  refine ⟨cond, rfl, isExpression_of_toTerm hterm, fun D _ M β s => ?_⟩
  rw [← Program.isTrue_iff hterm]
  by_cases htrue : c'.IsTrue M s
  · rw [← hthen (Program.sameRuns_ifElse_of_isTrue htrue)]
    simp [htrue]
  · rw [← helse (Program.sameRuns_ifElse_of_isFalse (Program.isFalse_of_not_isTrue hterm htrue))]
    simp [htrue]

end Term

/-! ## The rules -/

namespace RuleApp

variable {rule : String} {σ : Instantiations} {seq : Sequent}

/-- **A template that replaces a formula of the succedent** keeps the other formulas and adds
instances. -/
theorem applyTemplate_replacing {antec succ : List Term} {label : Option String} {f : SeqFormula}
    {idx : Nat} {change : Change}
    (h : applyTemplate rule σ seq (some (⟨.succ, f, []⟩, idx))
      (Calculus.replacing antec succ label) = .ok change) :
    ∃ as ss, Instances rule σ antec as ∧ Instances rule σ succ ss ∧
      change.Adds seq (without seq .succ idx) (ss.map (.succ, ·) ++ as.map (.antec, ·)) := by
  obtain ⟨kept, new, antec', succ', hreplaced, hantec, hsucc, hadds⟩ := applyTemplate_spec h
  cases hantec
  cases hsucc
  cases hreplaced with
  | sequent hhere hthere => exact ⟨_, _, hthere, hhere, by simpa [Side.other] using hadds⟩

theorem instances_singleton {t : Term} {fs : Semisequent} (h : Instances rule σ [t] fs) :
    ∃ f, instantiateFormula rule σ t = .ok f ∧ fs = [f] := by
  obtain ⟨f, rest, hf, hrest, rfl⟩ := List.forall₂_cons_left_iff.mp h
  cases hrest
  exact ⟨f, hf, rfl⟩

end RuleApp

namespace Calculus

variable {rule : Rule} {m : Modality} {F : Term} {σ : Instantiations}

/-- The rules that rewrite a modality, by the names they are shown with. -/
def rewritingNames : List String := ["emptyModality", "skip", "blockFlatten", "loopUnwind"]

theorem mem_executionDrafts (hrule : rule ∈ symbolicExecution)
    (hname : rule.displayName ∈ "ifSplit" :: rewritingNames) :
    ∃ m, rule.toRuleDraft ∈ executionDrafts m := by
  have hfirst : ∀ d ∈ firstOrderDrafts, d.shownAs.getD d.name ∉ "ifSplit" :: rewritingNames := by
    decide +kernel
  rcases List.mem_append.mp hrule with hrule | hbox
  · rcases List.mem_append.mp hrule with hfo | hdiamond
    · exact absurd hname (hfirst _ (mem_firstOrderDrafts hfo))
    · exact ⟨.diamond, RuleDraft.mem_acceptAll hdiamond⟩
  · exact ⟨.box, RuleDraft.mem_acceptAll hbox⟩

theorem matchInto_of_matchFind {p : Term} (hpattern : rule.find.pattern? = some p)
    (h : rule.matchFind F = some σ) : p.matchInto .empty F .empty = some σ := by
  obtain ⟨p', hp', hmatch, -⟩ := RuleApp.matchFind_eq_some.mp h
  cases hpattern.symm.trans hp'
  exact hmatch

/-- The rule has one template, and its instances are true in the states in which a formula is. -/
def RewritesAlike (rule : Rule) (σ : Instantiations) (F : Term) : Prop :=
  ∃ t, rule.templates.map (·.replace) = [.term t] ∧
    ∀ r, t.instantiateAndExecute rule.name σ = .ok r → Term.SameTruth.{u} r F

theorem rewritesAlike_of_instances {t : Term} (ht : rule.templates = [replacingTerm t])
    (h : ∀ {r}, t.instantiate rule.name σ = .ok r → Term.SameTruth.{u} r F) :
    RewritesAlike.{u} rule σ F := by
  refine ⟨t, by rw [ht]; rfl, fun r hr => ?_⟩
  obtain ⟨r', hr', hexecuted⟩ := bind_eq_ok.mp hr
  cases hexecuted
  exact (h hr').executeSubsts

/-- **The rules that rewrite a modality** keep the states in which it is true. -/
theorem rewritesAlike (hdraft : rule.toRuleDraft ∈ executionDrafts m)
    (hname : rule.displayName ∈ rewritingNames) (hmatch : rule.matchFind F = some σ) :
    RewritesAlike.{u} rule σ F := by
  simp only [executionDrafts, List.mem_cons, List.not_mem_nil, or_false] at hdraft
  rcases hdraft with h | h | h | h | h <;>
    have hpattern := congrArg (fun d => d.find.pattern?) h <;>
    have htemplates := congrArg RuleDraft.templates h
  · -- the empty program
    exact rewritesAlike_of_instances htemplates fun hr =>
      Term.sameTruth_of_empty (matchInto_of_matchFind hpattern hmatch) hr
  · -- `skip`
    exact rewritesAlike_of_instances htemplates fun hr =>
      Term.sameTruth_of_runsAlike Program.runsAlike_skip (matchInto_of_matchFind hpattern hmatch) hr
  · -- a block
    exact rewritesAlike_of_instances htemplates fun hr =>
      Term.sameTruth_of_runsAlike (Program.runsAlike_block (by simp [Program.schema]))
        (matchInto_of_matchFind hpattern hmatch) hr
  · -- a conditional is not rewritten
    have hshown : rule.displayName = "ifSplit" := congrArg (fun d => d.shownAs.getD d.name) h
    rw [hshown] at hname
    simp [rewritingNames] at hname
  · -- a loop
    exact rewritesAlike_of_instances htemplates fun hr =>
      Term.sameTruth_of_runsAlike (Program.runsAlike_loop rfl rfl)
        (matchInto_of_matchFind hpattern hmatch) hr

/-- The successors take the place of a formula of the succedent and together say what it says: the
first that a formula is true if a condition is, the second that another formula is true or the
condition. In none of the three are there substitutions to execute. -/
def SplitsAlike (seq : Sequent) (f : SeqFormula) (succs : List Successor) : Prop :=
  ∃ idx cond c t e s₁ s₂, (seq.side .succ)[idx]? = some f ∧ succs = [s₁, s₂] ∧
    c.term = .equals cond (Literal.bool true).toTerm ∧
    s₁.change.Adds seq (RuleApp.without seq .succ idx) [(.succ, t), (.antec, c)] ∧
    s₂.change.Adds seq (RuleApp.without seq .succ idx) [(.succ, e), (.succ, c)] ∧
    (∀ g ∈ [c, t, e], g.term.hasRedex = false) ∧
    ∀ ⦃D : Type u⦄ [Nonempty D] (M : Interpretation D) (β : Env D) (s : ProgState D),
      f.term.HoldsIn M β s ↔ (c.term.HoldsIn M β s → t.term.HoldsIn M β s) ∧
        (e.term.HoldsIn M β s ∨ c.term.HoldsIn M β s)

theorem splitsAlike_of_instances {f : SeqFormula} {seq : Sequent} {ns ns' : NameSupply}
    {succs : List Successor} {c a b post : SchemaVar} {first second : Option String}
    (hc : c.list = false) (ha : a.list = false) (hb : b.list = false)
    (hpattern : rule.find.pattern? =
      some (.modal m (.activeBlock [.ifElse (.schema c) (.schema a) (.schema b)]) (.schema post)))
    (htemplates : rule.templates =
      [replacing [.equals (.schema c) (Literal.bool true).toTerm]
          [.modal m (.activeBlock [.schema a]) (.schema post)] first,
        replacing [] [.modal m (.activeBlock [.schema b]) (.schema post),
          .equals (.schema c) (Literal.bool true).toTerm] second])
    (hmatch : rule.matchFind f.term = some σ)
    (hexec : (RuleApp.ofMatch rule σ (some ⟨.succ, f, []⟩)).execute seq ns = (.ok succs, ns')) :
    SplitsAlike.{u} seq f succs := by
  obtain ⟨-, focus, υ, hfocus, hdraw, hsuccs⟩ := RuleApp.execute_spec hexec
  have hle : σ ≤ υ := (RuleApp.drawConstants_spec hdraw).le
  obtain ⟨hnone, -⟩ | ⟨o, idx, ho, rfl, hidx⟩ := RuleApp.locateFocus_spec hfocus
  · cases hnone
  cases ho
  -- the two templates, and the instances that they add
  change List.Forall₂ _ rule.templates succs at hsuccs
  rw [htemplates] at hsuccs
  obtain ⟨s₁, rest, hs₁, hrest, rfl⟩ := List.forall₂_cons_left_iff.mp hsuccs
  obtain ⟨s₂, last, hs₂, hlast, rfl⟩ := List.forall₂_cons_left_iff.mp hrest
  cases hlast
  obtain ⟨as, ss, has, hss, hadds₁⟩ := RuleApp.applyTemplate_replacing hs₁
  obtain ⟨cond, hcond, rfl⟩ := RuleApp.instances_singleton has
  obtain ⟨t, ht, rfl⟩ := RuleApp.instances_singleton hss
  obtain ⟨as, ss, has, hss, hadds₂⟩ := RuleApp.applyTemplate_replacing hs₂
  cases has
  obtain ⟨e, rest, he, hrest, rfl⟩ := List.forall₂_cons_left_iff.mp hss
  obtain ⟨cond', hcond', rfl⟩ := RuleApp.instances_singleton hrest
  cases hcond.symm.trans hcond'
  -- what they say
  obtain ⟨d, hd, hdterm⟩ := RuleApp.instantiateFormula_eq_ok.mp hcond
  obtain ⟨t', ht', htterm⟩ := RuleApp.instantiateFormula_eq_ok.mp ht
  obtain ⟨e', he', heterm⟩ := RuleApp.instantiateFormula_eq_ok.mp he
  obtain ⟨u, rfl, hexpr, hiff⟩ := Term.holdsIn_iff_of_split hc ha hb
    (matchInto_of_matchFind hpattern hmatch) hle ht' he' hd
  have hreduced : ∀ g ∈ [cond, t, e], g.term.hasRedex = false := by
    simp [hdterm, htterm, heterm, Term.hasRedex_executeSubsts]
  rw [Term.executeSubsts_of_hasRedex_eq_false hexpr.equals_true.reduced] at hdterm
  refine ⟨idx, u, cond, t, e, s₁, s₂, hidx, rfl, hdterm, hadds₁, hadds₂, hreduced,
    fun D _ M β s => ?_⟩
  rw [hiff, hdterm, htterm, heterm, Term.holdsIn_executeSubsts, Term.holdsIn_executeSubsts]

/-- **The rule that splits a conditional** leaves goals that together say what the formula says. -/
theorem splitsAlike (hdraft : rule.toRuleDraft ∈ executionDrafts m)
    (hname : rule.displayName = "ifSplit") {f : SeqFormula} {seq : Sequent} {ns ns' : NameSupply}
    {succs : List Successor} (hmatch : rule.matchFind f.term = some σ)
    (hexec : (RuleApp.ofMatch rule σ (some ⟨.succ, f, []⟩)).execute seq ns = (.ok succs, ns')) :
    SplitsAlike.{u} seq f succs := by
  simp only [executionDrafts, List.mem_cons, List.not_mem_nil, or_false] at hdraft
  rcases hdraft with h | h | h | h | h <;>
    have hshown := hname.symm.trans (congrArg (fun d => d.shownAs.getD d.name) h) <;>
    simp at hshown
  exact splitsAlike_of_instances rfl rfl rfl (congrArg (fun d => d.find.pattern?) h)
    (congrArg RuleDraft.templates h) hmatch hexec

/-- **Symbolic execution keeps the meaning.** Let a rule of the calculus match a formula. If it is
one of those that rewrite a modality, every instance of its template is true in exactly the states
in which the formula is. If it splits a conditional, every execution on the formula in a succedent
leaves two goals that together say what the formula says. -/
theorem symbolicExecution_keeps_truth (hrule : rule ∈ symbolicExecution)
    (hmatch : rule.matchFind F = some σ) :
    (rule.displayName ∈ rewritingNames → RewritesAlike.{u} rule σ F) ∧
      (rule.displayName = "ifSplit" →
        ∀ {f : SeqFormula} {seq : Sequent} {ns ns' : NameSupply}
          {succs : List Successor}, f.term = F →
          (RuleApp.ofMatch rule σ (some ⟨.succ, f, []⟩)).execute seq ns = (.ok succs, ns') →
            SplitsAlike.{u} seq f succs) := by
  constructor
  · intro hname
    obtain ⟨m, hdraft⟩ := mem_executionDrafts hrule (List.mem_cons_of_mem _ hname)
    exact rewritesAlike hdraft hname hmatch
  · intro hname f seq ns ns' succs hf hexec
    obtain ⟨m, hdraft⟩ := mem_executionDrafts hrule (hname ▸ List.mem_cons_self ..)
    exact splitsAlike hdraft hname (hf ▸ hmatch) hexec

/-- **The same in terms of values**, for a formula without substitutions to execute: what takes its
place has the value true in exactly the states in which the formula has. -/
theorem symbolicExecution_keeps_values (hrule : rule ∈ symbolicExecution)
    (hmatch : rule.matchFind F = some σ) (hF : F.hasRedex = false) :
    (rule.displayName ∈ rewritingNames → ∃ t, rule.templates.map (·.replace) = [.term t] ∧
      ∀ r, t.instantiateAndExecute rule.name σ = .ok r →
        ∀ {D : Type u} [Nonempty D] (M : Interpretation D) (β : Env D) (s : ProgState D),
          (r.evalIn M β s).Holds ↔ (F.evalIn M β s).Holds) ∧
    (rule.displayName = "ifSplit" →
      ∀ {f : SeqFormula} {seq : Sequent} {ns ns' : NameSupply}
        {succs : List Successor}, f.term = F →
        (RuleApp.ofMatch rule σ (some ⟨.succ, f, []⟩)).execute seq ns = (.ok succs, ns') →
        ∃ idx c t e s₁ s₂, (seq.side .succ)[idx]? = some f ∧ succs = [s₁, s₂] ∧
          s₁.change.Adds seq (RuleApp.without seq .succ idx) [(.succ, t), (.antec, c)] ∧
          s₂.change.Adds seq (RuleApp.without seq .succ idx) [(.succ, e), (.succ, c)] ∧
          ∀ {D : Type u} [Nonempty D] (M : Interpretation D) (β : Env D) (s : ProgState D),
            (F.evalIn M β s).Holds ↔
              ((c.term.evalIn M β s).Holds → (t.term.evalIn M β s).Holds) ∧
                ((e.term.evalIn M β s).Holds ∨ (c.term.evalIn M β s).Holds)) := by
  constructor
  · intro hname
    obtain ⟨m, hdraft⟩ := mem_executionDrafts hrule (List.mem_cons_of_mem _ hname)
    obtain ⟨t, ht, hsame⟩ := rewritesAlike.{u} hdraft hname hmatch
    refine ⟨t, ht, fun r hr => (hsame r hr).evalIn_iff ?_ hF⟩
    obtain ⟨r', -, hexecuted⟩ := bind_eq_ok.mp hr
    cases hexecuted
    exact Term.hasRedex_executeSubsts r'
  · rintro hname f seq ns ns' succs rfl hexec
    obtain ⟨m, hdraft⟩ := mem_executionDrafts hrule (hname ▸ List.mem_cons_self ..)
    obtain ⟨idx, -, c, t, e, s₁, s₂, hidx, hsuccs, -, hadds₁, hadds₂, hreduced, hiff⟩ :=
      splitsAlike.{u} hdraft hname hmatch hexec
    refine ⟨idx, c, t, e, s₁, s₂, hidx, hsuccs, hadds₁, hadds₂, fun M β s => ?_⟩
    simp only [List.forall_mem_cons, List.not_mem_nil, false_imp_iff, implies_true,
      and_true] at hreduced
    obtain ⟨hc, ht, he⟩ := hreduced
    simp only [← Term.holdsIn_of_hasRedex_eq_false hF, ← Term.holdsIn_of_hasRedex_eq_false hc,
      ← Term.holdsIn_of_hasRedex_eq_false ht, ← Term.holdsIn_of_hasRedex_eq_false he]
    exact hiff M β s

/-- The program variable `b`. -/
private def flag : Program := .var { name := "b", sort := .boolean }

/-- `\[{ { A skip; } return; }\] p`, and the same with a diamond. -/
private def afterNested (m : Modality) (active : Program) : SeqFormula :=
  ⟨.modal m (.block [.block [active, .skip], .node .ret []]) (.app (.predicate "p" 0) []), rfl⟩

/-- `while (b) skip;`, two blocks deep. -/
private def nestedLoop : SeqFormula := afterNested .box (.loop flag .skip)

/-- `if (b) skip; else { }`, two blocks deep. -/
private def nestedIf : SeqFormula := afterNested .diamond (.ifElse flag .skip (.block []))

/-- A loop is unwound and a conditional is split in nested blocks, with statements behind them. -/
theorem symbolicExecution_keeps_truth_nested :
    (∃ rule ∈ symbolicExecution, rule.displayName = "loopUnwind" ∧ ∃ σ t r,
      rule.matchFind nestedLoop.term = some σ ∧ rule.templates.map (·.replace) = [.term t] ∧
      t.instantiateAndExecute rule.name σ = .ok r ∧ Term.SameTruth.{u} r nestedLoop.term) ∧
    ∃ rule ∈ symbolicExecution, rule.displayName = "ifSplit" ∧ ∃ σ succs ns',
      rule.matchFind nestedIf.term = some σ ∧
      (RuleApp.ofMatch rule σ (some ⟨.succ, nestedIf, []⟩)).execute (.ofFormulas [] [nestedIf]) {} =
        (.ok succs, ns') ∧
      SplitsAlike.{u} (.ofFormulas [] [nestedIf]) nestedIf succs := by
  constructor
  · have hrun : symbolicExecution.any fun rule => decide (rule.displayName = "loopUnwind") &&
        (rule.matchFind nestedLoop.term).any fun σ =>
          ((rule.templates.map (·.replace)).flatMap Replacement.terms).all fun t =>
            (t.instantiateAndExecute rule.name σ).isOk := by
      cbv
    obtain ⟨rule, hrule, hrun⟩ := List.any_eq_true.mp hrun
    obtain ⟨hname, hrun⟩ := Bool.and_eq_true_iff.mp hrun
    obtain ⟨σ, hmatch, hrun⟩ := (Option.any_eq_true _ _).mp hrun
    replace hname := of_decide_eq_true hname
    obtain ⟨t, ht, hsame⟩ :=
      (symbolicExecution_keeps_truth hrule hmatch).1 (by simp [hname, rewritingNames])
    rw [ht] at hrun
    cases hr : t.instantiateAndExecute rule.name σ with
    | error e => simp [Replacement.terms, hr, Except.isOk, Except.toBool] at hrun
    | ok r => exact ⟨rule, hrule, hname, σ, t, r, hmatch, ht, hr, hsame r hr⟩
  · have hrun : symbolicExecution.any fun rule => decide (rule.displayName = "ifSplit") &&
        (rule.matchFind nestedIf.term).any fun σ =>
          ((RuleApp.ofMatch rule σ (some ⟨.succ, nestedIf, []⟩)).execute
            (.ofFormulas [] [nestedIf]) {}).1.isOk := by
      cbv
    obtain ⟨rule, hrule, hrun⟩ := List.any_eq_true.mp hrun
    obtain ⟨hname, hrun⟩ := Bool.and_eq_true_iff.mp hrun
    obtain ⟨σ, hmatch, hrun⟩ := (Option.any_eq_true _ _).mp hrun
    replace hname := of_decide_eq_true hname
    cases hexec : (RuleApp.ofMatch rule σ (some ⟨.succ, nestedIf, []⟩)).execute
      (.ofFormulas [] [nestedIf]) {} with
    | mk result ns' =>
      cases result with
      | error e => simp [hexec, Except.isOk, Except.toBool] at hrun
      | ok succs =>
        exact ⟨rule, hrule, hname, σ, succs, ns', hmatch, hexec,
          (symbolicExecution_keeps_truth hrule hmatch).2 hname rfl hexec⟩

end Calculus

end SequentSearch
