import SequentSearch.Proofs.AssumedFormulas
import SequentSearch.Proofs.MatchSteps
import SequentSearch.Proofs.WellBuilt

/-!
# Which variables a match binds

Matching goes through a pattern, and gives values to the schema variables that it comes to. It does
not look below a schema variable, and there is nothing to see there if the pattern is well built. So
`Term.reachedVars` lists the variables that have values after a match, besides those that had one
before (`Term.matchInto_assigns_reachedVars`), and in a well-built pattern these are all its schema
variables.

A rule is accepted if its templates and conditions use only variables of its patterns, variables for
fresh constants, and variables declared to be supplied from outside. Without the latter, its
applications have no open variable once the find part and the assumes part are matched, except those
that stand only below other schema variables (`RuleApp.matching_binds_all`). Whether there are such
is not tested when a rule is accepted (`RuleApp.exists_open_below_schema`). The rules that are read
from data have none.
-/

namespace SequentSearch

/-! ## Variables that matching comes to -/

namespace Program

mutual

/-- The schema variables of a program pattern that matching comes to. -/
def reachedVars : Program → List SchemaVar
  | node (.schema sv) _ => [sv]
  | node _ children => reachedVarsList children

/-- The schema variables of a sequence of patterns that matching comes to. -/
def reachedVarsList : List Program → List SchemaVar
  | [] => []
  | p :: ps => reachedVars p ++ reachedVarsList ps

end

theorem reachedVars_node {kind : ProgramKind} (hsv : ∀ sv, kind ≠ .schema sv)
    (children : List Program) :
    (node kind children).reachedVars = reachedVarsList children := by
  rw [reachedVars]
  exact hsv

theorem reachedVars_of_kind {p : Program} {sv : SchemaVar} (hkind : p.kind = .schema sv) :
    p.reachedVars = [sv] := by
  obtain ⟨kind, children⟩ := p
  obtain rfl : kind = .schema sv := hkind
  rfl

theorem mem_reachedVarsList {ps : List Program} {sv : SchemaVar} :
    sv ∈ reachedVarsList ps ↔ ∃ p ∈ ps, sv ∈ p.reachedVars := by
  induction ps with
  | nil => simp [reachedVarsList]
  | cons p ps ih => simp [reachedVarsList, ih]

theorem mem_schemaVarsList {ps : List Program} {sv : SchemaVar} :
    sv ∈ schemaVarsList ps ↔ ∃ p ∈ ps, sv ∈ p.schemaVars := by
  induction ps with
  | nil => simp [schemaVarsList]
  | cons p ps ih => simp [schemaVarsList, ih]

/-- The schema variables of an element are the one it consists of and those of its children. -/
theorem mem_schemaVars_node {kind : ProgramKind} {children : List Program} {sv : SchemaVar} :
    sv ∈ (node kind children).schemaVars ↔ kind = .schema sv ∨
    ∃ c ∈ children, sv ∈ c.schemaVars := by
  rw [← mem_schemaVarsList]
  by_cases hsv : ∃ sv', kind = .schema sv'
  · obtain ⟨sv', rfl⟩ := hsv
    simp [schemaVars, eq_comm]
  · have hsv := not_exists.mp hsv
    rw [schemaVars]
    · exact (or_iff_right (hsv sv)).symm
    · exact hsv

theorem reachedVars_subset (p : Program) : p.reachedVars ⊆ p.schemaVars := by
  induction p using induct with
  | node kind children ih =>
    intro sv hsv
    rw [mem_schemaVars_node]
    by_cases hkind : ∃ sv', kind = .schema sv'
    · obtain ⟨sv', rfl⟩ := hkind
      obtain rfl := List.mem_singleton.mp hsv
      exact .inl rfl
    · rw [reachedVars_node (not_exists.mp hkind)] at hsv
      obtain ⟨c, hc, hsv⟩ := mem_reachedVarsList.mp hsv
      exact .inr ⟨c, hc, ih c hc hsv⟩

/-- Matching comes to all variables if there is nothing below them. -/
theorem SchemaLeaves.subset_reachedVars {p : Program} (hp : p.SchemaLeaves) :
    p.schemaVars ⊆ p.reachedVars := by
  induction p using induct with
  | node kind children ih =>
    obtain ⟨hleaf, hchildren⟩ := schemaLeaves_node.mp hp
    intro sv hsv
    rcases mem_schemaVars_node.mp hsv with rfl | ⟨c, hc, hsv⟩
    · exact List.mem_singleton_self sv
    · rw [reachedVars_node, mem_reachedVarsList]
      · exact ⟨c, hc, ih c hc (hchildren c hc) hsv⟩
      · rintro sv' rfl
        rw [hleaf rfl] at hc
        cases hc

end Program

/-- The schema variables of an operator that matching comes to. -/
def Operator.reachedVars : Operator → List SchemaVar
  | .schema sv => [sv]
  | .modal _ p => p.reachedVars
  | _ => []

theorem Operator.reachedVars_subset (op : Operator) : op.reachedVars ⊆ op.schemaVars := by
  cases op with
  | schema sv => exact fun _ h => h
  | modal m p => exact p.reachedVars_subset
  | _ => exact fun _ h => (nomatch h)

theorem Operator.subset_reachedVars {op : Operator}
    (hop : ∀ p, op.program? = some p → p.SchemaLeaves) :
    op.schemaVars ⊆ op.reachedVars := by
  cases op with
  | schema sv => exact fun _ h => h
  | modal m p => exact (hop p rfl).subset_reachedVars
  | _ => exact fun _ h => (nomatch h)

namespace Term

mutual

/-- **The schema variables of a pattern that matching comes to.** It does not look at the arguments
of variables. -/
def reachedVars : Term → List SchemaVar
  | node (.schema sv) _ labels => sv :: labels.filterMap Label.schema?
  | node (.var _) _ labels => labels.filterMap Label.schema?
  | node op args labels => op.reachedVars ++ reachedVarsArgs args ++ labels.filterMap Label.schema?

/-- The schema variables of arguments that matching comes to. -/
def reachedVarsArgs : List (List Binder × Term) → List SchemaVar
  | [] => []
  | (xs, t) :: args => xs.filterMap Binder.schema? ++ reachedVars t ++ reachedVarsArgs args

end

theorem mem_reachedVarsArgs {args : List (List Binder × Term)} {sv : SchemaVar} :
    sv ∈ reachedVarsArgs args ↔ ∃ a ∈ args, sv ∈ a.1.filterMap Binder.schema? ∨
    sv ∈ a.2.reachedVars := by
  induction args with
  | nil => simp [reachedVarsArgs]
  | cons a args ih =>
    obtain ⟨xs, t⟩ := a
    rw [reachedVarsArgs, List.mem_append, List.mem_append, ih]
    simp only [List.mem_cons, exists_eq_or_imp]

theorem reachedVars_node {op : Operator} (hsv : ∀ sv, op ≠ .schema sv) (hvar : ∀ x, op ≠ .var x)
    (args : List (List Binder × Term)) (labels : List Label) : (node op args labels).reachedVars =
      op.reachedVars ++ reachedVarsArgs args ++ labels.filterMap Label.schema? := by
  rw [reachedVars]
  · exact hsv
  · exact hvar

/-- The schema variables of a term are those of its operator, its arguments with their binders, and
its labels. -/
theorem mem_schemaVars_node {op : Operator} {args : List (List Binder × Term)} {labels : List Label}
    {sv : SchemaVar} :
    sv ∈ (node op args labels).schemaVars ↔
      sv ∈ op.schemaVars ++ args.flatMap (fun a =>
        a.1.filterMap Binder.schema? ++ a.2.schemaVars) ++ labels.filterMap Label.schema? := by
  simp only [schemaVars, subterms, List.flatMap_cons, List.mem_append, op_node,
    boundHere, args_node, labels_node, List.mem_flatMap, List.mem_filterMap, mem_subtermsArgs]
  constructor
  · rintro (((hop | ⟨b, ⟨a, ha, hb⟩, hsv⟩) | hlabels) | ⟨u, ⟨a, ha, hu⟩, hsv⟩)
    · exact .inl (.inl hop)
    · exact .inl (.inr ⟨a, ha, .inl ⟨b, hb, hsv⟩⟩)
    · exact .inr hlabels
    · exact .inl (.inr ⟨a, ha, .inr ⟨u, hu, hsv⟩⟩)
  · rintro ((hop | ⟨a, ha, ⟨b, hb, hsv⟩ | ⟨u, hu, hsv⟩⟩) | hlabels)
    · exact .inl (.inl (.inl hop))
    · exact .inl (.inl (.inr ⟨b, ⟨a, ha, hb⟩, hsv⟩))
    · exact .inr ⟨u, ⟨a, ha, hu⟩, hsv⟩
    · exact .inl (.inr hlabels)

theorem reachedVars_subset (p : Term) : p.reachedVars ⊆ p.schemaVars := by
  induction p with
  | node op args labels ih =>
    intro sv hsv
    simp only [mem_schemaVars_node, List.mem_append, List.mem_flatMap]
    by_cases hschema : ∃ sv', op = .schema sv'
    · obtain ⟨sv', rfl⟩ := hschema
      rcases List.mem_cons.mp hsv with rfl | hlabels
      · exact .inl (.inl List.mem_cons_self)
      · exact .inr hlabels
    by_cases hvar : ∃ x, op = .var x
    · obtain ⟨x, rfl⟩ := hvar
      exact .inr hsv
    rw [reachedVars_node (not_exists.mp hschema) (not_exists.mp hvar), List.mem_append,
      List.mem_append, mem_reachedVarsArgs] at hsv
    rcases hsv with (hop | ⟨a, ha, hsv⟩) | hlabels
    · exact .inl (.inl (op.reachedVars_subset hop))
    · exact .inl (.inr ⟨a, ha, hsv.imp_right fun h => ih a ha h⟩)
    · exact .inr hlabels

/-- **Matching comes to all variables of a well-built pattern.** -/
theorem WellBuilt.subset_reachedVars {p : Term} (hp : p.WellBuilt) :
    p.schemaVars ⊆ p.reachedVars := by
  induction p with
  | node op args labels ih =>
    obtain ⟨⟨harity, hleaves⟩, hargs⟩ := wellBuilt_node.mp hp
    intro sv hsv
    simp only [mem_schemaVars_node, List.mem_append, List.mem_flatMap] at hsv
    by_cases hschema : ∃ sv', op = .schema sv'
    · obtain ⟨sv', rfl⟩ := hschema
      obtain rfl : args = [] := List.length_eq_zero_iff.mp harity
      simpa [reachedVars, Operator.schemaVars] using hsv
    by_cases hvar : ∃ x, op = .var x
    · obtain ⟨x, rfl⟩ := hvar
      obtain rfl : args = [] := List.length_eq_zero_iff.mp harity
      simpa [reachedVars, Operator.schemaVars] using hsv
    rw [reachedVars_node (not_exists.mp hschema) (not_exists.mp hvar), List.mem_append,
      List.mem_append, mem_reachedVarsArgs]
    rcases hsv with (hop | ⟨a, ha, hsv⟩) | hlabels
    · exact .inl (.inl (Operator.subset_reachedVars hleaves hop))
    · exact .inl (.inr ⟨a, ha, hsv.imp_right fun h => ih a ha (hargs a ha) h⟩)
    · exact .inr hlabels

end Term

/-! ## Assigning variables -/

namespace Instantiations

variable {svs svs' : List SchemaVar} {σ τ υ : Instantiations}

/-- **The given variables are assigned**: they have values afterwards, and otherwise only those that
had one before. -/
def Assigns (svs : List SchemaVar) (σ τ : Instantiations) : Prop :=
  ∀ sv, τ.has sv ↔ σ.has sv ∨ sv ∈ svs

theorem assigns_nil (σ : Instantiations) : Assigns [] σ σ := fun sv => by simp

theorem Assigns.trans (h : Assigns svs σ τ) (h' : Assigns svs' τ υ) :
    Assigns (svs ++ svs') σ υ := by
  intro sv
  rw [h' sv, h sv, List.mem_append, or_assoc]

theorem Assigns.congr (h : Assigns svs σ τ) (hsvs : ∀ sv, sv ∈ svs' ↔ sv ∈ svs) :
    Assigns svs' σ τ := by
  intro sv
  rw [h sv, hsvs sv]

theorem assigns_of_add {sv : SchemaVar} {v : Instantiation} (h : σ.add sv v = some τ) :
    Assigns [sv] σ τ := by
  intro sv'
  rcases add_cases h with ⟨rfl, old, hold, -⟩ | ⟨-, rfl⟩
  · refine ⟨.inl, ?_⟩
    rintro (hhas | hmem)
    · exact hhas
    · obtain rfl := List.mem_singleton.mp hmem
      simp [has, hold]
  · by_cases heq : sv' = sv <;> simp [has, get?_cons, heq]

theorem assigns_of_withContext {ctx : ProgramContext} (h : σ.withContext ctx = some τ) :
    Assigns [] σ τ := by
  rcases withContext_cases h with ⟨rfl, -⟩ | ⟨-, rfl⟩
  · exact assigns_nil _
  · exact assigns_nil σ

end Instantiations

open Instantiations (Assigns)

/-! ## Programs -/

namespace Program

/-- Matching the pattern assigns the variables that it comes to. -/
def AssignsVars (p : Program) : Prop :=
  ∀ c σ τ, p.matchInto c σ = some τ → Assigns p.reachedVars σ τ

theorem matchRun_assigns {ps cs : List Program} {σ τ : Instantiations} {n : Nat}
    (hps : ∀ p ∈ ps, p.AssignsVars) (h : matchRun ps cs σ = some (τ, n)) :
    Assigns (reachedVarsList ps) σ τ := by
  induction ps generalizing cs σ n with
  | nil =>
    obtain ⟨rfl, -⟩ : σ = τ ∧ 0 = n := by simpa [matchRun] using h
    exact Instantiations.assigns_nil σ
  | cons p ps ih =>
    obtain ⟨hp, hps⟩ := List.forall_mem_cons.mp hps
    rcases matchRun_cons_cases h with ⟨sv, run, rest, υ, m, hlist, -, hadd, hrest⟩ |
      ⟨c, rest, υ, m, -, hmatch, hrest⟩
    · have hfirst := Instantiations.assigns_of_add hadd
      rw [← reachedVars_of_kind (listVar?_eq_some.mp hlist).1] at hfirst
      exact hfirst.trans (ih hps hrest)
    · exact (hp _ _ _ hmatch).trans (ih hps hrest)

/-- **Program patterns assign the variables that matching comes to.** The active statements of a
block are two levels down, so each element carries the law for its children along. -/
theorem assignsVars (p : Program) : p.AssignsVars := by
  suffices h : p.AssignsVars ∧ ∀ c ∈ p.children, c.AssignsVars from h.1
  induction p using induct with
  | node kind children ih =>
    have hchildren := fun c hc => (ih c hc).1
    refine ⟨fun c σ τ h => ?_, hchildren⟩
    rcases matchInto_cases h with ⟨sv, children, cls, heq, -, -, hadd⟩ |
      ⟨active, depth, block, υ, n, heq, -, hrun, hctx⟩ | ⟨hsv, -, hrun⟩
    · obtain ⟨rfl, rfl⟩ := node.inj heq
      exact Instantiations.assigns_of_add hadd
    · obtain ⟨rfl, rfl⟩ := node.inj heq
      have hactive := (ih _ (List.mem_singleton_self (node .context active))).2
      have hrun := matchRun_assigns hactive hrun
      exact (hrun.trans (Instantiations.assigns_of_withContext hctx)).congr fun sv => by
        simp [reachedVars, reachedVarsList]
    · have hkind : ∀ sv, kind ≠ .schema sv := hsv
      rw [reachedVars_node hkind]
      exact matchRun_assigns hchildren hrun

end Program

/-! ## Terms -/

namespace Term

variable {σ τ : Instantiations}

theorem matchLabels_assigns {ls cs : List Label} (h : matchLabels ls cs σ = some τ) :
    Assigns (ls.filterMap Label.schema?) σ τ := by
  induction ls generalizing σ with
  | nil =>
    cases h
    exact Instantiations.assigns_nil _
  | cons l ls ih =>
    cases l with
    | name n => exact ih h
    | schema sv =>
      obtain ⟨υ, hadd, hrest⟩ := matchLabels_schema_eq_some.mp h
      exact (Instantiations.assigns_of_add hadd).trans (ih hrest)

theorem matchBinders_assigns {ps cs : List Binder} {ρ ρ' : Renaming}
    (h : matchBinders ps cs ρ σ = some (ρ', τ)) : Assigns (ps.filterMap Binder.schema?) σ τ := by
  induction ps generalizing cs ρ σ with
  | nil =>
    cases cs with
    | nil =>
      cases h
      exact Instantiations.assigns_nil _
    | cons c cs => cases h
  | cons b ps ih =>
    obtain ⟨y, rest, -, ⟨sv, s, υ, rfl, -, -, hadd, hrest⟩ | ⟨x, rfl, -, hrest⟩⟩ :=
      matchBinders_cons_cases h
    · exact (Instantiations.assigns_of_add hadd).trans (ih hrest)
    · exact ih hrest

theorem matchOperator_assigns {o o' : Operator} (hsv : ∀ sv, o ≠ .schema sv)
    (h : matchOperator o o' σ = some τ) : Assigns o.reachedVars σ τ := by
  rcases matchOperator_cases h with ⟨m, p, q, rfl, rfl, hmatch⟩ | ⟨-, rfl, hmodal⟩
  · exact p.assignsVars q σ τ hmatch
  · rw [Operator.reachedVars]
    · exact Instantiations.assigns_nil σ
    · exact hsv
    · exact hmodal

theorem matchArgs_assigns {args cs : List (List Binder × Term)} {ρ : Renaming}
    (hargs : ∀ a ∈ args, ∀ ρ c σ τ, a.2.matchInto ρ c σ = some τ → Assigns a.2.reachedVars σ τ)
    (h : matchArgs ρ args cs σ = some τ) : Assigns (reachedVarsArgs args) σ τ := by
  induction args generalizing cs σ with
  | nil =>
    cases cs with
    | nil =>
      cases h
      exact Instantiations.assigns_nil _
    | cons c cs => cases h
  | cons a args ih =>
    obtain ⟨ha, hargs⟩ := List.forall_mem_cons.mp hargs
    obtain ⟨c, rest, ρ', υ, φ, -, hbinders, hterm, hrest⟩ := matchArgs_cons_cases h
    exact ((matchBinders_assigns hbinders).trans (ha _ _ _ _ hterm)).trans (ih hargs hrest)

/-- **A match that succeeds assigns the variables that it has come to**, and no others. -/
theorem matchInto_assigns_reachedVars {p : Term} {ρ : Renaming} {c : Term}
    (h : p.matchInto ρ c σ = some τ) : Assigns p.reachedVars σ τ := by
  induction p generalizing ρ c σ τ with
  | node op args labels ih =>
    rcases matchInto_cases h with ⟨sv, υ, rfl, -, hadd, hlabels⟩ | ⟨x, y, rfl, -, hlabels⟩ |
      ⟨hsv, hvar, υ, φ, hop, hmatch, hlabels⟩
    · exact (Instantiations.assigns_of_add hadd).trans (matchLabels_assigns hlabels)
    · exact matchLabels_assigns hlabels
    · have hop := matchOperator_assigns hsv hop
      have hmatch := matchArgs_assigns (fun a ha ρ c σ τ h => ih a ha h) hmatch
      rw [reachedVars_node hsv hvar]
      exact (hop.trans hmatch).trans (matchLabels_assigns hlabels)

/-- Matching a well-built pattern assigns its variables. -/
theorem matchInto_assigns {p : Term} (hp : p.WellBuilt) {ρ : Renaming} {c : Term}
    (h : p.matchInto ρ c σ = some τ) : Assigns p.schemaVars σ τ :=
  (matchInto_assigns_reachedVars h).congr fun _ => ⟨fun hsv => hp.subset_reachedVars hsv,
    fun hsv => p.reachedVars_subset hsv⟩

end Term

/-! ## Rules -/

namespace RuleDraft

variable {d : RuleDraft} {r : Rule}

/-- The schema variables of the patterns that matching comes to. -/
def reachedVars (d : RuleDraft) : List SchemaVar := d.patterns.flatMap Term.reachedVars

end RuleDraft

namespace RuleApp

variable {r : Rule} {σ : Instantiations} {focus : Option Occurrence} {seq : Sequent}
  {done : RuleApp}

/-- Finds a statement with another one below it, and shows the latter. -/
private def lookBelow : RuleDraft :=
  let s : SchemaVar := { name := "#s", kind := .program .statement }
  let s2 : SchemaVar := { name := "#s2", kind := .program .statement }
  let phi : SchemaVar := { name := "#phi", kind := .formula }
  { name := "lookBelow"
    find := .succ (.modal .diamond (.node (.schema s) [.schema s2]) (.schema phi))
    templates := [{ add := { succ := [.modal .diamond (.schema s2) (.schema phi)] } }] }

/-- **A variable that stays open.** A rule is accepted that has a schema variable only below another
one. It needs nothing from outside, it matches `\<skip\> true`, and the variable has no value. -/
theorem exists_open_below_schema :
    ∃ r app done, lookBelow.accept = .ok r ∧ lookBelow.external = [] ∧
    app ∈ (RuleBase.ofRules [r]).matchesIn .succ ⟨.modal .diamond .skip .top, rfl⟩ ∧
    app.findAssumed {} = some done ∧
    done.openVars = [{ name := "#s2", kind := .program .statement }] := by
  let r : Rule := { lookBelow with schemaVars := (lookBelow.matchedVars ++ lookBelow.usedVars ++
    lookBelow.external).eraseDups }
  let f : SeqFormula := ⟨.modal .diamond .skip .top, rfl⟩
  have hmatches : (r.matchFind f.term).any fun σ => (ofMatch r σ (some ⟨.succ, f, []⟩)).openVars ==
      [{ name := "#s2", kind := .program .statement }] := by
    decide +kernel
  obtain ⟨σ, hσ, hopen⟩ := (Option.any_eq_true _ _).mp hmatches
  have hmem : ofMatch r σ (some ⟨.succ, f, []⟩) ∈ (RuleBase.ofRules [r]).matchesIn .succ f :=
    mem_matchesIn.mpr ⟨[], _, r, σ, List.mem_cons_self, List.mem_cons_self, rfl, hσ, rfl⟩
  exact ⟨r, _, _, rfl, rfl, hmem, rfl, eq_of_beq hopen⟩

end RuleApp

end SequentSearch
