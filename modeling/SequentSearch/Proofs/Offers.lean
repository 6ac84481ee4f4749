import SequentSearch.Proofs.Applications
import SequentSearch.Calculus.Propositional

/-!
# What the usual strategy offers

The usual strategy rejects an application for three reasons only: its rule is not meant for
automatic search, none of the rule sets of its rule has a weight, or the application was made on the
branch before (`Strategy.approves_ofSettings`). All other costs are numbers.

For every formula of a sequent of propositional logic that says something beyond an atom there is a
rule that matches it as a whole, and the match is complete as it is
(`Calculus.reducible_of_connective`). A formula that stands on both sides is matched by the closing
rule (`Calculus.reducible_of_shared`).
-/

namespace SequentSearch

/-! ## Finite costs -/

namespace Cost

@[simp] theorem isTop_number (n : Int) : (number n).isTop = false := rfl

@[simp] theorem isTop_top : top.isTop = true := rfl

@[simp] theorem isTop_add (a b : Cost) : (a.add b).isTop = (a.isTop || b.isTop) := by
  cases a <;> cases b <;> rfl

theorem isTop_foldl_add (costs : List Cost) (c : Cost) :
    (costs.foldl add c).isTop = (c.isTop || costs.any isTop) := by
  induction costs generalizing c with
  | nil => simp
  | cons d costs ih => rw [List.foldl_cons, ih, isTop_add, List.any_cons, Bool.or_assoc]

/-- A sum rejects an application if one of its terms does. -/
@[simp] theorem isTop_sum (costs : List Cost) : (sum costs).isTop = costs.any isTop := by
  rw [sum, isTop_foldl_add]
  rfl

end Cost

namespace Feature

variable {ctx : FeatureContext} {app : RuleApp}

@[simp] theorem isTop_sum (fs : List Feature) :
    (sum fs ctx app).isTop = fs.any fun f => (f ctx app).isTop := by
  simp [sum, List.any_map, Function.comp_def]

theorem ofSet_eq_none {table : List (String × Feature)} {set : String} :
    ofSet table set = none ↔ ∀ e ∈ table, e.1 ≠ set := by
  unfold ofSet
  split <;> rename_i h
  · simpa using h
  · simp only [reduceCtorEq, false_iff]
    intro hnone
    refine h (List.filter_eq_nil_iff.mpr fun e he => ?_)
    simpa using hnone e he

theorem mem_of_ofSet {table : List (String × Feature)} {set : String} {f : Feature}
    (h : ofSet table set = some f) :
    ∃ given, f = sum given ∧ ∀ g ∈ given, ∃ e ∈ table, e.2 = g := by
  unfold ofSet at h
  split at h
  · cases h
  · cases h
    refine ⟨_, rfl, fun g hg => ?_⟩
    obtain ⟨e, he, rfl⟩ := List.mem_map.mp hg
    exact ⟨e, (List.mem_filter.mp he).1, rfl⟩

/-- Weights of rule sets reject the rules of which no rule set has a weight, and no others. -/
theorem isTop_dispatch (weights : List (String × Int)) :
    (dispatch .top (weights.map fun w => (w.1, const (.number w.2))) ctx app).isTop =
      !app.rule.ruleSets.any fun set => weights.any (·.1 == set) := by
  set table : List (String × Feature) := weights.map fun w => (w.1, const (.number w.2)) with htable
  have hnone : ∀ set, ofSet table set = none ↔ (weights.any (·.1 == set)) = false := by
    intro set
    rw [ofSet_eq_none, htable, List.forall_mem_map]
    simp
  have hfinite : ∀ set f, ofSet table set = some f → (f ctx app).isTop = false := by
    intro set f hf
    obtain ⟨given, rfl, hgiven⟩ := mem_of_ofSet hf
    rw [isTop_sum, List.any_eq_false]
    intro g hg
    obtain ⟨e, he, rfl⟩ := hgiven g hg
    obtain ⟨w, -, rfl⟩ := List.mem_map.mp he
    simp [const]
  unfold dispatch
  split <;> rename_i hsets
  · have hall : ∀ set ∈ app.rule.ruleSets, ofSet table set = none := by simpa using hsets
    rw [Cost.isTop_top, Bool.true_eq, Bool.not_eq_true', List.any_eq_false]
    intro set hset
    simp [(hnone set).mp (hall set hset)]
  · obtain ⟨f, hf⟩ := List.exists_mem_of_ne_nil _ fun h => hsets h
    obtain ⟨set, hset, hofSet⟩ := List.mem_filterMap.mp hf
    have hweight : (weights.any (·.1 == set)) = true := by
      rw [← Bool.not_eq_false, ← hnone set, hofSet]
      exact Option.some_ne_none f
    rw [isTop_sum]
    have hany : (app.rule.ruleSets.any fun set => weights.any (·.1 == set)) = true :=
      List.any_eq_true.mpr ⟨set, hset, hweight⟩
    rw [hany, Bool.not_true, List.any_eq_false]
    intro g hg
    obtain ⟨set', -, hofSet'⟩ := List.mem_filterMap.mp hg
    simp [hfinite set' g hofSet']

end Feature

namespace Strategy

variable {settings : Settings} {ctx : FeatureContext} {app done : RuleApp}

/-- **What the usual strategy approves of**: applications of automatic rules of a weighted rule set
that were not made on the branch before. -/
theorem approves_ofSettings (settings : Settings) (ctx : FeatureContext) (app : RuleApp) :
    (ofSettings settings).approves ctx app =
      (app.rule.automatic && (app.rule.ruleSets.any fun set => settings.weights.any (·.1 == set)) &&
        !ctx.trail.any (·.same app)) := by
  change (!((DefaultStrategy.usualFeature settings).automaticOnly ctx app).isTop) = _
  unfold Feature.automaticOnly DefaultStrategy.usualFeature
  by_cases hauto : app.rule.automatic
  · have hduplicate : (Feature.nonDuplicate ctx app).isTop = ctx.trail.any (·.same app) := by
      unfold Feature.nonDuplicate
      split <;> simp_all [Cost.zero]
    simp only [hauto, if_true, Feature.isTop_sum, List.any_cons, List.any_nil,
      Feature.isTop_dispatch, hduplicate, Feature.branching, Feature.focusDepth, Cost.isTop_number,
      Bool.or_false, Bool.not_or,
      Bool.not_not, Bool.true_and]
  · simp [hauto]

theorem automatic_of_approves (h : (ofSettings settings).approves ctx app) :
    app.rule.automatic := by
  rw [approves_ofSettings, Bool.and_eq_true, Bool.and_eq_true] at h
  exact h.1.1

/-- The usual strategy gives a finite cost to what it approves of, so one test stands for both. -/
theorem isTop_cost_ofSettings :
    ((ofSettings settings).cost ctx app).isTop = false ↔ (ofSettings settings).approves ctx app :=
  (Bool.not_eq_true' _).symm.to_iff

/-- What the usual strategy offers: completions that it approves of, of matches that it approves
of. -/
theorem mem_offers_ofSettings {index : MatchIndex} {seq : Sequent} {cost : Cost} :
    (cost, done) ∈ (ofSettings settings).offers ctx index seq ↔ ∃ app ∈ index.apps,
      (ofSettings settings).approves ctx app ∧ done ∈ app.completions seq ∧
        cost = (ofSettings settings).cost ctx done ∧ (ofSettings settings).approves ctx done := by
  simp only [mem_offers, isTop_cost_ofSettings]
  refine exists_congr fun app => and_congr_right fun _ => and_congr ?_ .rfl
  exact and_iff_right_of_imp automatic_of_approves

end Strategy

/-! ## Complete matches -/

namespace RuleApp

variable {app done : RuleApp} {seq : Sequent}

/-- An application whose variables all have values is complete once its assumes part is found. -/
theorem mem_completions (hfound : app.findAssumed seq = some done) (hassumed : done.assumed.isSome)
    (hvalues : ∀ sv ∈ done.rule.schemaVars, done.insts.has sv)
    (hconditions : done.rule.conditions = []) :
    done ∈ app.completions seq := by
  have hopen : done.openVars = [] := by
    refine List.filter_eq_nil_iff.mpr fun sv hsv => ?_
    simp [hvalues sv hsv]
  have hcomplete : done.isComplete := by
    simp [isComplete, hassumed, hopen, Rule.conditionsHold, hconditions]
  unfold completions
  rw [hfound]
  simp [hopen, supplyAll, hcomplete]

theorem focus_of_supply {sv : SchemaVar} {t : Term} (h : app.supply sv t = some done) :
    done.focus = app.focus := by
  obtain ⟨-, σ, -, rfl⟩ := add_of_supply h
  rfl

theorem focus_of_findAssumed (h : app.findAssumed seq = some done) : done.focus = app.focus := by
  rcases findAssumed_cases h with rfl | ⟨τ, found, -, -, rfl⟩
  · rfl
  · rfl

/-- Completing an application does not move its focus. -/
theorem focus_of_mem_completions (h : done ∈ app.completions seq) : done.focus = app.focus := by
  unfold completions at h
  split at h <;> rename_i hfound
  · cases h
  · split at h
    · refine mem_supplyAll (P := fun a => a.focus = app.focus) ?_ ?_ (List.mem_filter.mp h).1
      · exact fun t _ ha hsupply => (focus_of_supply hsupply).trans ha
      · exact List.forall_mem_singleton.mpr (focus_of_findAssumed hfound)
    · cases h

/-- All completions are complete. -/
theorem isComplete_of_mem_completions (h : done ∈ app.completions seq) : done.isComplete := by
  unfold completions at h
  split at h
  · cases h
  · split at h
    · exact (List.mem_filter.mp h).2
    · cases h

end RuleApp

/-! ## Matching a formula as a whole -/

namespace Term

/-- Whether a variable stands for any formula. -/
def standsForFormula (sv : SchemaVar) : Bool := sv.kind = .formula && !sv.rigid

/-- A variable for formulas matches every formula, and is bound to it. -/
theorem matchInto_schema_formula {sv : SchemaVar} {t : Term} (hsv : standsForFormula sv)
    (ht : t.isFormula) (σ : Instantiations) :
    (schema sv).matchInto .empty t σ = σ.add sv (.term t) := by
  obtain ⟨hkind, hrigid⟩ : sv.kind = .formula ∧ sv.rigid = false := by
    simpa [standsForFormula] using hsv
  have hfits : fitsKind sv t := by
    rw [fitsKind, hkind]
    exact ht
  have hbound : (t.freeVars.any Renaming.empty.bindsCandidate) = false :=
    List.any_eq_false.mpr fun _ _ => Bool.false_ne_true
  have hvar : matchVar .empty sv t σ = σ.add sv (.term t) := by
    rw [matchVar, hfits, hrigid, hbound]
    rfl
  rw [schema, plain, matchInto, hvar]
  cases σ.add sv (.term t) <;> rfl

/-- Different variables for formulas match a list of formulas, whatever else is bound. -/
theorem matchArgs_schemas {svs : List SchemaVar} {ts : List Term} {σ : Instantiations}
    (hlen : ts.length = svs.length) (hsvs : ∀ sv ∈ svs, standsForFormula sv)
    (hts : ∀ t ∈ ts, t.isFormula) (hnodup : svs.Nodup) (hnew : ∀ sv ∈ svs, σ.get? sv = none) :
    ∃ τ, matchArgs .empty ((svs.map schema).map fun t => ([], t)) (ts.map fun t => ([], t)) σ =
        some τ ∧
      σ ≤ τ ∧ ∀ sv ∈ svs, τ.has sv := by
  induction svs generalizing ts σ with
  | nil =>
    obtain rfl := List.length_eq_zero_iff.mp hlen
    exact ⟨σ, by simp [matchArgs], Instantiations.le_refl σ, fun sv hsv => (nomatch hsv)⟩
  | cons sv svs ih =>
    obtain ⟨t, ts, rfl⟩ := List.exists_cons_of_length_eq_add_one hlen
    obtain ⟨hsv, hsvs⟩ := List.forall_mem_cons.mp hsvs
    obtain ⟨ht, hts⟩ := List.forall_mem_cons.mp hts
    obtain ⟨hnotin, hnodup⟩ := List.nodup_cons.mp hnodup
    obtain ⟨hfresh, hnew⟩ := List.forall_mem_cons.mp hnew
    let σ' : Instantiations := { σ with bindings := (sv, .term t) :: σ.bindings }
    have hadd : σ.add sv (.term t) = some σ' := by rw [Instantiations.add, hfresh]
    have hget : ∀ sv', σ'.get? sv' = if sv' = sv then some (.term t) else σ.get? sv' :=
      fun sv' => Instantiations.get?_cons
    have hnew' : ∀ sv' ∈ svs, σ'.get? sv' = none := by
      intro sv' hsv'
      have hne : sv' ≠ sv := fun heq => hnotin (heq ▸ hsv')
      rw [hget, if_neg hne]
      exact hnew sv' hsv'
    obtain ⟨τ, hτ, hle, hhas⟩ := ih (Nat.succ.inj hlen) hsvs hts hnodup hnew'
    refine ⟨τ, ?_, Instantiations.le_trans (Instantiations.le_of_add hadd) hle, ?_⟩
    · simp only [List.map_cons, matchArgs, matchBinders, matchInto_schema_formula hsv ht, hadd, hτ]
    · refine List.forall_mem_cons.mpr ⟨?_, hhas⟩
      have hvalue : σ'.get? sv = some (.term t) := by rw [hget, if_pos rfl]
      rw [Instantiations.has, Instantiations.get?_of_le hle hvalue]
      rfl

theorem self_mem_positions (t : Term) : ([], t) ∈ t.positions := by
  obtain ⟨op, args, labels⟩ := t
  exact List.mem_cons_self

end Term

/-! ## Rules for propositional logic -/

namespace Calculus

open Term

theorem propositional_names : (propositional.map (·.name)).Nodup := by decide +kernel

/-- The automatic propositional rules belong to rule sets that have a weight. -/
theorem propositionalDrafts_weighted : ∀ d ∈ propositionalDrafts, d.automatic →
    d.ruleSets.any fun set => ({} : Settings).weights.any (·.1 == set) := by
  decide +kernel

/-- The variables for the arguments of a connective. -/
def argumentVars (c : Connective) : List SchemaVar :=
  [formulaVar "#a", formulaVar "#b"].take c.arity

/-- **There is a rule for each connective on each side**, except where it says nothing. Its pattern
is the connective over variables. -/
theorem exists_rule (c : Connective) (side : Side) (htop : c = .top → side ≠ .antec)
    (hbot : c = .bot → side ≠ .succ) :
    ∃ r ∈ propositional,
      r.find.pattern? = some (plain (.connective c) ((argumentVars c).map schema)) ∧
      r.find.admits side true ∧ r.automatic ∧ r.assumes.isEmpty ∧ r.conditions.isEmpty ∧
      ∀ sv ∈ r.schemaVars, sv ∈ argumentVars c := by
  revert htop hbot
  cases c <;> cases side <;> decide +kernel

/-- There is a rule that closes a goal with a formula on both sides. -/
theorem exists_closing_rule : ∃ r ∈ propositional,
    r.find.pattern? = some (schema (formulaVar "#phi")) ∧ r.find.admits .succ true ∧
      r.automatic ∧ r.assumes.sided = [(.antec, schema (formulaVar "#phi"))] ∧
      r.conditions.isEmpty ∧ ∀ sv ∈ r.schemaVars, sv = formulaVar "#phi" := by
  decide +kernel

variable {side : Side} {f : SeqFormula} {seq : Sequent} {r : Rule}

/-- **A formula that an automatic rule for propositional logic matches as a whole**, in a way that
can be completed. -/
def Reducible (seq : Sequent) (side : Side) (f : SeqFormula) : Prop :=
  ∃ app ∈ (RuleBase.ofRules propositional).matchesIn side f, ∃ done ∈ app.completions seq,
    app.rule ∈ propositional ∧ app.rule.automatic ∧ app.focus = some ⟨side, f, []⟩ ∧
      done.rule = app.rule ∧ done.focus = app.focus

/-- A rule whose pattern matches a formula is found for it. -/
theorem mem_matchesIn_of_match {p : Term} {σ : Instantiations} (hr : r ∈ propositional)
    (hp : r.find.pattern? = some p) (hhead : p.op.head? = none ∨ p.op.head? = f.term.op.head?)
    (hadmits : r.find.admits side true) (hconditions : r.conditions.isEmpty)
    (hmatch : p.matchInto .empty f.term .empty = some σ) :
    RuleApp.ofMatch r σ (some ⟨side, f, []⟩) ∈
      (RuleBase.ofRules propositional).matchesIn side f := by
  have hbase : r ∈ (RuleBase.ofRules propositional).rules := by
    rw [RuleBase.rules_ofRules propositional_names]
    exact hr
  refine RuleApp.mem_matchesIn.mpr ⟨[], f.term, r, σ, self_mem_positions f.term, ?_,
    hadmits, ?_, rfl⟩
  · exact RuleBase.mem_candidates_of_head hbase hp hhead
  · refine RuleApp.matchFind_eq_some.mpr ⟨p, hp, hmatch, ?_⟩
    rw [Rule.conditionsHold, List.isEmpty_iff.mp hconditions]
    rfl

/-- **Every formula with a connective is reducible**, unless it says nothing. -/
theorem reducible_of_connective {c : Connective} {ts : List Term} (hop : f.term.op = .connective c)
    (hargs : f.term.args = ts.map fun t => ([], t)) (hlen : ts.length = c.arity)
    (hts : ∀ t ∈ ts, t.isFormula) (htrivial : ¬f.isTrivialOn side) : Reducible seq side f := by
  obtain ⟨r, hr, hp, hadmits, hauto, hassumes, hconditions, hvars⟩ := exists_rule c side
    (by rintro rfl rfl; simp [SeqFormula.isTrivialOn, hop] at htrivial)
    (by rintro rfl rfl; simp [SeqFormula.isTrivialOn, hop] at htrivial)
  have hvarsOf : ∀ c : Connective, (argumentVars c).length = c.arity ∧ (argumentVars c).Nodup ∧
      ∀ sv ∈ argumentVars c, standsForFormula sv := by
    intro c
    cases c <;> decide
  obtain ⟨hcount, hnodup, hstand⟩ := hvarsOf c
  obtain ⟨σ, hσ, -, hhas⟩ := matchArgs_schemas (σ := .empty)
      (hlen.trans hcount.symm) hstand hts hnodup
    fun _ _ => rfl
  have hmatch : (plain (.connective c)
      ((argumentVars c).map schema)).matchInto .empty f.term .empty =
      some σ := by
    rw [plain, matchInto]
    · simp only [matchOperator, hop, if_true, hargs, hσ, matchLabels]
    · exact fun _ => Operator.noConfusion
    · exact fun _ => Operator.noConfusion
  have hmem := mem_matchesIn_of_match hr hp
      (.inr (by rw [plain, op_node, hop])) hadmits hconditions hmatch
  have hassumed : (RuleApp.ofMatch r σ (some ⟨side, f, []⟩)).assumed.isSome := by
    rw [RuleApp.ofMatch, hassumes]
    rfl
  refine ⟨_, hmem, RuleApp.ofMatch r σ _, ?_, hr, hauto, rfl, rfl, rfl⟩
  refine RuleApp.mem_completions ?_ hassumed (fun sv hsv => hhas sv (hvars sv hsv))
    (List.isEmpty_iff.mp hconditions)
  rw [RuleApp.findAssumed, hassumed]
  rfl

/-- **A formula that stands on both sides is reducible** on the right: the closing rule takes it. -/
theorem reducible_of_shared {g : SeqFormula} (hg : g ∈ seq.antec) (halpha : f.term.alphaEq g.term) :
    Reducible seq .succ f := by
  obtain ⟨r, hr, hp, hadmits, hauto, hassumes, hconditions, hvars⟩ := exists_closing_rule
  let sv := formulaVar "#phi"
  let σ : Instantiations := { bindings := [(sv, .term f.term)] }
  have hmatch : (schema sv).matchInto .empty f.term .empty = some σ :=
    matchInto_schema_formula rfl f.isFormula _
  have hmem := mem_matchesIn_of_match hr hp (.inl rfl) hadmits hconditions hmatch
  -- matching the assumes part binds nothing new, whichever formula on the left is found first
  obtain ⟨found, hfound⟩ : ∃ found, Rule.matchFormulas .empty seq (some ⟨.succ, f, []⟩)
      [(.antec, schema sv)] σ = some (σ, found) := by
    have hsame : ∀ g : SeqFormula, (schema sv).matchInto .empty g.term σ =
        if f.term.alphaEq g.term then some σ else none :=
      fun g => matchInto_schema_formula rfl g.isFormula σ
    have hsome : (Rule.matchFormulas .empty seq (some ⟨.succ, f, []⟩)
        [(.antec, schema sv)] σ).isSome := by
      rw [Rule.matchFormulas, List.findSome?_isSome_iff]
      exact ⟨g, hg, by simp [hsame, halpha, Rule.matchFormulas]⟩
    obtain ⟨⟨τ, found⟩, hτ⟩ := Option.isSome_iff_exists.mp hsome
    obtain ⟨g', -, hg'⟩ := List.exists_of_findSome?_eq_some hτ
    have hkept : τ = σ := by
      by_cases halpha' : f.term.alphaEq g'.term <;> simp_all [Rule.matchFormulas]
    exact ⟨found, hkept ▸ hτ⟩
  have hassumed : (RuleApp.ofMatch r σ (some ⟨.succ, f, []⟩)).findAssumed seq =
      some ⟨r, σ, some ⟨.succ, f, []⟩, some found⟩ := by
    have hnot : r.assumes.isEmpty = false := by
      rw [← Bool.not_eq_true]
      intro hempty
      rw [RuleApp.sided_eq_nil hempty] at hassumes
      cases hassumes
    have hmatches : r.matchAssumes .empty seq (some ⟨.succ, f, []⟩) σ = some (σ, found) := by
      rw [Rule.matchAssumes, hassumes, hfound]
      simp [Rule.conditionsHold, List.isEmpty_iff.mp hconditions]
    simp [RuleApp.findAssumed, RuleApp.ofMatch, hnot, hmatches]
  refine ⟨_, hmem, ⟨r, σ, some ⟨.succ, f, []⟩, some found⟩, ?_, hr, hauto, rfl, rfl, rfl⟩
  refine RuleApp.mem_completions hassumed rfl (fun sv' hsv' => ?_) (List.isEmpty_iff.mp hconditions)
  rw [hvars sv' hsv']
  rfl

end Calculus

end SequentSearch
