import SequentSearch.Proofs.AcceptedRules
import SequentSearch.Proofs.Bindings
import SequentSearch.Strategy

/-!
# Where applications come from

An application in a match index was found by matching the find part of its rule. Completing it
matches the assumes part against formulas of the sequent and supplies terms. What is true of it all
the way is collected in `RuleApp.Matched`: its focus matches, the formulas found for its assumes
part match, and all its values have a property `R` that fitting terms of the sequent have.

* `RuleApp.matched_of_mem_matchesIn`: what matching finds in a formula is matched.
* `RuleApp.Matched.completions` and `Strategy.mem_offers`: what a strategy offers is matched, is
  meant for automatic search, and found its assumes part in the sequent.
-/

namespace SequentSearch

/-! ## Rule bases -/

/-- A base holds rules that were put into it. -/
theorem RuleBase.mem_ofRules {rules : List Rule} {r : Rule} (h : r ∈ (ofRules rules).rules) :
    r ∈ rules := by
  have hfold : ∀ (rules : List Rule) (base : RuleBase),
      r ∈ (rules.foldl insert base).rules → r ∈ base.rules ∨ r ∈ rules := by
    intro rules
    induction rules with
    | nil => exact fun base h => .inl h
    | cons rule rules ih =>
      intro base h
      rcases ih _ h with h | h
      · rcases List.mem_append.mp h with h | h
        · exact .inl (List.mem_filter.mp h).1
        · exact .inr (List.mem_cons.mpr (.inl (List.mem_singleton.mp h)))
      · exact .inr (List.mem_cons_of_mem _ h)
  rcases hfold rules .empty h with h | h
  · cases h
  · exact h

/-- No rule is lost in a base of rules with different names. -/
theorem RuleBase.rules_ofRules {rules : List Rule} (h : (rules.map (·.name)).Nodup) :
    (ofRules rules).rules = rules := by
  suffices hfold : ∀ base : RuleBase, ((base.rules ++ rules).map (·.name)).Nodup →
      (rules.foldl insert base).rules = base.rules ++ rules from hfold empty h
  clear h
  induction rules with
  | nil => simp
  | cons r rules ih =>
    intro base hnodup
    have hinsert : (base.insert r).rules = base.rules ++ [r] := by
      have hne : ∀ s ∈ base.rules, (s.name != r.name) = true := by
        intro s hs
        rw [List.map_append] at hnodup
        simpa using (List.nodup_append.mp hnodup).2.2 s.name
          (List.mem_map_of_mem hs) r.name (by simp)
      rw [insert, erase, List.filter_eq_self.mpr hne]
    rw [List.foldl_cons, ih _ (by rw [hinsert]; simpa using hnodup), hinsert]
    simp

/-- A rule is a candidate for the terms that have the head of its pattern, or for all if it has
none. -/
theorem RuleBase.mem_candidates_of_head {base : RuleBase} {r : Rule} {p t : Term}
    (hr : r ∈ base.rules) (hp : r.find.pattern? = some p)
    (hhead : p.op.head? = none ∨ p.op.head? = t.op.head?) :
    r ∈ base.candidates t := by
  have hmem : r ∈ base.withHead p.op.head? := List.mem_filter.mpr ⟨hr, by simp [hp]⟩
  unfold candidates
  rcases hhead with hnone | hsame
  · rw [hnone] at hmem
    exact List.mem_append_right _ hmem
  · cases hop : t.op.head? with
    | none =>
      rw [hsame, hop] at hmem
      exact List.mem_append_right _ hmem
    | some head =>
      rw [hsame, hop] at hmem
      exact List.mem_append_left _ hmem

/-! ## Values -/

/-- How values come about for the rules of a base: `Q` is what is known of the terms of sequents,
and `R` what follows for the values that matching reads off them. -/
structure RuleBase.Sources (base : RuleBase) (Q : Term → Prop)
    (R : SchemaVar → Instantiation → Prop) : Prop where
  /-- parts of terms are as good as terms -/
  hereditary : Term.Hereditary Q
  /-- a term that fits is a value -/
  fits : ∀ sv u, Q u → Term.fitsKind sv u → R sv (.term u)
  /-- other values that patterns bind are values too -/
  parts : ∀ r ∈ base.rules, ∀ p ∈ r.toRuleDraft.patterns, p.AllowsParts R

namespace RuleApp

variable {base : RuleBase} {Q : Term → Prop} {R : SchemaVar → Instantiation → Prop} {app : RuleApp}
  {seq : Sequent}

/-- A formula that matches a pattern on a side, under values that were kept. -/
def MatchesAssumed (υ : Instantiations) (e : Side × Term) (o : Occurrence) : Prop :=
  o.side = e.1 ∧ ∃ σ τ, e.2.matchInto .empty o.formula.term σ = some τ ∧ τ ≤ υ

/-- **An application that came about by matching**, and what is known of its values. -/
structure Matched (base : RuleBase) (R : SchemaVar → Instantiation → Prop)
    (app : RuleApp) : Prop where
  /-- its rule is in the base -/
  rule_mem : app.rule ∈ base.rules
  /-- its focus matches the find part -/
  focus : ∀ o, app.focus = some o → ∃ p sub τ, app.rule.find.pattern? = some p ∧
    app.rule.find.admits o.side o.pos.isEmpty ∧ (o.pos, sub) ∈ o.formula.term.positions ∧
    p.matchInto .empty sub .empty = some τ ∧ τ ≤ app.insts
  /-- without a focus there is no find part -/
  unfocused : app.focus = none → app.rule.find.pattern? = none
  /-- the formulas found for the assumes part match it -/
  assumed : ∀ found, app.assumed = some found →
    List.Forall₂ (MatchesAssumed app.insts) app.rule.assumes.sided found
  /-- its values have the property -/
  values : app.insts.All R

/-- The formulas found for the assumes part are in the sequent. -/
def AssumedIn (seq : Sequent) (app : RuleApp) : Prop :=
  ∀ found, app.assumed = some found → ∀ o ∈ found, o.formula ∈ seq.side o.side

theorem MatchesAssumed.mono {σ τ : Instantiations} {e : Side × Term} {o : Occurrence} (hστ : σ ≤ τ)
    (h : MatchesAssumed σ e o) : MatchesAssumed τ e o := by
  obtain ⟨hside, ρ, υ, hmatch, hle⟩ := h
  exact ⟨hside, ρ, υ, hmatch, Instantiations.le_trans hle hστ⟩

/-- A matched application stays matched under more values. -/
theorem Matched.withInsts (h : app.Matched base R) {σ : Instantiations} (hle : app.insts ≤ σ)
    (hσ : σ.All R) : ({ app with insts := σ } : RuleApp).Matched base R where
  rule_mem := h.rule_mem
  focus o ho := by
    obtain ⟨p, sub, τ, hp, hadmits, hpos, hmatch, hτ⟩ := h.focus o ho
    exact ⟨p, sub, τ, hp, hadmits, hpos, hmatch, Instantiations.le_trans hτ hle⟩
  unfocused := h.unfocused
  assumed found hfound := (h.assumed found hfound).imp fun _ _ hm => hm.mono hle
  values := hσ

/-- A matched application stays matched if less is asked of its values. -/
theorem Matched.mono {R' : SchemaVar → Instantiation → Prop} (h : app.Matched base R)
    (hR : ∀ sv v, R sv v → R' sv v) : app.Matched base R' where
  rule_mem := h.rule_mem
  focus := h.focus
  unfocused := h.unfocused
  assumed := h.assumed
  values sv v hv := hR sv v (h.values sv v hv)

/-! ## Matching the find part -/

theorem sided_eq_nil {s : SequentPattern} (h : s.isEmpty) : s.sided = [] := by
  simp_all [SequentPattern.isEmpty, SequentPattern.sided]

theorem assumed_ofMatch {rule : Rule} {σ : Instantiations} {focus : Option Occurrence}
    {found : List Occurrence} (h : (ofMatch rule σ focus).assumed = some found) :
    found = [] ∧ rule.assumes.sided = [] := by
  unfold ofMatch at h
  split at h <;> rename_i hempty
  · cases h
    exact ⟨rfl, sided_eq_nil hempty⟩
  · cases h

theorem assumedIn_ofMatch (rule : Rule) (σ : Instantiations) (focus : Option Occurrence)
    (seq : Sequent) :
    (ofMatch rule σ focus).AssumedIn seq := by
  intro found hfound o ho
  obtain ⟨rfl, -⟩ := assumed_ofMatch hfound
  cases ho

theorem mem_matchesIn {side : Side} {f : SeqFormula} :
    app ∈ base.matchesIn side f ↔ ∃ pos sub rule σ, (pos, sub) ∈ f.term.positions ∧
      rule ∈ base.candidates sub ∧ rule.find.admits side pos.isEmpty ∧
      rule.matchFind sub = some σ ∧ app = ofMatch rule σ (some ⟨side, f, pos⟩) := by
  unfold RuleBase.matchesIn RuleBase.matchesAt
  simp only [List.mem_flatMap, List.mem_filterMap, Prod.exists]
  constructor
  · rintro ⟨pos, sub, hpos, rule, hrule, h⟩
    split at h <;> rename_i hadmits
    · obtain ⟨σ, hσ, rfl⟩ := Option.map_eq_some_iff.mp h
      exact ⟨pos, sub, rule, σ, hpos, hrule, hadmits, hσ, rfl⟩
    · cases h
  · rintro ⟨pos, sub, rule, σ, hpos, hrule, hadmits, hσ, rfl⟩
    exact ⟨pos, sub, hpos, rule, hrule, by rw [if_pos hadmits, hσ]; rfl⟩

/-- An application that matching found has no assumed formulas yet. -/
theorem assumedIn_of_mem_matchesIn {side : Side} {f : SeqFormula} (h : app ∈ base.matchesIn side f)
    (seq : Sequent) : app.AssumedIn seq := by
  obtain ⟨pos, sub, rule, σ, -, -, -, -, rfl⟩ := mem_matchesIn.mp h
  exact assumedIn_ofMatch rule σ _ seq

theorem mem_candidates {t : Term} {rule : Rule} (h : rule ∈ base.candidates t) :
    rule ∈ base.rules := by
  unfold RuleBase.candidates at h
  rcases List.mem_append.mp h with h | h
  · split at h
    · exact (List.mem_filter.mp h).1
    · cases h
  · exact (List.mem_filter.mp h).1

theorem matchFind_eq_some {rule : Rule} {t : Term} {σ : Instantiations} :
    rule.matchFind t = some σ ↔ ∃ p, rule.find.pattern? = some p ∧
      p.matchInto .empty t .empty = some σ ∧ rule.conditionsHold false σ := by
  unfold Rule.matchFind
  constructor
  · intro h
    split at h <;> rename_i hp
    · cases h
    · split at h <;> rename_i hmatch
      · split at h <;> rename_i hconditions
        · cases h
          exact ⟨_, hp, hmatch, hconditions⟩
        · cases h
      · cases h
  · rintro ⟨p, hp, hmatch, hconditions⟩
    simp only [hp, hmatch, hconditions, if_true]

/-- An application found in a formula is matched. -/
theorem matched_of_mem_matchesIn (hS : base.Sources Q R) {side : Side} {f : SeqFormula}
    (hf : Q f.term) (h : app ∈ base.matchesIn side f) : app.Matched base R := by
  obtain ⟨pos, sub, rule, σ, hpos, hrule, hadmits, hfind, rfl⟩ := mem_matchesIn.mp h
  obtain ⟨p, hp, hmatch, -⟩ := matchFind_eq_some.mp hfind
  have hmem := mem_candidates hrule
  have hparts := hS.parts rule hmem p (List.mem_append_left _ (by simp [hp]))
  refine ⟨hmem, ?_, fun hnone => (nomatch hnone), fun found hfound => ?_, ?_⟩
  · rintro o ho
    cases ho
    exact ⟨p, sub, σ, hp, hadmits, hpos, hmatch, Instantiations.le_refl _⟩
  · obtain ⟨rfl, hnil⟩ := assumed_ofMatch hfound
    rw [show (ofMatch rule σ _).rule = rule from rfl, hnil]
    exact .nil
  · have hsub := hS.hereditary.of_mem_subterms hf (Term.mem_subterms_of_mem_positions hpos)
    exact (Term.matchInto_steps hS.hereditary hS.fits hparts hsub .refl hmatch).all
      Instantiations.all_empty

/-- An application of a rule without a focus is matched. -/
theorem matched_withoutFocus {rule : Rule} (h : rule ∈ base.withoutFocus) :
    (ofMatch rule .empty none).Matched base R := by
  obtain ⟨hmem, hnone⟩ := List.mem_filter.mp h
  refine ⟨hmem, fun o ho => (nomatch ho), fun _ => Option.isNone_iff_eq_none.mp hnone,
    fun found hfound => ?_, Instantiations.all_empty⟩
  obtain ⟨rfl, hnil⟩ := assumed_ofMatch hfound
  rw [show (ofMatch rule .empty none).rule = rule from rfl, hnil]
  exact .nil

/-! ## Completing an application -/

/-- Formulas found for patterns are in the sequent and match. -/
theorem matchFormulas_spec (hS : base.Sources Q R) (hseq : seq.All fun _ f => Q f.term)
    {focus : Option Occurrence} {es : List (Side × Term)} {σ τ : Instantiations}
    {found : List Occurrence} (hes : ∀ e ∈ es, e.2.AllowsParts R)
    (h : Rule.matchFormulas .empty seq focus es σ = some (τ, found)) :
    Instantiations.Steps R σ τ ∧ List.Forall₂ (MatchesAssumed τ) es found ∧
      ∀ o ∈ found, o.formula ∈ seq.side o.side := by
  induction es generalizing σ found with
  | nil =>
    obtain ⟨rfl, rfl⟩ : σ = τ ∧ [] = found := by simpa [Rule.matchFormulas] using h
    exact ⟨.refl, .nil, fun o ho => (nomatch ho)⟩
  | cons e es ih =>
    obtain ⟨he, hes⟩ := List.forall_mem_cons.mp hes
    obtain ⟨f, hf, h⟩ := List.exists_of_findSome?_eq_some h
    split at h
    · cases h
    · split at h <;> rename_i hmatch
      · obtain ⟨⟨υ, rest⟩, hrest, heq⟩ := Option.map_eq_some_iff.mp h
        obtain ⟨rfl, rfl⟩ : υ = τ ∧ _ :: rest = found := by simpa using heq
        obtain ⟨hsteps, hall, hmem⟩ := ih hes hrest
        have hfirst := Term.matchInto_steps hS.hereditary hS.fits he (hseq e.1 f hf) .refl hmatch
        refine ⟨hfirst.trans hsteps, .cons ⟨rfl, _, _, hmatch, hsteps.le⟩ hall, ?_⟩
        exact List.forall_mem_cons.mpr ⟨hf, hmem⟩
      · cases h

/-- The assumes part is matched by formulas for its patterns under which no side condition is
violated. -/
theorem matchAssumes_iff_matchFormulas {r : Rule} {ρ : Renaming} {focus : Option Occurrence}
    {σ τ : Instantiations} {found : List Occurrence} :
    r.matchAssumes ρ seq focus σ = some (τ, found) ↔
      Rule.matchFormulas ρ seq focus r.assumes.sided σ = some (τ, found) ∧
      r.conditionsHold false τ := by
  unfold Rule.matchAssumes
  split <;> rename_i hmatch
  · rw [hmatch, Option.ite_none_right_eq_some]
    constructor
    · rintro ⟨hconditions, heq⟩
      cases heq
      exact ⟨rfl, hconditions⟩
    · rintro ⟨heq, hconditions⟩
      cases heq
      exact ⟨hconditions, rfl⟩
  · rw [hmatch]
    simp

/-- Completing the assumes part does nothing if it is matched already, and matches it otherwise. -/
theorem findAssumed_cases {done : RuleApp} (h : app.findAssumed seq = some done) :
    done = app ∨ ∃ τ found, app.assumed = none ∧
      app.rule.matchAssumes .empty seq app.focus app.insts = some (τ, found) ∧
      done = { app with insts := τ, assumed := some found } := by
  unfold RuleApp.findAssumed at h
  split at h <;> rename_i hassumed
  · cases h
    exact .inl rfl
  · obtain ⟨⟨τ, found⟩, hassumes, rfl⟩ := Option.map_eq_some_iff.mp h
    exact .inr ⟨τ, found, Option.not_isSome_iff_eq_none.mp hassumed, hassumes, rfl⟩

/-- Completing the assumes part keeps an application matched, and the formulas are in the
sequent. -/
theorem Matched.findAssumed (hS : base.Sources Q R) (hseq : seq.All fun _ f => Q f.term)
    {done : RuleApp} (h : app.Matched base R) (happ : app.AssumedIn seq)
    (hdone : app.findAssumed seq = some done) :
    done.Matched base R ∧ done.AssumedIn seq ∧ done.rule = app.rule ∧ done.focus = app.focus := by
  rcases findAssumed_cases hdone with rfl | ⟨τ, found, -, hassumes, rfl⟩
  · exact ⟨h, happ, rfl, rfl⟩
  · obtain ⟨hmatch, -⟩ := matchAssumes_iff_matchFormulas.mp hassumes
    have hes : ∀ e ∈ app.rule.assumes.sided, e.2.AllowsParts R := fun e he =>
      hS.parts _ h.rule_mem e.2 (RuleDraft.mem_patterns_of_mem_sided he)
    obtain ⟨hsteps, hall, hmem⟩ := matchFormulas_spec hS hseq hes hmatch
    have hmore := h.withInsts hsteps.le (hsteps.all h.values)
    refine ⟨⟨hmore.rule_mem, hmore.focus, hmore.unfocused, ?_, hmore.values⟩, ?_, rfl, rfl⟩
    · rintro _ ⟨⟩
      exact hall
    · rintro _ ⟨⟩
      exact hmem

/-- A term that may be supplied fits the kind of the variable. -/
theorem fitsKind_of_accepts {sv : SchemaVar} {t : Term} (h : accepts sv t) :
    Term.fitsKind sv t := by
  have hkind := (Bool.and_eq_true_iff.mp h).1
  unfold Term.fitsKind
  split at hkind
  · simp_all
  · simp_all
  · cases hkind

/-- Supplying a term binds the variable and changes nothing else. -/
theorem add_of_supply {sv : SchemaVar} {t : Term} {done : RuleApp}
    (h : app.supply sv t = some done) :
    accepts sv t ∧ ∃ σ, app.insts.add sv (.term t) = some σ ∧ done = { app with insts := σ } := by
  unfold RuleApp.supply at h
  split at h <;> rename_i haccepts
  · split at h <;> rename_i hadd
    · split at h
      · cases h
        exact ⟨haccepts, _, hadd, rfl⟩
      · cases h
    · cases h
  · cases h

/-- Supplying a term that has the property keeps an application matched. -/
theorem Matched.supply {sv : SchemaVar} {t : Term} {done : RuleApp} (h : app.Matched base R)
    (ht : Term.fitsKind sv t → R sv (.term t)) (hdone : app.supply sv t = some done) :
    done.Matched base R ∧ done.assumed = app.assumed ∧ done.rule = app.rule ∧
      done.focus = app.focus := by
  obtain ⟨haccepts, σ, hadd, rfl⟩ := add_of_supply hdone
  have hstep : Instantiations.Steps R app.insts σ :=
    .add .refl (ht (fitsKind_of_accepts haccepts)) hadd
  exact ⟨h.withInsts hstep.le (hstep.all h.values), rfl, rfl, rfl⟩

theorem mem_groundTerms {t : Term} (h : t ∈ seq.groundTerms) :
    ∃ side, ∃ f ∈ seq.side side, t ∈ f.term.subterms := by
  unfold Sequent.groundTerms at h
  rw [List.mem_eraseDups] at h
  obtain ⟨⟨side, f⟩, hf, ht⟩ := List.mem_flatMap.mp (List.mem_filter.mp h).1
  exact ⟨side, f, Sequent.mem_formulas.mp hf, ht⟩

/-- Supplying terms one after another: an invariant of one step is an invariant of all of them. -/
theorem mem_supplyAll {P : RuleApp → Prop} {candidates : List Term} {svs : List SchemaVar}
    {apps : List RuleApp} {done : RuleApp}
    (hstep : ∀ {a b : RuleApp} {sv : SchemaVar}, ∀ t ∈ candidates, P a →
      a.supply sv t = some b → P b)
    (happs : ∀ a ∈ apps, P a) (h : done ∈ supplyAll candidates svs apps) : P done := by
  induction svs generalizing apps with
  | nil => exact happs done h
  | cons sv svs ih =>
    refine ih (fun b hb => ?_) h
    obtain ⟨t, ht, hb⟩ := List.mem_flatMap.mp hb
    obtain ⟨a, ha, hb⟩ := List.mem_filterMap.mp hb
    exact hstep t (List.mem_filter.mp ht).1 (happs a ha) hb

/-- **Completing an application keeps it matched**, and its assumes part is found in the sequent. -/
theorem Matched.completions (hS : base.Sources Q R) (hseq : seq.All fun _ f => Q f.term)
    {done : RuleApp} (h : app.Matched base R) (happ : app.AssumedIn seq)
    (hdone : done ∈ app.completions seq) :
    done.Matched base R ∧ done.AssumedIn seq ∧ done.rule = app.rule ∧ done.focus = app.focus := by
  unfold RuleApp.completions at hdone
  split at hdone <;> rename_i hfound
  · cases hdone
  · split at hdone
    · have hdone := (List.mem_filter.mp hdone).1
      refine mem_supplyAll (P := fun b => b.Matched base R ∧ b.AssumedIn seq ∧ b.rule = app.rule ∧
        b.focus = app.focus) ?_ ?_ hdone
      · rintro a b sv t ht ⟨hmatched, hassumed, hrule, hfocus⟩ hsupply
        obtain ⟨side, f, hf, hsub⟩ := mem_groundTerms ht
        have hvalue := hS.fits sv t (hS.hereditary.of_mem_subterms (hseq side f hf) hsub)
        obtain ⟨hmatched', hsame, hrule', hfocus'⟩ := hmatched.supply hvalue hsupply
        refine ⟨hmatched', ?_, hrule'.trans hrule, hfocus'.trans hfocus⟩
        intro found hfound
        exact hassumed found (hsame ▸ hfound)
      · intro a ha
        obtain rfl := List.mem_singleton.mp ha
        exact h.findAssumed hS hseq happ hfound
    · cases hdone

end RuleApp

/-! ## Strategies -/

namespace Strategy

/-- What a strategy offers: what it turns applications of automatic rules into, both of finite
cost. -/
theorem mem_offers {s : Strategy} {ctx : FeatureContext} {index : MatchIndex}
    {seq : Sequent} {cost : Cost} {done : RuleApp} :
    (cost, done) ∈ s.offers ctx index seq ↔ ∃ app ∈ index.apps,
      (app.rule.automatic ∧ (s.cost ctx app).isTop = false) ∧ done ∈ s.complete ctx seq app ∧
        cost = s.cost ctx done ∧ (s.cost ctx done).isTop = false := by
  unfold offers
  simp only [List.mem_flatMap, List.mem_filter, List.mem_map, Prod.mk.injEq, Bool.and_eq_true,
    Bool.not_eq_true']
  constructor
  · rintro ⟨app, ⟨happ, hok⟩, ⟨c, hc, rfl, rfl⟩, hfinite⟩
    exact ⟨app, happ, hok, hc, rfl, hfinite⟩
  · rintro ⟨app, happ, hok, hdone, rfl, hfinite⟩
    exact ⟨app, ⟨happ, hok⟩, ⟨done, hdone, rfl, rfl⟩, hfinite⟩

/-- **A regular strategy** completes applications by trying the ground terms of the sequent, and
gives a finite cost to applications of automatic rules only. -/
structure Regular (s : Strategy) : Prop where
  /-- applications are completed by trying the ground terms -/
  complete : ∀ ctx seq app, s.complete ctx seq app = app.completions seq
  /-- rules that are not meant for automatic search are not used -/
  automatic : ∀ ctx app, (s.cost ctx app).isTop = false → app.rule.automatic

end Strategy

theorem DefaultStrategy.regular (s : DefaultStrategy) : (s : Strategy).Regular where
  complete _ _ _ := rfl
  automatic ctx app h := by
    by_contra hauto
    simp [toStrategy, Feature.automaticOnly, hauto, Cost.isTop] at h

end SequentSearch
