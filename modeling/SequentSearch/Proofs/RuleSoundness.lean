import SequentSearch.Calculus.FirstOrder
import SequentSearch.Proofs.AcceptedRules
import SequentSearch.Proofs.FreshNames
import SequentSearch.Proofs.Substitution
import SequentSearch.Proofs.TruthTable

/-!
# Soundness of the rules

A sequent is refuted by an interpretation in which everything on the left holds and nothing on the
right does. A rule is **sound** if, read from the focus to the goals, it keeps refutations: whoever
refutes the focus and the assumed formulas refutes the new formulas of some goal, possibly after
giving a new meaning to a fresh constant. It is **invertible** if, read backwards, whoever refutes
the new formulas of a goal refutes the focus that they replaced. `RuleDraft.Sound` says both, for
all instances of a rule at once.

* The rules for connectives and the closing rules are read off their truth tables
  (`RuleDraft.sound_of_table`).
* A quantifier that asks for a witness takes a fresh constant, whose meaning is the witness
  (`RuleDraft.sound_of_witness`); one that speaks about all objects takes any term
  (`RuleDraft.sound_of_instance`).
* The two rewriting rules keep the value of the term they rewrite (`RuleDraft.Rewrites`).

`Calculus.sound_or_rewrites` puts every automatic rule of the calculus into one of these classes.
-/

namespace SequentSearch

universe u

/-! ## Refutation -/

/-- What it takes to refute a statement on a side: it holds on the left, or fails on the right. -/
def Side.Refutes : Side → Prop → Prop
  | .antec, p => p
  | .succ, p => ¬p

namespace Interpretation

variable {D : Type u} [Nonempty D] {M : Interpretation D} {β : Env D}

/-- A formula on a side is refuted. -/
def Refutes (M : Interpretation D) (β : Env D) (side : Side) (t : Term) : Prop :=
  side.Refutes (t.eval M β).Holds

/-- A countermodel of a sequent refutes all its formulas. -/
def Counters (M : Interpretation D) (β : Env D) (s : Sequent) : Prop :=
  s.All fun side f => M.Refutes β side f.term

theorem refutes_of_eval_eq {M' : Interpretation D} {β' : Env D} {side : Side} {t t' : Term}
    (h : t.eval M β = t'.eval M' β') : M.Refutes β side t ↔ M'.Refutes β' side t' := by
  unfold Refutes
  rw [h]

/-- Redundant formulas do not matter to refutation. -/
theorem respectsRedundancy_refutes (M : Interpretation D) (β : Env D) :
    RespectsRedundancy fun side f => M.Refutes β side f.term where
  trivial := by
    rintro side ⟨⟨op, args, labels⟩, hf⟩ h
    unfold SeqFormula.isTrivialOn at h
    simp only [Term.op_node] at h
    split at h
    · exact True.intro
    · exact id
    · cases h
  alpha := by
    intro side f g h
    exact refutes_of_eval_eq (Term.eval_eq_of_alphaEq h β)

end Interpretation

/-! ## Sound rules -/

/-- The pattern of a focus that has to be a whole formula, with its side. -/
def FindPart.sided? : FindPart → Option (Side × Term)
  | .antec p => some (.antec, p)
  | .succ p => some (.succ, p)
  | _ => none

/-- Whether a term takes the place of the focus. -/
def Replacement.isTerm : Replacement → Bool
  | .term _ => true
  | _ => false

/-- The formulas that a goal template brings, with their sides. -/
def GoalTemplate.formulas (g : GoalTemplate) : List (Side × Term) :=
  (match g.replace with
    | .sequent s => s.sided
    | _ => []) ++ g.add.sided

/-- **Values at the time a rule is applied.** Each is a term of first-order logic that fits its
variable and whose names are in use, or a constant that was drawn and whose name was not in use. -/
def Instantiations.Drawn (ns : NameSupply) (σ : Instantiations) : Prop :=
  ∀ sv v, σ.get? sv = some v → ∃ u, v = .term u ∧ u.FirstOrder ∧
    ((Term.fitsKind sv u ∧ ns.Covers u) ∨
      (sv.isSkolem ∧ ∃ name, u = .const name sv.sort ∧ name ∉ ns.used))

/-- An instance of a pattern is refuted on its side. -/
def RefutesInstance {D : Type u} [Nonempty D] (M : Interpretation D) (β : Env D) (rule : String)
    (σ : Instantiations) (e : Side × Term) : Prop :=
  ∃ r, e.2.instantiate rule σ = .ok r ∧ M.Refutes β e.1 r

/-- Two interpretations agree on all terms whose names are in use. -/
def Interpretation.Agrees {D : Type u} [Nonempty D] (ns : NameSupply)
    (M M' : Interpretation D) : Prop :=
  ∀ t, ns.Covers t → ∀ β, t.eval M' β = t.eval M β

/-- **A rule that keeps refutations**, from the focus to one of its goals and back. -/
structure RuleDraft.Sound (d : RuleDraft) : Prop where
  /-- its focus is a whole formula -/
  find : d.find.sided?.isSome
  /-- the formulas it brings are formulas of first-order logic -/
  firstOrder : ∀ {rule σ ns}, Instantiations.Drawn ns σ → ∀ g ∈ d.templates, ∀ e ∈ g.formulas,
    ∀ r, e.2.instantiate rule σ = .ok r → r.FirstOrder
  /-- no focus is replaced by a term -/
  replaces : ∀ g ∈ d.templates, g.replace.isTerm = false
  /-- who refutes the focus and what is assumed refutes the new formulas of a goal -/
  sound : ∀ {D : Type u} [Nonempty D] {M : Interpretation D} {β : Env D} {rule σ ns},
    β.IsObjects → Instantiations.Drawn ns σ → ∀ e, d.find.sided? = some e →
    RefutesInstance M β rule σ e → (∀ a ∈ d.assumes.sided, RefutesInstance M β rule σ a) →
    (∀ g ∈ d.templates, ∀ e ∈ g.formulas, ∃ r, e.2.instantiate rule σ = .ok r) →
    ∃ M' : Interpretation D, M.Agrees ns M' ∧
      ∃ g ∈ d.templates, ∀ e ∈ g.formulas, RefutesInstance M' β rule σ e
  /-- who refutes the new formulas of a goal refutes the focus that they replace -/
  invertible : ∀ {D : Type u} [Nonempty D] {M : Interpretation D} {β : Env D} {rule σ ns},
    β.IsObjects → Instantiations.Drawn ns σ → ∀ g ∈ d.templates, g.replace ≠ .keep →
    (∀ e ∈ g.formulas, RefutesInstance M β rule σ e) → ∀ e, d.find.sided? = some e →
    ∀ r, e.2.instantiate rule σ = .ok r → M.Refutes β e.1 r

namespace Instantiations.Drawn

variable {ns : NameSupply} {σ : Instantiations}

theorem firstOrder (h : σ.Drawn ns) : σ.All fun _ v => ∀ u, v = .term u → u.FirstOrder := by
  intro sv v hv u hu
  obtain ⟨w, rfl, hfo, -⟩ := h sv v hv
  cases hu
  exact hfo

/-- A variable that is not for a fresh constant has a value that fits it. -/
theorem fits (h : σ.Drawn ns) {sv : SchemaVar} {u : Term} (hsv : sv.isSkolem = false)
    (hu : σ.get? sv = some (.term u)) : u.FirstOrder ∧ Term.fitsKind sv u ∧ ns.Covers u := by
  obtain ⟨w, hw, hfo, ⟨hfits, hcovers⟩ | ⟨hskolem, -⟩⟩ := h sv _ hu
  · cases hw
    exact ⟨hfo, hfits, hcovers⟩
  · rw [hsv] at hskolem
    cases hskolem

theorem termValued (h : σ.Drawn ns) : σ.TermValued := by
  intro sv v hv
  obtain ⟨u, rfl, -, hu⟩ := h sv v hv
  refine ⟨u, rfl, fun hkind => ?_⟩
  rcases hu with ⟨hfits, -⟩ | ⟨hskolem, -⟩
  · simpa [Term.fitsKind, hkind] using hfits
  · simp [SchemaVar.isSkolem, hkind] at hskolem

end Instantiations.Drawn

/-! ## Rules with a truth table -/

/-- Whether a formula on a side is refuted by truth values for its leaves. -/
def refutesRow (v : Operator → Bool) (e : Side × Term) : Bool :=
  match e.1 with
  | .antec => e.2.truth v
  | .succ => !e.2.truth v

/-- Whether a rule keeps refutations in a row of its truth table, in both directions. -/
def RuleDraft.soundRow (d : RuleDraft) (e : Side × Term) (v : Operator → Bool) : Bool :=
  (!(refutesRow v e && d.assumes.sided.all (refutesRow v)) ||
    d.templates.any fun g => g.formulas.all (refutesRow v)) &&
  d.templates.all fun g => !g.formulas.all (refutesRow v) || refutesRow v e

theorem RuleDraft.soundRow_iff {d : RuleDraft} {e : Side × Term} {v : Operator → Bool} :
    d.soundRow e v ↔
      (refutesRow v e → (∀ a ∈ d.assumes.sided, refutesRow v a) →
        ∃ g ∈ d.templates, ∀ e' ∈ g.formulas, refutesRow v e') ∧
      ∀ g ∈ d.templates, (∀ e' ∈ g.formulas, refutesRow v e') → refutesRow v e := by
  simp only [RuleDraft.soundRow, Bool.and_eq_true, Bool.or_eq_true, Bool.not_eq_true',
    List.any_eq_true, List.all_eq_true, ← Bool.not_eq_true]
  grind

/-- All patterns and templates of formulas of a rule, with their sides. -/
def RuleDraft.sided (d : RuleDraft) : List (Side × Term) :=
  d.find.sided?.toList ++ d.assumes.sided ++ d.templates.flatMap GoalTemplate.formulas

/-- A rule sees the rows of its truth table through its own formulas. -/
theorem RuleDraft.soundRow_congr {d : RuleDraft} {e : Side × Term} {v w : Operator → Bool}
    (he : d.find.sided? = some e) (h : ∀ e' ∈ d.sided, refutesRow v e' = refutesRow w e')
    (hrow : d.soundRow e w) : d.soundRow e v := by
  have hfind : refutesRow v e = refutesRow w e := h e (by simp [RuleDraft.sided, he])
  have hgoal : ∀ g ∈ d.templates, ∀ e' ∈ g.formulas, refutesRow v e' = refutesRow w e' := by
    intro g hg e' he'
    exact h e' (List.mem_append_right _ (List.mem_flatMap.mpr ⟨g, hg, he'⟩))
  obtain ⟨hsound, hback⟩ := soundRow_iff.mp hrow
  refine soundRow_iff.mpr ⟨fun hv hassumed => ?_, fun g hg hall => ?_⟩
  · obtain ⟨g, hg, hall⟩ := hsound (hfind ▸ hv) fun a ha => by
      rw [← h a (by simp [RuleDraft.sided, ha])]
      exact hassumed a ha
    exact ⟨g, hg, fun e' he' => (hgoal g hg e' he').trans (hall e' he')⟩
  · rw [hfind]
    exact hback g hg fun e' he' => (hgoal g hg e' he').symm.trans (hall e' he')

/-- A rule that can be read off its truth table. -/
structure RuleDraft.IsTable (d : RuleDraft) : Prop where
  /-- its focus is a whole formula -/
  focus : d.find.sided?.isSome
  /-- no focus is replaced by a term -/
  replaces : ∀ g ∈ d.templates, g.replace.isTerm = false
  /-- all its patterns and templates have truth tables -/
  propositional : ∀ e ∈ d.sided, e.2.Propositional Term.isFormulaVar
  /-- all rows are sound -/
  rows : ∀ e, d.find.sided? = some e → ∀ v, d.soundRow e v

namespace RuleDraft.IsTable

variable {d : RuleDraft} {e : Side × Term} {g : GoalTemplate}

theorem find (h : d.IsTable) (he : d.find.sided? = some e) : e.2.Propositional Term.isFormulaVar :=
  h.propositional e (by simp [RuleDraft.sided, he])

theorem assumes (h : d.IsTable) (he : e ∈ d.assumes.sided) : e.2.Propositional Term.isFormulaVar :=
  h.propositional e (by simp [RuleDraft.sided, he])

theorem templates (h : d.IsTable) (hg : g ∈ d.templates) (he : e ∈ g.formulas) :
    e.2.Propositional Term.isFormulaVar :=
  h.propositional e (List.mem_append_right _ (List.mem_flatMap.mpr ⟨g, hg, he⟩))

end RuleDraft.IsTable

theorem refutes_iff_refutesRow {D : Type u} [Nonempty D] {M : Interpretation D} {β : Env D}
    {rule : String} {σ : Instantiations} {e : Side × Term} {r : Term}
    (he : e.2.Propositional Term.isFormulaVar) (hσ : σ.TermValued)
    (hr : e.2.instantiate rule σ = .ok r) : M.Refutes β e.1 r ↔ refutesRow (σ.truth M β) e := by
  have hholds := he.holds_instance (M := M) (β := β) hσ hr
  obtain ⟨side, t⟩ := e
  cases side with
  | antec => exact hholds
  | succ =>
    show ¬_ ↔ (!_) = true
    rw [hholds]
    simp

/-- **A rule with a sound truth table is sound.** -/
theorem RuleDraft.sound_of_table {d : RuleDraft} (h : d.IsTable) : RuleDraft.Sound.{u} d where
  find := h.focus
  firstOrder := by
    intro rule σ ns hσ g hg e he r hr
    exact ((h.templates hg he).firstOrder_instance hσ.termValued hσ.firstOrder hr).1
  replaces := h.replaces
  sound := by
    intro D _ M β rule σ ns _ hσ e he hfind hassumes hinst
    -- nothing new is named, so the interpretation stays
    refine ⟨M, fun _ _ _ => rfl, ?_⟩
    have hrow : refutesRow (σ.truth M β) e := by
      obtain ⟨r, hr, hrefutes⟩ := hfind
      exact (refutes_iff_refutesRow (h.find he) hσ.termValued hr).mp hrefutes
    have hassumed : ∀ a ∈ d.assumes.sided, refutesRow (σ.truth M β) a := by
      intro a ha
      obtain ⟨r, hr, hrefutes⟩ := hassumes a ha
      exact (refutes_iff_refutesRow (h.assumes ha) hσ.termValued hr).mp hrefutes
    obtain ⟨g, hg, hall⟩ := (soundRow_iff.mp (h.rows e he _)).1 hrow hassumed
    refine ⟨g, hg, fun e' he' => ?_⟩
    obtain ⟨r, hr⟩ := hinst g hg e' he'
    exact ⟨r, hr, (refutes_iff_refutesRow (h.templates hg he') hσ.termValued hr).mpr (hall e' he')⟩
  invertible := by
    intro D _ M β rule σ ns _ hσ g hg _ hall e he r hr
    refine (refutes_iff_refutesRow (h.find he) hσ.termValued hr).mpr ?_
    refine (soundRow_iff.mp (h.rows e he _)).2 g hg fun e' he' => ?_
    obtain ⟨r', hr', hrefutes⟩ := hall e' he'
    exact (refutes_iff_refutesRow (h.templates hg he') hσ.termValued hr').mp hrefutes

/-! ## Rules for quantifiers -/

/-- Whether a quantifier on a side asks for a witness. On the other side it speaks about all
objects. -/
def Quantifier.asksWitness : Quantifier → Side → Bool
  | .all, .succ => true
  | .ex, .antec => true
  | _, _ => false

namespace Interpretation

variable {D : Type u} [Nonempty D] {M : Interpretation D} {β : Env D} {q : Quantifier} {side : Side}
  {y : LogicVar} {body : Term} {ls : List Label}

theorem refutes_witness (hq : q.asksWitness side) :
    M.Refutes β side (.node (.quantifier q) [([.logic y], body)] ls) ↔
      ∃ d, M.Refutes (β.set (.logic y) (.object d)) side body := by
  cases q <;> cases side <;> simp only [Quantifier.asksWitness, Bool.false_eq_true] at hq
  · exact (not_congr Term.holds_all_node).trans not_forall
  · unfold Refutes Side.Refutes
    exact Term.holds_ex_node

theorem refutes_instance (hq : q.asksWitness side = false) :
    M.Refutes β side (.node (.quantifier q) [([.logic y], body)] ls) ↔
      ∀ d, M.Refutes (β.set (.logic y) (.object d)) side body := by
  cases q <;> cases side <;> simp only [Quantifier.asksWitness, Bool.true_eq_false] at hq
  · unfold Refutes Side.Refutes
    exact Term.holds_all_node
  · exact (not_congr Term.holds_ex_node).trans not_exists

end Interpretation

namespace Term

variable {rule : String} {σ : Instantiations} {ns : NameSupply} {r : Term} {x s phi : SchemaVar}

/-- An instance of a schema variable without labels is the term it is bound to. -/
theorem instantiate_schema_of_drawn {sv : SchemaVar} (hσ : σ.Drawn ns)
    (h : (schema sv).instantiate rule σ = .ok r) : σ.get? sv = some (.term r) := by
  have ht := instantiate_unlabelled_eq_ok.mp h
  cases hv : σ.get? sv with
  | none =>
    rw [instantiateVar, hv] at ht
    cases ht
  | some v =>
    obtain ⟨u, rfl, -⟩ := hσ sv v hv
    obtain rfl : u = r := Except.ok.inj ((instantiateVar_of_term hv).symm.trans ht)
    rfl

theorem instantiateBinders_schema {bs : List Binder}
    (h : instantiateBinders σ [.schema x] = .ok bs) :
    ∃ y, σ.logicVar? x = some y ∧ bs = [.logic y] := by
  rw [instantiateBinders] at h
  split at h <;> rename_i hx
  · exact ⟨_, hx, (Except.ok.inj h).symm⟩
  · cases h

/-- The variable that a schema variable stands for is one for objects. -/
theorem sort_of_logicVar? {y : LogicVar} (hσ : σ.Drawn ns) (h : σ.logicVar? x = some y) :
    y.sort.isFormula = false := by
  obtain ⟨t, ht, hy⟩ := Option.bind_eq_some_iff.mp h
  obtain ⟨v, hv, hvt⟩ := Option.bind_eq_some_iff.mp ht
  obtain ⟨⟨op, args, labels⟩, rfl, hfo, -⟩ := hσ x v hv
  cases hvt
  have hop : op = .var y := by
    cases op <;> simp_all [logicVar?]
  subst hop
  have hadmits := (firstOrder_node.mp hfo).1
  simp only [Operator.admits, Bool.and_eq_true, Bool.not_eq_true'] at hadmits
  exact hadmits.1

theorem instantiate_quantify {q : Quantifier} (hσ : σ.Drawn ns)
    (h : (quantify q [.schema x] (schema phi)).instantiate rule σ = .ok r) :
    ∃ y u, σ.logicVar? x = some y ∧ σ.get? phi = some (.term u) ∧
      r = node (.quantifier q) [([.logic y], u)] [] := by
  obtain ⟨ls, op', args', hls, hop, hargs, rfl⟩ :=
    (instantiate_node_eq_ok fun _ => Operator.noConfusion).mp h
  obtain rfl : [] = ls := Except.ok.inj hls
  obtain rfl : .quantifier q = op' := Except.ok.inj hop
  obtain ⟨u, bs, rest, hu, hbs, hrest, rfl⟩ := instantiateArgs_cons_eq_ok.mp hargs
  obtain rfl : [] = rest := Except.ok.inj hrest
  obtain ⟨y, hy, rfl⟩ := instantiateBinders_schema hbs
  exact ⟨y, u, hy, instantiate_schema_of_drawn hσ hu, rfl⟩

theorem instantiate_substOp (hσ : σ.Drawn ns)
    (h : (substOp (.schema x) (schema s) (schema phi)).instantiate rule σ = .ok r) :
    ∃ y w u, σ.logicVar? x = some y ∧ σ.get? s = some (.term w) ∧ σ.get? phi = some (.term u) ∧
      r = node .subst [([], w), ([.logic y], u)] [] := by
  obtain ⟨ls, op', args', hls, hop, hargs, rfl⟩ :=
    (instantiate_node_eq_ok fun _ => Operator.noConfusion).mp h
  obtain rfl : [] = ls := Except.ok.inj hls
  obtain rfl : .subst = op' := Except.ok.inj hop
  obtain ⟨w, cs, rest, hw, hcs, hrest, rfl⟩ := instantiateArgs_cons_eq_ok.mp hargs
  obtain rfl : [] = cs := Except.ok.inj hcs
  obtain ⟨u, bs, rest, hu, hbs, hnil, rfl⟩ := instantiateArgs_cons_eq_ok.mp hrest
  obtain rfl : [] = rest := Except.ok.inj hnil
  obtain ⟨y, hy, rfl⟩ := instantiateBinders_schema hbs
  exact ⟨y, w, u, hy, instantiate_schema_of_drawn hσ hw, instantiate_schema_of_drawn hσ hu, rfl⟩

theorem firstOrder_subst_node {w u : Term} {y : LogicVar} {ls : List Label} (hw : w.FirstOrder)
    (hterm : w.isFormula = false) (hu : u.FirstOrder) (hy : y.sort.isFormula = false) :
    (node .subst [([], w), ([.logic y], u)] ls).FirstOrder := by
  refine firstOrder_node.mpr ⟨?_, ?_⟩
  · simp [Operator.admits, argShape, binderSort, Binder.logic?, ArgShape.isPlainTerm,
      ArgShape.bindsObjects, hterm, hy]
  · intro a ha
    rcases List.mem_cons.mp ha with rfl | ha
    · exact hw
    · obtain rfl := List.mem_singleton.mp ha
      exact hu

/-- A constant is what the interpretation says. -/
theorem eval_const {D : Type u} [Nonempty D] (M : Interpretation D) (β : Env D) {name : String}
    {sort : SortName} (hsort : sort.isFormula = false) :
    eval M (const name sort) β = .object (M.func (.constant name sort) []) := by
  show Operator.denote M (.func (.constant name sort)) [] = _
  rw [Operator.denote, if_neg]
  · rfl
  · exact Bool.eq_false_iff.mp hsort

end Term

namespace Interpretation

variable {D : Type u} [Nonempty D] {M : Interpretation D} {β : Env D} {side : Side}

/-- An instance of the body is refuted if the body is, where the variable stands for the value of
what is put in its place. -/
theorem refutes_subst_node {w u : Term} {y : LogicVar} {ls : List Label} {d : D}
    (hw : w.eval M β = .object d) :
    M.Refutes β side (.node .subst [([], w), ([.logic y], u)] ls) ↔
      M.Refutes (β.set (.logic y) (.object d)) side u := by
  refine refutes_of_eval_eq ?_
  rw [Term.eval_subst_node, hw]

/-- A new meaning for a constant whose name is not in use changes nothing. -/
theorem agrees_assign {ns : NameSupply} {name : String} {sort : SortName} (hname : name ∉ ns.used)
    (d : D) : M.Agrees ns (M.assign (.constant name sort) d) := by
  intro t ht γ
  refine Term.eval_assign (fun hmem => ?_) d γ
  exact hname (ht _ hmem)

end Interpretation

namespace RuleDraft

variable {d : RuleDraft} {goal : GoalTemplate} {side : Side} {q : Quantifier} {x s phi : SchemaVar}

/-- The rule looks at a quantified formula, and its only goal brings an instance of the body. -/
structure Instantiates (d : RuleDraft) (goal : GoalTemplate) (side : Side) (q : Quantifier)
    (x s phi : SchemaVar) : Prop where
  /-- the focus is a quantified formula -/
  find : d.find.sided? = some (side, .quantify q [.schema x] (.schema phi))
  /-- the body is a formula -/
  formula : phi.kind = .formula
  /-- there is one goal -/
  templates : d.templates = [goal]
  /-- it brings an instance -/
  formulas : goal.formulas = [(side, .substOp (.schema x) (.schema s) (.schema phi))]
  /-- no focus is replaced by a term -/
  replaces : goal.replace.isTerm = false

/-- What the parts of an instance of such a rule are. -/
theorem Instantiates.parts {ns : NameSupply} {rule : String} {σ : Instantiations} {r : Term}
    (hσ : σ.Drawn ns)
    (hr : (Term.substOp (.schema x) (.schema s) (.schema phi)).instantiate rule σ = .ok r)
    (hphi : phi.kind = .formula) :
    ∃ y w u, σ.logicVar? x = some y ∧ σ.get? s = some (.term w) ∧ σ.get? phi = some (.term u) ∧
      r = .node .subst [([], w), ([.logic y], u)] [] ∧ y.sort.isFormula = false ∧ u.FirstOrder ∧
      ns.Covers u := by
  obtain ⟨y, w, u, hy, hw, hu, rfl⟩ := Term.instantiate_substOp hσ hr
  have hskolem : phi.isSkolem = false := by simp [SchemaVar.isSkolem, hphi]
  obtain ⟨hfo, -, hcovers⟩ := hσ.fits hskolem hu
  exact ⟨y, w, u, hy, hw, hu, rfl, Term.sort_of_logicVar? hσ hy, hfo, hcovers⟩

/-- **A witness may be named by a fresh constant.** The new interpretation gives the constant the
witness as its meaning; read backwards, the meaning of the constant is a witness. -/
theorem sound_of_witness (h : d.Instantiates goal side q x s phi) (hq : q.asksWitness side)
    (hs : s.isSkolem) (hsort : s.sort.isFormula = false) : RuleDraft.Sound.{u} d := by
  have hconst : ∀ {ns : NameSupply} {σ : Instantiations} {w : Term}, σ.Drawn ns →
      σ.get? s = some (.term w) → ∃ name, w = .const name s.sort ∧ name ∉ ns.used ∧
      w.FirstOrder := by
    intro ns σ w hσ hw
    obtain ⟨w', heq, hfo, ⟨hfits, -⟩ | ⟨-, name, hname, hunused⟩⟩ := hσ s _ hw
    · -- matching never binds a variable for a fresh constant
      unfold SchemaVar.isSkolem at hs
      split at hs <;> simp_all [Term.fitsKind]
    · cases heq
      exact ⟨name, hname, hunused, hfo⟩
  refine ⟨by simp [h.find], ?_, h.templates ▸ List.forall_mem_singleton.mpr h.replaces, ?_, ?_⟩
  · intro rule σ ns hσ g hg e he r hr
    obtain rfl := List.mem_singleton.mp (h.templates ▸ hg)
    obtain rfl := List.mem_singleton.mp (h.formulas ▸ he)
    obtain ⟨y, w, u, -, hw, -, rfl, hy, hu, -⟩ := Instantiates.parts hσ hr h.formula
    obtain ⟨name, rfl, -, hfo⟩ := hconst hσ hw
    exact Term.firstOrder_subst_node hfo hsort hu hy
  · intro D _ M β rule σ ns _ hσ e he hfind _ hinst
    have hgoal : goal ∈ d.templates := h.templates ▸ List.mem_singleton.mpr rfl
    obtain ⟨r, hr⟩ := hinst goal hgoal _ (h.formulas ▸ List.mem_singleton.mpr rfl)
    obtain ⟨y, w, u, hy, hw, hu, rfl, -, -, hcovers⟩ := Instantiates.parts hσ hr h.formula
    obtain ⟨name, rfl, hunused, -⟩ := hconst hσ hw
    -- the focus has a witness
    obtain ⟨f, hf, hrefutes⟩ := hfind
    cases h.find.symm.trans he
    obtain ⟨y', u', hy', hu', rfl⟩ := Term.instantiate_quantify hσ hf
    cases hy.symm.trans hy'
    cases hu.symm.trans hu'
    obtain ⟨d, hd⟩ := (Interpretation.refutes_witness hq).mp hrefutes
    have hagrees : M.Agrees ns (M.assign (.constant name s.sort) d) :=
      Interpretation.agrees_assign hunused d
    refine ⟨M.assign (.constant name s.sort) d, hagrees, goal, hgoal, fun e he => ?_⟩
    obtain rfl := List.mem_singleton.mp (h.formulas ▸ he)
    refine ⟨_, hr, (Interpretation.refutes_subst_node (d := d) ?_).mpr ?_⟩
    · rw [Term.eval_const _ _ hsort]
      simp [Interpretation.assign]
    · exact (Interpretation.refutes_of_eval_eq (hagrees u hcovers _)).mpr hd
  · intro D _ M β rule σ ns _ hσ g hg _ hall e he r hr
    obtain rfl := List.mem_singleton.mp (h.templates ▸ hg)
    obtain ⟨f, hf, hrefutes⟩ := hall _ (h.formulas ▸ List.mem_singleton.mpr rfl)
    obtain ⟨y, w, u, hy, hw, hu, rfl, -, -, -⟩ := Instantiates.parts hσ hf h.formula
    obtain ⟨name, rfl, -, -⟩ := hconst hσ hw
    cases h.find.symm.trans he
    obtain ⟨y', u', hy', hu', rfl⟩ := Term.instantiate_quantify hσ hr
    cases hy.symm.trans hy'
    cases hu.symm.trans hu'
    refine (Interpretation.refutes_witness hq).mpr ⟨M.func (.constant name s.sort) [], ?_⟩
    exact (Interpretation.refutes_subst_node (Term.eval_const M β hsort)).mp hrefutes

/-- **A statement about all objects may be instantiated by any term.** The focus stays, so there is
nothing to show for the way back. -/
theorem sound_of_instance (h : d.Instantiates goal side q x s phi) (hq : q.asksWitness side = false)
    (sort : SortName) (hs : s.kind = .term sort) (hkeep : goal.replace = .keep) :
    RuleDraft.Sound.{u} d := by
  have hterm : ∀ {ns : NameSupply} {σ : Instantiations} {w : Term}, σ.Drawn ns →
      σ.get? s = some (.term w) → w.FirstOrder ∧ w.isFormula = false := by
    intro ns σ w hσ hw
    have hskolem : s.isSkolem = false := by simp [SchemaVar.isSkolem, hs]
    obtain ⟨hfo, hfits, -⟩ := hσ.fits hskolem hw
    simp only [Term.fitsKind, hs, Bool.and_eq_true, Bool.not_eq_true'] at hfits
    exact ⟨hfo, hfits.1⟩
  refine ⟨by simp [h.find], ?_, h.templates ▸ List.forall_mem_singleton.mpr h.replaces, ?_, ?_⟩
  · intro rule σ ns hσ g hg e he r hr
    obtain rfl := List.mem_singleton.mp (h.templates ▸ hg)
    obtain rfl := List.mem_singleton.mp (h.formulas ▸ he)
    obtain ⟨y, w, u, -, hw, -, rfl, hy, hu, -⟩ := Instantiates.parts hσ hr h.formula
    obtain ⟨hfo, hformula⟩ := hterm hσ hw
    exact Term.firstOrder_subst_node hfo hformula hu hy
  · intro D _ M β rule σ ns hβ hσ e he hfind _ hinst
    have hgoal : goal ∈ d.templates := h.templates ▸ List.mem_singleton.mpr rfl
    obtain ⟨r, hr⟩ := hinst goal hgoal _ (h.formulas ▸ List.mem_singleton.mpr rfl)
    obtain ⟨y, w, u, hy, hw, hu, rfl, -, -, -⟩ := Instantiates.parts hσ hr h.formula
    obtain ⟨f, hf, hrefutes⟩ := hfind
    cases h.find.symm.trans he
    obtain ⟨y', u', hy', hu', rfl⟩ := Term.instantiate_quantify hσ hf
    cases hy.symm.trans hy'
    cases hu.symm.trans hu'
    -- the term denotes an object, and the focus speaks about all of them
    obtain ⟨hfo, hformula⟩ := hterm hσ hw
    obtain ⟨d, hd⟩ := hfo.eval_eq_object (M := M) hformula hβ
    refine ⟨M, fun _ _ _ => rfl, goal, hgoal, fun e he => ?_⟩
    obtain rfl := List.mem_singleton.mp (h.formulas ▸ he)
    refine ⟨_, hr, (Interpretation.refutes_subst_node hd).mpr ?_⟩
    exact (Interpretation.refutes_instance hq).mp hrefutes d
  · intro D _ M β rule σ ns _ _ g hg hreplace
    obtain rfl := List.mem_singleton.mp (h.templates ▸ hg)
    exact absurd hkeep hreplace

end RuleDraft

/-! ## Rewriting rules -/

/-- Instances of two templates have the same value, whatever their variables stand for. They are
formulas, which the operator of the first one shows. -/
def Term.Equates (p t : Term) : Prop :=
  ∀ {rule σ ns r r'}, Instantiations.Drawn ns σ → p.instantiate rule σ = .ok r →
    t.instantiate rule σ = .ok r' → (∀ as, r.op.yieldsFormula as) ∧ r'.FirstOrder ∧ r'.isFormula ∧
      ∀ {D : Type u} [Nonempty D] (M : Interpretation D) (β : Env D), r'.eval M β = r.eval M β

/-- **A rule that replaces a subterm by one of the same value.** -/
def RuleDraft.Rewrites (d : RuleDraft) : Prop :=
  ∃ p t, d.find = .subterm p ∧ d.templates = [{ replace := .term t }] ∧ Term.Equates.{u} p t

/-- Formulas with the same truth table have the same value. -/
theorem Term.equates_of_truth {c : Connective} {ts : List Term} {t : Term}
    (hp : (plain (.connective c) ts).Propositional isFormulaVar) (ht : t.Propositional isFormulaVar)
    (h : ∀ v, (plain (.connective c) ts).truth v = t.truth v) :
    Term.Equates.{u} (plain (.connective c) ts) t := by
  intro rule σ ns r r' hσ hr hr'
  obtain ⟨hfo, hformula⟩ := hp.firstOrder_instance hσ.termValued hσ.firstOrder hr
  obtain ⟨hfo', hformula'⟩ := ht.firstOrder_instance hσ.termValued hσ.firstOrder hr'
  refine ⟨?_, hfo', hformula', ?_⟩
  · obtain ⟨rs, ls, -, rfl⟩ := instantiate_connective hr
    intro as
    rfl
  · intro D _ M β
    have hholds := hp.holds_instance (M := M) (β := β) hσ.termValued hr
    have hholds' := ht.holds_instance (M := M) (β := β) hσ.termValued hr'
    rw [h, ← hholds'] at hholds
    -- both values are truth values, and truth values that imply each other are equal
    obtain ⟨a, ha⟩ := hfo.eval_eq_truth (M := M) hformula β
    obtain ⟨b, hb⟩ := hfo'.eval_eq_truth (M := M) hformula' β
    rw [ha, hb] at hholds
    rw [ha, hb]
    exact congrArg Value.truth (propext hholds.symm)

/-- An equation of a term with itself is true. -/
theorem Term.equates_refl {s : SchemaVar} :
    Term.Equates.{u} (equals (schema s) (schema s)) top := by
  intro rule σ ns r r' hσ hr hr'
  obtain ⟨ls, op', args', -, hop, hargs, rfl⟩ :=
    (instantiate_node_eq_ok fun _ => Operator.noConfusion).mp hr
  obtain rfl : .equals = op' := Except.ok.inj hop
  obtain ⟨rs, hrs, rfl⟩ := instantiateArgs_plain hargs
  obtain ⟨a, _, ha, hrest, rfl⟩ := List.forall₂_cons_left_iff.mp hrs
  obtain ⟨b, _, hb, ⟨⟩, rfl⟩ := List.forall₂_cons_left_iff.mp hrest
  cases ha.symm.trans hb
  obtain rfl : top = r' := Except.ok.inj hr'
  refine ⟨fun as => rfl, by decide, rfl, ?_⟩
  intro D _ M β
  show Value.truth True = Value.truth (_ = _)
  rw [eq_self_iff_true]

/-! ## The calculus -/

namespace Calculus

/-- The drafts of the first-order rules. -/
def firstOrderDrafts : List RuleDraft := propositionalDrafts ++ quantifierDrafts

theorem mem_firstOrderDrafts {rule : Rule} (h : rule ∈ firstOrder) :
    rule.toRuleDraft ∈ firstOrderDrafts := by
  rcases List.mem_append.mp h with h | h
  · exact List.mem_append_left _ (RuleDraft.mem_acceptAll h)
  · exact List.mem_append_right _ (RuleDraft.mem_acceptAll h)

/-- A row of the truth tables of the rules for connectives. -/
def row (a b phi : Bool) (op : Operator) : Bool :=
  if op = .schema (formulaVar "#a") then a
  else if op = .schema (formulaVar "#b") then b
  else op = .schema (formulaVar "#phi") && phi

/-- The schema variables of the rules for connectives. -/
def isRowVar (op : Operator) : Bool :=
  op = .schema (formulaVar "#a") || op = .schema (formulaVar "#b") || op =
    .schema (formulaVar "#phi")

/-- Truth values for all operators are a row as far as the rules for connectives are concerned. -/
theorem eq_row {op : Operator} (h : isRowVar op) (v : Operator → Bool) :
    v op = row (v (.schema (formulaVar "#a"))) (v (.schema (formulaVar "#b")))
      (v (.schema (formulaVar "#phi"))) op := by
  unfold isRowVar at h
  unfold row
  split
  · rename_i hop
    rw [hop]
  · split
    · rename_i hop
      rw [hop]
    · simp_all

/-- **The truth tables of the calculus.** The rules whose focus is a whole formula of propositional
logic consist of connectives over three schema variables, and are sound in all eight rows. -/
theorem propositionalDrafts_rows : ∀ d ∈ propositionalDrafts, ∀ e ∈ d.find.sided?.toList,
    (∀ g ∈ d.templates, g.replace.isTerm = false) ∧ (∀ e' ∈ d.sided, e'.2.Propositional isRowVar) ∧
      ∀ a b phi : Bool, d.soundRow e (row a b phi) := by
  decide +kernel

theorem isFormulaVar_of_isRowVar {op : Operator} (h : isRowVar op) : Term.isFormulaVar op := by
  simp only [isRowVar, Bool.or_eq_true, decide_eq_true_eq] at h
  rcases h with (rfl | rfl) | rfl <;> rfl

theorem isTable_of_mem {d : RuleDraft} (hd : d ∈ propositionalDrafts) {e : Side × Term}
    (he : d.find.sided? = some e) : d.IsTable := by
  obtain ⟨hreplaces, hshape, hrows⟩ := propositionalDrafts_rows d hd e (by simp [he])
  refine ⟨by simp [he], hreplaces,
    fun e' he' => (hshape e' he').mono fun _ => isFormulaVar_of_isRowVar, ?_⟩
  intro e' he' v
  cases he.symm.trans he'
  -- the rule sees three truth values of `v`, and these are one of the eight rows
  have hsame : ∀ e' ∈ d.sided, refutesRow v e' = refutesRow (row (v (.schema (formulaVar "#a")))
      (v (.schema (formulaVar "#b"))) (v (.schema (formulaVar "#phi")))) e' := by
    intro e' he'
    have htruth := (hshape e' he').truth_congr fun op hop => eq_row hop v
    unfold refutesRow
    rw [htruth]
  exact RuleDraft.soundRow_congr he hsame (hrows _ _ _)

/-- **Every automatic rule of the calculus keeps refutations or rewrites a subterm by one of the
same value.** -/
theorem sound_or_rewrites {d : RuleDraft} (hd : d ∈ firstOrderDrafts) (hauto : d.automatic) :
    RuleDraft.Sound.{u} d ∨ RuleDraft.Rewrites.{u} d := by
  rcases List.mem_append.mp hd with hd | hd
  · cases hfind : d.find.sided? with
    | some e => exact .inl (RuleDraft.sound_of_table (isTable_of_mem hd hfind))
    | none =>
      simp only [propositionalDrafts, List.mem_cons, List.not_mem_nil, or_false] at hd
      rcases hd with rfl | rfl | rfl | rfl | rfl | rfl | rfl | rfl | rfl | rfl | rfl | rfl | rfl |
        rfl | rfl | rfl
      case inr.inr.inr.inr.inr.inr.inr.inr.inr.inr.inr.inr.inr.inl =>
        -- `and_true`
        refine .inr ⟨_, _, rfl, rfl, ?_⟩
        refine Term.equates_of_truth (by decide) (by decide) fun v => ?_
        exact Bool.and_true _
      case inr.inr.inr.inr.inr.inr.inr.inr.inr.inr.inr.inr.inr.inr.inl =>
        -- `equal_refl`
        exact .inr ⟨_, _, rfl, rfl, Term.equates_refl⟩
      case inr.inr.inr.inr.inr.inr.inr.inr.inr.inr.inr.inr.inr.inr.inr =>
        -- `cut` is not automatic
        cases hauto
      all_goals cases hfind
  · simp only [quantifierDrafts, List.mem_cons, List.not_mem_nil, or_false] at hd
    rcases hd with rfl | rfl | rfl | rfl
    case inl | inr.inl =>
      refine .inl (RuleDraft.sound_of_witness ⟨rfl, rfl, rfl, rfl, rfl⟩ rfl ?_ ?_)
      all_goals rfl
    case inr.inr.inl | inr.inr.inr =>
      refine .inl (RuleDraft.sound_of_instance ⟨rfl, rfl, rfl, rfl, rfl⟩ rfl .any ?_ ?_)
      all_goals rfl

end Calculus

end SequentSearch
