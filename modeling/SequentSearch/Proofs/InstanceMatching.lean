import SequentSearch.Proofs.Congruence
import SequentSearch.Proofs.Instances
import SequentSearch.Proofs.MatchedVars

/-!
# Instances are matched

`Term.reproduces` says that a pattern instantiates to what it matches. This is the converse, for
patterns without lists and contexts: a pattern matches its instances, and the values that come back
are the ones it was instantiated with, up to renaming of bound variables.

The values are those that the variables are meant to have (`SchemaVar.Admits`). Along the match,
what is bound so far agrees with them (`Instantiations.Agrees`), so no variable is refused because
of a value it has already.

There is one exception. In a template, a variable for program elements may stand in the place of a
term, and gives the term of an expression. In a pattern it matches nothing there
(`Term.programsInPlace_of_matchInto`).
-/

namespace SequentSearch

/-! ## Values that say the same -/

namespace Instantiation

variable {u v w : Instantiation}

/-- Values say the same if they are terms that are equal up to renaming, or are equal. -/
theorem equivalent_iff :
    u.equivalent v ↔ (∃ a b, u = .term a ∧ v = .term b ∧ a.alphaEq b) ∨ u = v := by
  cases u with
  | term a =>
    cases v with
    | term b =>
      refine ⟨fun h => .inl ⟨a, b, rfl, rfl, h⟩, ?_⟩
      rintro (⟨a', b', ha, hb, h⟩ | heq)
      · cases ha
        cases hb
        exact h
      · exact heq ▸ equivalent_self _
    | _ => simp [equivalent]
  | _ => simp [equivalent]

theorem equivalent_symm (h : u.equivalent v) : v.equivalent u := by
  rcases equivalent_iff.mp h with ⟨a, b, rfl, rfl, hab⟩ | rfl
  · exact equivalent_iff.mpr (.inl ⟨b, a, rfl, rfl, Term.alphaEq_symm hab⟩)
  · exact h

theorem equivalent_trans (h : u.equivalent v) (h' : v.equivalent w) : u.equivalent w := by
  rcases equivalent_iff.mp h with ⟨a, b, rfl, rfl, hab⟩ | rfl
  · rcases equivalent_iff.mp h' with ⟨b', c, heq, rfl, hbc⟩ | rfl
    · obtain rfl := term.inj heq
      exact equivalent_iff.mpr (.inl ⟨a, c, rfl, rfl, Term.alphaEq_trans hab hbc⟩)
    · exact h
  · exact h'

end Instantiation

namespace Instantiations

variable {σ τ : Instantiations} {sv : SchemaVar} {v w : Instantiation}

/-- The values in `τ` say what those in `σ` say. -/
def Agrees (σ τ : Instantiations) : Prop :=
  ∀ sv v, τ.get? sv = some v → ∃ w, σ.get? sv = some w ∧ v.equivalent w

theorem agrees_empty (σ : Instantiations) : Agrees σ empty := fun _ _ h => (nomatch h)

/-- **A value that says what `σ` says can be added**, whether or not the variable has a value. -/
theorem Agrees.exists_add (h : Agrees σ τ) (hw : σ.get? sv = some w) (hv : v.equivalent w) :
    ∃ υ, τ.add sv v = some υ ∧ Agrees σ υ := by
  unfold add
  cases hold : τ.get? sv with
  | some old =>
    obtain ⟨w', hw', hold'⟩ := h sv old hold
    obtain rfl := Option.some.inj (hw.symm.trans hw')
    have hsame := Instantiation.equivalent_trans hold' (Instantiation.equivalent_symm hv)
    exact ⟨τ, if_pos hsame, h⟩
  | none =>
    refine ⟨_, rfl, fun sv' v' hv' => ?_⟩
    rw [get?_cons] at hv'
    split at hv' <;> rename_i heq
    · cases hv'
      exact ⟨w, heq ▸ hw, hv⟩
    · exact h sv' v' hv'

end Instantiations

open Instantiations (Agrees)

/-! ## Admissible values -/

/-- **The values a schema variable is meant to have**: formulas, terms of a sort below its own that
are no formulas, logic variables of a sort below its own, or elements of its program class; rigid
ones if it asks for them. There is none for variables that stand for fresh constants, labels or runs
of elements. -/
def SchemaVar.Admits (sv : SchemaVar) (v : Instantiation) : Prop :=
  sv.list = false ∧
    match sv.kind, v with
    | .formula, .term t => t.isFormula ∧ (sv.rigid → t.isRigid)
    | .term s, .term t => t.isFormula = false ∧ t.sort.isSubsortOf s ∧ (sv.rigid → t.isRigid)
    | .logicVar s, .term t => (∃ x, t.logicVar? = some x ∧ x.sort.isSubsortOf s) ∧
        (sv.rigid → t.isRigid)
    | .program cls, .program p => cls.admits p
    | _, _ => False

/-- The given variables have admissible values. -/
def Instantiations.Admissible (σ : Instantiations) (svs : List SchemaVar) : Prop :=
  ∀ sv ∈ svs, ∃ v, σ.get? sv = some v ∧ sv.Admits v

theorem Instantiations.Admissible.mono {σ : Instantiations} {svs svs' : List SchemaVar}
    (h : σ.Admissible svs) (hsub : svs' ⊆ svs) : σ.Admissible svs' := fun sv hsv => h sv (hsub hsv)

namespace SchemaVar

variable {sv : SchemaVar} {v : Instantiation} {t : Term} {p : Program}

/-- Terms that are admissible fit. -/
theorem Admits.fits (h : sv.Admits (.term t)) : Term.fitsKind sv t ∧ (sv.rigid → t.isRigid) := by
  obtain ⟨-, h⟩ := h
  unfold Term.fitsKind
  cases hkind : sv.kind <;> simp only [hkind] at h ⊢ <;> try contradiction
  · simpa [and_assoc] using h
  · exact h
  · obtain ⟨⟨x, hx, hsort⟩, hrigid⟩ := h
    exact ⟨by simp [hx, hsort], hrigid⟩

/-- Program elements that are admissible are so because of their class. -/
theorem Admits.exists_class (h : sv.Admits (.program p)) :
    ∃ cls, sv.kind = .program cls ∧ cls.admits p := by
  obtain ⟨-, h⟩ := h
  cases hkind : sv.kind <;> simp only [hkind] at h
  exact ⟨_, rfl, h⟩

end SchemaVar

/-! ## Programs -/

namespace Program

variable {rule : String} {σ τ : Instantiations}

/-- The pattern matches its instance, under values that say the same. -/
def MatchesInstance (rule : String) (σ : Instantiations) (p : Program) : Prop :=
  ∀ c τ, p.instantiate rule σ = .ok c → Agrees σ τ → ∃ υ, p.matchInto c τ = some υ ∧ Agrees σ υ

/-- A list variable has no admissible value. -/
theorem listVar?_eq_none {p : Program} (hσ : σ.Admissible p.schemaVars) : p.listVar? = none := by
  obtain ⟨kind, children⟩ := p
  refine Option.eq_none_iff_forall_ne_some.mpr fun sv hsv => ?_
  obtain ⟨hkind, hlist⟩ := listVar?_eq_some.mp hsv
  obtain ⟨v, -, hsingle, -⟩ := hσ sv (mem_schemaVars_node.mpr (.inl hkind))
  rw [hsingle] at hlist
  cases hlist

theorem matchRun_instance {ps cs : List Program}
    (hps : ∀ p ∈ ps, p.listVar? = none ∧ p.MatchesInstance rule σ)
    (h : instantiateRun rule σ ps = .ok cs) (hτ : Agrees σ τ) :
    ∃ υ, matchRun ps cs τ = some (υ, cs.length) ∧ Agrees σ υ := by
  induction ps generalizing cs τ with
  | nil =>
    cases h
    exact ⟨τ, rfl, hτ⟩
  | cons p ps ih =>
    obtain ⟨⟨hlist, hp⟩, hps⟩ := List.forall_mem_cons.mp hps
    obtain ⟨c, rest, hc, hrest, rfl⟩ := (instantiateRun_cons_eq_ok hlist).mp h
    obtain ⟨υ, hmatch, hυ⟩ := hp c τ hc hτ
    obtain ⟨φ, hrun, hφ⟩ := ih hps hrest hυ
    refine ⟨φ, ?_, hφ⟩
    rw [matchRun.eq_def]
    simp only [hlist, hmatch, hrun, Option.map_some, List.length_cons]

/-- **A program pattern matches its instances.** -/
theorem matchesInstance {p : Program} (hctx : p.ContextFree) (hσ : σ.Admissible p.schemaVars) :
    p.MatchesInstance rule σ := by
  induction p using induct with
  | node kind children ih =>
    intro c τ h hτ
    obtain ⟨hkind, hbelow⟩ := contextFree_node.mp hctx
    by_cases hsv : ∃ sv, kind = .schema sv
    · obtain ⟨sv, rfl⟩ := hsv
      obtain ⟨v, hv, hadmits⟩ := hσ sv (mem_schemaVars_node.mpr (.inl rfl))
      obtain rfl : v = .program c := by
        rw [instantiate, hv] at h
        split at h <;> simp_all [SchemaVar.Admits]
      obtain ⟨cls, hcls, hclass⟩ := hadmits.exists_class
      obtain ⟨υ, hadd, hυ⟩ := hτ.exists_add hv (Instantiation.equivalent_self _)
      refine ⟨υ, ?_, hυ⟩
      rw [matchInto, matchVar]
      simpa [hcls, hclass, hadmits.1] using hadd
    · have hsv := not_exists.mp hsv
      have hactive : ∀ active, children ≠ [node .context active] := by
        rintro active rfl
        exact (contextFree_node.mp (hbelow _ (List.mem_singleton_self _))).1 rfl
      obtain ⟨cs, hcs, rfl⟩ := (instantiate_node_eq_ok hsv hactive).mp h
      have hchildren : ∀ d ∈ children, d.listVar? = none ∧ d.MatchesInstance rule σ := by
        intro d hd
        have hσ : σ.Admissible d.schemaVars :=
          hσ.mono fun sv hmem => mem_schemaVars_node.mpr (.inr ⟨d, hd, hmem⟩)
        exact ⟨listVar?_eq_none hσ, ih d hd (hbelow d hd) hσ⟩
      obtain ⟨υ, hrun, hυ⟩ := matchRun_instance hchildren hcs hτ
      refine ⟨υ, ?_, hυ⟩
      rw [matchInto]
      · simp [hrun]
      · exact fun active _ => hactive active
      · exact hsv
      · exact hkind

end Program

/-! ## Terms -/

/-- Whether a binder is a schema variable for logic variables. -/
def Binder.standsForVar (b : Binder) : Bool :=
  match b.schema?.map SchemaVar.kind with
  | some (.logicVar _) => true
  | _ => false

/-- Whether an operator is a schema variable for program elements. -/
def Operator.standsForProgram : Operator → Bool
  | .schema sv =>
    match sv.kind with
    | .program _ => true
    | _ => false
  | _ => false

theorem Binder.standsForVar_iff {b : Binder} :
    b.standsForVar ↔ ∃ sv s, b = .schema sv ∧ sv.kind = .logicVar s := by
  cases b with
  | logic x => simp [standsForVar, schema?]
  | schema sv => cases hkind : sv.kind <;> simp [standsForVar, schema?, hkind]

namespace Term

variable {rule : String} {σ τ : Instantiations}

/-- **A pattern without contexts** that can be written down: it binds schema variables for logic
variables only, and its labels are names. -/
def Elementary (p : Term) : Prop :=
  ∀ u ∈ p.subterms, u.args.length = u.op.arity ∧
    (∀ q, u.op.program? = some q → q.SchemaLeaves ∧ q.ContextFree) ∧
    (∀ b ∈ u.boundHere, b.standsForVar) ∧ ∀ l ∈ u.labels, l.schema? = none

instance (p : Term) : Decidable p.Elementary :=
  inferInstanceAs (Decidable (∀ u ∈ p.subterms, u.args.length = u.op.arity ∧
    (∀ q, u.op.program? = some q → q.SchemaLeaves ∧ q.ContextFree) ∧
    (∀ b ∈ u.boundHere, b.standsForVar) ∧ ∀ l ∈ u.labels, l.schema? = none))

/-- No variable for program elements stands in the place of a term. -/
def ProgramsInPlace (p : Term) : Prop := ∀ u ∈ p.subterms, u.op.standsForProgram = false

instance (p : Term) : Decidable p.ProgramsInPlace :=
  inferInstanceAs (Decidable (∀ u ∈ p.subterms, u.op.standsForProgram = false))

theorem elementary_node {op : Operator} {args : List (List Binder × Term)} {labels : List Label} :
    (node op args labels).Elementary ↔ (args.length = op.arity ∧
      (∀ q, op.program? = some q → q.SchemaLeaves ∧ q.ContextFree) ∧
        ∀ l ∈ labels, l.schema? = none) ∧
      ∀ a ∈ args, (∀ b ∈ a.1, b.standsForVar) ∧ a.2.Elementary := by
  refine forall_subterms_node.trans ⟨?_, ?_⟩
  · rintro ⟨⟨harity, hprogram, hbound, hlabels⟩, hargs⟩
    exact ⟨⟨harity, hprogram, hlabels⟩, fun a ha => ⟨fun b hb =>
      hbound b (List.mem_flatMap.mpr ⟨a, ha, hb⟩), hargs a ha⟩⟩
  · rintro ⟨⟨harity, hprogram, hlabels⟩, hargs⟩
    refine ⟨⟨harity, hprogram, fun b hb => ?_, hlabels⟩, fun a ha => (hargs a ha).2⟩
    obtain ⟨a, ha, hb⟩ := List.mem_flatMap.mp hb
    exact (hargs a ha).1 b hb

theorem programsInPlace_node {op : Operator} {args : List (List Binder × Term)}
    {labels : List Label} :
    (node op args labels).ProgramsInPlace ↔
      op.standsForProgram = false ∧ ∀ a ∈ args, a.2.ProgramsInPlace :=
  forall_subterms_node

theorem Elementary.wellBuilt {p : Term} (h : p.Elementary) : p.WellBuilt :=
  fun u hu => ⟨(h u hu).1, fun q hq => ((h u hu).2.1 q hq).1⟩

/-! ### Labels and binders -/

@[simp] theorem logicVar?_addLabels (t : Term) (ls : List Label) :
    (t.addLabels ls).logicVar? = t.logicVar? := rfl

@[simp] theorem isRigid_addLabels (t : Term) (ls : List Label) :
    (t.addLabels ls).isRigid = t.isRigid := by
  obtain ⟨op, args, labels⟩ := t
  rfl

@[simp] theorem sort_addLabels (t : Term) (ls : List Label) : (t.addLabels ls).sort = t.sort := by
  obtain ⟨op, args, labels⟩ := t
  rcases args with _ | ⟨_, _ | _⟩ <;> cases op <;> rfl

theorem fitsKind_addLabels (sv : SchemaVar) (t : Term) (ls : List Label) :
    fitsKind sv (t.addLabels ls) = fitsKind sv t := by
  simp [fitsKind, isFormula]

/-- A term that is a logic variable equals the variable up to renaming. -/
theorem alphaEq_var_of_logicVar? {t : Term} {y : LogicVar} (h : t.logicVar? = some y) :
    (var y).alphaEq t := by
  obtain ⟨op, args, labels⟩ := t
  cases op <;> simp [logicVar?] at h
  rw [h]
  show alphaEqUnder [] [] _ _
  rw [var, plain, alphaEqUnder_var]
  exact sameReference_self [] y

/-- Binders match those they are instantiated to, and open no scope. -/
theorem matchBinders_instance {bs cs : List Binder} {ρ : Renaming} (hbs : ∀ b ∈ bs, b.standsForVar)
    (hσ : σ.Admissible (bs.filterMap Binder.schema?)) (h : instantiateBinders σ bs = .ok cs)
    (hτ : Agrees σ τ) : ∃ υ, matchBinders bs cs ρ τ = some (ρ, υ) ∧ Agrees σ υ := by
  induction bs generalizing cs τ with
  | nil =>
    cases h
    exact ⟨τ, rfl, hτ⟩
  | cons b bs ih =>
    obtain ⟨hb, hrest⟩ := List.forall_mem_cons.mp hbs
    obtain ⟨sv, s, rfl, hkind⟩ := Binder.standsForVar_iff.mp hb
    obtain ⟨v, hv, -, hadmits⟩ := hσ sv List.mem_cons_self
    have hσ := hσ.mono (List.subset_cons_self _ _)
    cases v with
    | term t =>
      simp only [hkind] at hadmits
      obtain ⟨⟨y, hy, hsort⟩, -⟩ := hadmits
      have hvar : σ.logicVar? sv = some y := by
        simp [Instantiations.logicVar?, Instantiations.term?, hv, Instantiation.term?, hy]
      rw [instantiateBinders, hvar] at h
      obtain ⟨cs, hcs, h⟩ := bind_eq_ok.mp h
      cases h
      obtain ⟨υ, hadd, hυ⟩ := hτ.exists_add (v := .term (var y)) hv (alphaEq_var_of_logicVar? hy)
      obtain ⟨φ, hmatch, hφ⟩ := ih hrest hσ hcs hυ
      refine ⟨φ, ?_, hφ⟩
      rw [matchBinders]
      simp [hkind, hsort, hadd, hmatch]
    | _ => simp [hkind] at hadmits

/-! ### A pattern matches its instances -/

/-- The pattern matches its instance below no binder, under values that say the same. -/
def MatchesInstance (rule : String) (σ : Instantiations) (p : Term) : Prop :=
  ∀ c τ, p.instantiate rule σ = .ok c → Agrees σ τ →
    ∃ υ, p.matchInto .empty c τ = some υ ∧ Agrees σ υ

theorem matchesInstance_schema {sv : SchemaVar} {labels : List Label}
    (hlabels : ∀ l ∈ labels, l.schema? = none)
    (hplace : (Operator.schema sv).standsForProgram = false) (hσ : σ.Admissible [sv]) :
    (node (.schema sv) [] labels).MatchesInstance rule σ := by
  intro c τ h hτ
  obtain ⟨ls, t, -, ht, rfl⟩ := instantiate_schema_eq_ok.mp h
  obtain ⟨v, hv, hadmits⟩ := hσ sv List.mem_cons_self
  obtain rfl : v = .term t := by
    rcases instantiateVar_eq_ok ht with hval | ⟨p, hval, -⟩
    · exact Option.some.inj (hv.symm.trans hval)
    · obtain rfl := Option.some.inj (hv.symm.trans hval)
      obtain ⟨cls, hcls, -⟩ := hadmits.exists_class
      simp [Operator.standsForProgram, hcls] at hplace
  obtain ⟨hfits, hrigid⟩ := hadmits.fits
  have hsame : (Instantiation.term (t.addLabels ls)).equivalent (.term t) := by
    simpa [Instantiation.equivalent, alphaEq] using t.alphaEq_self
  obtain ⟨υ, hadd, hυ⟩ := hτ.exists_add hv hsame
  refine ⟨υ, ?_, hυ⟩
  have hfree : (t.addLabels ls).freeVars.any Renaming.empty.bindsCandidate = false := by
    simp [Renaming.bindsCandidate, Renaming.empty]
  have hmatch : matchVar .empty sv (t.addLabels ls) τ = some υ := by
    rw [matchVar, hfree, fitsKind_addLabels, isRigid_addLabels, if_pos, hadd]
    cases hr : sv.rigid <;> simp_all
  rw [matchInto, hmatch]
  exact matchLabels_concrete hlabels _ υ

theorem matchArgs_instance {args cs : List (List Binder × Term)}
    (hargs : ∀ a ∈ args, (∀ b ∈ a.1, b.standsForVar) ∧ σ.Admissible (a.1.filterMap Binder.schema?) ∧
      a.2.MatchesInstance rule σ)
    (h : instantiateArgs rule σ args = .ok cs) (hτ : Agrees σ τ) :
    ∃ υ, matchArgs .empty args cs τ = some υ ∧ Agrees σ υ := by
  induction args generalizing cs τ with
  | nil =>
    cases h
    exact ⟨τ, rfl, hτ⟩
  | cons a args ih =>
    obtain ⟨bs, p⟩ := a
    obtain ⟨⟨hbs, hadmits, hp⟩, hargs⟩ := List.forall_mem_cons.mp hargs
    obtain ⟨c, ds, rest, hc, hds, hrest, rfl⟩ := instantiateArgs_cons_eq_ok.mp h
    obtain ⟨υ, hbinders, hυ⟩ := matchBinders_instance hbs hadmits hds hτ
    obtain ⟨φ, hterm, hφ⟩ := hp c υ hc hυ
    obtain ⟨ψ, hmatch, hψ⟩ := ih hargs hrest hφ
    exact ⟨ψ, matchArgs_cons_eq_some.mpr ⟨_, υ, hbinders, φ, hterm, hmatch⟩, hψ⟩

/-- The operator of an instance is matched. -/
theorem matchOperator_instance {o o' : Operator} (hctx : ∀ q, o.program? = some q → q.ContextFree)
    (hσ : σ.Admissible o.schemaVars) (h : instantiateOperator rule σ o = .ok o') (hτ : Agrees σ τ) :
    ∃ υ, matchOperator o o' τ = some υ ∧ Agrees σ υ := by
  by_cases hmodal : ∃ m p, o = .modal m p
  · obtain ⟨m, p, rfl⟩ := hmodal
    obtain ⟨q, hq, h⟩ := bind_eq_ok.mp h
    cases h
    obtain ⟨υ, hmatch, hυ⟩ := Program.matchesInstance (hctx p rfl) hσ q τ hq hτ
    exact ⟨υ, matchOperator_modal_eq_some.mpr ⟨q, rfl, hmatch⟩, hυ⟩
  · have hmodal := fun m p hmp => hmodal ⟨m, p, hmp⟩
    rw [instantiateOperator] at h
    · cases h
      refine ⟨τ, ?_, hτ⟩
      rw [matchOperator]
      · exact if_pos rfl
      · exact fun m p _ _ hmp _ => hmodal m p hmp
    · exact hmodal

/-- **A pattern matches its instances.** The induction is on the pattern; its binders open no scope,
so all of it is matched below no binder. -/
theorem matchesInstance {p : Term} (hp : p.Elementary) (hplace : p.ProgramsInPlace)
    (hσ : σ.Admissible p.schemaVars) : p.MatchesInstance rule σ := by
  induction p with
  | node op args labels ih =>
    obtain ⟨⟨harity, hprogram, hlabels⟩, hargs⟩ := elementary_node.mp hp
    obtain ⟨hhere, hplaces⟩ := programsInPlace_node.mp hplace
    by_cases hsv : ∃ sv, op = .schema sv
    · obtain ⟨sv, rfl⟩ := hsv
      obtain rfl : args = [] := List.length_eq_zero_iff.mp harity
      refine matchesInstance_schema hlabels hhere (hσ.mono ?_)
      simpa using mem_schemaVars_node.mpr (by simp [Operator.schemaVars])
    have hsv := not_exists.mp hsv
    intro c τ h hτ
    obtain ⟨ls, op', cs, -, hop, hcs, rfl⟩ := (instantiate_node_eq_ok hsv).mp h
    by_cases hvar : ∃ x, op = .var x
    · obtain ⟨x, rfl⟩ := hvar
      cases hop
      refine ⟨τ, ?_, hτ⟩
      rw [matchInto]
      simp [Renaming.corresponds, Renaming.empty, matchLabels_concrete hlabels]
    have hopσ : σ.Admissible op.schemaVars := hσ.mono fun sv hsv =>
      mem_schemaVars_node.mpr (List.mem_append_left _ (List.mem_append_left _ hsv))
    have hargσ : ∀ a ∈ args, σ.Admissible (a.1.filterMap Binder.schema? ++ a.2.schemaVars) :=
      fun a ha => hσ.mono fun sv hsv => mem_schemaVars_node.mpr
        (List.mem_append_left _ (List.mem_append_right _ (List.mem_flatMap.mpr ⟨a, ha, hsv⟩)))
    obtain ⟨υ, hmatch, hυ⟩ := matchOperator_instance (fun q hq => (hprogram q hq).2) hopσ hop hτ
    obtain ⟨φ, hmatches, hφ⟩ := matchArgs_instance (fun a ha => ⟨(hargs a ha).1,
      (hargσ a ha).mono (List.subset_append_left ..),
      ih a ha (hargs a ha).2 (hplaces a ha)
        ((hargσ a ha).mono (List.subset_append_right ..))⟩) hcs hυ
    refine ⟨φ, (matchInto_node_eq_some hsv (not_exists.mp hvar)).mpr ?_, hφ⟩
    exact ⟨υ, hmatch, φ, hmatches, matchLabels_concrete hlabels _ φ⟩

/-! ### Programs in the place of terms -/

/-- Of arguments that match, each one does. -/
theorem exists_matchInto_of_mem {args cs : List (List Binder × Term)} {ρ : Renaming}
    {a : List Binder × Term} (h : matchArgs ρ args cs σ = some τ) (ha : a ∈ args) :
    ∃ ρ' c σ' τ', a.2.matchInto ρ' c σ' = some τ' := by
  induction args generalizing cs σ with
  | nil => cases ha
  | cons b args ih =>
    obtain ⟨c, rest, ρ', υ, φ, -, -, hterm, hrest⟩ := matchArgs_cons_cases h
    rcases List.mem_cons.mp ha with rfl | ha
    · exact ⟨ρ', c.2, υ, φ, hterm⟩
    · exact ih hrest ha

/-- **A pattern with a variable for program elements in the place of a term matches nothing.** -/
theorem programsInPlace_of_matchInto {p c : Term} {ρ : Renaming} (hp : p.WellFormed)
    (h : p.matchInto ρ c σ = some τ) : p.ProgramsInPlace := by
  induction p generalizing ρ c σ τ with
  | node op args labels ih =>
    obtain ⟨harity, hargs⟩ := wellFormed_node.mp hp
    refine programsInPlace_node.mpr ?_
    rcases matchInto_cases h with ⟨sv, υ, rfl, hfits, -, -⟩ | ⟨x, y, rfl, -, -⟩ |
      ⟨hsv, -, υ, φ, -, hmatch, -⟩
    · obtain rfl : args = [] := List.length_eq_zero_iff.mp harity
      refine ⟨?_, fun a ha => nomatch ha⟩
      cases hkind : sv.kind <;> simp_all [fitsKind, Operator.standsForProgram]
    · obtain rfl : args = [] := List.length_eq_zero_iff.mp harity
      exact ⟨rfl, fun a ha => nomatch ha⟩
    · refine ⟨?_, fun a ha => ?_⟩
      · cases op with
        | schema sv => exact absurd rfl (hsv sv)
        | _ => rfl
      · obtain ⟨ρ', c, σ', τ', hmatch⟩ := exists_matchInto_of_mem hmatch ha
        exact ih a ha (hargs a ha) hmatch

/-- **Matching is complete on patterns without lists and contexts.** An instance by admissible
values is matched, and the values that come back say the same, unless a variable for program
elements stands in the place of a term. Then it is not matched. -/
theorem matches_instance {p c : Term} (hp : p.Elementary) (hσ : σ.Admissible p.schemaVars)
    (h : p.instantiate rule σ = .ok c) :
    (p.ProgramsInPlace → ∃ τ, p.matchInto .empty c .empty = some τ ∧
      ∀ sv ∈ p.schemaVars, ∃ v w, τ.get? sv = some v ∧ σ.get? sv = some w ∧ v.equivalent w) ∧
    (¬p.ProgramsInPlace → p.matchInto .empty c .empty = none) := by
  refine ⟨fun hplace => ?_, fun hplace => ?_⟩
  · obtain ⟨τ, hmatch, hτ⟩ := matchesInstance hp hplace hσ c .empty h
        (Instantiations.agrees_empty σ)
    refine ⟨τ, hmatch, fun sv hsv => ?_⟩
    have hhas := (matchInto_assigns hp.wellBuilt hmatch sv).mpr (.inr hsv)
    obtain ⟨v, hv⟩ := Option.isSome_iff_exists.mp hhas
    obtain ⟨w, hw, hvw⟩ := hτ sv v hv
    exact ⟨v, w, hv, hw, hvw⟩
  · refine Option.eq_none_iff_forall_ne_some.mpr fun τ hmatch => ?_
    exact hplace (programsInPlace_of_matchInto (fun u hu => (hp u hu).1) hmatch)

/-- A variable for logic variables. -/
private def boundVar : SchemaVar := { name := "#x", kind := .logicVar .any }

/-- A variable for rigid terms. -/
private def rigidTerm : SchemaVar := { name := "#t", kind := .term .any, rigid := true }

/-- A variable for expressions. -/
private def condition : SchemaVar := { name := "#e", kind := .program .expression }

/-- `\forall #x; (q(#x, #t) & \[{ if (#e) { skip; } else { skip; } }\] q(#t<<l>>, #t))`, where `#t`
occurs three times. -/
private def repeating : Term :=
  let t := schema rigidTerm
  let q (a b : Term) : Term := app (.predicate "q" 2) [a, b]
  let program : Program := .ifElse (.schema condition) (.block [.skip]) (.block [.skip])
  quantify .all [.schema boundVar]
    (conj (q (schema boundVar) t) (modal .box program (q (t.withLabels [.name "l"]) t)))

/-- Values for its variables: `y`, `f(z)` and the program variable `b`. -/
private def repeatingValues : Instantiations where
  bindings := [(boundVar, .term (var ⟨"y", .any⟩)),
    (rigidTerm, .term (app (.function "f" .any 1) [var ⟨"z", .any⟩])),
    (condition, .program (.var { name := "b", sort := .boolean }))]

/-- The label is added to one of the three occurrences of `f(z)`, which agree nevertheless. -/
theorem matches_instance_repeating :
    repeating.Elementary ∧ repeatingValues.Admissible repeating.schemaVars ∧
    repeating.ProgramsInPlace ∧ ∃ c, repeating.instantiate "r" repeatingValues = .ok c ∧
      ∃ τ, repeating.matchInto .empty c .empty = some τ ∧ ∀ sv ∈ repeating.schemaVars,
        ∃ v w, τ.get? sv = some v ∧ repeatingValues.get? sv = some w ∧ v.equivalent w := by
  have helementary : repeating.Elementary := by decide +kernel
  have hplace : repeating.ProgramsInPlace := by decide +kernel
  have hvars : ∀ sv ∈ repeating.schemaVars, sv ∈ [boundVar, rigidTerm, condition] := by
    decide +kernel
  have hadmissible : repeatingValues.Admissible [boundVar, rigidTerm, condition] := by
    refine List.forall_mem_cons.mpr ⟨⟨_, rfl, rfl, ⟨_, rfl, rfl⟩, fun h => nomatch h⟩, ?_⟩
    refine List.forall_mem_cons.mpr ⟨⟨_, rfl, rfl, rfl, rfl, fun _ => rfl⟩, ?_⟩
    exact List.forall_mem_singleton.mpr ⟨_, rfl, rfl, rfl⟩
  have hadmissible := hadmissible.mono hvars
  have hinstance : repeating.instantiate "r" repeatingValues = .ok _ := rfl
  exact ⟨helementary, hadmissible, hplace, _, hinstance,
    (matches_instance helementary hadmissible hinstance).1 hplace⟩

/-- **An instance that is not matched.** A variable for expressions stands for the program variable
`x` and is instantiated to the term `x`, but does not match it. -/
theorem exists_instance_not_matched : ∃ (p c : Term) (σ : Instantiations), p.Elementary ∧
    σ.Admissible p.schemaVars ∧ p.instantiate "r" σ = .ok c ∧
    p.matchInto .empty c .empty = none := by
  let e : SchemaVar := { name := "#e", kind := .program .expression }
  let x : ProgVar := { name := "x", sort := .int }
  refine ⟨schema e, progVar x, ⟨[(e, .program (.var x))], none⟩, by decide, ?_, rfl, rfl⟩
  exact List.forall_mem_singleton.mpr ⟨.program (.var x), rfl, rfl, rfl⟩

end Term

end SequentSearch
