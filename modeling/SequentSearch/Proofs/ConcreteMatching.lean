import SequentSearch.Proofs.Matching

/-!
# Matching concrete terms

A term without schema variables can be matched like any pattern. Then nothing is bound, and all that
matching does is to compare: it is a second equality up to renaming of bound variables, next to
`Term.alphaEq`. The two keep track of binders in different ways. `Term.alphaEqUnder` looks variables
up in two stacks of binders, `Term.matchInto` in one list of pairs.

`Term.matchInto_eq_some_iff` says how far they agree. The pairs are the two stacks side by side
(`Renaming.corresponds_eq`), so every occurrence of a variable is judged alike; but matching also
compares the *sorts* of the binders it enters. On concrete terms, matching is equality up to
renaming of bound variables together with equal `Term.binderSorts`.
-/

namespace SequentSearch

/-! ## Concrete programs -/

namespace Program

mutual

/-- The element and all elements in it, parents before children. -/
def elements : Program → List Program
  | node kind children => node kind children :: elementsList children

/-- The elements of a sequence, from left to right. -/
def elementsList : List Program → List Program
  | [] => []
  | p :: ps => p.elements ++ elementsList ps

end

/-- There is no context element in the program. -/
def ContextFree (p : Program) : Prop := ∀ e ∈ p.elements, e.kind ≠ .context

instance (p : Program) : Decidable p.ContextFree :=
  inferInstanceAs (Decidable (∀ e ∈ p.elements, e.kind ≠ .context))

theorem mem_elementsList {ps : List Program} {e : Program} :
    e ∈ elementsList ps ↔ ∃ p ∈ ps, e ∈ p.elements := by
  induction ps with
  | nil => simp [elementsList]
  | cons p ps ih => simp [elementsList, ih]

theorem contextFree_node {kind : ProgramKind} {children : List Program} :
    (node kind children).ContextFree ↔ kind ≠ .context ∧ ∀ c ∈ children, c.ContextFree := by
  simp only [ContextFree, elements, List.forall_mem_cons, kind_node, mem_elementsList]
  constructor
  · rintro ⟨hkind, h⟩
    exact ⟨hkind, fun c hc e he => h e ⟨c, hc, he⟩⟩
  · rintro ⟨hkind, h⟩
    exact ⟨hkind, fun e ⟨c, hc, he⟩ => h c hc e he⟩

theorem schemaVarsList_eq_nil {ps : List Program} :
    schemaVarsList ps = [] ↔ ∀ p ∈ ps, p.schemaVars = [] := by
  induction ps with
  | nil => simp [schemaVarsList]
  | cons p ps ih => simp [schemaVarsList, ih]

theorem schemaVars_node_eq_nil {kind : ProgramKind} {children : List Program} :
    (node kind children).schemaVars = [] ↔
      (∀ sv, kind ≠ .schema sv) ∧ ∀ c ∈ children, c.schemaVars = [] := by
  rw [← schemaVarsList_eq_nil]
  by_cases hsv : ∃ sv, kind = .schema sv
  · obtain ⟨sv, rfl⟩ := hsv
    simp [schemaVars]
  · have hsv := not_exists.mp hsv
    rw [schemaVars]
    · exact (and_iff_right hsv).symm
    · exact hsv

/-- Patterns that match themselves only match the sequences they are a prefix of. -/
theorem matchRun_of_forall {ps : List Program} (hps : ∀ p ∈ ps, p.listVar? = none ∧
      ∀ c σ, p.matchInto c σ = if p = c then some σ else none)
    (cs : List Program) (σ : Instantiations) :
    matchRun ps cs σ = if ps <+: cs then some (σ, ps.length) else none := by
  induction ps generalizing cs with
  | nil => simp [matchRun]
  | cons p ps ih =>
    obtain ⟨⟨hlist, hp⟩, hps⟩ := List.forall_mem_cons.mp hps
    rw [matchRun.eq_def]
    simp only [hlist]
    cases cs with
    | nil => simp
    | cons c cs =>
      simp only [hp, List.cons_prefix_cons, List.length_cons]
      by_cases heq : p = c
      · simp only [heq, if_true, true_and, ih hps]
        split <;> rfl
      · simp [heq]

/-- **A concrete program matches itself only.** -/
theorem matchInto_eq_ite {p : Program} (hsv : p.schemaVars = [])
    (hctx : p.ContextFree) (c : Program) (σ : Instantiations) :
    p.matchInto c σ = if p = c then some σ else none := by
  induction p using induct generalizing c σ with
  | node kind children ih =>
    obtain ⟨hsv, hsvs⟩ := schemaVars_node_eq_nil.mp hsv
    obtain ⟨hctx, hctxs⟩ := contextFree_node.mp hctx
    have hrun := matchRun_of_forall fun (d : Program) (hd : d ∈ children) => by
      refine ⟨?_, ih d hd (hsvs d hd) (hctxs d hd)⟩
      obtain ⟨kind', children'⟩ := d
      have hnot := (schemaVars_node_eq_nil.mp (hsvs _ hd)).1
      cases kind' with
      | schema sv => exact absurd rfl (hnot sv)
      | _ => rfl
    obtain ⟨kind', children'⟩ := c
    rw [matchInto]
    · simp only [kind_node, children_node, hrun, node.injEq]
      by_cases hkind : kind = kind'
      · by_cases hfront : children <+: children'
        · have hlen : children.length = children'.length ↔ children = children' :=
            ⟨hfront.eq_of_length, congrArg List.length⟩
          simp [hkind, hfront, hlen]
        · have hne : children ≠ children' := fun heq => hfront (heq ▸ List.prefix_rfl)
          simp [hkind, hfront, hne]
      · simp [hkind]
    · -- the only child of a block is no context element
      rintro active rfl rfl
      exact (contextFree_node.mp (hctxs _ (List.mem_singleton_self _))).1 rfl
    · exact hsv
    · exact hctx

end Program

/-! ## Concrete terms -/

/-- The sort of the variable that is bound. -/
def Binder.sort : Binder → SortName
  | .logic x => x.sort
  | .schema sv => sv.sort

/-- The program of a modality. -/
def Operator.program? : Operator → Option Program
  | .modal _ p => some p
  | _ => none

namespace Term

/-- The programs of the modalities in a term, in pre-order. -/
def programs (t : Term) : List Program := t.subterms.filterMap fun u => u.op.program?

/-- **A concrete term**: no schema variables in its operators, programs, binders and labels, and no
context elements in its programs. -/
def Concrete (t : Term) : Prop := t.schemaVars = [] ∧ ∀ p ∈ t.programs, p.ContextFree

instance (t : Term) : Decidable t.Concrete :=
  inferInstanceAs (Decidable (t.schemaVars = [] ∧ ∀ p ∈ t.programs, p.ContextFree))

mutual

/-- The sorts of the variables that are bound in a term, those of an operator before those below
it. -/
def binderSorts : Term → List SortName
  | node (.var _) _ _ => []
  | node _ args _ => binderSortsArgs args

/-- The sorts of the variables that are bound in arguments, from left to right. -/
def binderSortsArgs : List (List Binder × Term) → List SortName
  | [] => []
  | (bound, t) :: rest => bound.map Binder.sort ++ t.binderSorts ++ binderSortsArgs rest

end

/-- A term is concrete if each of its subterms is so at the top. -/
theorem concrete_iff {t : Term} : t.Concrete ↔ ∀ u ∈ t.subterms,
    (u.op.schemaVars = [] ∧ ∀ p, u.op.program? = some p → p.ContextFree) ∧
      (∀ b ∈ u.boundHere, b.schema? = none) ∧ ∀ l ∈ u.labels, l.schema? = none := by
  simp only [Concrete, schemaVars, programs, List.flatMap_eq_nil_iff, List.append_eq_nil_iff,
    List.filterMap_eq_nil_iff, List.mem_filterMap]
  constructor
  · rintro ⟨hsvs, hctx⟩ u hu
    obtain ⟨⟨hop, hbound⟩, hlabels⟩ := hsvs u hu
    exact ⟨⟨hop, fun p hp => hctx p ⟨u, hu, hp⟩⟩, hbound, hlabels⟩
  · intro h
    refine ⟨fun u hu => ?_, fun p ⟨u, hu, hp⟩ => (h u hu).1.2 p hp⟩
    obtain ⟨⟨hop, -⟩, hbound, hlabels⟩ := h u hu
    exact ⟨⟨hop, hbound⟩, hlabels⟩

/-- What being concrete means for the parts of a term. -/
theorem concrete_node {op : Operator} {args : List (List Binder × Term)} {labels : List Label} :
    (node op args labels).Concrete ↔
      (op.schemaVars = [] ∧ ∀ p, op.program? = some p → p.ContextFree) ∧
        (∀ l ∈ labels, l.schema? = none) ∧
        ∀ a ∈ args, (∀ b ∈ a.1, b.schema? = none) ∧ a.2.Concrete := by
  simp only [concrete_iff, forall_subterms_node, op_node, labels_node, boundHere, args_node,
    List.mem_flatMap]
  constructor
  · rintro ⟨⟨hop, hbound, hlabels⟩, hargs⟩
    exact ⟨hop, hlabels, fun a ha => ⟨fun b hb => hbound b ⟨a, ha, hb⟩, hargs a ha⟩⟩
  · rintro ⟨hop, hlabels, hargs⟩
    refine ⟨⟨hop, ?_, hlabels⟩, fun a ha => (hargs a ha).2⟩
    rintro b ⟨a, ha, hb⟩
    exact (hargs a ha).1 b hb

theorem binderSorts_node {op : Operator} {args : List (List Binder × Term)} {labels : List Label}
    (hop : ∀ x, op ≠ .var x) : (node op args labels).binderSorts = binderSortsArgs args := by
  rw [binderSorts]
  exact hop

/-- Two arguments have binders of the same sorts, at their top and below. -/
def SortedAlike (a b : List Binder × Term) : Prop :=
  a.1.map Binder.sort = b.1.map Binder.sort ∧ a.2.binderSorts = b.2.binderSorts

/-- Terms that agree up to renaming bind equally many variables. -/
theorem length_binderSorts {a b : Term} {left right : List Binder}
    (h : alphaEqUnder left right a b) : a.binderSorts.length = b.binderSorts.length := by
  induction a generalizing b left right with
  | node o as ls ih =>
    obtain ⟨p, bs, ms⟩ := b
    rcases alphaEqUnder_cases h with ⟨x, y, rfl, rfl, -⟩ | ⟨ho, rfl, hargs⟩
    · simp [binderSorts]
    · simp only [op_node, args_node] at ho hargs ⊢
      rw [binderSorts_node ho, binderSorts_node ho]
      clear h
      induction hargs with
      | nil => rfl
      | @cons a b as bs hab _ iha =>
        obtain ⟨iha', ih⟩ := List.forall_mem_cons.mp ih
        have hsub := iha' hab.2
        simp [binderSortsArgs, hab.1, hsub, iha ih]

/-- Arguments that agree up to renaming bind variables of the same sorts altogether if they do so
one by one: the sorts of each argument take up the same part of the list. -/
theorem forall₂_alphaArg_and_sortedAlike {as bs : List (List Binder × Term)}
    {left right : List Binder} :
    List.Forall₂ (fun a b => AlphaArg left right a b ∧ SortedAlike a b) as bs ↔
      List.Forall₂ (AlphaArg left right) as bs ∧ binderSortsArgs as = binderSortsArgs bs := by
  induction as generalizing bs with
  | nil => cases bs <;> simp
  | cons a as ih =>
    cases bs with
    | nil => simp
    | cons b bs =>
      simp only [List.forall₂_cons, ih, binderSortsArgs, List.append_assoc]
      constructor
      · rintro ⟨⟨hab, hhere, hbelow⟩, hrest, hsorts⟩
        exact ⟨⟨hab, hrest⟩, by rw [hhere, hbelow, hsorts]⟩
      · rintro ⟨⟨hab, hrest⟩, hsorts⟩
        obtain ⟨hhere, hsorts⟩ := List.append_inj hsorts (by simp [hab.1])
        obtain ⟨hbelow, hsorts⟩ := List.append_inj hsorts (length_binderSorts hab.2)
        exact ⟨⟨hab, hhere, hbelow⟩, hrest, hsorts⟩

end Term

/-! ## Pairs of binders and stacks of binders -/

namespace Renaming

/-- The binders of the pattern, innermost first. -/
def patternStack (ρ : Renaming) : List Binder := ρ.pairs.map fun e => .logic e.1

/-- The binders of the candidate, innermost first. -/
def candidateStack (ρ : Renaming) : List Binder := ρ.pairs.map fun e => .logic e.2

@[simp] theorem patternStack_push (ρ : Renaming) (x y : LogicVar) :
    (ρ.push x y).patternStack = .logic x :: ρ.patternStack := rfl

@[simp] theorem candidateStack_push (ρ : Renaming) (x y : LogicVar) :
    (ρ.push x y).candidateStack = .logic y :: ρ.candidateStack := rfl

/-- **Pairs of binders and stacks of binders say the same** of two occurrences of variables. -/
theorem corresponds_eq (ρ : Renaming) (x y : LogicVar) :
    ρ.corresponds x y = Term.sameReference ρ.patternStack ρ.candidateStack x y := by
  have hlogic : ∀ z w : LogicVar, (Binder.logic z == Binder.logic w) = (z == w) := by
    intro z w
    rw [Bool.eq_iff_iff]
    simp
  have hpattern : ρ.patternStack.idxOf? (.logic x) = ρ.pairs.findIdx? (·.1 == x) := by
    simp only [patternStack, List.idxOf?, List.findIdx?_map, Function.comp_def, hlogic]
  have hcandidate : ρ.candidateStack.idxOf? (.logic y) = ρ.pairs.findIdx? (·.2 == y) := by
    simp only [candidateStack, List.idxOf?, List.findIdx?_map, Function.comp_def, hlogic]
  cases hx : ρ.pairs.findIdx? (·.1 == x) <;> cases hy : ρ.pairs.findIdx? (·.2 == y) <;>
    simp [corresponds, Term.sameReference, hpattern, hcandidate, hx, hy]

end Renaming

namespace Term

variable {ρ : Renaming} {σ τ : Instantiations}

/-- **Matching concrete binders** compares their sorts, and enters them on both sides. -/
theorem matchBinders_concrete {xs ys : List Binder} (hxs : ∀ b ∈ xs, b.schema? = none)
    (hys : ∀ b ∈ ys, b.schema? = none) (ρ : Renaming) (σ : Instantiations) :
    (xs.map Binder.sort = ys.map Binder.sort ∧ ∃ ρ' : Renaming,
      matchBinders xs ys ρ σ = some (ρ', σ) ∧ ρ'.patternStack = xs.reverse ++ ρ.patternStack ∧
        ρ'.candidateStack = ys.reverse ++ ρ.candidateStack) ∨
    (xs.map Binder.sort ≠ ys.map Binder.sort ∧ matchBinders xs ys ρ σ = none) := by
  induction xs generalizing ys ρ with
  | nil =>
    cases ys with
    | nil => exact .inl ⟨rfl, ρ, rfl, rfl, rfl⟩
    | cons y ys => exact .inr ⟨by simp, rfl⟩
  | cons x xs ih =>
    obtain ⟨hx, hxs'⟩ := List.forall_mem_cons.mp hxs
    cases ys with
    | nil => exact .inr ⟨by simp, by cases x <;> rfl⟩
    | cons y ys =>
      obtain ⟨hy, hys'⟩ := List.forall_mem_cons.mp hys
      cases x with
      | schema sv => cases hx
      | logic x =>
        cases y with
        | schema sv => cases hy
        | logic y =>
          rw [matchBinders]
          by_cases hsort : x.sort = y.sort
          · rw [if_pos hsort]
            rcases ih hxs' hys' (ρ.push x y) with ⟨hsorts, ρ', hmatch, hstacks⟩ | ⟨hne, hnone⟩
            · refine .inl ⟨by simp [Binder.sort, hsort, hsorts], ρ', hmatch, ?_, ?_⟩
              · simp [hstacks.1]
              · simp [hstacks.2]
            · exact .inr ⟨by simp [hne], hnone⟩
          · rw [if_neg hsort]
            exact .inr ⟨by simp [Binder.sort, hsort], rfl⟩

/-- Labels without schema variables bind nothing. -/
theorem matchLabels_concrete {ls : List Label} (hls : ∀ l ∈ ls, l.schema? = none) (cs : List Label)
    (σ : Instantiations) : matchLabels ls cs σ = some σ := by
  induction ls with
  | nil => rfl
  | cons l ls ih =>
    obtain ⟨hl, hls'⟩ := List.forall_mem_cons.mp hls
    cases l with
    | name n => exact ih hls'
    | schema sv => cases hl

/-- Operators without schema variables are compared. -/
theorem matchOperator_concrete {o : Operator} (hsv : o.schemaVars = [])
    (hctx : ∀ p, o.program? = some p → p.ContextFree) (o' : Operator) (σ : Instantiations) :
    matchOperator o o' σ = if o = o' then some σ else none := by
  by_cases hmodal : ∃ m p n q, o = .modal m p ∧ o' = .modal n q
  · obtain ⟨m, p, n, q, rfl, rfl⟩ := hmodal
    rw [matchOperator, Program.matchInto_eq_ite hsv (hctx p rfl)]
    by_cases hm : m = n <;> simp [hm]
  · rw [matchOperator]
    exact fun m p n q ho ho' => hmodal ⟨m, p, n, q, ho, ho'⟩

/-- Two terms agree below pairs of binders: they are equal up to renaming, and bind variables of the
same sorts. -/
def AgreesUnder (ρ : Renaming) (p c : Term) : Prop :=
  alphaEqUnder ρ.patternStack ρ.candidateStack p c ∧ p.binderSorts = c.binderSorts

theorem agreesUnder_node {op : Operator} {as bs : List (List Binder × Term)} {ls ms : List Label}
    (hop : ∀ x, op ≠ .var x) : AgreesUnder ρ (node op as ls) (node op bs ms) ↔
      List.Forall₂ (fun a b => AlphaArg ρ.patternStack ρ.candidateStack a b ∧
        SortedAlike a b) as bs := by
  rw [AgreesUnder, alphaEqUnder_node hop, binderSorts_node hop, binderSorts_node hop,
    forall₂_alphaArg_and_sortedAlike, and_iff_right rfl]

/-- Matching concrete arguments compares them one by one. -/
theorem matchArgs_eq_some_iff {ps cs : List (List Binder × Term)}
    (hps : ∀ a ∈ ps, (∀ b ∈ a.1, b.schema? = none) ∧ ∀ {ρ σ τ c}, c.Concrete →
      (a.2.matchInto ρ c σ = some τ ↔ σ = τ ∧ AgreesUnder ρ a.2 c))
    (hcs : ∀ a ∈ cs, (∀ b ∈ a.1, b.schema? = none) ∧ a.2.Concrete) :
    matchArgs ρ ps cs σ = some τ ↔ σ = τ ∧
      List.Forall₂ (fun a b => AlphaArg ρ.patternStack ρ.candidateStack a b ∧
        SortedAlike a b) ps cs := by
  induction ps generalizing cs σ with
  | nil => cases cs <;> simp [matchArgs]
  | cons a ps ih =>
    obtain ⟨⟨ha, hmatch⟩, hps'⟩ := List.forall_mem_cons.mp hps
    cases cs with
    | nil => simp [matchArgs]
    | cons b cs =>
      obtain ⟨⟨hb, hc⟩, hcs'⟩ := List.forall_mem_cons.mp hcs
      rw [List.forall₂_cons, matchArgs_cons_eq_some]
      rcases matchBinders_concrete ha hb ρ σ with ⟨hsorts, ρ', hbinders, hstacks⟩ | ⟨hne, hbinders⟩
      · have hlen : a.1.length = b.1.length := by simpa using congrArg List.length hsorts
        have hhere : AgreesUnder ρ' a.2 b.2 ↔
            AlphaArg ρ.patternStack ρ.candidateStack a b ∧ SortedAlike a b := by
          simp [AgreesUnder, AlphaArg, SortedAlike, hlen, hsorts, hstacks.1, hstacks.2]
        simp only [hbinders, Option.some.injEq, Prod.mk.injEq, ← hhere, hmatch hc, ih hps' hcs']
        constructor
        · rintro ⟨_, _, ⟨rfl, rfl⟩, _, ⟨rfl, hagrees⟩, rfl, hrest⟩
          exact ⟨rfl, hagrees, hrest⟩
        · rintro ⟨rfl, hagrees, hrest⟩
          exact ⟨ρ', σ, ⟨rfl, rfl⟩, σ, ⟨rfl, hagrees⟩, rfl, hrest⟩
      · have hnot : ¬SortedAlike a b := fun h => hne h.1
        simp [hbinders, hnot]

/-- **Matching concrete terms** is equality up to renaming of bound variables together with equal
sorts of the bound variables. The induction is on the pattern, below any pairs of binders. -/
theorem matchInto_eq_some_iff {p c : Term} (hp : p.Concrete) (hc : c.Concrete) :
    p.matchInto ρ c σ = some τ ↔ σ = τ ∧ AgreesUnder ρ p c := by
  induction p generalizing c ρ σ τ with
  | node op args labels ih =>
    obtain ⟨⟨hsv, hctx⟩, hlabels, hargs⟩ := concrete_node.mp hp
    obtain ⟨o, cargs, clabels⟩ := c
    obtain ⟨-, -, hcargs⟩ := concrete_node.mp hc
    by_cases hvar : ∃ x, op = .var x
    · obtain ⟨x, rfl⟩ := hvar
      by_cases ho : ∃ y, o = .var y
      · obtain ⟨y, rfl⟩ := ho
        rw [matchInto, AgreesUnder, alphaEqUnder_var, ← Renaming.corresponds_eq]
        by_cases hxy : ρ.corresponds x y <;> simp [hxy, matchLabels_concrete hlabels, binderSorts]
      · -- a variable of the pattern matches variables only, and equals variables only
        have hne : ¬AgreesUnder ρ (node (.var x) args labels) (node o cargs clabels) := by
          rintro ⟨h, -⟩
          rcases alphaEqUnder_cases h with ⟨_, y, -, hy, -⟩ | ⟨hnot, -⟩
          · exact ho ⟨y, hy⟩
          · exact hnot x rfl
        rw [matchInto]
        simp only [hne, and_false, iff_false, op_node]
        cases o with
        | var y => exact absurd ⟨y, rfl⟩ ho
        | _ => simp
    · have hvar := not_exists.mp hvar
      have hschema : ∀ sv, op ≠ .schema sv := by
        rintro sv rfl
        cases hsv
      rw [matchInto_node_eq_some hschema hvar]
      simp only [op_node, args_node, labels_node, matchOperator_concrete hsv hctx,
        matchLabels_concrete hlabels, matchArgs_eq_some_iff
          (fun a ha => ⟨(hargs a ha).1, ih a ha (hargs a ha).2⟩) hcargs]
      by_cases hop : op = o
      · subst hop
        simp [agreesUnder_node hvar, and_comm]
      · have hne : ¬AgreesUnder ρ (node op args labels) (node o cargs clabels) :=
          fun h => hop ((alphaEqUnder_node hvar).mp h.1).1
        simp [hop, hne]

/-- **How far matching and equality up to renaming agree.** A concrete term matches a concrete term
if and only if the two are equal up to renaming of bound variables and their bound variables have
the same sorts. -/
theorem isSome_matchInto_iff_alphaEq {p c : Term} (hp : p.Concrete) (hc : c.Concrete) :
    (p.matchInto .empty c .empty).isSome ↔ p.alphaEq c ∧ p.binderSorts = c.binderSorts := by
  rw [Option.isSome_iff_exists]
  simp only [matchInto_eq_some_iff hp hc, exists_eq_left']
  rfl

/-- `\forall x, y; (\<{ skip }\> \exists x; r(x, y) & r(x, y))`, a formula in which `x` is bound
twice. -/
private def shadowed (x y z : LogicVar) : Term :=
  let r (a b : LogicVar) : Term := app (.predicate "r" 2) [var a, var b]
  quantify .all [.logic x, .logic y] (conj (modal .diamond (.block [.skip]) (ex z (r z y))) (r x y))

theorem isSome_matchInto_iff_alphaEq_shadowed :
    let x : LogicVar := ⟨"x", .int⟩
    let y : LogicVar := ⟨"y", .boolean⟩
    let z : LogicVar := ⟨"z", .int⟩
    (shadowed x y x).Concrete ∧ (shadowed z y x).Concrete ∧
      ((shadowed x y x).matchInto .empty (shadowed z y x) .empty).isSome := by
  refine ⟨by decide +kernel, by decide +kernel, ?_⟩
  exact (isSome_matchInto_iff_alphaEq (by decide +kernel) (by decide +kernel)).mpr
    (by decide +kernel)

/-- **Equality up to renaming overlooks the sorts of binders.** `\forall int x; true` and
`\forall boolean x; true` are equal up to renaming, but do not match. -/
theorem exists_alphaEq_not_isSome_matchInto : ∃ p c : Term, p.Concrete ∧ c.Concrete ∧ p.alphaEq c ∧
    (p.matchInto .empty c .empty).isSome = false :=
  ⟨all ⟨"x", .int⟩ top, all ⟨"x", .boolean⟩ top, by decide +kernel⟩

end Term

end SequentSearch
