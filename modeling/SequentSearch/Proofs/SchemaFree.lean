import SequentSearch.Proofs.FirstOrder
import SequentSearch.Proofs.MatchedVars
import SequentSearch.Proofs.Nameless
import SequentSearch.Proofs.Redexes

/-!
# Terms as sequents have them

A term of a sequent has no schema variables. Two more things can go wrong with a term that is only
written down: an operator with more arguments than positions can tell apart, and a substitution
operator that binds a variable in its replacement, where executing the substitution would set that
variable free. `Term.Regular` rules out all three. Whatever is done to regular terms gives regular
terms: renaming, substitution, executing substitution operators, replacing a subterm.

On the way no variable becomes free that was not free before. Executing substitution operators frees
none (`Term.freeVars_executeSubsts`), and a subterm may be replaced by a term with no more free
variables than it has (`Term.freeVars_replaceAt`).
-/

namespace SequentSearch

theorem Binder.schema?_eq_none {b : Binder} : b.schema? = none ↔ b.logic?.isSome := by
  cases b <;> simp [schema?, logic?]

namespace Term

variable {op : Operator} {args args' : List (List Binder × Term)} {labels labels' : List Label}

/-! ## Regular terms -/

instance (t : Term) : Decidable t.ReplacementsOpen :=
  inferInstanceAs (Decidable (∀ u ∈ t.subterms, u.op = .subst → ∀ a ∈ u.args.head?, a.1 = []))

theorem schemaVars_node_eq_nil :
    (node op args labels).schemaVars = [] ↔
      op.schemaVars = [] ∧ (∀ l ∈ labels, l.schema? = none) ∧
        ∀ a ∈ args, (∀ b ∈ a.1, b.logic?.isSome) ∧ a.2.schemaVars = [] := by
  have hparts : (node op args labels).schemaVars = [] ↔ op.schemaVars ++
      args.flatMap (fun a => a.1.filterMap Binder.schema? ++ a.2.schemaVars) ++
        labels.filterMap Label.schema? = [] := by
    rw [List.eq_nil_iff_forall_not_mem, List.eq_nil_iff_forall_not_mem]
    exact forall_congr' fun sv => not_congr mem_schemaVars_node
  rw [hparts]
  simp only [List.append_eq_nil_iff, List.flatMap_eq_nil_iff, List.filterMap_eq_nil_iff,
    Binder.schema?_eq_none]
  tauto

/-- **A term as sequents have them**: it has no schema variables, positions tell its arguments
apart, and its substitution operators bind nothing in the replacement. -/
structure Regular (t : Term) : Prop where
  schemaFree : t.schemaVars = []
  replacementsOpen : t.ReplacementsOpen
  narrow : t.Narrow

theorem regular_node :
    (node op args labels).Regular ↔
      (op.schemaVars = [] ∧ (∀ l ∈ labels, l.schema? = none) ∧
        (op = .subst → ∀ a ∈ args.head?, a.1 = []) ∧ args.length ≤ 65536) ∧
      ∀ a ∈ args, (∀ b ∈ a.1, b.logic?.isSome) ∧ a.2.Regular := by
  constructor
  · rintro ⟨hfree, hopen, hnarrow⟩
    obtain ⟨hop, hlabels, hfree⟩ := schemaVars_node_eq_nil.mp hfree
    obtain ⟨hhead, hopen⟩ := replacementsOpen_node.mp hopen
    obtain ⟨hlen, hnarrow⟩ := narrow_node.mp hnarrow
    refine ⟨⟨hop, hlabels, hhead, hlen⟩, fun a ha => ⟨(hfree a ha).1, ?_⟩⟩
    exact ⟨(hfree a ha).2, hopen a ha, hnarrow a ha⟩
  · rintro ⟨⟨hop, hlabels, hhead, hlen⟩, hargs⟩
    refine ⟨schemaVars_node_eq_nil.mpr ⟨hop, hlabels, fun a ha => ⟨(hargs a ha).1, ?_⟩⟩, ?_, ?_⟩
    · exact (hargs a ha).2.schemaFree
    · exact replacementsOpen_node.mpr ⟨hhead, fun a ha => (hargs a ha).2.replacementsOpen⟩
    · exact narrow_node.mpr ⟨hlen, fun a ha => (hargs a ha).2.narrow⟩

theorem regular_plain {ts : List Term} (hop : op.schemaVars = []) (hlen : ts.length ≤ 65536)
    (hts : ∀ t ∈ ts, t.Regular) : (plain op ts).Regular := by
  refine regular_node.mpr ⟨⟨hop, by simp, fun _ a ha => ?_, by rwa [List.length_map]⟩,
    fun a ha => ?_⟩
  · obtain ⟨t, -, rfl⟩ := List.mem_map.mp (List.mem_of_mem_head? ha)
    rfl
  · obtain ⟨t, ht, rfl⟩ := List.mem_map.mp ha
    exact ⟨by simp, hts t ht⟩

theorem regular_var (x : LogicVar) : (var x).Regular := regular_plain rfl (by simp) (by simp)

theorem regular_const (name : String) (sort : SortName) : (const name sort).Regular :=
  regular_plain rfl (by simp) (by simp)

theorem Regular.arg {t : Term} (ht : t.Regular) {a : List Binder × Term} (ha : a ∈ t.args) :
    a.2.Regular := by
  obtain ⟨op, args, labels⟩ := t
  exact ((regular_node.mp ht).2 a ha).2

theorem regular_hereditary : Hereditary Regular :=
  ⟨fun ht ha => ht.arg ha, fun _ _ => regular_var _⟩

theorem Regular.of_mem_subterms {t u : Term} (ht : t.Regular) (hu : u ∈ t.subterms) : u.Regular :=
  Hereditary.of_mem_subterms regular_hereditary ht hu

/-- Which binders of an argument are logic variables. -/
def binderKinds (a : List Binder × Term) : List Bool := a.1.map (·.logic?.isSome)

/-- **The kinds of the binders decide**: a term over regular arguments with binders of the same
kinds is as regular as the original. -/
theorem Regular.congr (h : (node op args labels).Regular)
    (hkinds : args'.map binderKinds = args.map binderKinds) (hargs' : ∀ a ∈ args', a.2.Regular) :
    (node op args' labels).Regular := by
  obtain ⟨⟨hop, hlabels, hhead, hlen⟩, hargs⟩ := regular_node.mp h
  have hlen' : args'.length = args.length := by simpa using congrArg List.length hkinds
  refine regular_node.mpr ⟨⟨hop, hlabels, fun hsubst a ha => ?_, hlen' ▸ hlen⟩, fun a ha => ?_⟩
  · have hfirst := congrArg List.head? hkinds
    rw [List.head?_map, List.head?_map, Option.mem_def.mp ha] at hfirst
    obtain ⟨b, hb, hba⟩ := Option.map_eq_some_iff.mp hfirst.symm
    rw [binderKinds, binderKinds, hhead hsubst b hb] at hba
    exact List.map_eq_nil_iff.mp hba.symm
  · refine ⟨fun c hc => ?_, hargs' a ha⟩
    obtain ⟨b, hb, hba⟩ := List.mem_map.mp (hkinds ▸ List.mem_map_of_mem ha)
    have hkind : c.logic?.isSome ∈ binderKinds b := hba ▸ List.mem_map.mpr ⟨c, hc, rfl⟩
    obtain ⟨d, hd, hdc⟩ := List.mem_map.mp hkind
    rw [← hdc]
    exact (hargs b hb).1 d hd

/-- An operation on arguments that keeps the kinds of binders keeps a term regular. -/
theorem Regular.map (h : (node op args labels).Regular)
    (g : List Binder × Term → List Binder × Term)
    (hg : ∀ a ∈ args, (g a).2.Regular ∧ binderKinds (g a) = binderKinds a) :
    (node op (args.map g) labels).Regular := by
  refine h.congr ?_ fun b hb => ?_
  · rw [List.map_map]
    exact List.map_congr_left fun a ha => (hg a ha).2
  · obtain ⟨a, ha, rfl⟩ := List.mem_map.mp hb
    exact (hg a ha).1

theorem Regular.addLabels {t : Term} (ht : t.Regular) {ls : List Label}
    (hls : ∀ l ∈ ls, l.schema? = none) : (t.addLabels ls).Regular := by
  obtain ⟨op, args, labels⟩ := t
  obtain ⟨⟨hop, hlabels, hhead, hlen⟩, hargs⟩ := regular_node.mp ht
  refine regular_node.mpr ⟨⟨hop, fun l hl => ?_, hhead, hlen⟩, hargs⟩
  rcases List.mem_append.mp hl with hl | hl
  · exact hlabels l hl
  · exact hls l (List.mem_filter.mp hl).1

/-! ## Substitution -/

theorem Regular.rename {t : Term} (ht : t.Regular) (x y : LogicVar) : (t.rename x y).Regular := by
  induction t with
  | node op args labels ih =>
    by_cases hop : ∃ z, op = .var z
    · obtain ⟨z, rfl⟩ := hop
      rw [Term.rename]
      split
      · exact regular_var y
      · exact ht
    · rw [rename_node (not_exists.mp hop)]
      refine ht.map _ fun a ha => ?_
      rw [renameArg]
      split
      · exact ⟨ht.arg ha, rfl⟩
      · exact ⟨ih a ha (ht.arg ha), rfl⟩

theorem Regular.avoidCapture {body : Term} (h : body.Regular) (s : Term)
    (done later : List Binder) :
    (avoidCapture s done later body).2.Regular := by
  induction later generalizing done body with
  | nil => exact h
  | cons b later ih =>
    cases b with
    | schema sv => exact ih h _
    | logic y =>
      by_cases hy : y ∈ s.freeVars
      · rw [avoidCapture_captured hy]
        refine ih ?_ _
        rw [renamedBody]
        split
        · exact h
        · exact h.rename _ _
      · rw [avoidCapture_harmless hy]
        exact ih h _

theorem Regular.subst {s t : Term} (ht : t.Regular) (hs : s.Regular) (x : LogicVar) :
    (subst x s t).Regular := by
  induction t using substInduct (s := s) with
  | var y args labels =>
    rw [Term.subst]
    split
    · exact hs
    · exact ht
  | node op args labels hop ih =>
    rw [subst_node hop]
    refine ht.map _ fun a ha => ?_
    rcases substArg_cases x s a with ⟨-, heq⟩ | ⟨-, -, heq⟩
    · rw [heq]
      exact ⟨ht.arg ha, rfl⟩
    · rw [heq]
      refine ⟨ih a ha ((ht.arg ha).avoidCapture s [] a.1), ?_⟩
      exact isSome_logic?_avoidCapture s [] a.1 a.2

theorem Regular.executeSubsts {t : Term} (ht : t.Regular) : t.executeSubsts.Regular := by
  induction t with
  | node op args labels ih =>
    rw [Term.executeSubsts, executeSubstsArgs_eq_map]
    have hnode : (node op (args.map fun a => (a.1, a.2.executeSubsts)) labels).Regular :=
      ht.map _ fun a ha => ⟨ih a ha (ht.arg ha), rfl⟩
    rcases contract_cases (node op (args.map fun a => (a.1, a.2.executeSubsts)) labels) with
      heq | ⟨bound, s, x, body, ls, hsubst, heq⟩
    · rw [heq]
      exact hnode
    · rw [hsubst] at hnode
      rw [heq]
      have hs : s.Regular := hnode.arg (a := (bound, s)) (by simp)
      have hbody : body.Regular := hnode.arg (a := ([.logic x], body)) (by simp)
      exact hbody.subst hs x

theorem Regular.replaceAt {t v t' : Term} {pos : Position} (ht : t.Regular) (hv : v.Regular)
    (h : t.replaceAt pos v = .ok t') : t'.Regular := by
  induction pos generalizing t t' with
  | nil =>
    obtain rfl : v = t' := Except.ok.inj h
    exact hv
  | cons i rest ih =>
    obtain ⟨op, args, labels⟩ := t
    obtain ⟨bound, w, w', hw, hw', rfl⟩ := replaceAt_cons h
    refine ht.congr (map_set_of_eq hw rfl) fun a ha => ?_
    rcases List.mem_or_eq_of_mem_set ha with ha | rfl
    · exact ht.arg ha
    · exact ih (ht.arg (List.mem_of_getElem? hw)) hw'

/-! ## Free variables -/

/-- A term has no more free variables than another one with the same operator, if every argument has
no more than one below the same binders. -/
theorem freeVars_node_subset
    (h : ∀ a' ∈ args', ∃ a ∈ args, a'.1 = a.1 ∧ a'.2.freeVars ⊆ a.2.freeVars) :
    (node op args' labels').freeVars ⊆ (node op args labels).freeVars := by
  by_cases hop : ∃ x, op = .var x
  · obtain ⟨x, rfl⟩ := hop
    rw [freeVars, freeVars]
    exact List.Subset.refl _
  · have hop := not_exists.mp hop
    intro v hv
    obtain ⟨a', ha', hv, hbound⟩ := (mem_freeVars_node hop).mp hv
    obtain ⟨a, ha, heq, hsub⟩ := h a' ha'
    exact (mem_freeVars_node hop).mpr ⟨a, ha, hsub hv, heq ▸ hbound⟩

/-- **Executing a substitution operator frees no variable**, if nothing is bound in its
replacement. -/
theorem freeVars_contract {t : Term} (h : t.op = .subst → ∀ a ∈ t.args.head?, a.1 = []) :
    t.contract.freeVars ⊆ t.freeVars := by
  rcases contract_cases t with heq | ⟨bound, s, x, body, labels, rfl, heq⟩
  · rw [heq]
    exact List.Subset.refl _
  · obtain rfl : bound = [] := h rfl (bound, s) rfl
    rw [heq]
    intro v hv
    refine (mem_freeVars_node (by simp)).mpr ?_
    rcases mem_freeVars_subst.mp hv with ⟨hv, hne⟩ | ⟨-, hv⟩
    · exact ⟨([.logic x], body), by simp, hv, by simpa using hne⟩
    · exact ⟨([], s), by simp, hv, by simp⟩

theorem freeVars_executeSubsts {t : Term} (h : t.ReplacementsOpen) :
    t.executeSubsts.freeVars ⊆ t.freeVars := by
  induction t with
  | node op args labels ih =>
    obtain ⟨hhead, hargs⟩ := replacementsOpen_node.mp h
    rw [executeSubsts, executeSubstsArgs_eq_map]
    refine List.Subset.trans (freeVars_contract fun hsubst a ha => ?_) (freeVars_node_subset ?_)
    · rw [args_node, List.head?_map] at ha
      obtain ⟨b, hb, rfl⟩ := Option.map_eq_some_iff.mp ha
      exact hhead hsubst b hb
    · intro a' ha'
      obtain ⟨a, ha, rfl⟩ := List.mem_map.mp ha'
      exact ⟨a, ha, rfl, ih a ha (hargs a ha)⟩

/-- **Replacing a subterm frees no variable**, if the new subterm has no free variables that the old
one does not have. -/
theorem freeVars_replaceAt {t u v t' : Term} {pos : Position} (hu : t.subtermAt pos = .ok u)
    (h : t.replaceAt pos v = .ok t') (hvu : v.freeVars ⊆ u.freeVars) :
    t'.freeVars ⊆ t.freeVars := by
  induction pos generalizing t t' with
  | nil =>
    obtain rfl : t = u := Except.ok.inj hu
    obtain rfl : v = t' := Except.ok.inj h
    exact hvu
  | cons i rest ih =>
    obtain ⟨op, args, labels⟩ := t
    obtain ⟨bound, w, w', hw, hw', rfl⟩ := replaceAt_cons h
    refine freeVars_node_subset fun a' ha' => ?_
    rcases List.mem_or_eq_of_mem_set ha' with ha | rfl
    · exact ⟨a', ha, rfl, List.Subset.refl _⟩
    · exact ⟨(bound, w), List.mem_of_getElem? hw, rfl, ih (subtermAt_cons hw hu) hw'⟩

end Term

end SequentSearch
