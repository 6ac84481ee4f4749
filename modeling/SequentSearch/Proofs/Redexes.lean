import SequentSearch.Proofs.Substitution

/-!
# Terms without substitutions to execute

Executing the substitution operators of a term leaves none that could be executed
(`Term.hasRedex_executeSubsts`). The replacement and the body of an operator were executed before it
is, and substituting one into the other makes no new redex: a redex is told by the shape of its
binder lists, and neither renaming nor avoiding capture changes that shape. So executing
substitutions a second time does nothing (`Term.executeSubsts_executeSubsts`).
-/

namespace SequentSearch

namespace Term

variable {x y : LogicVar} {s t : Term} {op : Operator} {args : List (List Binder × Term)}
  {labels labels' : List Label}

theorem isRedex_iff : t.isRedex ↔ ∃ a bound x, t.op = .subst ∧ t.args = [a, bound] ∧
    bound.1 = [.logic x] := by
  obtain ⟨op, args, labels⟩ := t
  constructor
  · intro h
    rw [isRedex.eq_def] at h
    split at h
    · rename_i heq
      cases heq
      exact ⟨_, _, _, rfl, rfl, rfl⟩
    · cases h
  · rintro ⟨a, ⟨bound, body⟩, x, hop, hargs, hbound⟩
    rw [op_node] at hop
    rw [args_node] at hargs
    obtain rfl : bound = [.logic x] := hbound
    subst hop hargs
    rfl

theorem hasRedex_eq_false_iff : t.hasRedex = false ↔ ∀ u ∈ t.subterms, ¬u.isRedex := by
  rw [hasRedex, List.any_eq_false]

theorem hasRedex_node :
    (node op args labels).hasRedex = false ↔
      ¬(node op args labels).isRedex ∧ ∀ a ∈ args, a.2.hasRedex = false := by
  simp only [hasRedex_eq_false_iff]
  exact forall_subterms_node

/-- Whether an operator is a redex shows in the binders of its arguments: a change of the arguments
that makes no binder list a single logic variable makes no redex. -/
theorem not_isRedex_map {f : List Binder × Term → List Binder × Term}
    (hf : ∀ a ∈ args, ∀ y, (f a).1 = [.logic y] → ∃ x, a.1 = [.logic x])
    (h : ¬(node op args labels).isRedex) : ¬(node op (args.map f) labels').isRedex := by
  rw [isRedex_iff] at h ⊢
  rintro ⟨a', b', y, hop, hargs, hbound⟩
  rw [args_node, List.map_eq_cons_iff] at hargs
  obtain ⟨a, rest, rfl, rfl, hargs⟩ := hargs
  obtain ⟨b, rest, rfl, rfl, hnil⟩ := List.map_eq_cons_iff.mp hargs
  obtain rfl := List.map_eq_nil_iff.mp hnil
  obtain ⟨x, hx⟩ := hf b (by simp) y hbound
  exact h ⟨a, b, x, hop, rfl, hx⟩

/-! ## Substitution makes no redex -/

theorem hasRedex_rename (h : t.hasRedex = false) : (t.rename x y).hasRedex = false := by
  induction t with
  | node op args labels ih =>
    by_cases hop : ∃ z, op = .var z
    · obtain ⟨z, rfl⟩ := hop
      rw [rename]
      split
      · rfl
      · exact h
    · rw [rename_node (not_exists.mp hop)]
      obtain ⟨hhere, hargs⟩ := hasRedex_node.mp h
      refine hasRedex_node.mpr ⟨not_isRedex_map (fun a _ z hz => ⟨z, hz⟩) hhere, ?_⟩
      intro a' ha'
      obtain ⟨a, ha, rfl⟩ := List.mem_map.mp ha'
      rw [renameArg]
      split
      · exact hargs a ha
      · exact ih a ha (hargs a ha)

/-- Avoiding capture puts logic variables in the place of logic variables. -/
theorem isSome_logic?_avoidCapture (s : Term) (done later : List Binder) (body : Term) :
    (avoidCapture s done later body).1.map (·.logic?.isSome) =
      (done ++ later).map (·.logic?.isSome) := by
  induction later generalizing done body with
  | nil => simp [avoidCapture]
  | cons b later ih =>
    cases b with
    | schema sv =>
      rw [avoidCapture, ih]
      simp
    | logic y =>
      by_cases hy : y ∈ s.freeVars
      · rw [avoidCapture_captured hy, ih]
        simp [Binder.logic?]
      · rw [avoidCapture_harmless hy, ih]
        simp

theorem hasRedex_avoidCapture {done later : List Binder} {body : Term} (h : body.hasRedex = false) :
    (avoidCapture s done later body).2.hasRedex = false := by
  induction later generalizing done body with
  | nil => exact h
  | cons b later ih =>
    cases b with
    | schema sv => exact ih h
    | logic y =>
      by_cases hy : y ∈ s.freeVars
      · rw [avoidCapture_captured hy]
        refine ih ?_
        rw [renamedBody]
        split
        · exact h
        · exact hasRedex_rename h
      · rw [avoidCapture_harmless hy]
        exact ih h

/-- **Substitution makes no redex.** -/
theorem hasRedex_subst (hs : s.hasRedex = false) (ht : t.hasRedex = false) :
    (subst x s t).hasRedex = false := by
  induction t using substInduct (s := s) with
  | var y args labels =>
    rw [subst]
    split
    · exact hs
    · exact ht
  | node op args labels hop ih =>
    obtain ⟨hhere, hargs⟩ := hasRedex_node.mp ht
    rw [subst_node hop]
    refine hasRedex_node.mpr ⟨not_isRedex_map (fun a _ z hz => ?_) hhere, fun a' ha' => ?_⟩
    · rcases substArg_cases x s a with ⟨-, heq⟩ | ⟨-, -, heq⟩
      · exact ⟨z, heq ▸ hz⟩
      · have hshape := isSome_logic?_avoidCapture s [] a.1 a.2
        rw [heq] at hz
        rw [hz, List.nil_append] at hshape
        obtain ⟨b, rest, hb, hlogic, hnil⟩ := List.map_eq_cons_iff.mp hshape.symm
        obtain rfl := List.map_eq_nil_iff.mp hnil
        cases b with
        | logic w => exact ⟨w, hb⟩
        | schema sv => simp [Binder.logic?] at hlogic
    · obtain ⟨a, ha, rfl⟩ := List.mem_map.mp ha'
      rcases substArg_cases x s a with ⟨-, heq⟩ | ⟨-, -, heq⟩
      · rw [heq]
        exact hargs a ha
      · rw [heq]
        exact ih a ha (hasRedex_avoidCapture (hargs a ha))

/-! ## Executing substitutions -/

theorem contract_of_not_isRedex (h : ¬t.isRedex) : t.contract = t := by
  rcases contract_cases t with heq | ⟨bound, s, x, body, labels, rfl, -⟩
  · exact heq
  · exact absurd rfl h

/-- **After the substitutions were executed there are none that can be.** -/
theorem hasRedex_executeSubsts (t : Term) : t.executeSubsts.hasRedex = false := by
  induction t with
  | node op args labels ih =>
    have hargs : ∀ a ∈ args.map fun a => (a.1, a.2.executeSubsts), a.2.hasRedex = false := by
      intro a' ha'
      obtain ⟨a, ha, rfl⟩ := List.mem_map.mp ha'
      exact ih a ha
    rw [executeSubsts, executeSubstsArgs_eq_map]
    by_cases hredex : (node op (args.map fun a => (a.1, a.2.executeSubsts)) labels).isRedex
    · obtain ⟨a, ⟨bound, body⟩, x, hop, hpair, hbound⟩ := isRedex_iff.mp hredex
      rw [args_node] at hpair
      rw [op_node] at hop
      obtain rfl : bound = [.logic x] := hbound
      rw [hpair] at hargs ⊢
      rw [hop]
      exact hasRedex_subst (hargs a (by simp)) (hargs ([.logic x], body) (by simp))
    · rw [contract_of_not_isRedex hredex]
      exact hasRedex_node.mpr ⟨hredex, hargs⟩

/-- A term without substitutions to execute stays as it is. -/
theorem executeSubsts_of_hasRedex_eq_false (h : t.hasRedex = false) : t.executeSubsts = t := by
  induction t with
  | node op args labels ih =>
    obtain ⟨hhere, hargs⟩ := hasRedex_node.mp h
    have hsame : (args.map fun a => (a.1, a.2.executeSubsts)) = args := by
      calc (args.map fun a => (a.1, a.2.executeSubsts))
        _ = args.map id := List.map_congr_left fun a ha => Prod.ext rfl (ih a ha (hargs a ha))
        _ = args := List.map_id args
    rw [executeSubsts, executeSubstsArgs_eq_map, hsame, contract_of_not_isRedex hhere]

/-- **Executing substitutions twice is executing them once.** -/
theorem executeSubsts_executeSubsts (t : Term) : t.executeSubsts.executeSubsts = t.executeSubsts :=
  executeSubsts_of_hasRedex_eq_false (hasRedex_executeSubsts t)

end Term

end SequentSearch
