import SequentSearch.Proofs.ProgramRuns
import SequentSearch.Proofs.Redexes

/-!
# Formulas about programs

A formula with modalities is true or false in a state. A diamond says that some terminating run of
its program from the state ends in a state in which the formula behind it is true, a box that all
do; all other operators mean in a state what they mean when the program variables have the values of
the state. Without modalities, therefore, this is the value of `Term.eval` there
(`Term.evalIn_eq_eval`).

A substitution operator has no meaning of its own in this logic: it stands for the term that comes
from executing it. So a formula is true in a state if it has the value true after its substitutions
were executed (`Term.HoldsIn`).
-/

namespace SequentSearch

universe u

variable {D : Type u} [Nonempty D]

/-- The value of an operator in a state. A modality looks at the meaning of its argument in other
states. -/
noncomputable def Operator.denoteIn (M : Interpretation D) (s : ProgState D) :
    Operator → List (ProgState D → Meaning D) → Value D
  | .modal .diamond p, [φ] => .truth (∃ o s', p.Runs M s o s' ∧ (φ s').Holds)
  | .modal .box p, [φ] => .truth (∀ o s', p.Runs M s o s' → (φ s').Holds)
  | op, ms => op.denote (M.inState s) (ms.map fun m => m s)

theorem Operator.denoteIn_of_ne_modal {M : Interpretation D} {s : ProgState D} {op : Operator}
    (h : ∀ m p, op ≠ .modal m p) (ms : List (ProgState D → Meaning D)) :
    op.denoteIn M s ms = op.denote (M.inState s) (ms.map fun m => m s) := by
  cases op with
  | modal m p => exact absurd rfl (h m p)
  | _ => rfl

namespace Term

mutual

/-- The value of a term in a state. -/
noncomputable def evalIn (M : Interpretation D) : Term → Env D → ProgState D → Value D
  | node (.var x) _ _, β, _ => β x
  | node op args _, β, s => op.denoteIn M s (evalInArgs M args β)

/-- The meanings of arguments, in all states. -/
noncomputable def evalInArgs (M : Interpretation D) :
    List (List Binder × Term) → Env D → List (ProgState D → Meaning D)
  | [], _ => []
  | (bound, t) :: rest, β => (fun s vs => evalIn M t (β.bind bound vs) s) :: evalInArgs M rest β

end

/-- **A formula is true in a state.** -/
def HoldsIn (M : Interpretation D) (t : Term) (β : Env D) (s : ProgState D) : Prop :=
  (t.executeSubsts.evalIn M β s).Holds

variable {M : Interpretation D} {β : Env D} {s : ProgState D} {t φ : Term} {m : Modality}
  {p q : Program} {ls ls' : List Label}

theorem evalInArgs_eq_map (args : List (List Binder × Term)) :
    evalInArgs M args β = args.map fun a s vs => evalIn M a.2 (β.bind a.1 vs) s := by
  induction args with
  | nil => rfl
  | cons a args ih => rw [evalInArgs, ih, List.map_cons]

theorem evalIn_node {op : Operator} {args : List (List Binder × Term)} (hop : ∀ x, op ≠ .var x) :
    evalIn M (node op args ls) β s = op.denoteIn M s (evalInArgs M args β) := by
  rw [evalIn]
  exact hop

/-- No operator of the term is a modality. -/
def ModalityFree (t : Term) : Prop := ∀ u ∈ t.subterms, ∀ m p, u.op ≠ .modal m p

/-- **Without modalities** the value in a state is the value under the interpretation of the
state. -/
theorem evalIn_eq_eval (h : t.ModalityFree) : t.evalIn M β s = t.eval (M.inState s) β := by
  induction t generalizing β with
  | node op args labels ih =>
    obtain ⟨hhead, hargs⟩ := forall_subterms_node.mp h
    have hop : ∀ m p, op ≠ .modal m p := hhead
    by_cases hvar : ∃ x, op = .var x
    · obtain ⟨x, rfl⟩ := hvar
      rfl
    · rw [evalIn_node (not_exists.mp hvar), eval_node (not_exists.mp hvar),
        Operator.denoteIn_of_ne_modal hop, evalInArgs_eq_map, evalArgs_eq_map, List.map_map]
      congr 1
      exact List.map_congr_left fun a ha => funext fun vs => ih a ha (hargs a ha)

/-- A term without substitutions to execute is true if its value is. -/
theorem holdsIn_of_hasRedex_eq_false (h : t.hasRedex = false) :
    t.HoldsIn M β s ↔ (t.evalIn M β s).Holds := by
  rw [HoldsIn, executeSubsts_of_hasRedex_eq_false h]

/-- Executing substitutions does not change when a formula is true. -/
theorem holdsIn_executeSubsts : t.executeSubsts.HoldsIn M β s ↔ t.HoldsIn M β s := by
  rw [HoldsIn, executeSubsts_executeSubsts, HoldsIn]

/-! ## Modalities -/

theorem executeSubsts_modal {args : List (List Binder × Term)} :
    (node (.modal m p) args ls).executeSubsts =
      node (.modal m p) (args.map fun a => (a.1, a.2.executeSubsts)) ls := by
  rw [executeSubsts, executeSubstsArgs_eq_map]
  rfl

/-- What a diamond says. -/
theorem holdsIn_diamond : (node (.modal .diamond p) [([], φ)] ls).HoldsIn M β s ↔
    ∃ o s', p.Runs M s o s' ∧ φ.HoldsIn M β s' := by
  rw [HoldsIn, executeSubsts_modal]
  rfl

/-- What a box says. -/
theorem holdsIn_box : (node (.modal .box p) [([], φ)] ls).HoldsIn M β s ↔
    ∀ o s', p.Runs M s o s' → φ.HoldsIn M β s' := by
  rw [HoldsIn, executeSubsts_modal]
  rfl

/-- **Programs that run alike from a state** make the same formulas true in it. -/
theorem holdsIn_modal_congr (h : ∀ o s', p.Runs M s o s' ↔ q.Runs M s o s') :
    (node (.modal m p) [([], φ)] ls).HoldsIn M β s ↔
    (node (.modal m q) [([], φ)] ls').HoldsIn M β s := by
  cases m with
  | diamond => simp only [holdsIn_diamond, h]
  | box => simp only [holdsIn_box, h]

/-- **After the empty program** the state is the same. -/
theorem holdsIn_modal_nil :
    (node (.modal m (.node .block [])) [([], φ)] ls).HoldsIn M β s ↔ φ.HoldsIn M β s := by
  cases m with
  | diamond => simp [holdsIn_diamond]
  | box => simp [holdsIn_box]

/-! ## Conditions -/

/-- What the terms of expressions have in common: nothing but the state gives them their value. -/
structure IsExpression (t : Term) : Prop where
  /-- there are no logic variables -/
  closed : t.freeVars = []
  /-- there are no modalities -/
  modalityFree : t.ModalityFree
  /-- there are no substitutions to execute -/
  reduced : t.hasRedex = false

/-- **The value of an expression** is the one under the interpretation of the state. -/
theorem IsExpression.holdsIn_iff (h : t.IsExpression) (γ : Env D) :
    t.HoldsIn M β s ↔ (t.eval (M.inState s) γ).Holds := by
  have hclosed : ∀ x ∈ t.freeVars, β x = γ x := by simp [h.closed]
  rw [holdsIn_of_hasRedex_eq_false h.reduced, evalIn_eq_eval h.modalityFree, eval_congr hclosed]

/-- An operator without bound variables makes an expression of expressions. -/
theorem isExpression_plain {op : Operator} {ts : List Term} (hvar : ∀ x, op ≠ .var x)
    (hmodal : ∀ m p, op ≠ .modal m p) (h : ∀ t ∈ ts, t.IsExpression) :
    (plain op ts).IsExpression where
  closed := by
    refine List.eq_nil_iff_forall_not_mem.mpr fun x hx => ?_
    obtain ⟨a, ha, hxa, -⟩ := (mem_freeVars_node hvar).mp hx
    obtain ⟨t, ht, rfl⟩ := List.mem_map.mp ha
    simp [(h t ht).closed] at hxa
  modalityFree := by
    refine forall_subterms_node.mpr ⟨hmodal, fun a ha => ?_⟩
    obtain ⟨t, ht, rfl⟩ := List.mem_map.mp ha
    exact (h t ht).modalityFree
  reduced := by
    refine hasRedex_node.mpr ⟨fun hredex => ?_, fun a ha => ?_⟩
    · obtain ⟨a, bound, x, -, hargs, hx⟩ := isRedex_iff.mp hredex
      have hbound : bound ∈ ts.map fun t => ([], t) := by
        rw [show ts.map (fun t => ([], t)) = [a, bound] from hargs]
        simp
      obtain ⟨t, -, rfl⟩ := List.mem_map.mp hbound
      cases hx
    · obtain ⟨t, ht, rfl⟩ := List.mem_map.mp ha
      exact (h t ht).reduced

theorem isExpression_literal (l : Literal) : l.toTerm.IsExpression := by
  rcases l with (_ | _) | n <;> exact isExpression_plain (by simp) (by simp) (by simp)

theorem isExpression_of_toTerm (h : p.toTerm = .ok (some t)) : t.IsExpression := by
  refine Program.toTerm_forall (P := IsExpression) (fun v => ?_) isExpression_literal
    (fun op a b ha hb => ?_) h
  · exact isExpression_plain (by simp) (by simp) (by simp)
  · exact isExpression_plain (by simp) (by simp) (by simp [ha, hb])

theorem IsExpression.equals_true (h : t.IsExpression) :
    (equals t (Literal.bool true).toTerm).IsExpression :=
  isExpression_plain (by simp) (by simp) (by simp [h, isExpression_literal])

end Term

namespace Program

variable {M : Interpretation D} {β : Env D} {s : ProgState D} {c : Program} {t : Term}

/-- **A condition is true** if and only if the formula is that equates its term with `TRUE`. -/
theorem isTrue_iff (h : c.toTerm = .ok (some t)) :
    c.IsTrue M s ↔ (Term.equals t (Literal.bool true).toTerm).HoldsIn M β s := by
  rw [(Term.isExpression_of_toTerm h).equals_true.holdsIn_iff fun _ => .truth False]
  constructor
  · rintro ⟨w, ⟨t', ht', rfl⟩, htrue⟩
    cases h.symm.trans ht'
    exact htrue
  · exact fun htrue => ⟨_, ⟨t, h, rfl⟩, htrue⟩

/-- A condition that denotes a term is true or not. -/
theorem isFalse_of_not_isTrue (h : c.toTerm = .ok (some t)) (hc : ¬c.IsTrue M s) : c.IsFalse M s :=
  ⟨_, ⟨t, h, rfl⟩, fun htrue => hc ⟨_, ⟨t, h, rfl⟩, htrue⟩⟩

end Program

end SequentSearch
