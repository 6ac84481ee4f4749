import SequentSearch.Proofs.FreshNames
import SequentSearch.Proofs.Semantics

/-!
# Substitution keeps the meaning

`Term.subst x s t` means in an environment what `t` means when `x` stands for the value of `s` there
(`Term.eval_subst`), whatever the binders of `t`. Three facts lead there:

* renaming a variable to one that does not occur means to let the old one stand for the value of the
  new one (`Term.eval_rename`);
* so renaming binders out of the way changes nothing (`Term.eval_avoidCapture`), and no binder that
  is left captures a variable of `s`;
* the scope of such binders is then entered with the value of `s` unchanged.

Renaming to a variable that does not occur is itself such a substitution (`Term.rename_eq_subst`).

A substitution operator means the same before and after it is executed, so executing all of them in
a term keeps its value (`Term.eval_executeSubsts`).
-/

namespace SequentSearch

universe u

variable {D : Type u}

namespace Env

variable {β : Env D} {v : Value D} {x y : LogicVar}

@[simp] theorem set_self : β.set (.logic x) v x = v := if_pos rfl

theorem set_of_ne (h : x ≠ y) : β.set (.logic x) v y = β y := by
  rw [set, if_neg fun heq => h (Binder.logic.inj heq)]

/-- A variable that binders leave alone can be set before or after them. -/
theorem set_bind {bs : List Binder} {s : Nat → Value D} (h : Binder.logic x ∉ bs) :
    (β.set (.logic x) v).bind bs s = (β.bind bs s).set (.logic x) v := by
  funext y
  by_cases hy : x = y
  · subst hy
    rw [set_self, bind_of_not_mem h, set_self]
  · rw [set_of_ne hy]
    exact bind_congr fun _ => set_of_ne hy

/-- Entering binders one by one. -/
theorem bind_append_cons (β : Env D) (done later : List Binder) (b : Binder) (s : Nat → Value D) :
    β.bind (done ++ b :: later) s =
      ((β.bind done s).set b (s done.length)).bind later fun i => s (i + 1 + done.length) := by
  rw [bind_append, bind, Nat.zero_add]

end Env

namespace Term

/-! ## Renaming -/

/-- The argument with `y` for the free occurrences of `x`. -/
def renameArg (x y : LogicVar) (a : List Binder × Term) : List Binder × Term :=
  (a.1, if a.1.contains (.logic x) then a.2 else a.2.rename x y)

theorem renameArgs_eq_map (x y : LogicVar) (args : List (List Binder × Term)) :
    renameArgs x y args = args.map (renameArg x y) := by
  induction args with
  | nil => rfl
  | cons a args ih => rw [renameArgs, ih, List.map_cons, renameArg]

theorem rename_node {x y : LogicVar} {op : Operator} {args : List (List Binder × Term)}
    {labels : List Label} (hop : ∀ z, op ≠ .var z) :
    (node op args labels).rename x y = node op (args.map (renameArg x y)) labels := by
  rw [rename, renameArgs_eq_map]
  exact hop

/-- A free variable other than the renamed one stays free. -/
theorem mem_freeVars_rename {t : Term} {x y z : LogicVar} (hz : z ∈ t.freeVars) (hzx : z ≠ x) :
    z ∈ (t.rename x y).freeVars := by
  induction t with
  | node op args labels ih =>
    by_cases hop : ∃ w, op = .var w
    · obtain ⟨w, rfl⟩ := hop
      obtain rfl : z = w := by simpa [freeVars] using hz
      rw [rename, if_neg hzx]
      exact hz
    · have hop := not_exists.mp hop
      obtain ⟨a, ha, hza, hbound⟩ := (mem_freeVars_node hop).mp hz
      rw [rename_node hop]
      refine (mem_freeVars_node hop).mpr ⟨renameArg x y a, List.mem_map_of_mem ha, ?_, hbound⟩
      unfold renameArg
      split
      · exact hza
      · exact ih a ha hza

theorem symbols_rename {t : Term} {x y : LogicVar} {f : FunSym} (hf : f ∈ (t.rename x y).symbols) :
    f ∈ t.symbols := by
  induction t with
  | node op args labels ih =>
    by_cases hop : ∃ w, op = .var w
    · obtain ⟨w, rfl⟩ := hop
      rw [rename] at hf
      split at hf
      · simp [var, plain, mem_symbols_node] at hf
      · exact hf
    · rw [rename_node (not_exists.mp hop)] at hf
      rcases mem_symbols_node.mp hf with hf | ⟨a', ha', hf⟩
      · exact mem_symbols_node.mpr (.inl hf)
      · obtain ⟨a, ha, rfl⟩ := List.mem_map.mp ha'
        refine mem_symbols_node.mpr (.inr ⟨a, ha, ?_⟩)
        unfold renameArg at hf
        split at hf
        · exact hf
        · exact ih a ha hf

variable [Nonempty D] {M : Interpretation D}

/-- **Renaming**: below no binder of `y`, the term with `y` for `x` means what the term means when
`x` stands for the value of `y`. -/
theorem eval_rename {t : Term} {x y : LogicVar} (hy : y ∉ t.vars) (β : Env D) :
    eval M (t.rename x y) β = eval M t (β.set (.logic x) (β y)) := by
  induction t generalizing β with
  | node op args labels ih =>
    by_cases hop : ∃ w, op = .var w
    · obtain ⟨w, rfl⟩ := hop
      rw [rename]
      split <;> rename_i hw
      · subst hw
        exact Env.set_self.symm
      · exact (Env.set_of_ne (Ne.symm hw)).symm
    · have hop := not_exists.mp hop
      rw [rename_node hop]
      refine eval_node_congr hop (List.forall₂_map_left_iff.mpr (List.forall₂_same.mpr ?_))
      intro a ha s
      have hya : y ∉ a.2.vars := fun h => hy (mem_vars_node.mpr (.inr (.inr ⟨a, ha, h⟩)))
      have hybound : Binder.logic y ∉ a.1 := fun h =>
        hy (mem_vars_node.mpr (.inr (.inl ⟨a, ha, h⟩)))
      unfold renameArg
      by_cases hbound : Binder.logic x ∈ a.1
      · -- `x` is bound here, so its value outside does not matter
        simp only [List.contains_eq_mem, hbound, decide_true, if_true]
        refine eval_congr fun z _ => Env.bind_congr fun hz => (Env.set_of_ne ?_).symm
        rintro rfl
        exact hz hbound
      · simp only [List.contains_eq_mem, hbound, decide_false]
        rw [Env.set_bind hbound]
        have := ih a ha hya (β.bind a.1 s)
        rwa [Env.bind_of_not_mem hybound] at this

/-! ## Renaming binders out of the way -/

/-- The variable that a binder is renamed to. -/
def freshBinder (s body : Term) (bound : List Binder) (y : LogicVar) : LogicVar :=
  ⟨freshVariant y.name (namesInSight s body bound), y.sort⟩

/-- The new binder is none of the variables in sight. -/
theorem freshBinder_fresh (s body : Term) (bound : List Binder) (y : LogicVar) :
    freshBinder s body bound y ∉ body.vars ∧ freshBinder s body bound y ∉ s.vars ∧
      Binder.logic (freshBinder s body bound y) ∉ bound := by
  have hfresh : freshBinder s body bound y ∉
      body.vars ++ s.vars ++ bound.filterMap Binder.logic? := fun h =>
    freshVariant_not_mem y.name (namesInSight s body bound) (List.mem_map_of_mem h)
  refine ⟨fun h => hfresh ?_, fun h => hfresh ?_, fun h => hfresh ?_⟩
  · exact List.mem_append_left _ (List.mem_append_left _ h)
  · exact List.mem_append_left _ (List.mem_append_right _ h)
  · exact List.mem_append_right _ (List.mem_filterMap.mpr ⟨_, h, rfl⟩)

/-- The body after one binder was renamed: untouched if the binder has no occurrences in it. -/
def renamedBody (y z : LogicVar) (later : List Binder) (body : Term) : Term :=
  if later.contains (.logic y) then body else body.rename y z

theorem avoidCapture_captured {s body : Term} {done later : List Binder} {y : LogicVar}
    (hy : y ∈ s.freeVars) :
    avoidCapture s done (.logic y :: later) body =
      avoidCapture s (done ++ [.logic (freshBinder s body (done ++ .logic y :: later) y)]) later
        (renamedBody y (freshBinder s body (done ++ .logic y :: later) y) later body) := by
  rw [avoidCapture, if_pos (by simpa using hy)]
  rfl

theorem avoidCapture_harmless {s body : Term} {done later : List Binder} {y : LogicVar}
    (hy : y ∉ s.freeVars) :
    avoidCapture s done (.logic y :: later) body =
      avoidCapture s (done ++ [.logic y]) later body := by
  rw [avoidCapture, if_neg (by simpa using hy)]

/-- **One binder renamed**: below the new binder the renamed body means what the body means below
the old one. -/
theorem eval_renamedBody {done later : List Binder} {body : Term} {y z : LogicVar}
    (hbody : z ∉ body.vars) (hlater : Binder.logic z ∉ later) (β : Env D) (s : Nat → Value D) :
    eval M (renamedBody y z later body) (β.bind (done ++ .logic z :: later) s) =
      eval M body (β.bind (done ++ .logic y :: later) s) := by
  have hz : ∀ x ∈ body.freeVars, z ≠ x := by
    rintro x hx rfl
    exact hbody (freeVars_subset_vars hx)
  rw [Env.bind_append_cons, Env.bind_append_cons]
  unfold renamedBody
  by_cases hy : Binder.logic y ∈ later
  · -- the binder is shadowed: neither name matters
    rw [if_pos (by simpa using hy)]
    refine eval_congr fun x hx => Env.bind_congr fun hxl => ?_
    rw [Env.set_of_ne (hz x hx), Env.set_of_ne]
    rintro rfl
    exact hxl hy
  · rw [if_neg (by simpa using hy), eval_rename hbody, Env.bind_of_not_mem hlater, Env.set_self,
      ← Env.set_bind hy]
    refine eval_congr fun x hx => Env.bind_congr fun _ => ?_
    by_cases hxy : y = x
    · subst hxy
      rw [Env.set_self, Env.set_self]
    · rw [Env.set_of_ne hxy, Env.set_of_ne hxy, Env.set_of_ne (hz x hx)]

/-- **Renaming binders out of the way keeps the meaning** of the body below them. -/
theorem eval_avoidCapture (s : Term) (done later : List Binder) (body : Term) (β : Env D)
    (vs : Nat → Value D) :
    eval M (avoidCapture s done later body).2 (β.bind (avoidCapture s done later body).1 vs) =
      eval M body (β.bind (done ++ later) vs) := by
  induction later generalizing done body with
  | nil => rw [avoidCapture, List.append_nil]
  | cons b later ih =>
    cases b with
    | schema sv =>
      rw [avoidCapture, ih, List.append_assoc, List.singleton_append]
    | logic y =>
      by_cases hy : y ∈ s.freeVars
      · rw [avoidCapture_captured hy, ih, List.append_assoc, List.singleton_append]
        obtain ⟨hbody, -, hbound⟩ := freshBinder_fresh s body (done ++ .logic y :: later) y
        refine eval_renamedBody hbody (fun h => hbound ?_) β vs
        exact List.mem_append_right _ (List.mem_cons_of_mem _ h)
      · rw [avoidCapture_harmless hy, ih, List.append_assoc, List.singleton_append]

/-- No binder that is left captures a free variable of the replacement. -/
theorem not_mem_avoidCapture_of_mem_freeVars {s : Term} {x : LogicVar} (hx : x ∈ s.freeVars)
    {done : List Binder} (hdone : Binder.logic x ∉ done) (later : List Binder) (body : Term) :
    Binder.logic x ∉ (avoidCapture s done later body).1 := by
  induction later generalizing done body with
  | nil => exact hdone
  | cons b later ih =>
    cases b with
    | schema sv => exact ih (by simpa using hdone) body
    | logic y =>
      by_cases hy : y ∈ s.freeVars
      · rw [avoidCapture_captured hy]
        obtain ⟨-, hs, -⟩ := freshBinder_fresh s body (done ++ .logic y :: later) y
        have hne : x ≠ freshBinder s body (done ++ .logic y :: later) y := fun h =>
          hs (h ▸ freeVars_subset_vars hx)
        exact ih (by simpa using ⟨hdone, hne⟩) _
      · rw [avoidCapture_harmless hy]
        refine ih ?_ body
        have : x ≠ y := fun h => hy (h ▸ hx)
        simpa using ⟨hdone, this⟩

/-- A free variable of the body that is not bound stays so: no new binder captures it. -/
theorem not_mem_avoidCapture_of_free {s body : Term} {x : LogicVar} (hx : x ∈ body.freeVars)
    {done later : List Binder} (hdone : Binder.logic x ∉ done) (hlater : Binder.logic x ∉ later) :
    Binder.logic x ∉ (avoidCapture s done later body).1 := by
  induction later generalizing done body with
  | nil => exact hdone
  | cons b later ih =>
    obtain ⟨hb, hrest⟩ := not_or.mp (mt List.mem_cons.mpr hlater)
    cases b with
    | schema sv => exact ih hx (by simpa using hdone) hrest
    | logic y =>
      have hxy : x ≠ y := fun h => hb (h ▸ rfl)
      by_cases hy : y ∈ s.freeVars
      · rw [avoidCapture_captured hy]
        obtain ⟨hbody, -, -⟩ := freshBinder_fresh s body (done ++ .logic y :: later) y
        have hne : x ≠ freshBinder s body (done ++ .logic y :: later) y := fun h =>
          hbody (h ▸ freeVars_subset_vars hx)
        refine ih ?_ (by simpa using ⟨hdone, hne⟩) hrest
        unfold renamedBody
        split
        · exact hx
        · exact mem_freeVars_rename hx hxy
      · rw [avoidCapture_harmless hy]
        exact ih hx (by simpa using ⟨hdone, hxy⟩) hrest

theorem symbols_avoidCapture {s : Term} {done later : List Binder} {body : Term} {f : FunSym}
    (hf : f ∈ (avoidCapture s done later body).2.symbols) : f ∈ body.symbols := by
  induction later generalizing done body with
  | nil => exact hf
  | cons b later ih =>
    cases b with
    | schema sv => exact ih hf
    | logic y =>
      by_cases hy : y ∈ s.freeVars
      · rw [avoidCapture_captured hy] at hf
        have hf := ih hf
        unfold renamedBody at hf
        split at hf
        · exact hf
        · exact symbols_rename hf
      · rw [avoidCapture_harmless hy] at hf
        exact ih hf

/-! ## Substituting -/

/-- The argument with `s` for the free occurrences of `x`. -/
def substArg (x : LogicVar) (s : Term) (a : List Binder × Term) : List Binder × Term :=
  if a.1.contains (.logic x) || !a.2.freeVars.contains x then a
  else ((avoidCapture s [] a.1 a.2).1, subst x s (avoidCapture s [] a.1 a.2).2)

theorem substArgs_eq_map (x : LogicVar) (s : Term) (args : List (List Binder × Term)) :
    substArgs x s args = args.map (substArg x s) := by
  induction args with
  | nil => rw [substArgs, List.map_nil]
  | cons a args ih =>
    obtain ⟨bound, t⟩ := a
    rw [substArgs, ih, List.map_cons]
    rfl

theorem subst_node {x : LogicVar} {s : Term} {op : Operator} {args : List (List Binder × Term)}
    {labels : List Label} (hop : ∀ z, op ≠ .var z) :
    subst x s (node op args labels) = node op (args.map (substArg x s)) labels := by
  rw [subst, substArgs_eq_map]
  exact hop

/-- The two cases of an argument: `x` is not free in it and nothing happens, or `x` is free and not
bound here. -/
theorem substArg_cases (x : LogicVar) (s : Term) (a : List Binder × Term) :
    ((x ∈ a.2.freeVars → Binder.logic x ∈ a.1) ∧ substArg x s a = a) ∨
      (x ∈ a.2.freeVars ∧ Binder.logic x ∉ a.1 ∧
        substArg x s a =
          ((avoidCapture s [] a.1 a.2).1, subst x s (avoidCapture s [] a.1 a.2).2)) := by
  unfold substArg
  by_cases hbound : Binder.logic x ∈ a.1
  · exact .inl ⟨fun _ => hbound, if_pos (by simp [hbound])⟩
  · by_cases hx : x ∈ a.2.freeVars
    · exact .inr ⟨hx, hbound, if_neg (by simp [hbound, hx])⟩
    · exact .inl ⟨fun h => absurd h hx, if_pos (by simp [hx])⟩

/-- **Induction along a substitution**: the hypothesis is about the arguments after their binders
were renamed, since that is where the substitution goes on. -/
theorem substInduct {s : Term} {motive : Term → Prop}
    (var : ∀ y args labels, motive (node (.var y) args labels))
    (node : ∀ op args labels, (∀ y, op ≠ .var y) →
      (∀ a ∈ args, motive (avoidCapture s [] a.1 a.2).2) →
        motive (.node op args labels)) (t : Term) :
    motive t := by
  cases t with
  | node op args labels =>
    by_cases hop : ∃ y, op = .var y
    · obtain ⟨y, rfl⟩ := hop
      exact var y args labels
    · exact node op args labels (not_exists.mp hop) fun a _ => substInduct var node _
termination_by t.size
decreasing_by exact Nat.lt_of_le_of_lt (size_avoidCapture_le ..) (size_arg_lt ‹_›)

/-- **Substitution**: the term with `s` for `x` means what the term means when `x` stands for the
value of `s`. -/
theorem eval_subst (x : LogicVar) (s t : Term) (β : Env D) :
    eval M (subst x s t) β = eval M t (β.set (.logic x) (eval M s β)) := by
  induction t using substInduct (s := s) generalizing β with
  | var y args labels =>
    rw [subst]
    split <;> rename_i hy
    · subst hy
      exact Env.set_self.symm
    · exact (Env.set_of_ne (Ne.symm hy)).symm
  | node op args labels hop ih =>
    rw [subst_node hop]
    refine eval_node_congr hop (List.forall₂_map_left_iff.mpr (List.forall₂_same.mpr ?_))
    intro a ha vs
    rcases substArg_cases x s a with ⟨hbound, heq⟩ | ⟨hx, hbound, heq⟩
    · rw [heq]
      refine eval_congr fun z hz => Env.bind_congr fun hzb => (Env.set_of_ne ?_).symm
      rintro rfl
      exact hzb (hbound hz)
    · -- below the binders that are left, `s` has the value it has outside
      have hs : eval M s (β.bind (avoidCapture s [] a.1 a.2).1 vs) = eval M s β :=
        eval_congr fun z hz => Env.bind_of_not_mem
          (not_mem_avoidCapture_of_mem_freeVars hz (List.not_mem_nil) a.1 a.2)
      have hx' := not_mem_avoidCapture_of_free (s := s) hx (List.not_mem_nil) hbound
      rw [heq, ih a ha, hs, ← Env.set_bind hx', eval_avoidCapture, List.nil_append]

theorem symbols_subst {x : LogicVar} {s t : Term} {f : FunSym} (hf : f ∈ (subst x s t).symbols) :
    f ∈ t.symbols ∨ f ∈ s.symbols := by
  induction t using substInduct (s := s) with
  | var y args labels =>
    rw [subst] at hf
    split at hf
    · exact .inr hf
    · exact .inl hf
  | node op args labels hop ih =>
    rw [subst_node hop] at hf
    rcases mem_symbols_node.mp hf with hf | ⟨a', ha', hf⟩
    · exact .inl (mem_symbols_node.mpr (.inl hf))
    · obtain ⟨a, ha, rfl⟩ := List.mem_map.mp ha'
      have harg : f ∈ a.2.symbols → f ∈ (node op args labels).symbols := fun h =>
        mem_symbols_node.mpr (.inr ⟨a, ha, h⟩)
      rcases substArg_cases x s a with ⟨-, heq⟩ | ⟨-, -, heq⟩
      · rw [heq] at hf
        exact .inl (harg hf)
      · rw [heq] at hf
        exact (ih a ha hf).imp (fun h => harg (symbols_avoidCapture h)) id

/-! ## Renaming as a substitution -/

/-- Renaming a variable that is not free changes nothing. -/
theorem rename_of_not_mem_freeVars {t : Term} {x : LogicVar} (hx : x ∉ t.freeVars) (y : LogicVar) :
    t.rename x y = t := by
  induction t with
  | node op args labels ih =>
    by_cases hop : ∃ w, op = .var w
    · obtain ⟨w, rfl⟩ := hop
      rw [rename, if_neg]
      rintro rfl
      exact hx (by simp [freeVars])
    · have hop := not_exists.mp hop
      have hargs : ∀ a ∈ args, renameArg x y a = id a := by
        intro a ha
        unfold renameArg
        split <;> rename_i hbound
        · rfl
        · rw [ih a ha fun hfree => hx ((mem_freeVars_node hop).mpr ⟨a, ha,
            hfree, by simpa using hbound⟩)]
          rfl
      rw [rename_node hop, List.map_congr_left hargs, List.map_id]

/-- Binders that capture nothing stay as they are. -/
theorem avoidCapture_of_forall_not_mem {s : Term} {later : List Binder}
    (h : ∀ z ∈ s.freeVars, Binder.logic z ∉ later) (done : List Binder) (body : Term) :
    avoidCapture s done later body = (done ++ later, body) := by
  induction later generalizing done with
  | nil => rw [avoidCapture, List.append_nil]
  | cons b later ih =>
    have hlater : ∀ z ∈ s.freeVars, Binder.logic z ∉ later := fun z hz hmem =>
      h z hz (List.mem_cons_of_mem b hmem)
    cases b with
    | schema sv => rw [avoidCapture, ih hlater, List.append_assoc, List.singleton_append]
    | logic y =>
      have hy : y ∉ s.freeVars := fun hy => h y hy List.mem_cons_self
      rw [avoidCapture_harmless hy, ih hlater, List.append_assoc, List.singleton_append]

/-- **To rename is to substitute**, if the new variable does not occur: it is captured nowhere, so
no binder is renamed on the way. -/
theorem rename_eq_subst {t : Term} {y : LogicVar} (hy : y ∉ t.vars) (x : LogicVar) :
    t.rename x y = subst x (var y) t := by
  induction t with
  | node op args labels ih =>
    by_cases hop : ∃ w, op = .var w
    · obtain ⟨w, rfl⟩ := hop
      rw [rename, subst]
    · have hop := not_exists.mp hop
      rw [rename_node hop, subst_node hop]
      refine congrArg (node op · labels) (List.map_congr_left fun a ha => ?_)
      have hya : y ∉ a.2.vars := fun h => hy (mem_vars_node.mpr (.inr (.inr ⟨a, ha, h⟩)))
      have hybound : ∀ z ∈ (var y).freeVars, Binder.logic z ∉ a.1 := by
        intro z hz hmem
        obtain rfl : z = y := by simpa [var, plain, freeVars] using hz
        exact hy (mem_vars_node.mpr (.inr (.inl ⟨a, ha, hmem⟩)))
      unfold renameArg
      rcases substArg_cases x (var y) a with ⟨hbound, heq⟩ | ⟨hfree, hbound, heq⟩
      · rw [heq]
        split <;> rename_i hx
        · rfl
        · rw [rename_of_not_mem_freeVars fun hfree => hx (by simpa using hbound hfree)]
      · rw [heq, avoidCapture_of_forall_not_mem hybound,
          if_neg (by simpa using hbound), ih a ha hya]
        rfl

/-- So a binder that is in the way is renamed by a substitution of the new variable for it. -/
theorem avoidCapture_captured_eq_subst {s body : Term} {done later : List Binder} {y : LogicVar}
    (hy : y ∈ s.freeVars) :
    let z := freshBinder s body (done ++ .logic y :: later) y
    avoidCapture s done (.logic y :: later) body = avoidCapture s (done ++ [.logic z]) later
      (if later.contains (.logic y) then body else subst y (var z) body) := by
  intro z
  rw [avoidCapture_captured hy, renamedBody, rename_eq_subst (freshBinder_fresh s body _ y).1]

/-! ## Executing substitution operators -/

theorem executeSubstsArgs_eq_map (args : List (List Binder × Term)) :
    executeSubstsArgs args = args.map fun a => (a.1, a.2.executeSubsts) := by
  induction args with
  | nil => rfl
  | cons a args ih => rw [executeSubstsArgs, ih, List.map_cons]

/-- What executing the top operator does: nothing, or the substitution that the operator stands
for. -/
theorem contract_cases (t : Term) :
    t.contract = t ∨ ∃ bound s x body labels,
      t = node .subst [(bound, s), ([.logic x], body)] labels ∧ t.contract = subst x s body := by
  unfold contract
  split
  · exact .inr ⟨_, _, _, _, _, rfl, rfl⟩
  · exact .inl rfl

/-- No substitution operator of the term binds a variable in its first argument, the replacement. -/
def ReplacementsOpen (t : Term) : Prop :=
  ∀ u ∈ t.subterms, u.op = .subst → ∀ a ∈ u.args.head?, a.1 = []

theorem replacementsOpen_node {op : Operator} {args : List (List Binder × Term)}
    {labels : List Label} :
    (node op args labels).ReplacementsOpen ↔
      (op = .subst → ∀ a ∈ args.head?, a.1 = []) ∧ ∀ a ∈ args, a.2.ReplacementsOpen :=
  forall_subterms_node

theorem eval_contract {t : Term} (h : t.op = .subst → ∀ a ∈ t.args.head?, a.1 = []) (β : Env D) :
    eval M t.contract β = eval M t β := by
  rcases contract_cases t with heq | ⟨bound, s, x, body, labels, rfl, heq⟩
  · rw [heq]
  · obtain rfl : bound = [] := h rfl (bound, s) rfl
    rw [heq, eval_subst]
    rfl

/-- **Executing substitution operators keeps the value.** -/
theorem eval_executeSubsts {t : Term} (h : t.ReplacementsOpen) (β : Env D) :
    eval M t.executeSubsts β = eval M t β := by
  induction t generalizing β with
  | node op args labels ih =>
    obtain ⟨hhere, hargs⟩ := replacementsOpen_node.mp h
    rw [executeSubsts, executeSubstsArgs_eq_map, eval_contract]
    · by_cases hop : ∃ x, op = .var x
      · obtain ⟨x, rfl⟩ := hop
        rfl
      · refine eval_node_congr (not_exists.mp hop) ?_
        refine List.forall₂_map_left_iff.mpr (List.forall₂_same.mpr fun a ha vs => ?_)
        exact ih a ha (hargs a ha) _
    · intro hop a ha
      cases args with
      | nil => simp at ha
      | cons b args =>
        obtain rfl : (b.1, b.2.executeSubsts) = a := by simpa using ha
        exact hhere hop b rfl

theorem symbols_executeSubsts {t : Term} {f : FunSym} (hf : f ∈ t.executeSubsts.symbols) :
    f ∈ t.symbols := by
  induction t with
  | node op args labels ih =>
    -- what the arguments contribute was there before
    have hargs : ∀ a ∈ args.map (fun a => (a.1, a.2.executeSubsts)), f ∈ a.2.symbols →
        f ∈ (node op args labels).symbols := by
      intro a' ha' hf
      obtain ⟨a, ha, rfl⟩ := List.mem_map.mp ha'
      exact mem_symbols_node.mpr (.inr ⟨a, ha, ih a ha hf⟩)
    rw [executeSubsts, executeSubstsArgs_eq_map] at hf
    rcases contract_cases (node op (args.map fun a => (a.1, a.2.executeSubsts)) labels) with
      heq | ⟨bound, s, x, body, ls, hnode, heq⟩
    · rw [heq] at hf
      rcases mem_symbols_node.mp hf with hf | ⟨a, ha, hf⟩
      · exact mem_symbols_node.mpr (.inl hf)
      · exact hargs a ha hf
    · rw [heq] at hf
      have hmap := congrArg Term.args hnode
      rw [args_node, args_node] at hmap
      rw [hmap] at hargs
      rcases symbols_subst hf with hf | hf
      · exact hargs ([.logic x], body) (by simp) hf
      · exact hargs (bound, s) (by simp) hf

end Term

end SequentSearch
