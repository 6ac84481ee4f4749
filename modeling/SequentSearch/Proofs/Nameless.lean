import SequentSearch.Proofs.Substitution

/-!
# Terms without bound names

The **nameless form** of a term (`Term.nameless`) refers to a bound variable by its place: the
number of binders between the occurrence and its own. A free variable keeps its name and its sort.
Binders keep their sorts, and labels are dropped. Two terms with the same nameless form differ in
bound names and labels only.

In nameless terms a term can be put in the place of a free variable without any care
(`Nameless.replace`), since there are no names for its free variables to clash with. That is what
substitution comes to (`Term.nameless_subst`):

* a variable that is renamed together with its binder refers to the same place as before
  (`Term.nameless_renamedBody`), so renaming binders out of the way does not change the nameless
  form (`Term.nameless_avoidCapture`);
* below the binders that are left, the replacement has the nameless form that it has outside.
-/

namespace SequentSearch

/-! ## Nameless terms -/

/-- A binder without the name of its variable. -/
inductive Slot where
  /-- binds a logic variable of this sort -/
  | logic (sort : SortName)
  /-- binds a schema variable -/
  | schema (sv : SchemaVar)
deriving DecidableEq

/-- What is left of a binder without the name of its variable. -/
def Binder.slot : Binder → Slot
  | logic x => .logic x.sort
  | schema sv => .schema sv

/-- A term without bound names. -/
inductive Nameless where
  /-- the variable of a binder, given by the number of binders in between -/
  | bound (i : Nat)
  /-- a variable that is not bound -/
  | free (x : LogicVar)
  /-- an operator over arguments, each below its binders -/
  | node (op : Operator) (args : List (List Slot × Nameless))

namespace Nameless

mutual

/-- The term with `u` in the place of a free variable. -/
def replace : Nameless → LogicVar → Nameless → Nameless
  | bound i, _, _ => bound i
  | free y, x, u => if y = x then u else free y
  | node op args, x, u => node op (replaceArgs args x u)

/-- The arguments with `u` in the place of a free variable. -/
def replaceArgs : List (List Slot × Nameless) → LogicVar → Nameless → List (List Slot × Nameless)
  | [], _, _ => []
  | (slots, t) :: rest, x, u => (slots, t.replace x u) :: replaceArgs rest x u

end

mutual

/-- The free variables, one entry per occurrence. -/
def names : Nameless → List LogicVar
  | bound _ => []
  | free x => [x]
  | node _ args => namesArgs args

/-- The free variables of arguments. -/
def namesArgs : List (List Slot × Nameless) → List LogicVar
  | [] => []
  | (_, t) :: rest => t.names ++ namesArgs rest

end

variable {x y : LogicVar} {u : Nameless}

theorem replaceArgs_eq_map (args : List (List Slot × Nameless)) :
    replaceArgs args x u = args.map fun a => (a.1, a.2.replace x u) := by
  induction args with
  | nil => rfl
  | cons a args ih => rw [replaceArgs, ih, List.map_cons]

theorem mem_namesArgs {args : List (List Slot × Nameless)} :
    x ∈ namesArgs args ↔ ∃ a ∈ args, x ∈ a.2.names := by
  induction args with
  | nil => simp [namesArgs]
  | cons a args ih => simp [namesArgs, ih]

mutual

/-- **The free variables after a replacement.** -/
theorem mem_names_replace : (t : Nameless) →
    (y ∈ (t.replace x u).names ↔ (y ∈ t.names ∧ y ≠ x) ∨ (x ∈ t.names ∧ y ∈ u.names))
  | bound i => by simp [replace, names]
  | free z => by
    by_cases hz : z = x
    · subst hz
      simp [replace, names]
    · rw [replace, if_neg hz]
      simp only [names, List.mem_singleton]
      constructor
      · rintro rfl
        exact .inl ⟨rfl, hz⟩
      · rintro (⟨rfl, -⟩ | ⟨rfl, -⟩)
        · rfl
        · exact absurd rfl hz
  | node op args => by
    rw [replace, names, names]
    exact mem_namesArgs_replaceArgs args

theorem mem_namesArgs_replaceArgs : (args : List (List Slot × Nameless)) →
    (y ∈ namesArgs (replaceArgs args x u) ↔
      (y ∈ namesArgs args ∧ y ≠ x) ∨ (x ∈ namesArgs args ∧ y ∈ u.names))
  | [] => by simp [replaceArgs, namesArgs]
  | (slots, t) :: rest => by
    simp only [replaceArgs, namesArgs, List.mem_append, mem_names_replace t,
      mem_namesArgs_replaceArgs rest]
    tauto

end

mutual

/-- A variable that is not there cannot be replaced. -/
theorem replace_of_not_mem : (t : Nameless) → x ∉ t.names → t.replace x u = t
  | bound i, _ => rfl
  | free y, h => by
    rw [replace, if_neg]
    rintro rfl
    exact h (List.mem_singleton_self y)
  | node op args, h => by rw [replace, replaceArgs_of_not_mem args h]

theorem replaceArgs_of_not_mem : (args : List (List Slot × Nameless)) → x ∉ namesArgs args →
    replaceArgs args x u = args
  | [], _ => rfl
  | (slots, t) :: rest, h => by
    obtain ⟨ht, hrest⟩ := not_or.mp (mt List.mem_append.mpr h)
    rw [replaceArgs, replace_of_not_mem t ht, replaceArgs_of_not_mem rest hrest]

end

end Nameless

/-! ## References -/

namespace Term

/-- What a variable refers to below a stack of binders, the innermost one first. -/
def resolve (stack : List Binder) (x : LogicVar) : Nameless :=
  (stack.idxOf? (.logic x)).elim (.free x) .bound

variable {stack stack' : List Binder} {x y z : LogicVar}

theorem resolve_of_not_mem (h : Binder.logic x ∉ stack) : resolve stack x = .free x := by
  rw [resolve, List.idxOf?_eq_none_iff.mpr h, Option.elim_none]

/-- A variable that is bound at the top refers there, whatever is below. -/
theorem resolve_append_of_mem {bs : List Binder} (h : Binder.logic x ∈ bs) :
    resolve (bs ++ stack) x = resolve (bs ++ stack') x := by
  have hsome : ∃ i, bs.idxOf? (.logic x) = some i :=
    Option.isSome_iff_exists.mp (List.isSome_idxOf?.mpr h)
  obtain ⟨i, hi⟩ := hsome
  unfold resolve List.idxOf? at *
  rw [List.findIdx?_append, List.findIdx?_append, hi]
  rfl

/-- Variables that refer to the same do so below more binders that do not bind them. -/
theorem resolve_append_congr {bs bs' : List Binder} (hlen : bs.length = bs'.length)
    (hx : Binder.logic x ∉ bs) (hy : Binder.logic y ∉ bs')
    (h : resolve stack x = resolve stack' y) :
    resolve (bs ++ stack) x = resolve (bs' ++ stack') y := by
  have hx' := List.idxOf?_eq_none_iff.mpr hx
  have hy' := List.idxOf?_eq_none_iff.mpr hy
  unfold resolve List.idxOf? at *
  rw [List.findIdx?_append, List.findIdx?_append, hx', hy', hlen]
  cases hi : stack.findIdx? (· == .logic x) with
  | none =>
    cases hj : stack'.findIdx? (· == .logic y) with
    | none => simpa [hi, hj] using h
    | some j => simp [hi, hj] at h
  | some i =>
    cases hj : stack'.findIdx? (· == .logic y) with
    | none => simp [hi, hj] at h
    | some j => simpa [hi, hj] using h

/-- A variable that refers to the same below two stacks does so below more binders. -/
theorem resolve_append {bs : List Binder}
    (h : Binder.logic x ∉ bs → resolve stack x = resolve stack' x) :
    resolve (bs ++ stack) x = resolve (bs ++ stack') x := by
  by_cases hx : Binder.logic x ∈ bs
  · exact resolve_append_of_mem hx
  · exact resolve_append_congr rfl hx hx (h hx)

/-- The name of a binder matters only to the variable that it binds. -/
theorem resolve_cons_of_ne (hy : x ≠ y) (hz : x ≠ z) :
    resolve (.logic y :: stack) x = resolve (.logic z :: stack) x := by
  have hnot : ∀ w, x ≠ w → Binder.logic x ∉ [Binder.logic w] := by
    intro w hw hmem
    exact hw (Binder.logic.inj (List.mem_singleton.mp hmem))
  show resolve ([.logic y] ++ stack) x = resolve ([.logic z] ++ stack) x
  exact resolve_append_congr rfl (hnot y hy) (hnot z hz) rfl

/-! ## The nameless form -/

mutual

/-- **The nameless form** of a term below a stack of binders, the innermost one first. Of several
binders of one variable in a list, the last one binds it. -/
def nameless (stack : List Binder) : Term → Nameless
  | node (.var x) _ _ => resolve stack x
  | node op args _ => .node op (namelessArgs stack args)

/-- The nameless forms of arguments. -/
def namelessArgs (stack : List Binder) : List (List Binder × Term) → List (List Slot × Nameless)
  | [] => []
  | (bound, t) :: rest =>
    (bound.map Binder.slot, t.nameless (bound.reverse ++ stack)) :: namelessArgs stack rest

end

/-- The nameless form of an argument. -/
def namelessArg (stack : List Binder) (a : List Binder × Term) : List Slot × Nameless :=
  (a.1.map Binder.slot, a.2.nameless (a.1.reverse ++ stack))

theorem namelessArgs_eq_map (stack : List Binder) (args : List (List Binder × Term)) :
    namelessArgs stack args = args.map (namelessArg stack) := by
  induction args with
  | nil => rfl
  | cons a args ih => rw [namelessArgs, ih, List.map_cons, namelessArg]

theorem nameless_var (stack : List Binder) (x : LogicVar) (args : List (List Binder × Term))
    (labels : List Label) : (node (.var x) args labels).nameless stack = resolve stack x := by
  rw [nameless]

theorem nameless_node {op : Operator} {args : List (List Binder × Term)} {labels : List Label}
    (hop : ∀ x, op ≠ .var x) :
    (node op args labels).nameless stack = .node op (args.map (namelessArg stack)) := by
  rw [nameless, namelessArgs_eq_map]
  exact hop

/-- **The free variables of a term are the names in its nameless form**, apart from those that the
stack binds. -/
theorem mem_names_nameless {t : Term} :
    x ∈ (t.nameless stack).names ↔ x ∈ t.freeVars ∧ Binder.logic x ∉ stack := by
  induction t generalizing stack with
  | node op args labels ih =>
    by_cases hop : ∃ y, op = .var y
    · obtain ⟨y, rfl⟩ := hop
      rw [nameless_var, freeVars, List.mem_singleton]
      by_cases hy : Binder.logic y ∈ stack
      · obtain ⟨i, hi⟩ := Option.isSome_iff_exists.mp (List.isSome_idxOf?.mpr hy)
        have hbound : resolve stack y = .bound i := by rw [resolve, hi, Option.elim_some]
        rw [hbound, Nameless.names]
        refine iff_of_false List.not_mem_nil ?_
        rintro ⟨rfl, hnot⟩
        exact hnot hy
      · rw [resolve_of_not_mem hy, Nameless.names, List.mem_singleton]
        refine ⟨fun h => ⟨h, h ▸ hy⟩, And.left⟩
    · have hop := not_exists.mp hop
      rw [nameless_node hop, Nameless.names, Nameless.mem_namesArgs, mem_freeVars_node hop]
      constructor
      · rintro ⟨_, harg, hx⟩
        obtain ⟨a, ha, rfl⟩ := List.mem_map.mp harg
        obtain ⟨hfree, hnot⟩ := (ih a ha).mp hx
        simp only [List.mem_append, List.mem_reverse, not_or] at hnot
        exact ⟨⟨a, ha, hfree, hnot.1⟩, hnot.2⟩
      · rintro ⟨⟨a, ha, hfree, hbound⟩, hnot⟩
        refine ⟨_, List.mem_map_of_mem ha, (ih a ha).mpr ⟨hfree, ?_⟩⟩
        simpa using ⟨hbound, hnot⟩

/-- **The nameless form depends on what the free variables refer to**, and on nothing else of the
stack. -/
theorem nameless_congr {t : Term} (h : ∀ x ∈ t.freeVars, resolve stack x = resolve stack' x) :
    t.nameless stack = t.nameless stack' := by
  induction t generalizing stack stack' with
  | node op args labels ih =>
    by_cases hop : ∃ y, op = .var y
    · obtain ⟨y, rfl⟩ := hop
      rw [nameless_var, nameless_var]
      exact h y (by rw [freeVars, List.mem_singleton])
    · have hop := not_exists.mp hop
      rw [nameless_node hop, nameless_node hop]
      refine congrArg _ (List.map_congr_left fun a ha => congrArg _ (ih a ha fun x hx => ?_))
      refine resolve_append fun hbound => h x ?_
      exact (mem_freeVars_node hop).mpr ⟨a, ha, hx, mt List.mem_reverse.mpr hbound⟩

/-! ## Renaming -/

/-- **Renaming**: the term with `z` for `y` has the nameless form of the term, if `z` refers to what
`y` referred to. -/
theorem nameless_rename {t : Term} (hz : z ∉ t.vars) (hyz : resolve stack z = resolve stack' y)
    (h : ∀ x ∈ t.freeVars, x ≠ y → resolve stack x = resolve stack' x) :
    (t.rename y z).nameless stack = t.nameless stack' := by
  induction t generalizing stack stack' with
  | node op args labels ih =>
    by_cases hop : ∃ w, op = .var w
    · obtain ⟨w, rfl⟩ := hop
      rw [rename, nameless_var]
      split <;> rename_i hw
      · subst hw
        exact hyz
      · rw [nameless_var]
        exact h w (by rw [freeVars, List.mem_singleton]) hw
    · have hop := not_exists.mp hop
      rw [rename_node hop, nameless_node hop, nameless_node hop, List.map_map]
      refine congrArg _ (List.map_congr_left fun a ha => congrArg (Prod.mk _) ?_)
      have hza : z ∉ a.2.vars := fun hmem => hz (mem_vars_node.mpr (.inr (.inr ⟨a, ha, hmem⟩)))
      have hfree : ∀ x ∈ a.2.freeVars, Binder.logic x ∉ a.1.reverse → x ≠ y →
          resolve stack x = resolve stack' x := by
        intro x hx hbound
        exact h x ((mem_freeVars_node hop).mpr ⟨a, ha, hx, mt List.mem_reverse.mpr hbound⟩)
      by_cases hbound : Binder.logic y ∈ a.1
      · -- `y` is bound here, so what it refers to outside does not matter
        simp only [renameArg, List.contains_eq_mem, hbound, decide_true, if_true]
        refine nameless_congr fun x hx => resolve_append fun hx' => hfree x hx hx' ?_
        rintro rfl
        exact hx' (List.mem_reverse.mpr hbound)
      · simp only [renameArg, List.contains_eq_mem, hbound, decide_false]
        have hzbound : Binder.logic z ∉ a.1.reverse := fun hmem =>
          hz (mem_vars_node.mpr (.inr (.inl ⟨a, ha, List.mem_reverse.mp hmem⟩)))
        refine ih a ha hza ?_ fun x hx hxy => resolve_append fun hx' => hfree x hx hx' hxy
        exact resolve_append_congr rfl hzbound (mt List.mem_reverse.mp hbound) hyz

/-- **One binder renamed**: the body below the new binder has the nameless form of the body below
the old one. -/
theorem nameless_renamedBody {done later : List Binder} {body : Term} (hbody : z ∉ body.vars)
    (hlater : Binder.logic z ∉ later) :
    (renamedBody y z later body).nameless ((done ++ .logic z :: later).reverse ++ stack) =
      body.nameless ((done ++ .logic y :: later).reverse ++ stack) := by
  have hstack : ∀ w, (done ++ Binder.logic w :: later).reverse ++ stack =
      later.reverse ++ Binder.logic w :: (done.reverse ++ stack) := by
    intro w
    simp
  have hother : ∀ x ∈ body.freeVars, (Binder.logic x ∉ later.reverse → x ≠ y) →
      resolve (later.reverse ++ .logic z :: (done.reverse ++ stack)) x =
        resolve (later.reverse ++ .logic y :: (done.reverse ++ stack)) x := by
    intro x hx hy
    refine resolve_append fun hx' => resolve_cons_of_ne ?_ (hy hx')
    rintro rfl
    exact hbody (freeVars_subset_vars hx)
  rw [hstack, hstack]
  unfold renamedBody
  by_cases hy : Binder.logic y ∈ later
  · -- the binder is shadowed: nothing refers to it
    rw [if_pos (by simpa using hy)]
    refine nameless_congr fun x hx => hother x hx ?_
    rintro hx' rfl
    exact hx' (List.mem_reverse.mpr hy)
  · rw [if_neg (by simpa using hy)]
    refine nameless_rename hbody ?_ fun x hx hxy => hother x hx fun _ => hxy
    refine resolve_append_congr rfl (mt List.mem_reverse.mp hlater) (mt List.mem_reverse.mp hy) ?_
    simp [resolve, List.idxOf?_cons]

/-- **Renaming binders out of the way keeps the nameless form** of the body below them. -/
theorem nameless_avoidCapture (s : Term) (done later : List Binder) (body : Term)
    (stack : List Binder) :
    (avoidCapture s done later body).2.nameless
      ((avoidCapture s done later body).1.reverse ++ stack) =
        body.nameless ((done ++ later).reverse ++ stack) := by
  induction later generalizing done body with
  | nil => rw [avoidCapture, List.append_nil]
  | cons b later ih =>
    cases b with
    | schema sv => rw [avoidCapture, ih, List.append_assoc, List.singleton_append]
    | logic y =>
      by_cases hy : y ∈ s.freeVars
      · rw [avoidCapture_captured hy, ih, List.append_assoc, List.singleton_append]
        obtain ⟨hbody, -, hbound⟩ := freshBinder_fresh s body (done ++ .logic y :: later) y
        refine nameless_renamedBody hbody fun hmem => hbound ?_
        exact List.mem_append_right _ (List.mem_cons_of_mem _ hmem)
      · rw [avoidCapture_harmless hy, ih, List.append_assoc, List.singleton_append]

/-- Renaming binders out of the way keeps their sorts. -/
theorem map_slot_avoidCapture (s : Term) (done later : List Binder) (body : Term) :
    (avoidCapture s done later body).1.map Binder.slot = (done ++ later).map Binder.slot := by
  induction later generalizing done body with
  | nil => rw [avoidCapture, List.append_nil]
  | cons b later ih =>
    cases b with
    | schema sv => rw [avoidCapture, ih, List.append_assoc, List.singleton_append]
    | logic y =>
      by_cases hy : y ∈ s.freeVars
      · rw [avoidCapture_captured hy, ih]
        simp [Binder.slot, freshBinder]
      · rw [avoidCapture_harmless hy, ih, List.append_assoc, List.singleton_append]

/-! ## Substitution -/

/-- **Substitution is replacement of names**, below binders that bind neither the variable nor a
free variable of the replacement. -/
theorem nameless_subst {s t : Term} (hx : Binder.logic x ∉ stack)
    (hs : ∀ y ∈ s.freeVars, Binder.logic y ∉ stack) :
    (subst x s t).nameless stack = (t.nameless stack).replace x (s.nameless []) := by
  induction t using substInduct (s := s) generalizing stack with
  | var y args labels =>
    rw [subst, nameless_var]
    split <;> rename_i hy
    · subst hy
      rw [resolve_of_not_mem hx, Nameless.replace, if_pos rfl]
      refine nameless_congr fun y hy => ?_
      rw [resolve_of_not_mem (hs y hy), resolve_of_not_mem List.not_mem_nil]
    · rw [nameless_var, resolve]
      cases stack.idxOf? (.logic y) with
      | none => exact (if_neg hy).symm
      | some i => rfl
  | node op args labels hop ih =>
    rw [subst_node hop, nameless_node hop, nameless_node hop, Nameless.replace,
      Nameless.replaceArgs_eq_map, List.map_map, List.map_map]
    refine congrArg _ (List.map_congr_left fun a ha => ?_)
    rcases substArg_cases x s a with ⟨hbound, heq⟩ | ⟨hfree, hbound, heq⟩
    · -- nothing happens, and there is no occurrence to replace
      have hnot : x ∉ (a.2.nameless (a.1.reverse ++ stack)).names := by
        rw [mem_names_nameless]
        rintro ⟨hmem, hnot⟩
        exact hnot (List.mem_append_left _ (List.mem_reverse.mpr (hbound hmem)))
      simp only [Function.comp, heq, namelessArg, Nameless.replace_of_not_mem _ hnot]
    · -- the binders that are left bind neither `x` nor a free variable of `s`
      have hx' : Binder.logic x ∉ (avoidCapture s [] a.1 a.2).1.reverse ++ stack := by
        have := not_mem_avoidCapture_of_free (s := s) hfree List.not_mem_nil hbound
        simpa using ⟨this, hx⟩
      have hs' : ∀ y ∈ s.freeVars, Binder.logic y ∉
          (avoidCapture s [] a.1 a.2).1.reverse ++ stack := by
        intro y hy
        have := not_mem_avoidCapture_of_mem_freeVars hy List.not_mem_nil a.1 a.2
        simpa using ⟨this, hs y hy⟩
      simp only [Function.comp, heq, namelessArg]
      rw [map_slot_avoidCapture, ih a ha hx' hs', nameless_avoidCapture, List.nil_append]

/-- A variable that is not free cannot be substituted. -/
theorem subst_of_not_mem_freeVars {s t : Term} (h : x ∉ t.freeVars) : subst x s t = t := by
  obtain ⟨op, args, labels⟩ := t
  by_cases hop : ∃ y, op = .var y
  · obtain ⟨y, rfl⟩ := hop
    rw [subst, if_neg]
    rintro rfl
    exact h (by rw [freeVars, List.mem_singleton])
  · have hop := not_exists.mp hop
    have hsame : args.map (substArg x s) = args := by
      refine (List.map_congr_left fun a ha => ?_).trans (List.map_id args)
      rcases substArg_cases x s a with ⟨-, heq⟩ | ⟨hfree, hbound, -⟩
      · exact heq
      · exact absurd ((mem_freeVars_node hop).mpr ⟨a, ha, hfree, hbound⟩) h
    rw [subst_node hop, hsame]

/-- **The free variables after a substitution.** -/
theorem mem_freeVars_subst {s t : Term} : y ∈ (subst x s t).freeVars ↔
    (y ∈ t.freeVars ∧ y ≠ x) ∨ (x ∈ t.freeVars ∧ y ∈ s.freeVars) := by
  have hnames : ∀ {z : LogicVar} {u : Term}, z ∈ (u.nameless []).names ↔ z ∈ u.freeVars := by
    intro z u
    rw [mem_names_nameless]
    exact and_iff_left List.not_mem_nil
  rw [← hnames, nameless_subst List.not_mem_nil fun _ _ =>
    List.not_mem_nil, Nameless.mem_names_replace, hnames, hnames, hnames]

/-- **Substitution avoids capture.** Up to bound names and labels, the result is the term with the
replacement in the place of every free occurrence of the variable. So its free variables are those
of the term without the variable and those of the replacement. If the variable is not free the term
is returned as it is. -/
theorem subst_avoids_capture (x : LogicVar) (s t : Term) :
    (subst x s t).nameless [] = (t.nameless []).replace x (s.nameless []) ∧
      (x ∈ t.freeVars → ∀ y, y ∈ (subst x s t).freeVars ↔ (y ∈ t.freeVars ∧ y ≠ x) ∨
        y ∈ s.freeVars) ∧
      (x ∉ t.freeVars → subst x s t = t) := by
  refine ⟨nameless_subst List.not_mem_nil fun _ _ => List.not_mem_nil, fun hx y => ?_,
    subst_of_not_mem_freeVars⟩
  rw [mem_freeVars_subst]
  simp [hx]

end Term

end SequentSearch
