import SequentSearch.Proofs.Matching

/-!
# The steps of a match

What a successful match consists of, for each form of pattern. A match binds a variable and goes on
with the labels, or goes through the parts of the pattern one after another, each under the values
that the parts before it gave. Laws about all matches are proved along these steps, without opening
the definitions again.
-/

namespace SequentSearch

variable {σ τ υ : Instantiations}

namespace Program

/-- **The ways in which a program pattern matches**: as a variable that is bound, as a pattern for
active statements that are found in a leading block, or child by child. -/
theorem matchInto_cases {p c : Program} (h : p.matchInto c σ = some τ) :
    (∃ sv children cls, p = node (.schema sv) children ∧ sv.kind = .program cls ∧ cls.admits c ∧
      σ.add sv (if sv.list then .programs [c] else .program c) = some τ) ∨
    (∃ active depth block υ n, p = node .block [node .context active] ∧
      leadingBlock depth c = .ok block ∧ matchRun active block.children σ = some (υ, n) ∧
      υ.withContext ⟨c, depth, n⟩ = some τ) ∨
    ((∀ sv, p.kind ≠ .schema sv) ∧ p.kind = c.kind ∧
      matchRun p.children c.children σ = some (τ, c.children.length)) := by
  obtain ⟨kind, children⟩ := p
  by_cases hsv : ∃ sv, kind = .schema sv
  · obtain ⟨sv, rfl⟩ := hsv
    rw [matchInto, matchVar] at h
    split at h <;> rename_i hkind
    · split at h <;> rename_i hadmits
      · exact .inl ⟨sv, children, _, rfl, hkind, hadmits, h⟩
      · cases h
    · cases h
  by_cases hactive : ∃ active, kind = .block ∧ children = [node .context active]
  · obtain ⟨active, rfl, rfl⟩ := hactive
    rw [matchInto, matchActive] at h
    split at h
    · split at h <;> rename_i hfound
      · obtain ⟨block, hblock, -, hrun⟩ := leadingBlock_of_findActive hfound
        exact .inr (.inl ⟨active, _, block, _, _, rfl, hblock, hrun, h⟩)
      · cases h
    · cases h
  by_cases hctx : kind = .context
  · rw [hctx, matchInto] at h
    cases h
  rw [matchInto] at h
  · split at h <;> rename_i hkind
    · split at h <;> rename_i hrun
      · split at h <;> rename_i hn
        · cases h
          exact .inr (.inr ⟨not_exists.mp hsv, hkind, hn ▸ hrun⟩)
        · cases h
      · cases h
    · cases h
  · exact fun active hk hc => hactive ⟨active, hk, hc⟩
  · exact not_exists.mp hsv
  · exact hctx

/-- **The first step of a match of a sequence**: a list variable takes a run of elements, any other
pattern takes one. -/
theorem matchRun_cons_cases {p : Program} {ps cs : List Program} {n : Nat}
    (h : matchRun (p :: ps) cs σ = some (υ, n)) :
    (∃ sv run rest τ m, p.listVar? = some sv ∧ cs = run ++ rest ∧
      σ.add sv (.programs run) = some τ ∧
      matchRun ps rest τ = some (υ, m)) ∨
    ∃ c rest τ m, cs = c :: rest ∧ p.matchInto c σ = some τ ∧ matchRun ps rest τ = some (υ, m) := by
  cases hlist : p.listVar? with
  | some sv =>
    obtain ⟨run, rest, τ, m, hcs, hadd, hrest, -⟩ := matchRun_listVar hlist h
    exact .inl ⟨sv, run, rest, τ, m, rfl, hcs, hadd, hrest⟩
  | none =>
    rw [matchRun.eq_def] at h
    simp only [hlist] at h
    cases cs with
    | nil => cases h
    | cons c cs =>
      simp only at h
      split at h <;> rename_i hmatch
      · obtain ⟨⟨υ', m⟩, hrest, heq⟩ := Option.map_eq_some_iff.mp h
        obtain ⟨rfl, -⟩ : υ' = υ ∧ m + 1 = n := by simpa using heq
        exact .inr ⟨c, cs, _, m, rfl, hmatch, hrest⟩
      · cases h

/-- A list variable is a schema variable for runs of elements. -/
theorem listVar?_eq_some {p : Program} {sv : SchemaVar} :
    p.listVar? = some sv ↔ p.kind = .schema sv ∧ sv.list := by
  unfold listVar?
  split <;> rename_i hkind
  · rename_i sv'
    rw [Option.ite_none_right_eq_some, Option.some.injEq, hkind, ProgramKind.schema.injEq]
    constructor
    · rintro ⟨hlist, rfl⟩
      exact ⟨rfl, hlist⟩
    · rintro ⟨rfl, hlist⟩
      exact ⟨hlist, rfl⟩
  · constructor
    · rintro ⟨⟩
    · exact fun h => absurd h.1 (hkind sv)

end Program

namespace Term

theorem matchLabels_schema_eq_some {sv : SchemaVar} {ls cs : List Label} :
    matchLabels (.schema sv :: ls) cs σ = some τ ↔
      ∃ υ, σ.add sv (.labels cs) = some υ ∧ matchLabels ls cs υ = some τ := by
  rw [matchLabels]
  cases σ.add sv (.labels cs) <;> simp

/-- **The first step of a match of binders**: a schema variable is bound to the variable of the
candidate, or a scope is opened. -/
theorem matchBinders_cons_cases {b : Binder} {ps cs : List Binder} {ρ ρ' : Renaming}
    (h : matchBinders (b :: ps) cs ρ σ = some (ρ', τ)) :
    ∃ y rest, cs = .logic y :: rest ∧
      ((∃ sv s υ, b = .schema sv ∧ sv.kind = .logicVar s ∧ y.sort.isSubsortOf s ∧
        σ.add sv (.term (var y)) = some υ ∧ matchBinders ps rest ρ υ = some (ρ', τ)) ∨
      ∃ x, b = .logic x ∧ x.sort = y.sort ∧
        matchBinders ps rest (ρ.push x y) σ = some (ρ', τ)) := by
  rcases cs with _ | ⟨c, cs⟩
  · cases b <;> cases h
  · rcases b with x | sv <;> rcases c with y | sv'
    · rw [matchBinders] at h
      split at h <;> rename_i hsort
      · exact ⟨y, cs, rfl, .inr ⟨x, rfl, hsort, h⟩⟩
      · cases h
    · cases h
    · rw [matchBinders] at h
      split at h <;> rename_i hkind
      · split at h <;> rename_i hsort
        · split at h <;> rename_i hadd
          · exact ⟨y, cs, rfl, .inl ⟨sv, _, _, rfl, hkind, hsort, hadd, h⟩⟩
          · cases h
        · cases h
      · cases h
    · cases h

/-- A program is matched if the pattern is that of a modality; otherwise nothing is bound. -/
theorem matchOperator_cases {o o' : Operator} (h : matchOperator o o' σ = some τ) :
    (∃ m p q, o = .modal m p ∧ o' = .modal m q ∧ p.matchInto q σ = some τ) ∨
      (o = o' ∧ σ = τ ∧ ∀ m p, o ≠ .modal m p) := by
  by_cases hmodal : ∃ m p, o = .modal m p
  · obtain ⟨m, p, rfl⟩ := hmodal
    obtain ⟨q, rfl, hq⟩ := matchOperator_modal_eq_some.mp h
    exact .inl ⟨m, p, q, rfl, rfl, hq⟩
  · have hmodal := fun m p hmp => hmodal ⟨m, p, hmp⟩
    rw [matchOperator] at h
    · split at h <;> rename_i heq
      · exact .inr ⟨heq, Option.some.inj h, hmodal⟩
      · cases h
    · exact fun m p _ _ hmp _ => hmodal m p hmp

/-- **The ways in which a pattern matches**: as a schema variable that is bound, as a logic variable
that corresponds to one, or by its operator and then its arguments. -/
theorem matchInto_cases {op : Operator} {args : List (List Binder × Term)}
    {labels : List Label} {c : Term} {ρ : Renaming}
    (h : matchInto ρ (node op args labels) c σ = some τ) :
    (∃ sv υ, op = .schema sv ∧ fitsKind sv c ∧ σ.add sv (.term c) = some υ ∧
      matchLabels labels c.labels υ = some τ) ∨
    (∃ x y, op = .var x ∧ c.op = .var y ∧ matchLabels labels c.labels σ = some τ) ∨
    ((∀ sv, op ≠ .schema sv) ∧ (∀ x, op ≠ .var x) ∧
      ∃ υ φ, matchOperator op c.op σ = some υ ∧ matchArgs ρ args c.args υ = some φ ∧
        matchLabels labels c.labels φ = some τ) := by
  by_cases hsv : ∃ sv, op = .schema sv
  · obtain ⟨sv, rfl⟩ := hsv
    rw [matchInto, matchVar] at h
    split at h <;> rename_i hadd
    · split at hadd <;> rename_i hfits
      · simp only [Bool.and_eq_true] at hfits
        exact .inl ⟨sv, _, rfl, hfits.1.1, hadd, h⟩
      · cases hadd
    · cases h
  by_cases hvar : ∃ x, op = .var x
  · obtain ⟨x, rfl⟩ := hvar
    rw [matchInto] at h
    split at h <;> rename_i hop
    · split at h
      · exact .inr (.inl ⟨x, _, rfl, hop, h⟩)
      · cases h
    · cases h
  have hsv := not_exists.mp hsv
  have hvar := not_exists.mp hvar
  obtain ⟨υ, hop, φ, hargs, hlabels⟩ := (matchInto_node_eq_some hsv hvar).mp h
  exact .inr (.inr ⟨hsv, hvar, υ, φ, hop, hargs, hlabels⟩)

/-- Argument lists match argument by argument. -/
theorem matchArgs_cons_cases {a : List Binder × Term} {args cs : List (List Binder × Term)}
    {ρ : Renaming} (h : matchArgs ρ (a :: args) cs σ = some τ) :
    ∃ c rest ρ' υ φ, cs = c :: rest ∧ matchBinders a.1 c.1 ρ σ = some (ρ', υ) ∧
      a.2.matchInto ρ' c.2 υ = some φ ∧ matchArgs ρ args rest φ = some τ := by
  cases cs with
  | nil => cases h
  | cons c rest =>
    obtain ⟨ρ', υ, hbinders, φ, hterm, hrest⟩ := matchArgs_cons_eq_some.mp h
    exact ⟨c, rest, ρ', υ, φ, rfl, hbinders, hterm, hrest⟩

end Term

end SequentSearch
