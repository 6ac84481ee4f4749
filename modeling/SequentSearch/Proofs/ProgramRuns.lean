import SequentSearch.Proofs.Instances
import SequentSearch.Proofs.Matching
import SequentSearch.Proofs.Semantics

/-!
# Runs of programs

A state gives a value to every program variable, and a terminating run of a program leads from one
state to another. `Program.Runs` says which runs there are, statement by statement; a `return` ends
a run early, so a run also has an outcome. An element that is malformed, or whose expressions denote
no terms, has no run.

Symbolic execution replaces the active statements of a program and keeps its context. That has no
effect on runs if the new statements have the same runs as the old ones from the state at hand
(`Program.sameRuns_of_active`), since the blocks around the active statements are entered without
doing anything. Three laws of this kind are proved here: a nested block runs like its statements
(`Program.sameRuns_block`), a loop like its unwinding (`Program.sameRuns_loop`), and a conditional
like one of its branches (`Program.sameRuns_ifElse_of_isTrue`,
`Program.sameRuns_ifElse_of_isFalse`).
-/

namespace SequentSearch

universe u

variable {D : Type u} [Nonempty D]

/-- Values for the program variables. -/
abbrev ProgState (D : Type u) := ProgVar → Value D

/-- The state after a variable was assigned a value. -/
def ProgState.set (s : ProgState D) (v : ProgVar) (w : Value D) : ProgState D :=
  fun v' => if v' = v then w else s v'

/-- The interpretation in which the program variables have the values of a state. -/
noncomputable def Interpretation.inState (M : Interpretation D) (s : ProgState D) :
    Interpretation D :=
  { M with progVar := fun v => (s v).toObject, progProp := fun v => (s v).Holds }

namespace Program

/-- How a run ends. -/
inductive Outcome where
  /-- at the end of the program -/
  | normal
  /-- by a return -/
  | returned

variable {M : Interpretation D} {s s' : ProgState D} {o : Outcome} {c a b p q : Program}
  {ps qs rest : List Program}

/-- An expression has a value: that of the term it denotes. The term has no logic variables, so no
values for them are needed. -/
def HasValue (M : Interpretation D) (s : ProgState D) (e : Program) (w : Value D) : Prop :=
  ∃ t, e.toTerm = .ok (some t) ∧ t.eval (M.inState s) (fun _ => .truth False) = w

/-- A value equals that of the constant `TRUE`. -/
def EqualsTrue (M : Interpretation D) (s : ProgState D) (w : Value D) : Prop :=
  w.toObject = ((Literal.bool true).toTerm.eval (M.inState s) fun _ => .truth False).toObject

/-- A condition equals `TRUE`. -/
def IsTrue (M : Interpretation D) (s : ProgState D) (c : Program) : Prop :=
  ∃ w, c.HasValue M s w ∧ EqualsTrue M s w

/-- A condition has a value that does not equal `TRUE`. -/
def IsFalse (M : Interpretation D) (s : ProgState D) (c : Program) : Prop :=
  ∃ w, c.HasValue M s w ∧ ¬EqualsTrue M s w

theorem IsTrue.not_isFalse (h : c.IsTrue M s) : ¬c.IsFalse M s := by
  rintro ⟨w, ⟨t, ht, rfl⟩, hne⟩
  obtain ⟨w', ⟨t', ht', rfl⟩, heq⟩ := h
  cases ht.symm.trans ht'
  exact hne heq

mutual

/-- **The runs of a program element.** -/
inductive Runs (M : Interpretation D) : Program → ProgState D → Outcome → ProgState D → Prop where
  /-- `skip` does nothing -/
  | skip {s : ProgState D} : Runs M (node .skip []) s .normal s
  /-- an assignment updates its variable -/
  | assign {s : ProgState D} {v : ProgVar} {e : Program} {w : Value D} (he : e.HasValue M s w) :
      Runs M (node .assign [node (.var v) [], e]) s .normal (s.set v w)
  /-- a conditional whose condition is true runs the first branch -/
  | thenPart {s s' : ProgState D} {o : Outcome} {c a b : Program} (hc : c.IsTrue M s)
      (h : Runs M a s o s') : Runs M (node .ifElse [c, a, b]) s o s'
  /-- otherwise it runs the second branch -/
  | elsePart {s s' : ProgState D} {o : Outcome} {c a b : Program} (hc : c.IsFalse M s)
      (h : Runs M b s o s') : Runs M (node .ifElse [c, a, b]) s o s'
  /-- a loop ends if its condition is not true -/
  | loopEnd {s : ProgState D} {c b : Program} (hc : c.IsFalse M s) :
      Runs M (node .loop [c, b]) s .normal s
  /-- otherwise it runs its body and starts again -/
  | loopAgain {s s₁ s' : ProgState D} {o : Outcome} {c b : Program} (hc : c.IsTrue M s)
      (hbody : Runs M b s .normal s₁) (hagain : Runs M (node .loop [c, b]) s₁ o s') :
      Runs M (node .loop [c, b]) s o s'
  /-- unless the body returns -/
  | loopReturn {s s' : ProgState D} {c b : Program} (hc : c.IsTrue M s)
      (hbody : Runs M b s .returned s') : Runs M (node .loop [c, b]) s .returned s'
  /-- a block runs its statements -/
  | block {s s' : ProgState D} {o : Outcome} {ps : List Program} (h : RunsAll M ps s o s') :
      Runs M (node .block ps) s o s'
  /-- a return ends the program, with a value or without -/
  | ret {s : ProgState D} {value : List Program} : Runs M (node .ret value) s .returned s

/-- **The runs of a sequence of statements**, one after another until one returns. -/
inductive RunsAll (M : Interpretation D) :
    List Program → ProgState D → Outcome → ProgState D → Prop where
  /-- no statements do nothing -/
  | nil {s : ProgState D} : RunsAll M [] s .normal s
  /-- the others run after the first -/
  | next {s s₁ s' : ProgState D} {o : Outcome} {p : Program} {ps : List Program}
      (hfirst : Runs M p s .normal s₁) (hrest : RunsAll M ps s₁ o s') : RunsAll M (p :: ps) s o s'
  /-- unless it returns -/
  | stop {s s' : ProgState D} {p : Program} {ps : List Program} (hfirst : Runs M p s .returned s') :
      RunsAll M (p :: ps) s .returned s'

end

/-! ## The clauses of the definition -/

@[simp] theorem runs_skip_iff : Runs M (node .skip []) s o s' ↔ o = .normal ∧ s' = s := by
  constructor
  · intro h
    cases h
    exact ⟨rfl, rfl⟩
  · rintro ⟨rfl, rfl⟩
    exact .skip

@[simp] theorem runs_block_iff : Runs M (node .block ps) s o s' ↔ RunsAll M ps s o s' := by
  constructor
  · intro h
    cases h with
    | block h => exact h
  · exact .block

@[simp] theorem runsAll_nil_iff : RunsAll M [] s o s' ↔ o = .normal ∧ s' = s := by
  constructor
  · intro h
    cases h
    exact ⟨rfl, rfl⟩
  · rintro ⟨rfl, rfl⟩
    exact .nil

theorem runsAll_cons_iff : RunsAll M (p :: ps) s o s' ↔
    (∃ s₁, Runs M p s .normal s₁ ∧ RunsAll M ps s₁ o s') ∨
      (o = .returned ∧ Runs M p s .returned s') := by
  constructor
  · intro h
    cases h with
    | next hfirst hrest => exact .inl ⟨_, hfirst, hrest⟩
    | stop hfirst => exact .inr ⟨rfl, hfirst⟩
  · rintro (⟨s₁, hfirst, hrest⟩ | ⟨rfl, hfirst⟩)
    · exact .next hfirst hrest
    · exact .stop hfirst

/-- A single statement runs as it does alone. -/
theorem runsAll_singleton_iff : RunsAll M [p] s o s' ↔ Runs M p s o s' := by
  rw [runsAll_cons_iff]
  cases o <;> simp

theorem runsAll_append_iff : RunsAll M (ps ++ qs) s o s' ↔
    (∃ s₁, RunsAll M ps s .normal s₁ ∧ RunsAll M qs s₁ o s') ∨
      (o = .returned ∧ RunsAll M ps s .returned s') := by
  induction ps generalizing s with
  | nil => simp
  | cons p ps ih =>
    simp only [List.cons_append, runsAll_cons_iff, ih]
    constructor
    · rintro (⟨s₁, hp, ⟨s₂, hps, hqs⟩ | ⟨rfl, hps⟩⟩ | ⟨rfl, hp⟩)
      · exact .inl ⟨s₂, .inl ⟨s₁, hp, hps⟩, hqs⟩
      · exact .inr ⟨rfl, .inl ⟨s₁, hp, hps⟩⟩
      · exact .inr ⟨rfl, .inr ⟨trivial, hp⟩⟩
    · rintro (⟨s₂, ⟨s₁, hp, hps⟩ | ⟨hnormal, -⟩, hqs⟩ | ⟨rfl, ⟨s₁, hp, hps⟩ | ⟨-, hp⟩⟩)
      · exact .inl ⟨s₁, hp, .inl ⟨s₂, hps, hqs⟩⟩
      · cases hnormal
      · exact .inl ⟨s₁, hp, .inr ⟨rfl, hps⟩⟩
      · exact .inr ⟨rfl, hp⟩

/-! ## Programs that run alike -/

/-- Two sequences of statements have the same runs from a state. -/
def SameRuns (M : Interpretation D) (s : ProgState D) (ps qs : List Program) : Prop :=
  ∀ o s', RunsAll M ps s o s' ↔ RunsAll M qs s o s'

/-- What follows does not matter. -/
theorem SameRuns.append (h : SameRuns M s ps qs) (rest : List Program) :
    SameRuns M s (ps ++ rest) (qs ++ rest) := by
  intro o s'
  simp only [runsAll_append_iff, h .normal, h .returned]

theorem sameRuns_skip : SameRuns M s [node .skip []] [] := by
  intro o s'
  rw [runsAll_singleton_iff, runs_skip_iff, runsAll_nil_iff]

/-- **A nested block runs like its statements.** -/
theorem sameRuns_block : SameRuns M s [node .block ps] ps := by
  intro o s'
  rw [runsAll_singleton_iff, runs_block_iff]

/-- **A conditional whose condition is true** runs like its first branch. -/
theorem sameRuns_ifElse_of_isTrue (hc : c.IsTrue M s) :
    SameRuns M s [node .ifElse [c, a, b]] [a] := by
  intro o s'
  rw [runsAll_singleton_iff, runsAll_singleton_iff]
  constructor
  · intro h
    cases h with
    | thenPart _ h => exact h
    | elsePart hfalse _ => exact absurd hfalse hc.not_isFalse
  · exact .thenPart hc

/-- **A conditional whose condition is not true** runs like its second branch. -/
theorem sameRuns_ifElse_of_isFalse (hc : c.IsFalse M s) :
    SameRuns M s [node .ifElse [c, a, b]] [b] := by
  intro o s'
  rw [runsAll_singleton_iff, runsAll_singleton_iff]
  constructor
  · intro h
    cases h with
    | thenPart htrue _ => exact absurd hc htrue.not_isFalse
    | elsePart _ h => exact h
  · exact .elsePart hc

/-- **A loop runs like its unwinding.** -/
theorem sameRuns_loop : SameRuns M s [node .loop [c, b]]
    [node .ifElse [c, node .block [b, node .loop [c, b]], node .block []]] := by
  intro o s'
  rw [runsAll_singleton_iff, runsAll_singleton_iff]
  constructor
  · intro h
    cases h with
    | loopEnd hc => exact .elsePart hc (.block .nil)
    | loopAgain hc hbody hagain =>
      exact .thenPart hc (.block (.next hbody (runsAll_singleton_iff.mpr hagain)))
    | loopReturn hc hbody => exact .thenPart hc (.block (.stop hbody))
  · intro h
    cases h with
    | thenPart hc h =>
      rcases runsAll_cons_iff.mp (runs_block_iff.mp h) with ⟨s₁, hbody, hagain⟩ | ⟨rfl, hbody⟩
      · exact .loopAgain hc hbody (runsAll_singleton_iff.mp hagain)
      · exact .loopReturn hc hbody
    | elsePart hc h =>
      obtain ⟨rfl, rfl⟩ := runsAll_nil_iff.mp (runs_block_iff.mp h)
      exact .loopEnd hc

/-! ## Contexts -/

/-- The statements of the leading block at a depth, where all leading blocks down to it are blocks
indeed. -/
inductive Leads : Nat → Program → List Program → Prop where
  /-- the block itself -/
  | here {ps : List Program} : Leads 0 (node .block ps) ps
  /-- a block inside its first statement -/
  | inside {depth : Nat} {first : Program} {rest ps : List Program} (h : Leads depth first ps) :
      Leads (depth + 1) (node .block (first :: rest)) ps

/-- What is found in a block is found in one of its leading blocks. -/
theorem leads_of_findActive {α : Type} {find : List Program → Option α} {depth found : Nat} {x : α}
    (hkind : p.kind = .block) (h : findActive find depth p = some (found, x)) :
    depth ≤ found ∧ ∃ ps, Leads (found - depth) p ps ∧ find ps = some x := by
  fun_induction findActive find depth p with
  | case1 depth kind =>
    obtain rfl : kind = .block := hkind
    obtain ⟨y, hy, heq⟩ := Option.map_eq_some_iff.mp h
    obtain ⟨rfl, rfl⟩ : depth = found ∧ y = x := by simpa using heq
    exact ⟨Nat.le_refl _, [], by rw [Nat.sub_self]; exact .here, hy⟩
  | case2 depth kind first rest y hy =>
    obtain rfl : kind = .block := hkind
    obtain ⟨rfl, rfl⟩ : depth = found ∧ y = x := by simpa using h
    exact ⟨Nat.le_refl _, first :: rest, by rw [Nat.sub_self]; exact .here, hy⟩
  | case3 depth kind first rest hnone hblock ih =>
    obtain rfl : kind = .block := hkind
    obtain ⟨hle, ps, hleads, hfind⟩ := ih hblock h
    refine ⟨by omega, ps, ?_, hfind⟩
    obtain ⟨k, rfl⟩ := Nat.exists_eq_add_of_le hle
    rw [show depth + 1 + k - (depth + 1) = k by omega] at hleads
    rw [show depth + 1 + k - depth = k + 1 by omega]
    exact .inside hleads
  | case4 => cases h

/-- **Replacing the active statements keeps the runs** from a state if they run like the new ones
from it. The induction goes down the leading blocks, which do nothing before their first
statement. -/
theorem Leads.runs_splice {depth n : Nat} {active : List Program} (hleads : Leads depth p ps)
    (hsplice : spliceAt depth n active p = .ok q) (hsame : SameRuns M s (ps.take n) active)
    (o : Outcome) (s' : ProgState D) : Runs M p s o s' ↔ Runs M q s o s' := by
  induction hleads generalizing q o s' with
  | @here ps =>
    obtain ⟨rest, hrest, hq⟩ := bind_eq_ok.mp hsplice
    obtain rfl := Except.ok.inj hq
    have hdrop : rest = ps.drop n := by
      rw [statementsAfter] at hrest
      split at hrest
      · exact (Except.ok.inj hrest).symm
      · cases hrest
    have happend := hsame.append rest o s'
    rw [hdrop, List.take_append_drop] at happend
    rw [runs_block_iff, happend, hdrop]
    exact runs_block_iff.symm
  | @inside depth first rest ps _ ih =>
    obtain ⟨first', hfirst', hq⟩ := bind_eq_ok.mp hsplice
    obtain rfl := Except.ok.inj hq
    simp only [runs_block_iff, runsAll_cons_iff, ih hfirst' hsame]

/-- **Active statements run as they are replaced.** If the pattern and the template of a rule have
active statements, they stand for sequences of statements in one context, so the program before runs
like the one after as soon as the two sequences do. -/
theorem sameRuns_of_active {rule : String} {active active' : List Program} {σ τ υ : Instantiations}
    (hmatch : (activeBlock active).matchInto p σ = some τ) (hle : τ ≤ υ)
    (hinst : (activeBlock active').instantiate rule υ = .ok q) :
    ∃ old new, instantiateRun rule υ active = .ok old ∧ instantiateRun rule υ active' = .ok new ∧
      ∀ {D : Type u} [Nonempty D] {M : Interpretation D} {s : ProgState D}, SameRuns M s old new →
        ∀ o s', Runs M p s o s' ↔ Runs M q s o s' := by
  rw [activeBlock, Program.block, matchInto, matchActive] at hmatch
  split at hmatch <;> rename_i hkind
  · split at hmatch <;> rename_i hfound
    · rename_i depth φ n
      obtain ⟨-, ps, hleads, hrun⟩ := leads_of_findActive hkind hfound
      obtain ⟨-, -, hback⟩ :=
        runReproduces_of_forall (fun p _ => reproduces rule p) _ _ _ _ hrun
      have hold := hback υ (Instantiations.le_trans (Instantiations.le_of_withContext hmatch) hle)
      have hctx := Instantiations.context_of_le hle (Instantiations.context_of_withContext hmatch)
      rw [activeBlock, Program.block, instantiate, hctx] at hinst
      obtain ⟨new, hnew, hsplice⟩ := bind_eq_ok.mp hinst
      refine ⟨_, new, hold, hnew, fun hsame => ?_⟩
      exact hleads.runs_splice (TemplateError.ofFault_eq_ok.mp hsplice) hsame
    · cases hmatch
  · cases hmatch

end Program

end SequentSearch
