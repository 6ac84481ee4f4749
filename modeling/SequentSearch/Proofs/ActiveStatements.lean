import Mathlib.Order.Bounds.Basic
import SequentSearch.Proofs.ProgramRuns

/-!
# The place of active statements

Active statements are looked for at the level of a block first, then in its leading nested blocks,
from the outside in. What is recorded when they are found is a depth and a count. The program that
belongs to them is `Program.surround outer (taken ++ rest)`: the statements that were taken, those
behind them in the same block, and for each block around it the statements that follow the nested
one.

A match takes the statements at the least depth where the patterns match at all, and splicing puts
others in their place and keeps every other statement (`Program.matchInto_activeBlock_outermost`).
The search for the place counts downwards in a loop and splicing goes down by recursion, so this is
where the two agree.
-/

namespace SequentSearch

namespace Program

variable {p : Program} {ps : List Program} {depth : Nat}

/-! ## Blocks around statements -/

/-- The block that has `stmts` at the depth `outer.length`. An entry of `outer` is what follows the
nested block on its level, the outermost level first. -/
def surround : List (List Program) → List Program → Program
  | [], stmts => block stmts
  | rest :: outer, stmts => block (surround outer stmts :: rest)

/-- A block with statements at some depth surrounds them. -/
theorem Leads.exists_surround (h : Leads depth p ps) :
    ∃ outer : List (List Program), outer.length = depth ∧ p = surround outer ps := by
  induction h with
  | here => exact ⟨[], rfl, rfl⟩
  | @inside depth first rest ps _ ih =>
    obtain ⟨outer, hlen, hfirst⟩ := ih
    exact ⟨rest :: outer, by rw [List.length_cons, hlen], by rw [surround, ← hfirst, block]⟩

/-- **Splicing replaces the statements at the front of the innermost block**, and nothing else. -/
theorem spliceAt_surround (outer : List (List Program)) (taken rest stmts : List Program) :
    spliceAt outer.length taken.length stmts (surround outer (taken ++ rest)) =
      .ok (surround outer (stmts ++ rest)) := by
  induction outer with
  | nil =>
    have hrest : statementsAfter taken.length (block (taken ++ rest)) = .ok rest := by
      simp [statementsAfter, block]
    rw [List.length_nil, surround, spliceAt, hrest]
    rfl
  | cons level outer ih =>
    rw [List.length_cons, surround, block, spliceAt, ih]
    rfl

/-! ## The outermost place -/

/-- **What is found is the outermost**: nothing is accepted in the leading blocks around it. -/
theorem find_eq_none_of_leads {α : Type} {find : List Program → Option α}
    {start found d : Nat} {x : α} (h : findActive find start p = some (found, x))
    (hleads : Leads d p ps) (hd : start + d < found) :
    find ps = none := by
  induction hleads generalizing start with
  | @here ps =>
    cases ps with
    | nil =>
      obtain ⟨y, -, heq⟩ := Option.map_eq_some_iff.mp h
      obtain ⟨rfl, -⟩ := Prod.mk.inj heq
      omega
    | cons first rest =>
      rw [findActive] at h
      split at h <;> rename_i hfind
      · obtain ⟨rfl, -⟩ := Prod.mk.inj (Option.some.inj h)
        omega
      · exact hfind
  | @inside d first rest ps _ ih =>
    rw [findActive] at h
    split at h <;> rename_i hfind
    · obtain ⟨rfl, -⟩ := Prod.mk.inj (Option.some.inj h)
      omega
    · split at h
      · exact ih h (by omega)
      · cases h

variable {active cs : List Program} {σ τ υ : Instantiations} {n : Nat}

/-- A match of a sequence takes statements that are there. -/
theorem le_length_of_matchRun (h : matchRun active cs σ = some (τ, n)) : n ≤ cs.length := by
  have hback : RunReproduces "" active := runReproduces_of_forall fun p _ => reproduces "" p
  exact (hback cs σ τ n h).2.1

/-- **Active statements are found at the outermost place, and splicing changes nothing else.** The
context that a match records has the matched block as its outer block, and as its depth the least
one where the patterns match the statements of the leading block. Of these statements those are
active that the match has taken. Splicing puts other statements in the place of exactly these; the
statements behind them and those that follow a leading block on any level stay where they are. So
splicing the active statements themselves gives the block back. -/
theorem matchInto_activeBlock_outermost (h : (activeBlock active).matchInto p σ = some υ) :
    ∃ ctx τ outer taken rest, υ.context = some ctx ∧ τ.withContext ctx = some υ ∧ ctx.outer = p ∧
      IsLeast {d | ∃ ps, Leads d p ps ∧ (matchRun active ps σ).isSome} ctx.depth ∧
      Leads ctx.depth p (taken ++ rest) ∧
      matchRun active (taken ++ rest) σ = some (τ, ctx.consumed) ∧
      taken.length = ctx.consumed ∧ outer.length = ctx.depth ∧ p = surround outer (taken ++ rest) ∧
      (∀ stmts, ctx.splice stmts = .ok (surround outer (stmts ++ rest))) ∧
        ctx.splice taken = .ok p := by
  rw [activeBlock, block, matchInto, matchActive] at h
  split at h <;> rename_i hkind
  · split at h <;> rename_i hfound
    · rename_i depth τ n
      obtain ⟨-, ps, hleads, hrun⟩ := leads_of_findActive hkind hfound
      rw [Nat.sub_zero] at hleads
      obtain ⟨outer, hdepth, hp⟩ := hleads.exists_surround
      have hn : (ps.take n).length = n := by
        rw [List.length_take, min_eq_left (le_length_of_matchRun hrun)]
      have hps : ps.take n ++ ps.drop n = ps := List.take_append_drop n ps
      have hsplice : ∀ stmts, ProgramContext.splice ⟨p, depth, n⟩ stmts =
          .ok (surround outer (stmts ++ ps.drop n)) := by
        intro stmts
        have := spliceAt_surround outer (ps.take n) (ps.drop n) stmts
        rwa [hdepth, hn, hps, ← hp] at this
      have hleast : IsLeast {d | ∃ ps, Leads d p ps ∧ (matchRun active ps σ).isSome} depth := by
        refine ⟨⟨ps, hleads, by rw [hrun]; rfl⟩, ?_⟩
        rintro d ⟨ps', hleads', hsome⟩
        by_contra hlt
        have hnone := find_eq_none_of_leads hfound hleads' (by omega)
        rw [hnone] at hsome
        cases hsome
      refine ⟨⟨p, depth, n⟩, τ, outer, ps.take n, ps.drop n,
        Instantiations.context_of_withContext h, h, rfl, hleast, ?_⟩
      rw [hps]
      exact ⟨hleads, hrun, hn, hdepth, hp, hsplice, by rw [hsplice, hps, ← hp]⟩
    · cases h
  · cases h

/-- A run of expressions, a `return` and a statement. -/
private def returning : List Program :=
  [schema { name := "#es", kind := .program .expression, list := true }, node .ret [],
    schema { name := "#s", kind := .program .statement }]

/-- `{ { return; skip; { } } skip; }` -/
private def returnInside : Program := block [block [node .ret [], skip, block []], skip]

/-- The run of expressions is empty. On the outer level a block stands where the `return` should be,
and inside two statements are taken. -/
theorem matchInto_activeBlock_outermost_returnInside :
    ∃ υ, (activeBlock returning).matchInto returnInside {} = some υ ∧
      υ.context = some ⟨returnInside, 1, 2⟩ ∧
      IsLeast {d | ∃ ps, Leads d returnInside ps ∧ (matchRun returning ps {}).isSome} 1 ∧
      ∃ outer taken rest, taken.length = 2 ∧ outer.length = 1 ∧
        returnInside = surround outer (taken ++ rest) ∧
        (∀ stmts, ProgramContext.splice ⟨returnInside, 1, 2⟩ stmts =
          .ok (surround outer (stmts ++ rest))) ∧
        ProgramContext.splice ⟨returnInside, 1, 2⟩ taken = .ok returnInside := by
  have hsome : ((activeBlock returning).matchInto returnInside {}).isSome := by decide
  obtain ⟨υ, hυ⟩ := Option.isSome_iff_exists.mp hsome
  have hcontext : υ.context = some ⟨returnInside, 1, 2⟩ := by
    have : ((activeBlock returning).matchInto returnInside {}).bind Instantiations.context =
        some ⟨returnInside, 1, 2⟩ := by decide
    rwa [hυ] at this
  obtain ⟨ctx, -, outer, taken, rest, hctx, -, -, hleast, -, -, hlen, hdepth, hp, hsplice, hback⟩ :=
    matchInto_activeBlock_outermost hυ
  obtain rfl : ⟨returnInside, 1, 2⟩ = ctx := Option.some.inj (hcontext.symm.trans hctx)
  exact ⟨υ, hυ, hcontext, hleast, outer, taken, rest, hlen, hdepth, hp, hsplice, hback⟩

end Program

end SequentSearch
