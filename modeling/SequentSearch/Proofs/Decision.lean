import SequentSearch.Proofs.SearchLoop

/-!
# Search decides propositional logic

A search on a sequent of propositional logic, with the propositional rules, the usual strategy and
goals chosen depth first, ends with no goal left to work on if it may make enough applications. Then
the root is closed if and only if the sequent is true under every valuation.

If the root is closed it is true by soundness. If it is not closed then there is an open goal, which
is stuck and so has a countermodel; and who refutes a goal refutes the root.
-/

namespace SequentSearch

namespace Proof

variable {root : Sequent} {p : Proof}

/-- **When there is no work left, the root is closed if and only if it is true under every
valuation.** -/
theorem Searching.isClosed_iff (h : p.Searching root)
    (hstuck : ∀ g goal, p.goal? g = some goal → goal.offers = []) :
    p.isClosed ↔ ∀ v, root.TrueUnder v := by
  obtain ⟨handed, hrun⟩ := h.run
  have hcalc := h.calculusRun hrun
  let β : Env Unit := .ofObjects fun _ => ()
  have hβ : β.IsObjects := fun _ => ⟨(), rfl⟩
  constructor
  · intro hclosed v
    by_contra hfalse
    have hM := (Interpretation.counters_ofValuation h.propositional β).mpr hfalse
    exact Sequent.valid_iff.mp (hcalc.valid hclosed) Unit _ β hβ hM
  · intro htrue
    by_contra hopen
    obtain ⟨g, goal, hgoal⟩ := hrun.reached.tree.exists_goal hopen
    have hM := (h.goals g goal hgoal).counters (hstuck g goal hgoal) hβ
    have hroot := hcalc.counters_root hβ hgoal hM
    exact (Interpretation.counters_ofValuation h.propositional β).mp hroot (htrue _)

end Proof

/-- The formulas of a sequent of given formulas are among them. -/
theorem Sequent.all_ofFormulas {antec succ : List SeqFormula} {P : SeqFormula → Prop}
    (hantec : ∀ f ∈ antec, P f) (hsucc : ∀ f ∈ succ, P f) :
    (ofFormulas antec succ).All fun _ f => P f := by
  have hinserted : ∀ {side new f}, f ∈ (Semisequent.insertAll side 0 new []).result → f ∈ new := by
    intro side new f hf
    have hadded := (Semisequent.insertAll_perm side 0 new []).mem_iff.mp hf
    rw [List.append_nil] at hadded
    exact (Semisequent.insertAll_added_sublist side 0 new []).subset hadded
  intro side f hf
  cases side with
  | antec => exact hantec f (hinserted hf)
  | succ => exact hsucc f (hinserted hf)

namespace Searcher

/-- The search on the root goal starts with its invariant. -/
theorem proceeds_begin {root : Sequent} (hroot : root.All fun _ f => f.term.IsPropositional)
    (hnodup : root.Nodup) (m : Nat) :
    (begin { chooser := .newDepthFirst, stop := .budget }
      (.start root Calculus.propositional (.ofSettings {}))
      { goals := [0], maxSteps := m }).Proceeds root m := by
  refine ⟨Proof.searching_start hroot hnodup,
    ⟨_, rfl, List.nil_subperm, fun g goal hg => ?_⟩, rfl, rfl, rfl, rfl⟩
  obtain ⟨rfl, -⟩ := Proof.goal?_start _ _ _ hg
  refine .inl (List.mem_filter.mpr ⟨List.mem_cons_self, ?_⟩)
  exact Option.isSome_iff_exists.mpr ⟨goal, hg⟩

/-- **Search decides propositional logic.** For every sequent of formulas of propositional logic
there is a number of applications that is enough for a search on the root goal to end with no goal
left to work on; and whenever it ends so, the root is closed if and only if it is true under every
valuation. -/
theorem decides_propositional (antec succ : List SeqFormula)
    (hantec : ∀ f ∈ antec, f.term.IsPropositional) (hsucc : ∀ f ∈ succ, f.term.IsPropositional) :
    let root := Sequent.ofFormulas antec succ
    let search := fun (env : Surroundings) (m : Nat) =>
      start env { chooser := .newDepthFirst, stop := .budget }
        (.start root Calculus.propositional (.ofSettings {})) { goals := [0], maxSteps := m }
    (∃ N, ∀ env m, (∀ turn, env.cancelled turn = false) → N ≤ m → ∃ report d q,
      search env m = some (report, d, q) ∧ report.ending.outcome = .finished .goalsExhausted) ∧
    ∀ env m report d q, search env m = some (report, d, q) →
      report.ending.outcome = .finished .goalsExhausted → (q.isClosed ↔ ∀ v, root.TrueUnder v) := by
  intro root search
  have hbegin := proceeds_begin (Sequent.all_ofFormulas hantec hsucc)
      (Sequent.nodup_ofFormulas antec succ)
  constructor
  · -- one application more than the root is worth, since the limit must not be reached
    let p : Proof := .start root Calculus.propositional (.ofSettings {})
    let worth := (([0].filter p.isOpen).map p.worth).sum
    refine ⟨worth + 1, fun env m henv hm => ?_⟩
    have hlimit : 0 + worth < m := by omega
    have hfuel : worth < fuel { goals := [0], maxSteps := m } :=
      Nat.lt_of_lt_of_le hm (Nat.le_add_right ..)
    obtain ⟨s, hs⟩ := (hbegin m).exists_run henv hlimit hfuel
    exact ⟨_, _, _, Option.map_eq_some_iff.mpr ⟨_, hs, rfl⟩, rfl⟩
  · intro env m report d q hsearch hreport
    obtain ⟨⟨e, s⟩, hrun, heq⟩ := Option.map_eq_some_iff.mp hsearch
    cases heq
    obtain ⟨hproceeds, hstuck⟩ := (hbegin m).stuck_of_run hrun hreport
    exact hproceeds.searching.isClosed_iff hstuck

/-- Peirce's law, `((a -> b) -> a) -> a`. -/
private def peirce : SeqFormula :=
  let a : Term := .app (.predicate "a" 0) []
  let b : Term := .app (.predicate "b" 0) []
  ⟨.impl (.impl (.impl a b) a) a, by decide⟩

/-- A search on Peirce's law closes it. -/
theorem decides_propositional_peirce :
    (∀ f ∈ [peirce], f.term.IsPropositional) ∧ ∃ N, ∀ m, N ≤ m → ∃ report d q,
      start {} { chooser := .newDepthFirst, stop := .budget }
        (.start (.ofFormulas [] [peirce]) Calculus.propositional (.ofSettings {}))
        { goals := [0], maxSteps := m } = some (report, d, q) ∧
      report.ending.outcome = .finished .goalsExhausted ∧ q.isClosed := by
  have hprop : ∀ f ∈ [peirce], f.term.IsPropositional := by decide +kernel
  refine ⟨hprop, ?_⟩
  obtain ⟨⟨N, hends⟩, hdecides⟩ := decides_propositional [] [peirce] (fun _ h => (nomatch h)) hprop
  refine ⟨N, fun m hm => ?_⟩
  obtain ⟨report, d, q, hstart, hreport⟩ := hends {} m (fun _ => rfl) hm
  refine ⟨report, d, q, hstart, hreport,
    (hdecides {} m report d q hstart hreport).mpr fun v _ => ?_⟩
  refine ⟨peirce, List.mem_singleton.mpr rfl, ?_⟩
  have htable : ∀ a b, Connective.impl.truth
      [Connective.impl.truth [Connective.impl.truth [a, b], a], a] = true := by decide
  exact htable (v _) (v _)

end Searcher

end SequentSearch
