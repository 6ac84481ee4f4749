import SequentSearch.Proofs.Decomposition
import SequentSearch.Proofs.Indices
import SequentSearch.Proofs.Offers

/-!
# Goals that are stuck

The usual strategy never makes an application twice on a branch, even if a formula that was taken
apart comes back later. That this costs nothing is the invariant of the branch (`Settled`): a
formula that was worked on is refuted by whoever refutes the **lighter** formulas of the sequent. It
holds because what a step puts in the place of a formula is lighter than the formula
(`Reduces.settled`).

So a goal for which nothing is offered has a countermodel, the valuation that makes the atoms on its
left true: by induction on the weight, each of its formulas is an atom, or says nothing, or was
worked on before (`Calculus.counters_of_stuck`).
-/

namespace SequentSearch

/-! ## The invariant of a branch -/

/-- **The formulas worked on are settled**: who refutes the lighter formulas of the sequent refutes
them. -/
def Settled (trail : Trail) (seq : Sequent) : Prop :=
  ∀ app ∈ trail, ∀ o, app.focus = some o →
    ∀ {D : Type} [Nonempty D] {M : Interpretation D} {β : Env D}, β.IsObjects →
      (seq.All fun side f => f.term.weight < o.formula.term.weight → M.Refutes β side f.term) →
        M.Refutes β o.side o.formula.term

theorem settled_nil (seq : Sequent) : Settled [] seq := fun _ h => (nomatch h)

/-- Refuting the formulas below a weight does not see redundancy. -/
theorem respectsRedundancy_lighter {D : Type} [Nonempty D] (M : Interpretation D)
    (β : Env D) (n : Nat) :
    RespectsRedundancy fun side f => f.term.weight < n → M.Refutes β side f.term where
  trivial h _ := (M.respectsRedundancy_refutes β).trivial h
  alpha h := by
    rw [Term.weight_eq_of_alphaEqUnder h, (M.respectsRedundancy_refutes β).alpha h]

section

open RuleApp

variable {seq : Sequent} {o : Occurrence} {idx : Nat} {new : List (Side × SeqFormula)}
  {change : Change}

/-- All formulas that take the place of a focus are lighter than it. -/
theorem Reduces.weight_lt (h : Reduces seq o idx new change) {e : Side × SeqFormula}
    (he : e ∈ new) :
    e.2.term.weight < o.formula.term.weight := by
  have hmem : e.2.term.weight ∈ new.map fun e => e.2.term.weight := List.mem_map_of_mem he
  exact Nat.lt_of_le_of_lt (List.le_sum_of_mem hmem) h.lighter

/-- **A step keeps what was settled, and settles its focus.** -/
theorem Reduces.settled (h : Reduces seq o idx new change)
    (hidx : (seq.side o.side)[idx]? = some o.formula) {app : RuleApp} (happ : app.focus = some o)
    {trail : Trail} (htrail : Settled trail seq) : Settled (app :: trail) change.sequent := by
  intro a ha o' ho' D _ M β hβ hall
  obtain ⟨hkept, hnew⟩ :=
    (h.adds.all_iff (respectsRedundancy_lighter M β o'.formula.term.weight)).mp hall
  -- the focus is refuted as soon as what takes its place is light enough
  have hfocus : o.formula.term.weight ≤ o'.formula.term.weight →
      M.Refutes β o.side o.formula.term := by
    intro hle
    refine h.refutes hβ fun e he => hnew e he ?_
    exact Nat.lt_of_lt_of_le (h.weight_lt he) hle
  rcases List.mem_cons.mp ha with rfl | ha
  · obtain rfl : o = o' := Option.some.inj (happ.symm.trans ho')
    exact hfocus (Nat.le_refl _)
  · refine htrail a ha o' ho' hβ ((Change.all_eraseIdx hidx).mpr ⟨fun hlt => ?_, hkept⟩)
    exact hfocus (Nat.le_of_lt hlt)

/-- A step makes the sequent lighter. -/
theorem Reduces.total_lt (h : Reduces seq o idx new change)
    (hidx : (seq.side o.side)[idx]? = some o.formula) :
    change.sequent.total (fun f => f.term.weight) < seq.total fun f => f.term.weight := by
  calc change.sequent.total (fun f => f.term.weight)
      ≤ (without seq o.side idx).total (fun f => f.term.weight) +
          (new.map fun e => e.2.term.weight).sum :=
        h.adds.total_le _ fun f g hfg => Term.weight_eq_of_alphaEqUnder hfg
    _ < (without seq o.side idx).total (fun f => f.term.weight) + o.formula.term.weight :=
        Nat.add_lt_add_left h.lighter _
    _ = seq.total fun f => f.term.weight := by
        rw [Change.total_eraseIdx hidx, Nat.add_comm, without]

/-- A step on a sequent of propositional logic leads to one. -/
theorem Reduces.all_propositional (h : Reduces seq o idx new change)
    (hseq : seq.All fun _ f => f.term.IsPropositional) :
    change.sequent.All fun _ f => f.term.IsPropositional := by
  intro side f hf
  rcases h.adds.mem hf with hold | hnew
  · exact hseq side f hold
  · exact h.propositional _ hnew

end

/-! ## The countermodel of a goal without offers -/

/-- The valuation that makes the atoms on the left of a sequent true, and no others. -/
def Sequent.valuation (seq : Sequent) (f : FunSym) : Bool :=
  seq.antec.any fun g => g.term.op = .func f

namespace Calculus

variable {seq : Sequent} {side : Side} {f : SeqFormula} {β : Env Unit}

/-- An atom has no arguments, so it is determined by its predicate. -/
theorem alphaEq_of_atom {p : FunSym} {t u : Term} (ht : t.IsPropositional) (hu : u.IsPropositional)
    (htop : t.op = .func p) (huop : u.op = .func p) : t.alphaEq u := by
  have hargs : ∀ {t : Term}, t.IsPropositional → t.op = .func p → t.args = [] := by
    intro t ht hop
    rcases ht.op_cases with ⟨_, -, -, -, hargs⟩ | ⟨c, ts, hc, -⟩
    · exact hargs
    · cases hop.symm.trans hc
  have htargs := hargs ht htop
  have huargs := hargs hu huop
  obtain ⟨op, args, labels⟩ := t
  obtain ⟨op', args', labels'⟩ := u
  obtain rfl : op = .func p := htop
  obtain rfl : op' = .func p := huop
  obtain rfl : args = [] := htargs
  obtain rfl : args' = [] := huargs
  exact (Term.alphaEqUnder_node fun _ => Operator.noConfusion).mpr ⟨rfl, .nil⟩

/-- An atom that is not on both sides is refuted. -/
theorem refutes_atom {p : FunSym} (hprop : f.term.IsPropositional) (hop : f.term.op = .func p)
    (hf : f ∈ seq.side side) (hshared : side = .succ → ∀ g ∈ seq.antec, g.term.op ≠ .func p) :
    (Interpretation.ofValuation seq.valuation).Refutes β side f.term := by
  have htruth : f.term.truthUnder seq.valuation = seq.valuation p := by
    obtain ⟨⟨op, args, labels⟩, hformula⟩ := f
    obtain rfl : op = .func p := hop
    rw [Term.truthUnder, Term.truth]
    exact fun _ => Operator.noConfusion
  have hholds := Interpretation.holds_ofValuation (v := seq.valuation) hprop β
  rw [htruth] at hholds
  cases side with
  | antec => exact hholds.mpr (List.any_eq_true.mpr ⟨f, hf, by simpa using hop⟩)
  | succ =>
    intro hcontra
    obtain ⟨g, hg, hsame⟩ := List.any_eq_true.mp (hholds.mp hcontra)
    exact hshared rfl g hg (by simpa using hsame)

/-- **A formula is reducible or refuted as it stands.** -/
theorem reducible_or_refutes (hseq : seq.All fun _ f => f.term.IsPropositional)
    (hf : f ∈ seq.side side) :
    Reducible seq side f ∨ (Interpretation.ofValuation seq.valuation).Refutes β side f.term := by
  have hprop := hseq side f hf
  rcases hprop.op_cases with ⟨p, hop, -, -, hargs⟩ | ⟨c, ts, hop, hlen, hargs, hts⟩
  · by_cases hshared : side = .succ ∧ ∃ g ∈ seq.antec, g.term.op = .func p
    · obtain ⟨rfl, g, hg, hsame⟩ := hshared
      exact .inl (reducible_of_shared hg (alphaEq_of_atom hprop (hseq .antec g hg) hop hsame))
    · refine .inr (refutes_atom hprop hop hf fun hside g hg hsame => hshared ⟨hside, g, hg, hsame⟩)
  · by_cases htrivial : f.isTrivialOn side
    · exact .inr ((Interpretation.respectsRedundancy_refutes _ β).trivial htrivial)
    · refine .inl (reducible_of_connective hop hargs hlen (fun t ht => ?_) htrivial)
      exact Term.IsPropositional.isFormula (hts t ht)

/-- **What is reducible and not offered was worked on before.** -/
theorem mem_trail_of_stuck {ctx : FeatureContext} {index : MatchIndex}
    (hindex : index.Follows (.ofRules propositional) seq)
    (hstuck : (Strategy.ofSettings {}).offers ctx index seq = []) (hf : f ∈ seq.side side)
    (h : Reducible seq side f) : ∃ app ∈ ctx.trail, app.focus = some ⟨side, f, []⟩ := by
  obtain ⟨app, happ, done, hdone, hrule, hauto, hfocus, hsame, hfocus'⟩ := h
  by_contra hnone
  push Not at hnone
  have hdraft : app.rule.toRuleDraft ∈ propositionalDrafts := RuleDraft.mem_acceptAll hrule
  have happroves : ∀ a : RuleApp, a.rule = app.rule → a.focus = app.focus →
      (Strategy.ofSettings {}).approves ctx a := by
    intro a harule hafocus
    have hnew : ctx.trail.any (·.same a) = false := by
      refine List.any_eq_false.mpr fun b hb hdup => hnone b hb ?_
      have hplace : (b.focus == a.focus) = true := by simp_all [RuleApp.same]
      rw [eq_of_beq hplace, hafocus, hfocus]
    rw [Strategy.approves_ofSettings, harule, hauto, hnew,
      propositionalDrafts_weighted _ hdraft hauto]
    rfl
  have hmem : app ∈ index.apps := hindex.mem_apps.mpr (.inl ⟨side, f, hf, happ⟩)
  have hoffer := Strategy.mem_offers_ofSettings.mpr ⟨app, hmem, happroves app rfl rfl, hdone, rfl,
    happroves done hsame hfocus'⟩
  rw [hstuck] at hoffer
  cases hoffer

/-- **A goal without offers has a countermodel**, given by the atoms on its left. -/
theorem counters_of_stuck {ctx : FeatureContext} {index : MatchIndex} (hβ : β.IsObjects)
    (hseq : seq.All fun _ f => f.term.IsPropositional)
    (hindex : index.Follows (.ofRules propositional) seq) (htrail : Settled ctx.trail seq)
    (hstuck : (Strategy.ofSettings {}).offers ctx index seq = []) :
    (Interpretation.ofValuation seq.valuation).Counters β seq := by
  -- by induction on the weight, since a formula worked on is refuted once the lighter ones are
  suffices hweight : ∀ n, seq.All fun side f => f.term.weight < n →
      (Interpretation.ofValuation seq.valuation).Refutes β side f.term from
    fun side f hf => hweight _ side f hf (Nat.lt_succ_self _)
  intro n
  induction n with
  | zero => exact fun side f _ hlt => absurd hlt (Nat.not_lt_zero _)
  | succ n ih =>
    intro side f hf hlt
    rcases reducible_or_refutes hseq hf with hred | hrefutes
    · obtain ⟨app, happ, hfocus⟩ := mem_trail_of_stuck hindex hstuck hf hred
      refine htrail app happ _ hfocus hβ fun side' g hg hlighter => ih side' g hg ?_
      exact Nat.lt_of_lt_of_le hlighter (Nat.lt_succ_iff.mp hlt)
    · exact hrefutes

end Calculus

end SequentSearch
