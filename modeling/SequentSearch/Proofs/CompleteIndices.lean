import Mathlib
import SequentSearch.Calculus.Propositional
import SequentSearch.Proofs.Requests
import SequentSearch.Proofs.Runs

/-!
# Goals know all matches

A goal does not look for matches all over again when its sequent changes, and where it looks it
tries only the rules whose pattern has the head of the term. Neither loses a match. What a goal
should know is said without any of this: `RuleApp.FoundIn` goes through all positions of all
formulas and all rules in force.

* `Term.head?_of_matchInto`: a pattern with a head matches terms of that head only, so the rules
  that are passed over do not match.
* `MatchIndex.Follows.mem_apps_iff`: an index that follows a sequent holds what can be found in it.
* `Proof.Indexed` says that the index of every goal follows its sequent. Requests keep it so, since
  a step records rightly what it adds and removes; this in turn needs that no formula is in a
  sequent twice.
-/

namespace SequentSearch

/-! ## What there is to be found -/

/-- A rule of a list is in force: no rule of its name comes later. -/
def Rule.InForce (rules : List Rule) (rule : Rule) : Prop :=
  ∃ earlier later, rules = earlier ++ rule :: later ∧ ∀ r ∈ later, r.name ≠ rule.name

/-- **The applications that can be found in a sequent**, by trying all rules in force everywhere. -/
inductive RuleApp.FoundIn (rules : List Rule) (seq : Sequent) : RuleApp → Prop where
  /-- the find part admits a position of a formula and matches the subterm there -/
  | focused {side : Side} {f : SeqFormula} {pos : Position} {sub : Term} {rule : Rule}
      {σ : Instantiations} (hf : f ∈ seq.side side) (hpos : (pos, sub) ∈ f.term.positions)
      (hrule : rule.InForce rules) (hadmits : rule.find.admits side pos.isEmpty)
      (hmatch : rule.matchFind sub = some σ) :
      FoundIn rules seq (.ofMatch rule σ (some ⟨side, f, pos⟩))
  /-- there is no find part -/
  | unfocused {rule : Rule} (hrule : rule.InForce rules) (hnone : rule.find.pattern? = none) :
      FoundIn rules seq (.ofMatch rule .empty none)

theorem Rule.inForce_concat {rules : List Rule} {rule r : Rule} :
    rule.InForce (rules ++ [r]) ↔ (rule.InForce rules ∧ rule.name ≠ r.name) ∨ rule = r := by
  constructor
  · rintro ⟨earlier, later, heq, hlater⟩
    rcases List.eq_nil_or_concat later with rfl | ⟨later, r', rfl⟩
    · have hlast := List.append_inj_right' heq rfl
      exact .inr (List.singleton_injective hlast).symm
    · rw [List.concat_eq_append] at heq hlater
      rw [← List.cons_append, ← List.append_assoc] at heq
      obtain ⟨hrules, hr⟩ := List.append_inj' heq rfl
      obtain rfl := List.singleton_injective hr
      refine .inl ⟨⟨earlier, later, hrules, fun s hs => hlater s (List.mem_append_left _ hs)⟩, ?_⟩
      exact (hlater r (by simp)).symm
  · rintro (⟨⟨earlier, later, rfl, hlater⟩, hne⟩ | rfl)
    · refine ⟨earlier, later ++ [r], by simp, fun s hs => ?_⟩
      rcases List.mem_append.mp hs with hs | hs
      · exact hlater s hs
      · exact List.mem_singleton.mp hs ▸ hne.symm
    · exact ⟨rules, [], rfl, fun s hs => (nomatch hs)⟩

/-- Only one rule of a name is in force. -/
theorem Rule.InForce.eq_of_name_eq {rules : List Rule} {rule rule' : Rule} (h : rule.InForce rules)
    (h' : rule'.InForce rules) (hname : rule.name = rule'.name) : rule = rule' := by
  induction rules using List.reverseRecOn with
  | nil =>
    obtain ⟨earlier, later, heq, -⟩ := h
    simp at heq
  | append_singleton rules r ih =>
    rcases inForce_concat.mp h with ⟨h, hne⟩ | rfl <;>
      rcases inForce_concat.mp h' with ⟨h', hne'⟩ | rfl
    · exact ih h h'
    · exact absurd hname hne
    · exact absurd hname.symm hne'
    · rfl

namespace RuleBase

/-- **A base holds the rules in force.** -/
theorem mem_ofRules_iff {rules : List Rule} {rule : Rule} :
    rule ∈ (ofRules rules).rules ↔ rule.InForce rules := by
  induction rules using List.reverseRecOn with
  | nil =>
    refine iff_of_false (fun h => (nomatch h)) ?_
    rintro ⟨earlier, later, heq, -⟩
    simp at heq
  | append_singleton rules r ih =>
    have hinsert : (ofRules (rules ++ [r])).rules =
        (ofRules rules).rules.filter (·.name != r.name) ++ [r] := by
      rw [ofRules, List.foldl_append]
      rfl
    rw [hinsert, Rule.inForce_concat, List.mem_append, List.mem_filter, ih,
      List.mem_singleton, bne_iff_ne]

end RuleBase

/-! ## Heads lose no match -/

namespace Term

/-- **What matches has the head of the pattern**, unless the pattern has none. -/
theorem head?_of_matchInto {p c : Term} {ρ : Renaming} {σ τ : Instantiations}
    (h : p.matchInto ρ c σ = some τ) : p.op.head? = none ∨ p.op.head? = c.op.head? := by
  obtain ⟨op, args, labels⟩ := p
  by_cases hsv : ∃ sv, op = .schema sv
  · obtain ⟨sv, rfl⟩ := hsv
    exact .inl rfl
  by_cases hvar : ∃ x, op = .var x
  · obtain ⟨x, rfl⟩ := hvar
    exact .inl rfl
  obtain ⟨υ, hop, -⟩ := (matchInto_node_eq_some (not_exists.mp hsv) (not_exists.mp hvar)).mp h
  refine .inr ?_
  rw [op_node]
  generalize c.op = o at hop
  -- modalities have the same head whatever their programs are
  fun_cases matchOperator op o σ <;> simp_all [matchOperator, Operator.head?]

end Term

namespace RuleApp

variable {base : RuleBase} {app : RuleApp}

/-- Matching finds in a formula what all rules match in it. -/
theorem mem_matchesIn_iff {side : Side} {f : SeqFormula} :
    app ∈ base.matchesIn side f ↔ ∃ pos sub rule σ, (pos, sub) ∈ f.term.positions ∧
      rule ∈ base.rules ∧ rule.find.admits side pos.isEmpty ∧
      rule.matchFind sub = some σ ∧ app = ofMatch rule σ (some ⟨side, f, pos⟩) := by
  rw [mem_matchesIn]
  constructor
  · rintro ⟨pos, sub, rule, σ, hpos, hrule, hfound⟩
    exact ⟨pos, sub, rule, σ, hpos, mem_candidates hrule, hfound⟩
  · rintro ⟨pos, sub, rule, σ, hpos, hrule, hadmits, hmatch, happ⟩
    obtain ⟨p, hp, hinto, -⟩ := matchFind_eq_some.mp hmatch
    have hcandidate := RuleBase.mem_candidates_of_head hrule hp (Term.head?_of_matchInto hinto)
    exact ⟨pos, sub, rule, σ, hpos, hcandidate, hadmits, hmatch, happ⟩

end RuleApp

/-- What can be found is what matching finds in the formulas, and the rules without a find part. -/
theorem RuleApp.foundIn_iff {rules : List Rule} {seq : Sequent} {app : RuleApp} :
    app.FoundIn rules seq ↔
      (∃ side, ∃ f ∈ seq.side side, app ∈ (RuleBase.ofRules rules).matchesIn side f) ∨
        ∃ rule ∈ (RuleBase.ofRules rules).withoutFocus, app = .ofMatch rule .empty none := by
  simp only [mem_matchesIn_iff, RuleBase.mem_ofRules_iff]
  constructor
  · rintro (⟨hf, hpos, hrule, hadmits, hmatch⟩ | ⟨hrule, hnone⟩)
    · exact .inl ⟨_, _, hf, _, _, _, _, hpos, hrule, hadmits, hmatch, rfl⟩
    · refine .inr ⟨_, List.mem_filter.mpr ⟨RuleBase.mem_ofRules_iff.mpr hrule, ?_⟩, rfl⟩
      exact Option.isNone_iff_eq_none.mpr hnone
  · rintro (⟨side, f, hf, pos, sub, rule, σ, hpos, hrule, hadmits, hmatch, rfl⟩ |
      ⟨rule, hrule, rfl⟩)
    · exact .focused hf hpos hrule hadmits hmatch
    · obtain ⟨hrule, hnone⟩ := List.mem_filter.mp hrule
      exact .unfocused (RuleBase.mem_ofRules_iff.mp hrule) (Option.isNone_iff_eq_none.mp hnone)

/-- **An index that follows a sequent holds what can be found in it.** -/
theorem MatchIndex.Follows.mem_apps_iff {rules : List Rule} {seq : Sequent} {index : MatchIndex}
    (h : index.Follows (.ofRules rules) seq) {app : RuleApp} :
    app ∈ index.apps ↔ app.FoundIn rules seq :=
  h.mem_apps.trans RuleApp.foundIn_iff.symm

/-! ## The indices of a proof -/

/-- A successful execution records rightly what it adds and removes. -/
theorem RuleApp.execute_adds {app : RuleApp} {seq : Sequent} {ns ns' : NameSupply}
    {succs : List Successor} (h : app.execute seq ns = (.ok succs, ns')) {s : Successor}
    (hs : s ∈ succs) :
    ∃ kept new, s.change.Adds seq kept new := by
  obtain ⟨-, focus, σ, -, -, htemplates⟩ := execute_spec h
  obtain ⟨g, -, hchange⟩ := exists_left_of_forall₂ htemplates hs
  obtain ⟨kept, new, antec, succ, -, -, -, hadds⟩ := applyTemplate_spec hchange
  exact ⟨kept, _, hadds⟩

namespace Proof

variable {p q : Proof} {rules : List Rule}

/-- **The index of every goal follows its sequent.** -/
structure Indexed (rules : List Rule) (p : Proof) : Prop where
  /-- the nodes form a tree -/
  tree : p.Tree
  /-- the rules are the given ones -/
  base : p.base = .ofRules rules
  /-- no formula is in the sequent of a goal twice, and the index follows it -/
  goal : ∀ g goal, p.goal? g = some goal →
    goal.sequent.Nodup ∧ goal.index.Follows (.ofRules rules) goal.sequent

theorem indexed_start {root : Sequent} (hroot : root.Nodup) (rules : List Rule)
    (strategy : Strategy) :
    Indexed rules (start root rules strategy) where
  tree := tree_start root rules strategy
  base := rfl
  goal g goal hgoal := by
    obtain ⟨-, rfl⟩ := goal?_start root rules strategy hgoal
    exact ⟨hroot, MatchIndex.follows_ofSequent _ root⟩

/-- **A step keeps the indices right.** -/
theorem Indexed.apply (h : Indexed rules p) (g : GoalId) (app : RuleApp) :
    Indexed rules (p.apply g app).2 where
  tree := h.tree.apply g app
  base := (apply_keeps h.tree g app).1.trans h.base
  goal g' goal' hgoal' := by
    rcases goal_of_apply h.tree hgoal' with hold | ⟨goal, succs, hgoal, hexec, s, hs, node, rfl, -⟩
    · exact h.goal g' goal' hold
    · obtain ⟨hnodup, hfollows⟩ := h.goal g goal hgoal
      obtain ⟨kept, new, hadds⟩ := RuleApp.execute_adds hexec hs
      refine ⟨hadds.nodup hnodup, ?_⟩
      have hupdate := hfollows.update (hadds.tracks hnodup)
      rwa [← h.base] at hupdate ⊢

theorem Indexed.keeps (h : Indexed rules p) (hkeeps : Keeps p q) : Indexed rules q where
  tree := h.tree.keeps hkeeps
  base := hkeeps.base.trans h.base
  goal g goal' hgoal' := by
    rcases hkeeps.goals g with ⟨-, hnone⟩ | ⟨goal, goal'', hp, hq, hsame⟩
    · cases hgoal'.symm.trans hnone
    · cases hgoal'.symm.trans hq
      rw [hsame.same.2.1, hsame.index]
      exact h.goal g goal hp

/-- **After any requests, an open goal knows the applications that an index of its sequent made anew
would hold, and these are all that can be found in it.** -/
theorem mem_index_apps_iff (antec succ : List SeqFormula) (rules : List Rule) (strategy : Strategy)
    (requests : List Request) {g : GoalId} {goal : Goal}
    (hgoal : ((start (.ofFormulas antec succ) rules strategy).after requests).goal? g = some goal)
    (app : RuleApp) :
    (app ∈ goal.index.apps ↔ app ∈ (MatchIndex.ofSequent (.ofRules rules) goal.sequent).apps) ∧
      (app ∈ (MatchIndex.ofSequent (.ofRules rules) goal.sequent).apps ↔
        app.FoundIn rules goal.sequent) := by
  have hindexed : Indexed rules ((start (.ofFormulas antec succ) rules strategy).after requests) :=
    holds_after (P := Indexed rules) (fun p g app h => h.apply g app) (fun p q hkeeps h =>
      h.keeps hkeeps) (indexed_start (Sequent.nodup_ofFormulas antec succ) rules strategy) requests
  have hanew : app ∈ (MatchIndex.ofSequent (.ofRules rules) goal.sequent).apps ↔
      app.FoundIn rules goal.sequent :=
    (MatchIndex.follows_ofSequent (.ofRules rules) goal.sequent).mem_apps_iff
  exact ⟨(hindexed.goal g goal hgoal).2.mem_apps_iff.trans hanew.symm, hanew⟩

/-- `p & !q`, which splits into `p` and `!q`. -/
private def splitting : SeqFormula :=
  ⟨.conj (.app (.predicate "p" 0) []) (.neg (.app (.predicate "q" 0) [])), by decide⟩

/-- The index of the goal with `!q` is not that of the root, and not empty. -/
theorem mem_index_apps_iff_splitting : ∃ (app : RuleApp) (goal : Goal),
    ((start (.ofFormulas [] [splitting]) Calculus.propositional (.ofSettings {})).after
      [.apply 0 app]).goal? 1 = some goal ∧ goal.index.isEmpty = false ∧
    ∀ found, found ∈ goal.index.apps ↔ found.FoundIn Calculus.propositional goal.sequent := by
  have hrun : ((start (.ofFormulas [] [splitting]) Calculus.propositional
      (.ofSettings {})).peek? 0).any fun app =>
        (((start (.ofFormulas [] [splitting]) Calculus.propositional (.ofSettings {})).after
          [.apply 0 app]).goal? 1).any fun goal => !goal.index.isEmpty := by
    cbv
  obtain ⟨app, -, hrun⟩ := (Option.any_eq_true _ _).mp hrun
  obtain ⟨goal, hgoal, hindex⟩ := (Option.any_eq_true _ _).mp hrun
  refine ⟨app, goal, hgoal, by simpa using hindex, fun found => ?_⟩
  obtain ⟨hanew, hfound⟩ := mem_index_apps_iff _ _ _ _ _ hgoal found
  exact hanew.trans hfound

end Proof

end SequentSearch
