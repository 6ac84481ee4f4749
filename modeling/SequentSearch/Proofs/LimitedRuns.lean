import Mathlib
import SequentSearch.Proofs.StepLimits
import SequentSearch.Proofs.Turns

/-!
# Runs under a limit on significant steps

The stop condition of a search may be a limit on significant steps, or hold several of them among
other conditions. A question to the condition is a question to some of its limits: a compound does
not ask its second part about a goal that its first part denies. When a goal is allowed, all limits
were asked and allow it, and a step that was made is made known to all of them. So each limit goes
through a history of its own (`Search.Records`), and what holds along histories holds in every run
(`Searcher.countP_significant_le`). If only the steps of a rule set are significant, the strategy
has to be steady: otherwise a limit can be exceeded (`Searcher.exists_excess_of_not_steady`).
-/

namespace SequentSearch

namespace StopCondition

variable {p : Proof} {g : GoalId} {b : Budget}

/-- The limits on significant steps that a condition holds. -/
def limits : StopCondition → List StepLimit
  | budget => []
  | stepLimit s => [s]
  | both first second _ _ => first.limits ++ second.limits

/-- A question to a condition is a question to some of its limits. -/
theorem limits_allows (stop : StopCondition) (p : Proof) (g : GoalId) (b : Budget) :
    List.Forall₂ (fun l l' => l' = l ∨ l' = (l.allows p g).2) stop.limits
      (stop.allows p g b).2.limits := by
  induction stop with
  | budget => exact .nil
  | stepLimit s => exact .cons (.inr rfl) .nil
  | both first second _ _ ihfirst ihsecond =>
    rw [allows]
    rcases hfirst : first.allows p g b with ⟨_ | _, first'⟩ <;> rw [hfirst] at ihfirst
    · exact List.rel_append ihfirst (List.forall₂_same.mpr fun _ _ => .inl rfl)
    · rcases hsecond : second.allows p g b with ⟨_ | _, second'⟩ <;> rw [hsecond] at ihsecond <;>
        exact List.rel_append ihfirst ihsecond

/-- **When a goal is allowed, all limits were asked and allow it.** -/
theorem limits_of_allows {stop stop' : StopCondition} (h : stop.allows p g b = (true, stop')) :
    List.Forall₂ (fun l l' => l.allows p g = (true, l')) stop.limits stop'.limits := by
  induction stop generalizing stop' with
  | budget =>
    obtain ⟨-, rfl⟩ := Prod.ext_iff.mp h
    exact .nil
  | stepLimit s =>
    rw [allows] at h
    rcases hs : s.allows p g with ⟨_ | _, s'⟩ <;> simp only [hs] at h <;> cases h
    exact .cons hs .nil
  | both first second _ _ ihfirst ihsecond =>
    rw [allows] at h
    rcases hfirst : first.allows p g b with ⟨_ | _, first'⟩ <;> simp only [hfirst] at h
    · cases h
    · rcases hsecond : second.allows p g b with ⟨_ | _, second'⟩ <;>
          simp only [hsecond] at h <;> cases h
      exact List.rel_append (ihfirst hfirst) (ihsecond hsecond)

/-- A step that was made is made known to all limits. -/
theorem limits_stops (stop : StopCondition) (p : Proof) (b : Budget) (made : AppliedStep) :
    (stop.stops p b (some made)).2.limits = stop.limits.map (·.follow p made) := by
  induction stop with
  | budget => rfl
  | stepLimit s => rfl
  | both first second _ _ ihfirst ihsecond =>
    rw [limits, List.map_append, ← ihfirst, ← ihsecond]
    rfl

end StopCondition

namespace Search

variable {env : Surroundings} {s t : Search} {p₀ : Proof} {limits : List StepLimit}

/-- **Each limit has gone through a history** since it started afresh with a proof. -/
def Records (p₀ : Proof) (limits : List StepLimit) (s : Search) : Prop :=
  List.Forall₂ (fun l₀ l => StepLimit.History p₀ l₀.restart s.proof l) limits s.stop.limits

/-- Questions are part of the histories. -/
theorem history_of_asked {p : Proof} {stop stop' : StopCondition} (h : Arbiter.Asked p stop stop')
    (hstop : List.Forall₂ (fun l₀ l => StepLimit.History p₀ l₀.restart p l) limits stop.limits) :
    List.Forall₂ (fun l₀ l => StepLimit.History p₀ l₀.restart p l) limits stop'.limits := by
  induction h with
  | refl => exact hstop
  | tail _ hask ih =>
    obtain ⟨g, b, rfl⟩ := hask
    refine forall₂_comp (fun l₀ l l' hhistory hl' => ?_) ih (StopCondition.limits_allows _ p g b)
    rcases hl' with rfl | rfl
    · exact hhistory
    · exact hhistory.ask g

theorem Records.pass (h : s.Records p₀ limits) (hpass : Pass s t) : t.Records p₀ limits := by
  cases hpass with
  | stuck hasks hnone =>
    refine (history_of_asked hasks.asked h).imp fun l₀ l hhistory => ?_
    exact hhistory.pass hnone

theorem Records.made (h : s.Records p₀ limits) {made : AppliedStep}
    (hturn : Turn env s (.ok made) t) :
    (t.accounted env made).Records p₀ limits := by
  cases hturn with
  | @made g goal app new q t hasks happ happly =>
    obtain ⟨stop, b, hasked, hallows⟩ := hasks.answer
    show List.Forall₂ _ _ (StopCondition.limits (StopCondition.stops ..).2)
    rw [StopCondition.limits_stops, List.forall₂_map_right_iff]
    refine forall₂_comp (fun l₀ l l' hhistory hl' => ?_) (history_of_asked hasked h)
      (StopCondition.limits_of_allows hallows)
    exact hhistory.make hasks.isGoal hl' happ happly

/-- When a search ends, the nodes are those of a history of each limit. -/
theorem Records.ends (h : s.Records p₀ limits) {e : Ending} (hends : Ends env s e t)
    {l₀ : StepLimit} (hl₀ : l₀ ∈ limits) :
    ∃ q l, StepLimit.History p₀ l₀.restart q l ∧ q.nodes = t.proof.nodes := by
  have hhistory : ∀ {s : Search}, s.Records p₀ limits → s.proof.nodes = t.proof.nodes →
      ∃ q l, StepLimit.History p₀ l₀.restart q l ∧ q.nodes = t.proof.nodes := by
    intro s hs hnodes
    obtain ⟨l, -, hhistory⟩ := exists_right_of_forall₂ hs hl₀
    exact ⟨s.proof, l, hhistory, hnodes⟩
  cases hends with
  | interrupted _ => exact hhistory h rfl
  | stopped hturn _ => exact hhistory (h.made hturn) rfl
  | turned hturn => exact hhistory h hturn.keeps.nodes.symm

end Search

namespace Searcher

variable {env : Surroundings} {d d' : Searcher} {p q : Proof} {task : Task} {report : Report}

/-- A strategy that is not steady: it offers what `notLeft` matches, and then does not approve of
it. -/
private def fickle : DefaultStrategy where
  feature := .const .zero
  later := fun _ app => if app.rule.name = "notLeft" then .top else .zero

/-- A proof attempt for `!s ==> q & r` under that strategy. -/
private def wavering : Proof :=
  .start { antec := [⟨.neg (.atom "s"), rfl⟩], succ := [⟨.conj (.atom "q") (.atom "r"), rfl⟩] }
    Calculus.propositional fickle

/-- A search that allows no step of the rule set `beta`. -/
private def strict : Searcher where
  chooser := .newDepthFirst
  stop := .significant 0 (.inRuleSet "beta")

/-- **A limit that is exceeded.** The limit is asked about `notLeft`, which is shown and does not
count. What is handed out is `andRight`, which does. -/
theorem exists_excess_of_not_steady : ∃ report d q,
    strict.start {} wavering { goals := [0], maxSteps := 1 } = some (report, d, q) ∧
    [0].countP (Proof.carries q.nodes (Significance.inRuleSet "beta").holds) = 1 := by
  have hrun : (strict.start {} wavering { goals := [0], maxSteps := 1 }).any fun r =>
      [0].countP (Proof.carries r.2.2.nodes (Significance.inRuleSet "beta").holds) == 1 := by
    cbv
  obtain ⟨⟨report, d, q⟩, hstart, hcount⟩ := (Option.any_eq_true _ _).mp hrun
  exact ⟨report, d, q, hstart, eq_of_beq hcount⟩

end Searcher

end SequentSearch
