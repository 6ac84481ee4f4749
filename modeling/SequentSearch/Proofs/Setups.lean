import SequentSearch.Proofs.StepLimits
import SequentSearch.Proofs.Turns

/-!
# Setups

A chooser and a stop condition are **set up** once: which goals come first, which applications are
significant, how many of them are allowed. All else they come to remember while a search runs. What
a chooser was set up with is what is left when it is cleared (`Chooser.clear`). For a stop condition
this is not enough, since a limit goes on counting its steps when it is cleared, so
`StopCondition.anew` says it.

A search does not change a setup (`Search.SameSetup`).
-/

namespace SequentSearch

namespace StopCondition

variable {p : Proof} {stop stop' : StopCondition}

/-- **The condition as it was set up**, before it has counted or decided anything. -/
def anew : StopCondition → StopCondition
  | budget => budget
  | stepLimit l => significant l.limit l.significance
  | both first second _ _ => first.anew.and second.anew

theorem anew_stepLimit {l l' : StepLimit}
    (h : l'.limit = l.limit ∧ l'.significance = l.significance) :
    (stepLimit l').anew = (stepLimit l).anew := by
  rw [anew, anew, h.1, h.2]

theorem anew_both {first first' second second' : StopCondition} {d d' s s' : Option Part}
    (hfirst : first'.anew = first.anew) (hsecond : second'.anew = second.anew) :
    (both first' second' d' s').anew = (both first second d s).anew := by
  rw [anew, anew, hfirst, hsecond]

theorem anew_allows (stop : StopCondition) (p : Proof) (g : GoalId) (b : Budget) :
    (stop.allows p g b).2.anew = stop.anew := by
  induction stop with
  | budget => rfl
  | stepLimit l => exact anew_stepLimit (l.answers_allows p g).same
  | both first second _ _ ihfirst ihsecond =>
    rw [allows]
    rcases hfirst : first.allows p g b with ⟨_ | _, first'⟩ <;> rw [hfirst] at ihfirst
    · exact anew_both ihfirst rfl
    · rcases hsecond : second.allows p g b with ⟨_ | _, second'⟩ <;> rw [hsecond] at ihsecond <;>
        exact anew_both ihfirst ihsecond

theorem anew_of_asked (h : Arbiter.Asked p stop stop') : stop'.anew = stop.anew := by
  induction h with
  | refl => rfl
  | tail _ hask ih =>
    obtain ⟨g, b, rfl⟩ := hask
    exact (anew_allows ..).trans ih

theorem anew_stops (stop : StopCondition) (p : Proof) (b : Budget) (step : Option AppliedStep) :
    (stop.stops p b step).2.anew = stop.anew := by
  induction stop with
  | budget => rfl
  | stepLimit l =>
    cases step with
    | none => rfl
    | some made => exact anew_stepLimit ⟨(l.follow_same p made).1, (l.follow_same p made).2.1⟩
  | both first second _ _ ihfirst ihsecond => exact anew_both ihfirst ihsecond

theorem anew_maximalWork (stop : StopCondition) (b : Budget) :
    (stop.maximalWork b).2.anew = stop.anew := by
  induction stop with
  | budget => rfl
  | stepLimit l => rfl
  | both first second _ _ ihfirst ihsecond => exact anew_both ihfirst ihsecond

/-- **A condition that was cleared starts anew.** The limits forget their counts when a search
starts, but the parts that have denied a goal or stopped a search are forgotten only when the
condition is cleared. -/
theorem maximalWork_clear (stop : StopCondition) (b : Budget) :
    (stop.clear.maximalWork b).2 = stop.anew := by
  induction stop with
  | budget => rfl
  | stepLimit l => rfl
  | both first second _ _ ihfirst ihsecond =>
    simp only [clear, maximalWork, anew, and, ihfirst, ihsecond]

end StopCondition

namespace Search

variable {env : Surroundings} {s t u : Search}

/-- **The chooser and the stop condition are set up the same way**, whatever they have come to
remember. -/
structure SameSetup (s t : Search) : Prop where
  /-- goals are chosen the same way -/
  chooser : t.chooser.clear = s.chooser.clear
  /-- and the search ends under the same conditions -/
  stop : t.stop.anew = s.stop.anew

theorem SameSetup.refl (s : Search) : SameSetup s s := ⟨rfl, rfl⟩

theorem SameSetup.trans (h : SameSetup s t) (h' : SameSetup t u) : SameSetup s u :=
  ⟨h'.chooser.trans h.chooser, h'.stop.trans h.stop⟩

theorem Considers.sameSetup (h : Considers s t) : SameSetup s t :=
  ⟨h.clear, StopCondition.anew_of_asked h.asked⟩

theorem Pass.sameSetup (h : Pass s t) : SameSetup s t := by
  cases h with
  | stuck hasks _ => exact hasks.sameSetup.trans ⟨Chooser.clear_remove .., rfl⟩

theorem Passes.sameSetup (h : Passes s t) : SameSetup s t :=
  holds_of_passes (P := SameSetup s) (fun _ _ hs hpass => hs.trans hpass.sameSetup) h (.refl s)

theorem Turn.sameSetup {result : Except Ending AppliedStep} (h : Turn env s result t) :
    SameSetup s t := by
  cases h with
  | exhausted hconsiders _ => exact hconsiders.sameSetup
  | denied hasks => exact hasks.sameSetup
  | nonCloseable hasks _ _ => exact hasks.sameSetup.trans ⟨rfl, rfl⟩
  | failed hasks _ _ => exact hasks.sameSetup.trans ⟨rfl, rfl⟩
  | made hasks _ _ => exact hasks.sameSetup.trans ⟨Chooser.clear_update .., rfl⟩

theorem sameSetup_accounted (env : Surroundings) (made : AppliedStep) (s : Search) :
    SameSetup s (s.accounted env made) := ⟨rfl, StopCondition.anew_stops ..⟩

theorem Ends.sameSetup {e : Ending} (h : Ends env s e t) : SameSetup s t := by
  cases h with
  | interrupted _ => exact .refl s
  | turned hturn => exact hturn.sameSetup
  | stopped hturn _ => exact hturn.sameSetup.trans (sameSetup_accounted ..)

/-- **A search does not change how it was set up.** -/
theorem sameSetup_of_run (hsound : s.chooser.Sound) {fuel : Nat} {e : Ending}
    (hrun : s.run env fuel = some (e, t)) : SameSetup s t := by
  obtain ⟨u, hu, hends⟩ := holds_of_run (P := SameSetup s)
    (fun _ _ hs hpass => hs.trans hpass.sameSetup)
    (fun _ _ _ hs hturn => hs.trans (hturn.sameSetup.trans (sameSetup_accounted ..)))
    hsound (.refl s) hrun
  exact hu.trans hends.sameSetup

end Search

end SequentSearch
