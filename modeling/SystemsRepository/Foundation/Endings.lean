import Mathlib.Logic.Relation

/-! # Runs that end

A system with several possible steps. `Ends` says of a state that every run from
it comes to a stop, and where; it is proved by an invariant and a rank, or carried
over from a more abstract system.
-/

namespace SystemsRepository.Foundation

open Relation (ReflTransGen)

variable {State : Type u} {Abstract : Type v} {step : State → State → Prop}
  {abstractStep : Abstract → Abstract → Prop} {Good : State → Prop}

def Stuck (step : State → State → Prop) (state : State) : Prop :=
  ∀ next, ¬step state next

/-- Every run is finite, and where it cannot go on the state is good. -/
inductive Ends (step : State → State → Prop) (Good : State → Prop) : State → Prop
  | intro {state : State} (stopped : Stuck step state → Good state)
      (continued : ∀ next, step state next → Ends step Good next) : Ends step Good state

namespace Ends

theorem next {state after : State} (ends : Ends step Good state) (stepped : step state after) :
    Ends step Good after := by
  cases ends with
  | intro stopped continued => exact continued after stepped

theorem stopped {state : State} (ends : Ends step Good state) (stuck : Stuck step state) :
    Good state := by
  cases ends with
  | intro stopped continued => exact stopped stuck

theorem mono {Weaker : State → Prop} {state : State} (ends : Ends step Good state)
    (weaken : ∀ final, Good final → Weaker final) : Ends step Weaker state := by
  induction ends with
  | intro stopped _ induction => exact .intro (fun stuck => weaken _ (stopped stuck)) induction

theorem reaches {state after : State} (ends : Ends step Good state)
    (run : ReflTransGen step state after) : Ends step Good after := by
  induction run with
  | refl => exact ends
  | tail run stepped induction => exact induction.next stepped

theorem good {state final : State} (ends : Ends step Good state)
    (run : ReflTransGen step state final) (stuck : Stuck step final) : Good final :=
  (ends.reaches run).stopped stuck

theorem exists_final {state : State} (ends : Ends step Good state) :
    ∃ final, ReflTransGen step state final ∧ Stuck step final := by
  induction ends with
  | @intro state stopped continued induction =>
      by_cases stuck : Stuck step state
      · exact ⟨state, .refl, stuck⟩
      · rcases Classical.not_forall.mp stuck with ⟨next, stepped⟩
        rcases induction next (Classical.not_not.mp stepped) with ⟨final, run, finalStuck⟩
        exact ⟨final, .head (Classical.not_not.mp stepped) run, finalStuck⟩

theorem of_invariant (Invariant : State → Prop) (rank : State → Nat)
    (kept : ∀ state after, Invariant state → step state after →
      Invariant after ∧ rank after < rank state)
    (good : ∀ state, Invariant state → Stuck step state → Good state) :
    ∀ state, Invariant state → Ends step Good state := by
  intro state
  induction state using (measure rank).wf.induction with
  | _ state smaller =>
      intro holds
      constructor
      · exact good state holds
      · intro next stepped
        have after := kept state next holds stepped
        exact smaller next after.2 after.1

/-- Each step of the system is one of the abstract system, or none, and then the
rank decreases. -/
theorem of_simulation {GoodAbstract : Abstract → Prop} (Related : State → Abstract → Prop)
    (rank : State → Nat)
    (matched : ∀ state abstract after, Related state abstract → step state after →
      (∃ next, abstractStep abstract next ∧ Related after next) ∨
        (Related after abstract ∧ rank after < rank state))
    (finished : ∀ state abstract, Related state abstract → Stuck step state →
      Stuck abstractStep abstract ∧ (GoodAbstract abstract → Good state))
    {abstract : Abstract} (ends : Ends abstractStep GoodAbstract abstract) :
    ∀ state, Related state abstract → Ends step Good state := by
  induction ends with
  | @intro abstract stopped continued induction =>
      intro state
      induction state using (measure rank).wf.induction with
      | _ state smaller =>
          intro related
          constructor
          · intro stuck
            have final := finished state abstract related stuck
            exact final.2 (stopped final.1)
          · intro after stepped
            rcases matched state abstract after related stepped with
              ⟨next, abstractStepped, relatedNext⟩ | ⟨relatedNext, decreased⟩
            · exact induction next abstractStepped after relatedNext
            · exact smaller after decreased relatedNext

end Ends

end SystemsRepository.Foundation
