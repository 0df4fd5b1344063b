/-! # Executions of faulting machines

A machine executes calls on a state, and a call may fault. What a client is
permitted to call depends on the state reached so far. This file gives the
invariant rule for whole runs; it is independent of any particular program.
-/

namespace SystemsRepository.Foundation

/-- A machine whose calls either produce a next state or fault (`none`). -/
structure Machine (State : Type u) (Call : Type v) where
  execute : Call → State → Option State

namespace Machine

variable {State : Type u} {Call : Type v}

def run (machine : Machine State Call) : List Call → State → Option State
  | [], state => some state
  | call :: calls, state => (machine.execute call state).bind (machine.run calls)

/-- Every call of the list is permitted in the state in which it is made. -/
def Permits (machine : Machine State Call) (permitted : State → Call → Prop) :
    State → List Call → Prop
  | _, [] => True
  | state, call :: calls =>
      permitted state call ∧
        match machine.execute call state with
        | none => True
        | some next => machine.Permits permitted next calls

instance decidablePermits (machine : Machine State Call) (permitted : State → Call → Prop)
    [∀ state call, Decidable (permitted state call)] :
    ∀ calls state, Decidable (machine.Permits permitted state calls)
  | [], _ => .isTrue trivial
  | call :: calls, state =>
      match equal : machine.execute call state with
      | none => decidable_of_iff (permitted state call) (by simp [Permits, equal])
      | some next =>
          have := decidablePermits machine permitted calls next
          decidable_of_iff (permitted state call ∧ machine.Permits permitted next calls)
            (by simp [Permits, equal])

theorem Permits.rest {machine : Machine State Call}
    {permitted : State → Call → Prop} {state next : State} {call : Call}
    {calls : List Call} (permits : machine.Permits permitted state (call :: calls))
    (executed : machine.execute call state = some next) :
    machine.Permits permitted next calls := by
  have rest := permits.2
  rw [executed] at rest
  exact rest

/-- A call permitted under a stronger condition is permitted under a weaker
one. -/
theorem Permits.mono {machine : Machine State Call}
    {stronger weaker : State → Call → Prop}
    (weaken : ∀ state call, stronger state call → weaker state call) :
    ∀ {calls : List Call} {state : State},
      machine.Permits stronger state calls → machine.Permits weaker state calls
  | [], _, _ => trivial
  | call :: _, state, permits => by
      refine ⟨weaken _ _ permits.1, ?_⟩
      cases executed : machine.execute call state with
      | none => trivial
      | some next => exact (permits.rest executed).mono weaken

theorem permits_always (machine : Machine State Call) :
    ∀ (calls : List Call) (state : State), machine.Permits (fun _ _ => True) state calls := by
  intro calls
  induction calls with
  | nil => exact fun _ => trivial
  | cons call calls induction =>
      intro state
      refine ⟨trivial, ?_⟩
      split
      next => trivial
      next next _ => exact induction next

/-- The invariant rule: when every permitted call from a state satisfying the
invariant succeeds and re-establishes it, a permitted run never faults and ends
in a state satisfying the invariant. -/
theorem run_of_invariant (machine : Machine State Call)
    (permitted : State → Call → Prop) (Invariant : State → Prop)
    (step : ∀ state call, Invariant state → permitted state call →
      ∃ next, machine.execute call state = some next ∧ Invariant next) :
    ∀ {calls : List Call} {state : State}, Invariant state →
      machine.Permits permitted state calls →
      ∃ final, machine.run calls state = some final ∧ Invariant final := by
  intro calls
  induction calls with
  | nil =>
      intro state holds _
      exact ⟨state, rfl, holds⟩
  | cons call calls induction =>
      intro state holds permits
      rcases step state call holds permits.1 with ⟨next, executed, nextHolds⟩
      rcases induction nextHolds (permits.rest executed) with
        ⟨final, finished, finalHolds⟩
      exact ⟨final, by simp [run, executed, finished], finalHolds⟩

def Always (machine : Machine State Call) (good : State → Prop) :
    State → List Call → Prop
  | state, [] => good state
  | state, call :: calls =>
      good state ∧
        match machine.execute call state with
        | none => True
        | some next => machine.Always good next calls

theorem Always.here {machine : Machine State Call} {good : State → Prop} :
    ∀ {calls : List Call} {state : State}, machine.Always good state calls → good state
  | [], _, always => always
  | _ :: _, _, always => always.1

/-- The exact invariant rule: when an invariant that implies what is wanted is kept by
permitted calls, and every other call leads to a state that is not wanted, the wanted
states are those of the permitted runs. -/
theorem always_iff_permits (machine : Machine State Call)
    {permitted : State → Call → Prop} {good : State → Prop} (Invariant : State → Prop)
    (implies : ∀ state, Invariant state → good state)
    (keeps : ∀ state call next, Invariant state → machine.execute call state = some next →
      permitted state call → Invariant next)
    (breaks : ∀ state call next, Invariant state → machine.execute call state = some next →
      ¬permitted state call → ¬good next) :
    ∀ {calls : List Call} {state final : State}, Invariant state →
      machine.run calls state = some final →
      (machine.Always good state calls ↔ machine.Permits permitted state calls) := by
  intro calls
  induction calls with
  | nil =>
      intro state final holds _
      exact ⟨fun _ => trivial, fun _ => implies state holds⟩
  | cons call calls induction =>
      intro state final holds finished
      rcases Option.bind_eq_some_iff.mp finished with ⟨next, executed, rest⟩
      simp only [Always, Permits, executed]
      by_cases allowed : permitted state call
      · have later := induction (keeps state call next holds executed allowed) rest
        rw [later]
        exact ⟨fun always => ⟨allowed, always.2⟩, fun permits => ⟨implies state holds, permits.2⟩⟩
      · constructor
        · intro always
          exact absurd always.2.here (breaks state call next holds executed allowed)
        · intro permits
          exact absurd permits.1 allowed

/-- When from states satisfying an invariant a call faults exactly if it is not permitted, the
runs that finish are the permitted ones. -/
theorem run_isSome_iff_permits_of_invariant (machine : Machine State Call)
    {permitted : State → Call → Prop} (Invariant : State → Prop)
    (exact : ∀ state call, Invariant state →
      ((machine.execute call state).isSome = true ↔ permitted state call))
    (keeps : ∀ state call next, Invariant state → machine.execute call state = some next →
      Invariant next) :
    ∀ {calls : List Call} {state : State}, Invariant state →
      ((machine.run calls state).isSome = true ↔ machine.Permits permitted state calls) := by
  intro calls
  induction calls with
  | nil =>
      intro state _
      exact ⟨fun _ => trivial, fun _ => rfl⟩
  | cons call calls induction =>
      intro state holds
      rw [run, Permits, ← exact state call holds]
      cases executed : machine.execute call state with
      | none => simp
      | some next => simp [induction (keeps state call next holds executed)]

/-- When a call faults exactly if it is not permitted, the runs that finish are the
permitted ones. -/
theorem run_isSome_iff_permits (machine : Machine State Call)
    {permitted : State → Call → Prop}
    (exact : ∀ state call, (machine.execute call state).isSome = true ↔ permitted state call)
    {calls : List Call} {state : State} :
    (machine.run calls state).isSome = true ↔ machine.Permits permitted state calls :=
  machine.run_isSome_iff_permits_of_invariant (fun _ => True)
    (fun state call _ => exact state call) (fun _ _ _ _ _ => trivial) trivial

/-- Where an invariant makes two conditions on calls the same, a run meets both or neither. -/
theorem permits_iff_of_invariant (machine : Machine State Call)
    {condition other : State → Call → Prop} (Invariant : State → Prop)
    (same : ∀ state call, Invariant state → (condition state call ↔ other state call))
    (keeps : ∀ state call next, Invariant state → machine.execute call state = some next →
      Invariant next) :
    ∀ {calls : List Call} {state : State}, Invariant state →
      (machine.Permits condition state calls ↔ machine.Permits other state calls) := by
  intro calls
  induction calls with
  | nil =>
      intro state _
      exact Iff.rfl
  | cons call calls induction =>
      intro state holds
      rw [Permits, Permits, same state call holds]
      cases executed : machine.execute call state with
      | none => exact Iff.rfl
      | some next => simp only [induction (keeps state call next holds executed)]

theorem finished_of_invariant (machine : Machine State Call)
    {permitted : State → Call → Prop} {Invariant : State → Prop}
    (keeps : ∀ state call next, Invariant state → machine.execute call state = some next →
      permitted state call → Invariant next) :
    ∀ {calls : List Call} {state final : State}, Invariant state →
      machine.Permits permitted state calls → machine.run calls state = some final →
        Invariant final := by
  intro calls
  induction calls with
  | nil =>
      intro state final holds _ finished
      cases finished
      exact holds
  | cons call calls induction =>
      intro state final holds permits finished
      rcases Option.bind_eq_some_iff.mp finished with ⟨next, executed, rest⟩
      exact induction (keeps state call next holds executed permits.1) (permits.rest executed) rest

theorem run_append (machine : Machine State Call) (calls more : List Call) (state : State) :
    machine.run (calls ++ more) state = (machine.run calls state).bind (machine.run more) := by
  induction calls generalizing state with
  | nil => rfl
  | cons call calls induction =>
      rw [List.cons_append, run, run, Option.bind_assoc]
      congr 1
      funext next
      exact induction next

theorem run_singleton (machine : Machine State Call) (call : Call) (state : State) :
    machine.run [call] state = machine.execute call state := by
  cases executed : machine.execute call state with
  | none => simp [run, executed]
  | some next => simp [run, executed]

/-- What is true of no calls, and stays true of the calls made so far and the state they
have led to, is true of every run. -/
theorem run_induction (machine : Machine State Call) {initial : State}
    {Reached : List Call → State → Prop} (start : Reached [] initial)
    (step : ∀ calls state call next, Reached calls state →
      machine.execute call state = some next → Reached (calls ++ [call]) next)
    {calls : List Call} {final : State} (ran : machine.run calls initial = some final) :
    Reached calls final := by
  have general : ∀ (later earlier : List Call) (state : State), Reached earlier state →
      machine.run later state = some final → Reached (earlier ++ later) final := by
    intro later
    induction later with
    | nil =>
        intro earlier state reached finished
        cases finished
        rwa [List.append_nil]
    | cons call later induction =>
        intro earlier state reached finished
        rcases Option.bind_eq_some_iff.mp finished with ⟨next, executed, rest⟩
        rw [List.append_cons]
        exact induction _ next (step earlier state call next reached executed) rest
  exact general calls [] initial start ran

end Machine

end SystemsRepository.Foundation
