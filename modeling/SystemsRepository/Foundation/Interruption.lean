/-! # Interruption

A program performs operations on a medium in order and may be stopped at any moment, also in the
middle of an operation. Nothing here is about a particular medium.
-/

namespace SystemsRepository.Foundation

/-- `pieces operation` are the operations that may have been performed instead of it by the time
the program is stopped. -/
structure Medium (State : Type u) (Operation : Type v) where
  perform : Operation → State → State
  pieces : Operation → Operation → Prop

namespace Medium

variable {State : Type u} {Operation : Type v} {medium : Medium State Operation}

def performAll (medium : Medium State Operation) (operations : List Operation) (state : State) :
    State :=
  operations.foldl (fun state operation => medium.perform operation state) state

/-- What a program that is to perform these operations may leave when it is stopped. -/
inductive Stopped (medium : Medium State Operation) : List Operation → State → State → Prop
  | here (operations : List Operation) (state : State) : Stopped medium operations state state
  | within {operation piece : Operation} (operations : List Operation) (state : State)
      (part : medium.pieces operation piece) :
      Stopped medium (operation :: operations) state (medium.perform piece state)
  | behind {operation : Operation} {operations : List Operation} {state after : State}
      (stopped : Stopped medium operations (medium.perform operation state) after) :
      Stopped medium (operation :: operations) state after

variable {state after : State}

theorem performAll_append (first second : List Operation) (state : State) :
    medium.performAll (first ++ second) state =
      medium.performAll second (medium.performAll first state) :=
  List.foldl_append

theorem stopped_nil_iff : medium.Stopped [] state after ↔ after = state := by
  constructor
  · intro stopped
    cases stopped
    rfl
  · rintro rfl
    exact .here [] _

/-- The program is stopped before, in or behind its first operation. -/
theorem stopped_cons_iff {operation : Operation} {operations : List Operation} :
    medium.Stopped (operation :: operations) state after ↔
      after = state ∨
        (∃ piece, medium.pieces operation piece ∧ after = medium.perform piece state) ∨
        medium.Stopped operations (medium.perform operation state) after := by
  constructor
  · intro stopped
    cases stopped with
    | here => exact .inl rfl
    | within _ _ part => exact .inr (.inl ⟨_, part, rfl⟩)
    | behind stopped => exact .inr (.inr stopped)
  · rintro (rfl | ⟨piece, part, rfl⟩ | stopped)
    · exact .here _ _
    · exact .within _ _ part
    · exact .behind stopped

theorem stopped_atomic_iff {operation : Operation} {operations : List Operation}
    (atomic : ∀ piece, ¬medium.pieces operation piece) :
    medium.Stopped (operation :: operations) state after ↔
      after = state ∨ medium.Stopped operations (medium.perform operation state) after := by
  rw [stopped_cons_iff]
  constructor
  · rintro (same | ⟨piece, part, _⟩ | stopped)
    · exact .inl same
    · exact absurd part (atomic piece)
    · exact .inr stopped
  · rintro (same | stopped)
    · exact .inl same
    · exact .inr (.inr stopped)

/-- The program is stopped in the first part of its operations, or in the second. -/
theorem stopped_append_iff {first second : List Operation} :
    medium.Stopped (first ++ second) state after ↔
      medium.Stopped first state after ∨
        medium.Stopped second (medium.performAll first state) after := by
  induction first generalizing state with
  | nil =>
      constructor
      · exact .inr
      · rintro (stopped | stopped)
        · rw [stopped_nil_iff.mp stopped]
          exact .here _ _
        · exact stopped
  | cons operation operations induction =>
      rw [List.cons_append, stopped_cons_iff, stopped_cons_iff, induction]
      constructor
      · rintro (same | part | stopped | stopped)
        · exact .inl (.inl same)
        · exact .inl (.inr (.inl part))
        · exact .inl (.inr (.inr stopped))
        · exact .inr stopped
      · rintro ((same | part | stopped) | stopped)
        · exact .inl same
        · exact .inr (.inl part)
        · exact .inr (.inr (.inl stopped))
        · exact .inr (.inr (.inr stopped))

end Medium

end SystemsRepository.Foundation
