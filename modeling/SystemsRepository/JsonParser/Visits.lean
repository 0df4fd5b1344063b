import SystemsRepository.JsonParser.Feeding

/-! # The executions of the switch

Which parsers and characters the switch is executed with while a text is read,
and the rules for properties of all of them.
-/

namespace SystemsRepository.JsonParser

/-- One execution of the switch, and the text behind its character. -/
structure Visit where
  parser : Parser
  char : Char
  rest : CString
  deriving DecidableEq, Repr

/-- The executions of the switch, in order, until the text or the run ends. -/
def visits : Parser → CString → List Visit
  | _, [] => []
  | parser, char :: rest =>
      { parser, char, rest } ::
        match step parser char with
        | .next after => visits after rest
        | .again after =>
            { parser := after, char, rest } ::
              match step after char with
              | .next later => visits later rest
              | _ => []
        | _ => []

/-! ## Characters that are met again -/

private theorem ofOption_ne_again (result : Option Parser) (after : Parser) :
    Step.ofOption result ≠ .again after := by
  cases result <;> exact nofun

private theorem stepLiteral_ne_again (literal : CString) (parser : Parser) (char : Char)
    (after : Parser) : stepLiteral literal parser char ≠ .again after := by
  unfold stepLiteral
  split
  · simp only
    split
    · exact ofOption_ne_again _ after
    · exact nofun
  · exact nofun

private theorem stepValueBegin_ne_again (parser : Parser) (char : Char) (after : Parser) :
    stepValueBegin parser char ≠ .again after := by
  unfold stepValueBegin
  repeat' split
  all_goals first | exact ofOption_ne_again _ after | exact nofun

theorem emit_state {parser after : Parser} {value : Value}
    (emitted : parser.emit value = some after) : after.state = .valueEnd := by
  unfold Parser.emit at emitted
  split at emitted
  · cases emitted
  · split at emitted
    · split at emitted
      · cases emitted
        rfl
      · cases emitted
    · cases emitted
      rfl

/-- Only the character behind a number is met again, in `STATE_VALUE_END`. -/
theorem step_again {parser after : Parser} {char : Char}
    (again : step parser char = .again after) :
    parser.state = .valueNumber ∧ after.state = .valueEnd := by
  cases state : parser.state <;> simp only [step, state] at again
  case valueNumber =>
    refine ⟨rfl, ?_⟩
    unfold stepValueNumber at again
    split at again
    · split at again
      · cases again
      · split at again
        · cases again
        · next emitted =>
            cases again
            exact emit_state emitted
    · cases again
  case key =>
    unfold stepKey at again
    repeat' split at again
    all_goals cases again
  case valueBegin => exact absurd again (stepValueBegin_ne_again parser char after)
  case valueString =>
    unfold stepValueString at again
    repeat' split at again
    all_goals first | exact absurd again (ofOption_ne_again _ after) | cases again
  case valueTrue => exact absurd again (stepLiteral_ne_again _ parser char after)
  case valueFalse => exact absurd again (stepLiteral_ne_again _ parser char after)
  case valueNull => exact absurd again (stepLiteral_ne_again _ parser char after)
  case valueEnd =>
    have settles := step_valueEnd_settles state char after
    rw [step_of_valueEnd state] at settles
    exact absurd again settles
  all_goals cases again

theorem step_settles {parser after : Parser} {char : Char}
    (again : step parser char = .again after) (other : Parser) :
    step after char ≠ .again other :=
  step_valueEnd_settles (step_again again).2 char other

/-! ## The rules -/

section Rules

variable {parser after : Parser} {char : Char} {rest : CString}

theorem visits_next (next : step parser char = .next after) :
    visits parser (char :: rest) = { parser, char, rest } :: visits after rest := by
  rw [visits, next]

theorem visits_again (again : step parser char = .again after) :
    visits parser (char :: rest) = { parser, char, rest } :: visits after (char :: rest) := by
  cases further : step after char with
  | again later => exact absurd further (step_settles again later)
  | next later => simp [visits, again, further]
  | invalid _ _ => simp [visits, again, further]
  | undefined => simp [visits, again, further]

/-- The run ends with this execution of the switch. -/
def Step.Stops : Step → Prop
  | .next _ => False
  | .again _ => False
  | _ => True

theorem visits_stop (stops : (step parser char).Stops) :
    visits parser (char :: rest) = [{ parser, char, rest }] := by
  cases stepped : step parser char with
  | next after => exact (stepped ▸ stops : (Step.next after).Stops).elim
  | again after => exact (stepped ▸ stops : (Step.again after).Stops).elim
  | invalid _ _ => simp [visits, stepped]
  | undefined => simp [visits, stepped]

theorem feed_stop (stops : (step parser char).Stops) :
    feed parser (char :: rest) =
      match step parser char with
      | .invalid char literal => .invalid parser char literal
      | _ => .undefined := by
  unfold feed visit
  cases stepped : step parser char with
  | next after => exact (stepped ▸ stops : (Step.next after).Stops).elim
  | again after => exact (stepped ▸ stops : (Step.again after).Stops).elim
  | invalid _ _ => rfl
  | undefined => rfl

end Rules

theorem run_induction {motive : Parser → CString → Prop}
    (done : ∀ parser, motive parser [])
    (next : ∀ parser char rest after, step parser char = .next after → motive after rest →
      motive parser (char :: rest))
    (again : ∀ parser char rest after, step parser char = .again after →
      motive after (char :: rest) → motive parser (char :: rest))
    (stop : ∀ parser char rest, (step parser char).Stops → motive parser (char :: rest)) :
    ∀ parser text, motive parser text := by
  intro parser text
  induction text generalizing parser with
  | nil => exact done parser
  | cons char rest induction =>
      have settled : ∀ other, (∀ after, step other char ≠ .again after) →
          motive other (char :: rest) := by
        intro other settles
        cases stepped : step other char with
        | next after => exact next other char rest after stepped (induction after)
        | again after => exact absurd stepped (settles after)
        | invalid _ _ => exact stop other char rest (by rw [stepped]; trivial)
        | undefined => exact stop other char rest (by rw [stepped]; trivial)
      cases stepped : step parser char with
      | next after => exact next parser char rest after stepped (induction after)
      | again after =>
          exact again parser char rest after stepped (settled after (step_settles stepped))
      | invalid _ _ => exact stop parser char rest (by rw [stepped]; trivial)
      | undefined => exact stop parser char rest (by rw [stepped]; trivial)

/-- The invariant rule: what holds at the start and is kept by each execution of the switch that
is permitted holds, of the parser and the text in front of it, at every execution of a run all of
whose executions are permitted. -/
theorem visits_invariant {Invariant : Parser → CString → Prop} {permitted : Visit → Prop}
    (keepsNext : ∀ parser char rest after, Invariant parser (char :: rest) →
      permitted { parser, char, rest } → step parser char = .next after → Invariant after rest)
    (keepsAgain : ∀ parser char rest after, Invariant parser (char :: rest) →
      permitted { parser, char, rest } → step parser char = .again after →
      Invariant after (char :: rest)) :
    ∀ parser text, Invariant parser text → (∀ visit ∈ visits parser text, permitted visit) →
      ∀ visit ∈ visits parser text, Invariant visit.parser (visit.char :: visit.rest) := by
  apply run_induction
  · intro parser _ _ visit member
    cases member
  · intro parser char rest after stepped induction holds allowed
    rw [visits_next stepped] at allowed ⊢
    intro visit member
    rcases List.mem_cons.mp member with first | later
    · rw [first]
      exact holds
    · exact induction (keepsNext parser char rest after holds (allowed _ (by simp)) stepped)
        (fun other member => allowed other (by simp [member])) visit later
  · intro parser char rest after stepped induction holds allowed
    rw [visits_again stepped] at allowed ⊢
    intro visit member
    rcases List.mem_cons.mp member with first | later
    · rw [first]
      exact holds
    · exact induction (keepsAgain parser char rest after holds (allowed _ (by simp)) stepped)
        (fun other member => allowed other (by simp [member])) visit later
  · intro parser char rest stops holds _
    rw [visits_stop stops]
    intro visit member
    rw [List.mem_singleton.mp member]
    exact holds

theorem feed_ne_unfinished : ∀ parser text, feed parser text ≠ .unfinished := by
  apply run_induction
  · exact fun _ => nofun
  · intro parser char rest after stepped induction
    rw [feed_next stepped]
    exact induction
  · intro parser char rest after stepped induction
    rw [feed_again stepped (step_settles stepped)]
    exact induction
  · intro parser char rest stops
    rw [feed_stop stops]
    cases step parser char <;> exact nofun

/-- How a run ends, from what brings it about: a property of parsers that an execution of the
switch establishes exactly when it is of a certain kind. -/
theorem feed_iff_visit {Ends : Outcome → Prop} {Holds : Parser → Prop} {kind : Visit → Bool}
    (done : ∀ parser, Ends (.running parser) ↔ Holds parser)
    (moves : ∀ parser char rest after,
      step parser char = .next after ∨ step parser char = .again after →
      (Holds after ↔ Holds parser ∨ kind { parser, char, rest } = true))
    (stop : ∀ parser char rest, (step parser char).Stops →
      (Ends (feed parser (char :: rest)) ↔ Holds parser ∨ kind { parser, char, rest } = true)) :
    ∀ parser text, Ends (feed parser text) ↔
      Holds parser ∨ ∃ visit ∈ visits parser text, kind visit = true := by
  apply run_induction
  · intro parser
    simp [feed, visits, done]
  · intro parser char rest after stepped induction
    rw [feed_next stepped, visits_next stepped, induction,
      moves parser char rest after (.inl stepped), or_assoc]
    simp
  · intro parser char rest after stepped induction
    rw [feed_again stepped (step_settles stepped), visits_again stepped, induction,
      moves parser char rest after (.inr stepped), or_assoc]
    simp
  · intro parser char rest stops
    rw [stop parser char rest stops, visits_stop stops]
    simp

/-! ## How often a character is met -/

def meetings (parser : Parser) (text : CString) (length : Nat) : Nat :=
  (visits parser text).countP fun visit => visit.rest.length == length

private theorem meetings_le : ∀ parser text, ∀ length,
    meetings parser text length ≤
        (if text.length = length + 1 ∧ parser.state ≠ .valueNumber then 1 else 2) ∧
      (text.length ≤ length → meetings parser text length = 0) := by
  unfold meetings
  apply run_induction
  · intro parser length
    exact ⟨by simp [visits], fun _ => rfl⟩
  · intro parser char rest after stepped induction length
    have later := induction length
    rw [visits_next stepped, List.countP_cons]
    by_cases here : rest.length = length
    · have none := later.2 (Nat.le_of_eq here)
      simp only [none, here, beq_self_eq_true, if_true, List.length_cons]
      exact ⟨by split <;> omega, by omega⟩
    · simp only [beq_iff_eq, here, if_false, List.length_cons, Nat.add_zero]
      constructor
      · rw [if_neg (by omega)]
        have bound := later.1
        split at bound <;> omega
      · exact fun short => later.2 (by omega)
  · intro parser char rest after stepped induction length
    have states := step_again stepped
    have later := induction length
    rw [visits_again stepped, List.countP_cons]
    simp only [List.length_cons, states.1, states.2] at later ⊢
    by_cases here : rest.length = length
    · simp only [here] at later ⊢
      simp at later ⊢
      omega
    · simp only [beq_iff_eq, here, if_false, Nat.add_zero]
      refine ⟨?_, later.2⟩
      rw [if_neg (by simp)]
      have bound := later.1
      split at bound <;> omega
  · intro parser char rest stops length
    rw [visits_stop stops, List.countP_singleton]
    by_cases here : rest.length = length
    · simp only [here, beq_self_eq_true, if_true, List.length_cons]
      exact ⟨by split <;> omega, by omega⟩
    · simp [here]

theorem meetings_le_two (parser : Parser) (text : CString) (length : Nat) :
    meetings parser text length ≤ 2 := by
  have bound := (meetings_le parser text length).1
  split at bound <;> omega

theorem visits_length_le : ∀ parser text,
    (visits parser text).length ≤ 2 * text.length ∧
      (text ≠ [] → parser.state ≠ .valueNumber →
        (visits parser text).length + 1 ≤ 2 * text.length) := by
  apply run_induction
  · intro parser
    exact ⟨Nat.le_refl 0, fun nonempty => absurd rfl nonempty⟩
  · intro parser char rest after stepped induction
    have later := induction.1
    rw [visits_next stepped, List.length_cons, List.length_cons]
    exact ⟨by omega, fun _ _ => by omega⟩
  · intro parser char rest after stepped induction
    have states := step_again stepped
    have later := induction.2 (List.cons_ne_nil char rest) (by rw [states.2]; exact nofun)
    rw [visits_again stepped, List.length_cons]
    exact ⟨later, fun _ notNumber => absurd states.1 notNumber⟩
  · intro parser char rest stops
    rw [visits_stop stops, List.length_singleton, List.length_cons]
    exact ⟨by omega, fun _ _ => by omega⟩

end SystemsRepository.JsonParser
