import SystemsRepository.JsonParser.Visits

/-! # Printed pairs

Which executions of the switch print a pair, and that a run prints nothing else.
-/

namespace SystemsRepository.JsonParser

/-! ## Steps -/

theorem eq_of_ofOption {result : Option Parser} {after : Parser}
    (next : Step.ofOption result = .next after) : result = some after := by
  cases result with
  | none => cases next
  | some parser =>
      cases next
      rfl

theorem eq_of_pushKey {parser after : Parser} {entered : Parser → Parser}
    (next : Step.ofOption (parser.pushKey.map entered) = .next after) :
    after = entered { parser with keyStack := parser.keyStack ++ [parser.keyBuffer] } := by
  have opened := eq_of_ofOption next
  unfold Parser.pushKey at opened
  split at opened
  · exact (Option.some.inj opened).symm
  · cases opened

/-- What `STATE_VALUE_BEGIN` does: it opens a container, or begins to read a scalar, or waits. -/
theorem stepValueBegin_cases {parser after : Parser} {char : Char}
    (next : stepValueBegin parser char = .next after) :
    (char = '{' ∧ after = { parser with
      keyStack := parser.keyStack ++ [parser.keyBuffer], state := .keyBegin }) ∨
    (char = '[' ∧ after = { parser with
      keyStack := parser.keyStack ++ [parser.keyBuffer]
      inArray := true, arrayIndex := 0, state := .valueBegin }) ∨
    char ≠ '{' ∧ char ≠ '[' ∧ (after.state = .done → parser.state = .done) ∧
      after = { parser with
        state := after.state, valBuffer := after.valBuffer
        literalIndex := after.literalIndex } := by
  unfold stepValueBegin at next
  split at next
  next brace => exact .inl ⟨brace, eq_of_pushKey next⟩
  next noBrace =>
    split at next
    next bracket => exact .inr (.inl ⟨bracket, eq_of_pushKey next⟩)
    next noBracket =>
      right
      right
      refine ⟨noBrace, noBracket, ?_⟩
      repeat' split at next
      all_goals
        cases next
        exact ⟨by simp, rfl⟩

/-- What `STATE_VALUE_END` does: it goes on with the next value or key, ends the root object or
the innermost container, or waits. -/
theorem stepValueEnd_cases {parser after : Parser} {char : Char}
    (next : stepValueEnd parser char = .next after) :
    (char = ',' ∧ after = { parser with
      state := if parser.inArray then .valueBegin else .keyBegin }) ∨
    (char = '}' ∧ parser.keyStack = [] ∧ after = { parser with state := .done }) ∨
    (char = '}' ∧ parser.keyStack ≠ [] ∧ after = { parser with
      keyStack := parser.keyStack.dropLast, state := .valueEnd }) ∨
    (char = ']' ∧ after = { parser with
      keyStack := parser.keyStack.dropLast, inArray := false, state := .valueEnd }) ∨
    char ≠ '}' ∧ char ≠ ']' ∧ after = parser := by
  unfold stepValueEnd at next
  split at next
  next comma =>
    cases next
    exact .inl ⟨comma, rfl⟩
  next =>
    right
    split at next
    next brace =>
      split at next
      next empty =>
        cases next
        exact .inl ⟨brace, empty, rfl⟩
      next nonempty =>
        cases next
        exact .inr (.inl ⟨brace, nonempty, rfl⟩)
    next noBrace =>
      right
      right
      split at next
      next bracket =>
        cases next
        exact .inl ⟨bracket, rfl⟩
      next noBracket =>
        cases next
        exact .inr ⟨noBrace, noBracket, rfl⟩

/-! ## Executions that print -/

def completesLiteral (literal : CString) (parser : Parser) (char : Char) : Bool :=
  literal[parser.literalIndex]? == some char && parser.literalIndex + 1 == literal.length

def Visit.emits (visit : Visit) : Bool :=
  match visit.parser.state with
  | .valueString => visit.char == '"'
  | .valueNumber => !continuesNumber visit.char
  | .valueTrue => completesLiteral literalTrue visit.parser visit.char
  | .valueFalse => completesLiteral literalFalse visit.parser visit.char
  | .valueNull => completesLiteral literalNull visit.parser visit.char
  | _ => false

def Visit.value (visit : Visit) : Value :=
  match visit.parser.state with
  | .valueNumber => numberValue visit.parser.valBuffer
  | .valueTrue => .literal literalTrue
  | .valueFalse => .literal literalFalse
  | .valueNull => .literal literalNull
  | _ => .string visit.parser.valBuffer

def Parser.pair (parser : Parser) (value : Value) : List Emission :=
  (parser.fullKey.map fun fullKey => Emission.mk fullKey value).toList

def Visit.printed (visit : Visit) : List Emission :=
  if visit.emits then visit.parser.pair visit.value else []

private theorem emit_output {parser after : Parser} {value : Value}
    (emitted : parser.emit value = some after) :
    after.output = parser.output ++ parser.pair value := by
  unfold Parser.emit at emitted
  unfold Parser.pair
  split at emitted
  · cases emitted
  · next fullKey key =>
      rw [key]
      split at emitted
      · split at emitted
        · cases emitted
          rfl
        · cases emitted
      · cases emitted
        rfl

section States

variable {parser after : Parser} {char : Char}

/-- What a literal state does with a character that continues its literal. -/
theorem stepLiteral_cases {literal : CString}
    (next : stepLiteral literal parser char = .next after) :
    (completesLiteral literal parser char = true ∧
      Parser.emit { parser with literalIndex := parser.literalIndex + 1 } (.literal literal) =
        some after) ∨
    completesLiteral literal parser char = false ∧
      after = { parser with literalIndex := parser.literalIndex + 1 } := by
  unfold stepLiteral at next
  split at next
  next found =>
    dsimp only at next
    split at next
    next whole => exact .inl ⟨by simp [completesLiteral, found, whole], eq_of_ofOption next⟩
    next unfinished =>
      cases next
      exact .inr ⟨by simp [completesLiteral, unfinished], rfl⟩
  next => cases next

/-- What `STATE_VALUE_STRING` does: it prints the value, or collects the character. -/
theorem stepValueString_cases (next : stepValueString parser char = .next after) :
    (char = '"' ∧ parser.emit (.string parser.valBuffer) = some after) ∨
    char ≠ '"' ∧ after = { parser with valBuffer := parser.valBuffer ++ [char] } := by
  unfold stepValueString at next
  split at next
  next =>
    split at next
    next quote => exact .inl ⟨quote, eq_of_ofOption next⟩
    next notQuote =>
      cases next
      exact .inr ⟨notQuote, rfl⟩
  next => cases next

theorem stepValueNumber_next (next : stepValueNumber parser char = .next after) :
    continuesNumber char = true ∧
      after = { parser with valBuffer := parser.valBuffer ++ [char] } := by
  unfold stepValueNumber at next
  split at next
  next =>
    split at next
    next continues =>
      cases next
      exact ⟨continues, rfl⟩
    next => split at next <;> cases next
  next => cases next

/-- What `STATE_KEY` does: it ends the key, or collects the character. -/
theorem stepKey_cases (next : stepKey parser char = .next after) :
    after = { parser with state := .keyEnd } ∨
      after = { parser with keyBuffer := parser.keyBuffer ++ [char] } := by
  unfold stepKey at next
  split at next
  next =>
    split at next
    next =>
      cases next
      exact .inl rfl
    next =>
      cases next
      exact .inr rfl
  next => cases next

theorem step_again_emits (again : step parser char = .again after) :
    continuesNumber char = false ∧
      parser.emit (numberValue parser.valBuffer) = some after := by
  rw [step_of_valueNumber (step_again again).1, stepValueNumber] at again
  split at again
  next =>
    split at again
    next => cases again
    next stops =>
      split at again
      next => cases again
      next emitted =>
        cases again
        exact ⟨eq_false_of_ne_true stops, emitted⟩
  next => cases again

private theorem stepLiteral_output {literal : CString}
    (next : stepLiteral literal parser char = .next after) :
    after.output = parser.output ++
      if completesLiteral literal parser char then parser.pair (.literal literal) else [] := by
  rcases stepLiteral_cases next with ⟨completes, emitted⟩ | ⟨incomplete, rfl⟩
  · rw [emit_output emitted, if_pos completes]
    rfl
  · simp [incomplete]

private theorem stepValueString_output (next : stepValueString parser char = .next after) :
    after.output = parser.output ++
      if char == '"' then parser.pair (.string parser.valBuffer) else [] := by
  rcases stepValueString_cases next with ⟨quote, emitted⟩ | ⟨notQuote, rfl⟩
  · rw [emit_output emitted, quote]
    rfl
  · simp [notQuote]

private theorem stepValueBegin_output (next : stepValueBegin parser char = .next after) :
    after.output = parser.output := by
  rcases stepValueBegin_cases next with ⟨_, opened⟩ | ⟨_, opened⟩ | ⟨_, _, _, begun⟩
  · rw [opened]
  · rw [opened]
  · rw [begun]

private theorem stepValueEnd_output (next : stepValueEnd parser char = .next after) :
    after.output = parser.output := by
  rcases stepValueEnd_cases next with ⟨_, rfl⟩ | ⟨_, _, rfl⟩ | ⟨_, _, rfl⟩ | ⟨_, rfl⟩ | ⟨_, _, rfl⟩
  all_goals rfl

private theorem stepKey_output (next : stepKey parser char = .next after) :
    after.output = parser.output := by
  rcases stepKey_cases next with rfl | rfl <;> rfl

theorem again_output (again : step parser char = .again after) (rest : CString) :
    after.output = parser.output ++ Visit.printed { parser, char, rest } := by
  have state := (step_again again).1
  rcases step_again_emits again with ⟨stops, emitted⟩
  simp [emit_output emitted, Visit.printed, Visit.emits, Visit.value, state, stops]

theorem next_output (next : step parser char = .next after) (rest : CString) :
    after.output = parser.output ++ Visit.printed { parser, char, rest } := by
  cases state : parser.state <;>
    simp only [step, state, Visit.printed, Visit.emits, Visit.value] at next ⊢
  case key => simp [stepKey_output next]
  case valueBegin => simp [stepValueBegin_output next]
  case valueString => exact stepValueString_output next
  case valueNumber =>
    have continued := stepValueNumber_next next
    simp [continued.1, continued.2]
  case valueTrue => exact stepLiteral_output next
  case valueFalse => exact stepLiteral_output next
  case valueNull => exact stepLiteral_output next
  case valueEnd => simp [stepValueEnd_output next]
  case done =>
    cases next
    simp
  all_goals
    cases next
    split <;> simp

end States

theorem feed_output : ∀ parser text, ∀ {after : Parser}, feed parser text = .running after →
    after.output = parser.output ++ (visits parser text).flatMap Visit.printed := by
  apply run_induction
  · intro parser after fed
    cases fed
    simp [visits]
  · intro parser char rest after stepped induction last fed
    rw [feed_next stepped] at fed
    rw [visits_next stepped, List.flatMap_cons, ← List.append_assoc, ← next_output stepped]
    exact induction fed
  · intro parser char rest after stepped induction last fed
    rw [feed_again stepped (step_settles stepped)] at fed
    rw [visits_again stepped, List.flatMap_cons, ← List.append_assoc, ← again_output stepped]
    exact induction fed
  · intro parser char rest stops last fed
    rw [feed_stop stops] at fed
    split at fed <;> cases fed

end SystemsRepository.JsonParser
