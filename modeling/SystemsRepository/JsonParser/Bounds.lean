import SystemsRepository.JsonParser.Nesting

/-! # Buffer bounds

Which executions of the switch stay within `key_buffer`, `val_buffer`,
`key_stack` and `full_key`, and what that means for the tokens of the text.
-/

namespace SystemsRepository.JsonParser

/-! ## Accesses -/

/-- `get_key` builds at most 511 bytes; it is not called in array mode. -/
def Parser.PathFits (parser : Parser) : Prop :=
  parser.inArray = false → (getKey parser.keyStack parser.keyBuffer).length < lineSize

/-- What the switch writes lies in its buffer: the byte at `key_index` or `val_index`, the
name at `key_depth`, and the path in `full_key`. A run ends at its first undefined behaviour, a
read of `key_stack[-1]` in array mode included. -/
def Visit.InBounds (visit : Visit) : Prop :=
  (visit.parser.state = .key → visit.parser.keyBuffer.length < bufferSize) ∧
    (visit.parser.state = .valueString ∨ visit.parser.state = .valueNumber →
      visit.parser.valBuffer.length < bufferSize) ∧
    (visit.parser.state = .valueBegin → visit.char = '{' ∨ visit.char = '[' →
      visit.parser.keyStack.length < keyStackSize) ∧
    (visit.emits = true → visit.parser.PathFits)

private theorem emit_of_not_pathFits {parser : Parser} (long : ¬parser.PathFits) (value : Value) :
    parser.emit value = none := by
  have parts : parser.inArray = false ∧
      ¬(getKey parser.keyStack parser.keyBuffer).length < lineSize := by
    simpa [Parser.PathFits] using long
  have noKey : parser.fullKey = none := by
    simp [Parser.fullKey, parts.1, parts.2]
  rw [Parser.emit, noKey]

private theorem stepLiteral_of_not_pathFits {literal : CString} {parser : Parser} {char : Char}
    (completes : completesLiteral literal parser char = true) (long : ¬parser.PathFits) :
    stepLiteral literal parser char = .undefined := by
  simp only [completesLiteral, Bool.and_eq_true, beq_iff_eq] at completes
  have none := @emit_of_not_pathFits { parser with literalIndex := parser.literalIndex + 1 } long
    (.literal literal)
  rw [stepLiteral, if_pos completes.1]
  simp only [if_pos completes.2, none]
  rfl

private theorem step_of_emits {visit : Visit} (emits : visit.emits = true)
    (long : ¬visit.parser.PathFits) : step visit.parser visit.char = .undefined := by
  have none := emit_of_not_pathFits long
  unfold Visit.emits at emits
  cases state : visit.parser.state <;> simp only [state] at emits
  case valueString =>
    rw [step_of_valueString state, stepValueString, beq_iff_eq.mp emits, none]
    simp [Step.ofOption]
  case valueNumber =>
    rw [step_of_valueNumber state, stepValueNumber, none]
    simp only [Bool.not_eq_true'] at emits
    simp [emits]
  case valueTrue =>
    rw [step_of_valueTrue state]
    exact stepLiteral_of_not_pathFits emits long
  case valueFalse =>
    rw [step_of_valueFalse state]
    exact stepLiteral_of_not_pathFits emits long
  case valueNull =>
    rw [step_of_valueNull state]
    exact stepLiteral_of_not_pathFits emits long
  all_goals cases emits

theorem step_of_not_inBounds {visit : Visit} (outside : ¬visit.InBounds) :
    step visit.parser visit.char = .undefined := by
  simp only [Visit.InBounds, Classical.not_and_iff_not_or_not, Classical.not_imp] at outside
  rcases outside with ⟨state, full⟩ | ⟨state, full⟩ | ⟨state, container, full⟩ | ⟨emits, long⟩
  · rw [step_of_key state, stepKey, if_neg full]
  · rcases state with state | state
    · rw [step_of_valueString state, stepValueString, if_neg full]
    · rw [step_of_valueNumber state, stepValueNumber, if_neg full]
  · rw [step_of_valueBegin state, stepValueBegin, Parser.pushKey, if_neg full]
    rcases container with brace | bracket
    · rw [if_pos brace]
      rfl
    · rw [if_neg (by rw [bracket]; decide), if_pos bracket]
      rfl
  · exact step_of_emits emits long

/-! ## Tokens -/

def isQuote (char : Char) : Bool := char == '"'

def endsNumber (char : Char) : Bool := !continuesNumber char

/-- Of the text at most `room` characters are taken before it ends, the one that stops
the token included. -/
def StopsWithin (stops : Char → Bool) (room : Nat) (text : CString) : Prop :=
  text.length ≤ room ∨ (text.take room).any stops = true

/-- The token that starts with this character is completed in the text behind it. -/
def completesToken (char : Char) (rest : CString) : Bool :=
  if char = '"' then rest.any isQuote
  else if startsNumber char then rest.any endsNumber
  else if char = 't' then (literalTrue.drop 1).isPrefixOf rest
  else if char = 'f' then (literalFalse.drop 1).isPrefixOf rest
  else if char = 'n' then (literalNull.drop 1).isPrefixOf rest
  else false

/-- The token that starts here fits: a key or string ends within 256 characters, a number
within 255 behind its first, and a value outside of array mode that is completed has a path of at
most 511 bytes. -/
structure Visit.TokenFits (visit : Visit) : Prop where
  key : visit.parser.state = .keyBegin → visit.char = '"' →
    StopsWithin isQuote bufferSize visit.rest
  string : visit.parser.state = .valueBegin → visit.char = '"' →
    StopsWithin isQuote bufferSize visit.rest
  number : visit.parser.state = .valueBegin → startsNumber visit.char = true →
    StopsWithin endsNumber (bufferSize - 1) visit.rest
  path : visit.parser.state = .valueBegin → completesToken visit.char visit.rest = true →
    visit.parser.PathFits

structure Visit.StartFits (visit : Visit) : Prop extends visit.TokenFits where
  container : visit.opens = true → visit.parser.keyStack.length < keyStackSize

/-! ## Collecting a token -/

section StopsWithin

variable {stops : Char → Bool} {room : Nat} {char : Char} {rest : CString}

private theorem StopsWithin.room_pos (fits : StopsWithin stops room (char :: rest)) : 0 < room := by
  cases room with
  | zero => rcases fits with short | stopped <;> simp_all
  | succ room => exact Nat.succ_pos room

private theorem stopsWithin_cons (continues : stops char = false) :
    StopsWithin stops (room + 1) (char :: rest) ↔ StopsWithin stops room rest := by
  simp [StopsWithin, continues]

private theorem stopsWithin_of_stops (stopped : stops char = true) :
    StopsWithin stops (room + 1) (char :: rest) :=
  .inr (by simp [stopped])

private theorem stopsWithin_nil : StopsWithin stops room [] := .inl (Nat.zero_le room)

end StopsWithin

def literalPending (literal : CString) (parser : Parser) (text : CString) : Bool :=
  parser.literalIndex < literal.length && (literal.drop parser.literalIndex).isPrefixOf text

def Parser.Ready (parser : Parser) (text : CString) : Prop :=
  match parser.state with
  | .key => StopsWithin isQuote (bufferSize - parser.keyBuffer.length) text
  | .valueString =>
      StopsWithin isQuote (bufferSize - parser.valBuffer.length) text ∧
        (text.any isQuote = true → parser.PathFits)
  | .valueNumber =>
      StopsWithin endsNumber (bufferSize - parser.valBuffer.length) text ∧
        (text.any endsNumber = true → parser.PathFits)
  | .valueTrue => literalPending literalTrue parser text = true → parser.PathFits
  | .valueFalse => literalPending literalFalse parser text = true → parser.PathFits
  | .valueNull => literalPending literalNull parser text = true → parser.PathFits
  | _ => True

private theorem literalPending_next {literal : CString} {parser : Parser} {char : Char}
    (found : literal[parser.literalIndex]? = some char) (rest : CString) :
    literalPending literal parser (char :: rest) =
      (completesLiteral literal parser char ||
        literalPending literal { parser with literalIndex := parser.literalIndex + 1 } rest) := by
  rcases List.getElem?_eq_some_iff.mp found with ⟨within, equal⟩
  have split : literal.drop parser.literalIndex =
      char :: literal.drop (parser.literalIndex + 1) := by
    rw [List.drop_eq_getElem_cons within, equal]
  by_cases last : parser.literalIndex + 1 = literal.length
  · simp [literalPending, completesLiteral, last, within, split, equal]
  · have later : parser.literalIndex + 1 < literal.length := by omega
    simp [literalPending, completesLiteral, last, within, later, split]

private theorem literalPending_mismatch {literal : CString} {parser : Parser} {char : Char}
    (missed : ¬literal[parser.literalIndex]? = some char) (rest : CString) :
    literalPending literal parser (char :: rest) = false := by
  by_cases within : parser.literalIndex < literal.length
  · have differs : literal[parser.literalIndex] ≠ char := by
      intro equal
      exact missed (by rw [List.getElem?_eq_getElem within, equal])
    rw [literalPending, List.drop_eq_getElem_cons within, List.isPrefixOf]
    simp [differs]
  · simp [literalPending, within]

private theorem ready_of_waits {parser : Parser} (waits : parser.state.Waits) (text : CString) :
    parser.Ready text := by
  unfold Parser.Ready
  cases state : parser.state <;> simp_all [ParserState.Waits]

private theorem ready_of_valueEnd {parser : Parser} (state : parser.state = .valueEnd)
    (text : CString) : parser.Ready text :=
  ready_of_waits (by rw [state]; trivial) text

private theorem ready_valueTrue (parser : Parser) (state : parser.state = .valueTrue)
    (text : CString) :
    parser.Ready text ↔ (literalPending literalTrue parser text = true → parser.PathFits) := by
  rw [Parser.Ready, state]

private theorem ready_valueFalse (parser : Parser) (state : parser.state = .valueFalse)
    (text : CString) :
    parser.Ready text ↔ (literalPending literalFalse parser text = true → parser.PathFits) := by
  rw [Parser.Ready, state]

private theorem ready_valueNull (parser : Parser) (state : parser.state = .valueNull)
    (text : CString) :
    parser.Ready text ↔ (literalPending literalNull parser text = true → parser.PathFits) := by
  rw [Parser.Ready, state]

/-- What one execution of the switch needs, for now and for the tokens to come. -/
def Visit.Needs (visit : Visit) : Prop :=
  visit.InBounds ∧
    ∀ after, step visit.parser visit.char = .next after → after.Ready visit.rest

def Visit.Offered (visit : Visit) : Prop :=
  visit.parser.Ready (visit.char :: visit.rest) ∧ visit.StartFits

private theorem startFits_of_collecting {visit : Visit} (notKey : visit.parser.state ≠ .keyBegin)
    (notValue : visit.parser.state ≠ .valueBegin) : visit.StartFits where
  key state := absurd state notKey
  string state := absurd state notValue
  number state := absurd state notValue
  container opens := absurd (Visit.opens_iff.mp opens).1 notValue
  path state := absurd state notValue

section States

variable {parser : Parser} {char : Char} {rest : CString}

private theorem ready_of_emit {after : Parser} {value : Value}
    (next : Step.ofOption (parser.emit value) = .next after) : after.Ready rest :=
  ready_of_valueEnd (emit_state (eq_of_ofOption next)) rest

/-- The states that collect a token into a buffer, of which `used` bytes are written, until a
character stops it. -/
theorem needs_iff_collecting {collecting : ParserState} {stops : Char → Bool}
    {used : Parser → Nat} {Good : Parser → Prop} (state : parser.state = collecting)
    (isToken : collecting ≠ .keyBegin ∧ collecting ≠ .valueBegin)
    (ready : ∀ reading : Parser, reading.state = collecting → ∀ text, reading.Ready text ↔
      StopsWithin stops (bufferSize - used reading) text ∧
        (text.any stops = true → Good reading))
    (bounds : Visit.InBounds { parser, char, rest } ↔
      used parser < bufferSize ∧ (stops char = true → Good parser))
    (stopped : used parser < bufferSize → stops char = true →
      ∀ after, step parser char = .next after → after.Ready rest)
    (continued : used parser < bufferSize → stops char = false →
      ∃ after, step parser char = .next after ∧ after.state = collecting ∧
        used after = used parser + 1 ∧ (Good after ↔ Good parser)) :
    Visit.Needs { parser, char, rest } ↔ Visit.Offered { parser, char, rest } := by
  have fits : Visit.StartFits { parser, char, rest } :=
    startFits_of_collecting (state ▸ isToken.1) (state ▸ isToken.2)
  unfold Visit.Needs Visit.Offered
  rw [bounds, and_iff_left fits, ready parser state, List.any_cons]
  by_cases room : used parser < bufferSize
  · have more : bufferSize - used parser = bufferSize - (used parser + 1) + 1 := by omega
    rw [more]
    cases stop : stops char with
    | true =>
        constructor
        · exact fun needs => ⟨stopsWithin_of_stops stop, fun _ => needs.1.2 rfl⟩
        · exact fun offered => ⟨⟨room, fun _ => offered.2 rfl⟩, stopped room stop⟩
    | false =>
        rcases continued room stop with ⟨after, next, sameState, longer, same⟩
        rw [stopsWithin_cons stop, Bool.false_or]
        constructor
        · intro needs
          have onwards := (ready after sameState rest).mp (needs.2 after next)
          rw [longer, same] at onwards
          exact onwards
        · intro offered
          refine ⟨⟨room, nofun⟩, fun other otherNext => ?_⟩
          rw [← Step.next.inj (next.symm.trans otherNext), ready after sameState, longer, same]
          exact offered
  · apply iff_of_false
    · exact fun needs => room needs.1.1
    · intro offered
      have positive := offered.1.room_pos
      omega

private theorem needs_iff_key (state : parser.state = .key) :
    Visit.Needs { parser, char, rest } ↔ Visit.Offered { parser, char, rest } := by
  apply @needs_iff_collecting parser char rest .key isQuote
    (fun reading => reading.keyBuffer.length) (fun _ => True) state ⟨nofun, nofun⟩
  · intro reading readingState text
    simp [Parser.Ready, readingState]
  · simp [Visit.InBounds, Visit.emits, state]
  · intro room stop after next
    have quote : char = '"' := by simpa [isQuote] using stop
    rw [step_of_key state, stepKey, if_pos room, if_pos quote] at next
    cases next
    trivial
  · intro room stop
    have notQuote : char ≠ '"' := by simpa [isQuote] using stop
    refine ⟨{ parser with keyBuffer := parser.keyBuffer ++ [char] }, ?_, state, by simp, Iff.rfl⟩
    rw [step_of_key state, stepKey, if_pos room, if_neg notQuote]

private theorem needs_iff_valueString (state : parser.state = .valueString) :
    Visit.Needs { parser, char, rest } ↔ Visit.Offered { parser, char, rest } := by
  apply @needs_iff_collecting parser char rest .valueString isQuote
    (fun reading => reading.valBuffer.length) Parser.PathFits state ⟨nofun, nofun⟩
  · intro reading readingState text
    unfold Parser.Ready
    rw [readingState]
  · simp [Visit.InBounds, Visit.emits, isQuote, state]
  · intro room stop after next
    have quote : char = '"' := by simpa [isQuote] using stop
    rw [step_of_valueString state, stepValueString, if_pos room, if_pos quote] at next
    exact ready_of_emit next
  · intro room stop
    have notQuote : char ≠ '"' := by simpa [isQuote] using stop
    refine ⟨{ parser with valBuffer := parser.valBuffer ++ [char] }, ?_, state, by simp, Iff.rfl⟩
    rw [step_of_valueString state, stepValueString, if_pos room, if_neg notQuote]

private theorem needs_iff_valueNumber (state : parser.state = .valueNumber) :
    Visit.Needs { parser, char, rest } ↔ Visit.Offered { parser, char, rest } := by
  apply @needs_iff_collecting parser char rest .valueNumber endsNumber
    (fun reading => reading.valBuffer.length) Parser.PathFits state ⟨nofun, nofun⟩
  · intro reading readingState text
    unfold Parser.Ready
    rw [readingState]
  · simp [Visit.InBounds, Visit.emits, endsNumber, state]
  · intro room stop after next
    have notNumber : ¬continuesNumber char = true := by simpa [endsNumber] using stop
    rw [step_of_valueNumber state, stepValueNumber, if_pos room, if_neg notNumber] at next
    split at next <;> cases next
  · intro room stop
    have continues : continuesNumber char = true := by simpa [endsNumber] using stop
    refine ⟨{ parser with valBuffer := parser.valBuffer ++ [char] }, ?_, state, by simp, Iff.rfl⟩
    rw [step_of_valueNumber state, stepValueNumber, if_pos room, if_pos continues]

private theorem needs_iff_literal {literal : CString} {literalState : ParserState}
    (state : parser.state = literalState)
    (collecting : literalState ≠ .keyBegin ∧ literalState ≠ .valueBegin)
    (bounds : Visit.InBounds { parser, char, rest } ↔
      (completesLiteral literal parser char = true → parser.PathFits))
    (steps : step parser char = stepLiteral literal parser char)
    (ready : ∀ reading : Parser, reading.state = literalState → ∀ text,
      reading.Ready text ↔ (literalPending literal reading text = true → reading.PathFits)) :
    Visit.Needs { parser, char, rest } ↔ Visit.Offered { parser, char, rest } := by
  have fits : Visit.StartFits { parser, char, rest } :=
    startFits_of_collecting (state ▸ collecting.1) (state ▸ collecting.2)
  unfold Visit.Needs Visit.Offered
  rw [bounds, and_iff_left fits, ready parser state]
  simp only [steps, stepLiteral]
  by_cases found : literal[parser.literalIndex]? = some char
  · rw [if_pos found, literalPending_next found]
    by_cases last : parser.literalIndex + 1 = literal.length
    · have completes : completesLiteral literal parser char = true := by
        simp [completesLiteral, found, last]
      rw [if_pos last, completes, Bool.true_or]
      constructor
      · exact fun needs => needs.1
      · exact fun path => ⟨path, fun after next => ready_of_emit next⟩
    · have incomplete : completesLiteral literal parser char = false := by
        simp [completesLiteral, last]
      have later := ready { parser with literalIndex := parser.literalIndex + 1 } state rest
      rw [if_neg last, incomplete, Bool.false_or]
      constructor
      · exact fun needs => later.mp (needs.2 _ rfl)
      · intro offered
        refine ⟨fun completes => absurd completes Bool.false_ne_true, ?_⟩
        intro after next
        cases next
        exact later.mpr offered
  · have incomplete : completesLiteral literal parser char = false := by
      simp [completesLiteral, found]
    rw [if_neg found, incomplete, literalPending_mismatch found]
    refine iff_of_true ⟨fun completes => absurd completes Bool.false_ne_true, ?_⟩
      fun pending => absurd pending Bool.false_ne_true
    intro after next
    cases next

private theorem needs_iff_keyBegin (state : parser.state = .keyBegin) :
    Visit.Needs { parser, char, rest } ↔ Visit.Offered { parser, char, rest } := by
  have bounds : Visit.InBounds { parser, char, rest } := by
    simp [Visit.InBounds, Visit.emits, state]
  have ready : parser.Ready (char :: rest) := ready_of_waits (by rw [state]; trivial) _
  unfold Visit.Needs Visit.Offered
  rw [and_iff_right bounds, and_iff_right ready]
  by_cases quote : char = '"'
  · have opened : step parser char = .next { parser with keyBuffer := [], state := .key } := by
      rw [quote, step, state]
      rfl
    constructor
    · intro needs
      have stops := needs _ opened
      exact ⟨⟨fun _ _ => stops, fun value => by simp [state] at value,
        fun value => by simp [state] at value, fun value => by simp [state] at value⟩,
        fun opens => by simp [Visit.opens, state] at opens⟩
    · intro fits after next
      rw [← Step.next.inj (opened.symm.trans next)]
      exact fits.key state quote
  · have skipped : step parser char = .next parser := by
      rw [step, state]
      simp [quote]
    apply iff_of_true
    · intro after next
      rw [← Step.next.inj (skipped.symm.trans next)]
      exact ready_of_waits (by rw [state]; trivial) rest
    · exact ⟨⟨fun _ isQuote => absurd isQuote quote, fun value => by simp [state] at value,
        fun value => by simp [state] at value, fun value => by simp [state] at value⟩,
        fun opens => by simp [Visit.opens, state] at opens⟩

private theorem needs_iff_begun {after : Parser} (state : parser.state = .valueBegin)
    (notContainer : char ≠ '{' ∧ char ≠ '[') (next : step parser char = .next after)
    (ready : after.Ready rest ↔
      (char = '"' → StopsWithin isQuote bufferSize rest) ∧
        (startsNumber char = true → StopsWithin endsNumber (bufferSize - 1) rest) ∧
        (completesToken char rest = true → parser.PathFits)) :
    Visit.Needs { parser, char, rest } ↔ Visit.Offered { parser, char, rest } := by
  have bounds : Visit.InBounds { parser, char, rest } := by
    simp [Visit.InBounds, Visit.emits, state, notContainer]
  have waits : parser.Ready (char :: rest) := ready_of_waits (by rw [state]; trivial) _
  unfold Visit.Needs Visit.Offered
  rw [and_iff_right bounds, and_iff_right waits]
  constructor
  · intro needs
    have fits := ready.mp (needs after next)
    exact ⟨⟨fun key => by simp [state] at key, fun _ => fits.1, fun _ => fits.2.1,
      fun _ => fits.2.2⟩, fun opens => by simp [Visit.opens, notContainer] at opens⟩
  · intro fits other otherNext
    rw [← Step.next.inj (next.symm.trans otherNext)]
    exact ready.mpr ⟨fits.string state, fits.number state, fits.path state⟩

private theorem needs_iff_container (state : parser.state = .valueBegin)
    (container : char = '{' ∨ char = '[') :
    Visit.Needs { parser, char, rest } ↔ Visit.Offered { parser, char, rest } := by
  have bounds : Visit.InBounds { parser, char, rest } ↔
      parser.keyStack.length < keyStackSize := by
    simp [Visit.InBounds, Visit.emits, state, container]
  have waits : parser.Ready (char :: rest) := ready_of_waits (by rw [state]; trivial) _
  have notToken : char ≠ '"' ∧ startsNumber char = false ∧ completesToken char rest = false := by
    rcases container with rfl | rfl <;> exact ⟨by decide, by decide, rfl⟩
  have fits : Visit.StartFits { parser, char, rest } ↔
      parser.keyStack.length < keyStackSize := by
    constructor
    · exact fun fits => fits.container (Visit.opens_iff.mpr ⟨state, container⟩)
    · intro room
      exact ⟨⟨fun key => by simp [state] at key, fun _ quote => absurd quote notToken.1,
        fun _ number => by simp [notToken.2.1] at number,
        fun _ token => by simp [notToken.2.2] at token⟩, fun _ => room⟩
  unfold Visit.Needs Visit.Offered
  rw [bounds, and_iff_right waits, fits]
  constructor
  · exact fun needs => needs.1
  · intro room
    refine ⟨room, fun after next => ?_⟩
    rw [step_of_valueBegin state, stepValueBegin, Parser.pushKey, if_pos room] at next
    rcases container with rfl | rfl
    · cases next
      apply ready_of_waits
      trivial
    · cases next
      apply ready_of_waits
      trivial

private theorem needs_iff_startsLiteral {literal : CString} {literalState : ParserState}
    (state : parser.state = .valueBegin) (notContainer : char ≠ '{' ∧ char ≠ '[')
    (notQuote : char ≠ '"') (notNumber : startsNumber char = false)
    (next : step parser char = .next { parser with literalIndex := 1, state := literalState })
    (completes : completesToken char rest = (literal.drop 1).isPrefixOf rest)
    (long : 1 < literal.length)
    (ready : ∀ reading : Parser, reading.state = literalState → ∀ text,
      reading.Ready text ↔ (literalPending literal reading text = true → reading.PathFits)) :
    Visit.Needs { parser, char, rest } ↔ Visit.Offered { parser, char, rest } := by
  apply needs_iff_begun state notContainer next
  rw [ready { parser with literalIndex := 1, state := literalState } rfl]
  simp [notQuote, notNumber, completes, literalPending, long, Parser.PathFits]

private theorem needs_iff_valueBegin (state : parser.state = .valueBegin) :
    Visit.Needs { parser, char, rest } ↔ Visit.Offered { parser, char, rest } := by
  have steps := step_of_valueBegin state char
  unfold stepValueBegin at steps
  by_cases container : char = '{' ∨ char = '['
  · exact needs_iff_container state container
  · have notContainer : char ≠ '{' ∧ char ≠ '[' := not_or.mp container
    rw [if_neg notContainer.1, if_neg notContainer.2] at steps
    by_cases quote : char = '"'
    · rw [if_pos quote] at steps
      apply needs_iff_begun state notContainer steps
      subst quote
      simp [Parser.Ready, completesToken, Parser.PathFits,
        (by decide : startsNumber '"' = false)]
    · rw [if_neg quote] at steps
      cases starts : startsNumber char with
      | true =>
          rw [if_pos starts] at steps
          apply needs_iff_begun state notContainer steps
          simp [Parser.Ready, completesToken, Parser.PathFits, quote, starts]
      | false =>
          rw [if_neg (by simp [starts])] at steps
          by_cases isTrue : char = 't'
          · rw [if_pos isTrue] at steps
            apply needs_iff_startsLiteral state notContainer quote starts steps _ (by decide)
              ready_valueTrue
            simp [completesToken, isTrue, (by decide : startsNumber 't' = false)]
          · rw [if_neg isTrue] at steps
            by_cases isFalse : char = 'f'
            · rw [if_pos isFalse] at steps
              apply needs_iff_startsLiteral state notContainer quote starts steps _ (by decide)
                ready_valueFalse
              simp [completesToken, isFalse, (by decide : startsNumber 'f' = false)]
            · rw [if_neg isFalse] at steps
              by_cases isNull : char = 'n'
              · rw [if_pos isNull] at steps
                apply needs_iff_startsLiteral state notContainer quote starts steps _ (by decide)
                  ready_valueNull
                simp [completesToken, isNull, (by decide : startsNumber 'n' = false)]
              · rw [if_neg isNull] at steps
                apply needs_iff_begun state notContainer steps
                apply iff_of_true (ready_of_waits (by rw [state]; trivial) rest)
                simp [completesToken, quote, starts, isTrue, isFalse, isNull]

private theorem needs_iff_elsewhere
    (elsewhere : parser.state = .start ∨ parser.state = .keyEnd ∨ parser.state = .valueEnd ∨
      parser.state = .done) :
    Visit.Needs { parser, char, rest } ↔ Visit.Offered { parser, char, rest } := by
  have bounds : Visit.InBounds { parser, char, rest } := by
    rcases elsewhere with state | state | state | state <;>
      simp [Visit.InBounds, Visit.emits, state]
  have fits : Visit.StartFits { parser, char, rest } := by
    apply startFits_of_collecting <;>
      rcases elsewhere with state | state | state | state <;> simp [state]
  have waits : parser.Ready (char :: rest) := by
    apply ready_of_waits
    rcases elsewhere with state | state | state | state <;> rw [state] <;> trivial
  apply iff_of_true _ ⟨waits, fits⟩
  refine ⟨bounds, fun after next => ready_of_waits ?_ rest⟩
  simp only at next
  rcases elsewhere with state | state | state | state
  · rw [step, state] at next
    cases next
    split
    · trivial
    · rw [state]
      trivial
  · rw [step, state] at next
    cases next
    split
    · trivial
    · rw [state]
      trivial
  · rw [step_of_valueEnd state, stepValueEnd] at next
    split at next
    · cases next
      cases parser.inArray <;> trivial
    · repeat' split at next
      all_goals
        cases next
        first | trivial | (rw [state]; trivial)
  · rw [step, state] at next
    cases next
    rw [state]
    trivial

end States

/-- Every execution of the switch needs of the text what the text must offer, whatever the
state. -/
theorem needs_iff_offered (visit : Visit) : visit.Needs ↔ visit.Offered := by
  rcases visit with ⟨parser, char, rest⟩
  cases state : parser.state with
  | start => exact needs_iff_elsewhere (.inl state)
  | keyBegin => exact needs_iff_keyBegin state
  | key => exact needs_iff_key state
  | keyEnd => exact needs_iff_elsewhere (.inr (.inl state))
  | valueBegin => exact needs_iff_valueBegin state
  | valueString => exact needs_iff_valueString state
  | valueNumber => exact needs_iff_valueNumber state
  | valueTrue =>
      exact needs_iff_literal state (by decide) (by simp [Visit.InBounds, Visit.emits, state])
        (step_of_valueTrue state char) ready_valueTrue
  | valueFalse =>
      exact needs_iff_literal state (by decide) (by simp [Visit.InBounds, Visit.emits, state])
        (step_of_valueFalse state char) ready_valueFalse
  | valueNull =>
      exact needs_iff_literal state (by decide) (by simp [Visit.InBounds, Visit.emits, state])
        (step_of_valueNull state char) ready_valueNull
  | valueEnd => exact needs_iff_elsewhere (.inr (.inr (.inl state)))
  | done => exact needs_iff_elsewhere (.inr (.inr (.inr state)))

/-! ## Runs -/

private theorem ready_nil (parser : Parser) : parser.Ready [] := by
  have pending : ∀ literal, literalPending literal parser [] = false := by
    intro literal
    by_cases within : parser.literalIndex < literal.length
    · rw [literalPending, List.drop_eq_getElem_cons within]
      exact Bool.and_false _
    · simp [literalPending, within]
  cases state : parser.state <;>
    simp [Parser.Ready, state, stopsWithin_nil, pending]

/-- The accesses of a run are in bounds exactly when the text suits the token it starts in and
each token that it begins. -/
theorem visits_inBounds_iff : ∀ parser text,
    (∀ visit ∈ visits parser text, visit.InBounds) ↔
      parser.Ready text ∧ ∀ visit ∈ visits parser text, visit.StartFits := by
  apply run_induction
  · intro parser
    exact iff_of_true nofun ⟨ready_nil parser, nofun⟩
  · intro parser char rest after next induction
    have needs : Visit.Needs { parser, char, rest } ↔
        Visit.InBounds { parser, char, rest } ∧ after.Ready rest := by
      constructor
      · exact fun needs => ⟨needs.1, needs.2 after next⟩
      · intro both
        refine ⟨both.1, fun other otherNext => ?_⟩
        exact Step.next.inj (next.symm.trans otherNext) ▸ both.2
    rw [visits_next next]
    simp only [List.forall_mem_cons, induction]
    rw [← and_assoc, ← needs, needs_iff_offered, Visit.Offered, and_assoc]
  · intro parser char rest after again induction
    have needs : Visit.Needs { parser, char, rest } ↔
        Visit.InBounds { parser, char, rest } := by
      constructor
      · exact fun needs => needs.1
      · exact fun bounds => ⟨bounds, fun other next => by cases again.symm.trans next⟩
    have ready := ready_of_valueEnd (step_again again).2 (char :: rest)
    rw [visits_again again]
    simp only [List.forall_mem_cons, induction, and_iff_right ready]
    rw [← needs, needs_iff_offered, Visit.Offered, and_assoc]
  · intro parser char rest stops
    have needs : Visit.Needs { parser, char, rest } ↔
        Visit.InBounds { parser, char, rest } := by
      constructor
      · exact fun needs => needs.1
      · refine fun bounds => ⟨bounds, fun other next => ?_⟩
        simp only at next
        rw [next] at stops
        exact stops.elim
    rw [visits_stop stops]
    simp only [List.forall_mem_singleton]
    rw [← needs, needs_iff_offered, Visit.Offered]

/-- The parser's buffers are accessed within their bounds on exactly the files whose tokens
fit, and whose objects and arrays are not nested too deep. -/
theorem buffers_inBounds_iff (contents : List Char) :
    (∀ visit ∈ visits .initial (readText contents), visit.InBounds) ↔
      (∀ visit ∈ visits .initial (readText contents), visit.TokenFits) ∧
        NestingFits (visits .initial (readText contents)) := by
  have ready : Parser.initial.Ready (readText contents) := by
    apply ready_of_waits
    trivial
  rw [visits_inBounds_iff, and_iff_right ready, nestingFits_iff]
  constructor
  · exact fun fits => ⟨fun visit member => (fits visit member).toTokenFits,
      fun visit member => (fits visit member).container⟩
  · exact fun fits visit member => ⟨fits.1 visit member, fits.2 visit member⟩

instance (parser : Parser) : Decidable parser.PathFits :=
  inferInstanceAs (Decidable (parser.inArray = false → _))

instance (visit : Visit) : Decidable visit.InBounds :=
  inferInstanceAs (Decidable (_ ∧ _ ∧ _ ∧ _))

/-- A key of 256 bytes, a string of 256 bytes, eleven nested objects and a path of three
names of 200 bytes. -/
theorem buffers_overrun :
    let long := List.replicate 256 'x'
    let name := List.replicate 200 'n'
    let files : List (List Char) :=
      ["\x7b\"".toList ++ long ++ "\":1\x7d".toList,
        "\x7b\"k\":\"".toList ++ long ++ "\"\x7d".toList,
        (List.replicate 12 "\x7b\"k\":".toList).flatten ++ "1".toList ++ List.replicate 12 '}',
        "\x7b\"".toList ++ name ++ "\":\x7b\"".toList ++ name ++ "\":\x7b\"".toList ++ name ++
          "\":1\x7d\x7d\x7d".toList]
    ∀ contents ∈ files, ¬∀ visit ∈ visits .initial (readText contents), visit.InBounds := by
  decide +kernel

end SystemsRepository.JsonParser
