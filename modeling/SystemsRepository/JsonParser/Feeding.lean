import SystemsRepository.JsonParser.Documents

/-! # Feeding tokens to the machine

What the machine does with whitespace, keys and scalars, whatever text follows.
-/

namespace SystemsRepository.JsonParser

open SystemsRepository.Foundation

/-! ## Single steps -/

theorem feed_next {parser after : Parser} {char : Char}
    (stepped : step parser char = .next after) (text : CString) :
    feed parser (char :: text) = feed after text := by
  simp [feed, visit, stepped]

theorem feed_undefined {parser : Parser} {char : Char}
    (stepped : step parser char = .undefined) (text : CString) :
    feed parser (char :: text) = .undefined := by
  simp [feed, visit, stepped]

/-- After `i--` the loop goes on as if the character had not been met. -/
theorem feed_again {parser after : Parser} {char : Char}
    (stepped : step parser char = .again after)
    (settles : ∀ other, step after char ≠ .again other) (text : CString) :
    feed parser (char :: text) = feed after (char :: text) := by
  cases further : step after char with
  | next other => simp [feed, visit, stepped, further]
  | again other => exact absurd further (settles other)
  | invalid char literal => simp [feed, visit, stepped, further]
  | undefined => simp [feed, visit, stepped, further]

theorem feed_append (parser : Parser) (left right : CString) :
    feed parser (left ++ right) =
      match feed parser left with
      | .running after => feed after right
      | stopped => stopped := by
  induction left generalizing parser with
  | nil => rfl
  | cons char left induction =>
      rw [List.cons_append, feed, feed]
      cases visit 2 parser char with
      | running after => exact induction after
      | invalid _ _ _ => rfl
      | undefined => rfl
      | unfinished => rfl

theorem feedLines_eq_flatMap (lines : List (List Char)) (parser : Parser) :
    feedLines parser lines =
      feed parser (lines.flatMap fun line => line.takeWhile fun char => char != nul) := by
  induction lines generalizing parser with
  | nil => rfl
  | cons line lines induction =>
      rw [List.flatMap_cons, feedLines, feed_append]
      cases feed parser (line.takeWhile fun char => char != nul) with
      | running after => exact induction after
      | invalid _ _ _ => rfl
      | undefined => rfl
      | unfinished => rfl

private theorem feedLines_eq {lines : List (List Char)} (parser : Parser)
    (noNul : ∀ char ∈ lines.flatten, char ≠ nul) :
    feedLines parser lines = feed parser lines.flatten := by
  have whole : (lines.flatMap fun line => line.takeWhile fun char => char != nul) =
      lines.flatten := by
    induction lines with
    | nil => rfl
    | cons line lines induction =>
        rw [List.flatten_cons] at noNul ⊢
        have kept : ∀ char ∈ line, (char != nul) = true := by
          intro char member
          simpa using noNul char (List.mem_append_left _ member)
        have all := @List.takeWhile_append_of_pos _ _ _ [] kept
        rw [List.append_nil, List.takeWhile_nil, List.append_nil] at all
        rw [List.flatMap_cons, all,
          induction fun char member => noNul char (List.mem_append_right _ member)]
  rw [feedLines_eq_flatMap, whole]

theorem parse_eq {text : CString} (noNul : ∀ char ∈ text, char ≠ nul) :
    parse (some text) = feed .initial text := by
  have whole : (Text.reads '\n' lineSize text).flatten = text :=
    Text.reads_flatten (by decide) text
  rw [parse, feedLines_eq .initial (by rw [whole]; exact noNul), whole]

/-! ## Runs over a piece of text -/

/-- If the text fits, the machine passes over it into a state as described, from
which it goes on with the rest; if not, the program is undefined. -/
def Leads (parser : Parser) (text rest : CString) (fits : Prop) (Post : Parser → Prop) : Prop :=
  (fits → ∃ after, feed parser (text ++ rest) = feed after rest ∧ Post after) ∧
    (¬fits → feed parser (text ++ rest) = .undefined)

theorem Leads.of_eq {parser after : Parser} {text rest : CString} {Post : Parser → Prop}
    (fed : feed parser (text ++ rest) = feed after rest) (post : Post after) :
    Leads parser text rest True Post :=
  ⟨fun _ => ⟨after, fed, post⟩, fun impossible => absurd trivial impossible⟩

theorem Leads.append {parser : Parser} {left right rest : CString} {first second : Prop}
    {Middle Post : Parser → Prop} (start : Leads parser left (right ++ rest) first Middle)
    (continued : first → ∀ middle, Middle middle → Leads middle right rest second Post) :
    Leads parser (left ++ right) rest (first ∧ second) Post := by
  constructor
  · rintro ⟨fitsFirst, fitsSecond⟩
    rcases start.1 fitsFirst with ⟨middle, fed, here⟩
    rcases (continued fitsFirst middle here).1 fitsSecond with ⟨after, fedOn, post⟩
    exact ⟨after, by rw [List.append_assoc, fed, fedOn], post⟩
  · intro notFits
    rw [List.append_assoc]
    by_cases fitsFirst : first
    · rcases start.1 fitsFirst with ⟨middle, fed, here⟩
      rw [fed]
      exact (continued fitsFirst middle here).2 fun fitsSecond => notFits ⟨fitsFirst, fitsSecond⟩
    · exact start.2 fitsFirst

theorem Leads.start {parser middle : Parser} {text left rest : CString} {fits : Prop}
    {Post : Parser → Prop} (fed : feed parser (text ++ rest) = feed middle (left ++ rest))
    (continued : Leads middle left rest fits Post) : Leads parser text rest fits Post := by
  rw [Leads, fed]
  exact continued

theorem Leads.imp {parser : Parser} {text rest : CString} {fits other : Prop}
    {Post Weaker : Parser → Prop} (leads : Leads parser text rest fits Post)
    (same : fits ↔ other) (weaken : ∀ after, Post after → Weaker after) :
    Leads parser text rest other Weaker := by
  constructor
  · intro fitting
    rcases leads.1 (same.mpr fitting) with ⟨after, fed, post⟩
    exact ⟨after, fed, weaken after post⟩
  · exact fun notFits => leads.2 fun fitting => notFits (same.mp fitting)

/-! ## Whitespace -/

/-- The states between tokens. -/
def ParserState.Waits : ParserState → Prop
  | .start | .keyBegin | .keyEnd | .valueBegin | .valueEnd | .done => True
  | _ => False

private theorem step_blank {parser : Parser} (waits : parser.state.Waits) {char : Char}
    (blank : char = ' ' ∨ char = '\t' ∨ char = '\n' ∨ char = '\r') :
    step parser char = .next parser := by
  unfold step
  cases state : parser.state <;> simp only [state, ParserState.Waits] at waits ⊢ <;>
    rcases blank with rfl | rfl | rfl | rfl <;> rfl

theorem feed_space {parser : Parser} (waits : parser.state.Waits) (space : Space)
    (rest : CString) : feed parser (space.chars ++ rest) = feed parser rest := by
  have skipped : ∀ blanks : CString,
      (∀ char ∈ blanks, char = ' ' ∨ char = '\t' ∨ char = '\n' ∨ char = '\r') →
      feed parser (blanks ++ rest) = feed parser rest := by
    intro blanks
    induction blanks with
    | nil => exact fun _ => rfl
    | cons char blanks induction =>
        intro blank
        rw [List.cons_append, feed_next (step_blank waits (blank char (by simp)))]
        exact induction fun other member => blank other (by simp [member])
  exact skipped space.chars space.blank

/-! ## Tokens -/

theorem feed_collected {collected : CString → Parser} {chars : CString}
    (collects : ∀ before char after, chars = before ++ char :: after →
      step (collected before) char = .next (collected (before ++ [char]))) (rest : CString) :
    feed (collected []) (chars ++ rest) = feed (collected chars) rest := by
  have onwards : ∀ left before, chars = before ++ left →
      feed (collected before) (left ++ rest) = feed (collected chars) rest := by
    intro left
    induction left with
    | nil =>
        intro before whole
        rw [whole, List.append_nil]
        rfl
    | cons char left induction =>
        intro before whole
        rw [List.cons_append, feed_next (collects before char left whole)]
        exact induction (before ++ [char]) (by rw [whole, List.append_assoc]; rfl)
  exact onwards chars [] rfl

theorem length_lt_of_split {chars before after : CString} {char : Char}
    (whole : chars = before ++ char :: after) : before.length < chars.length := by
  rw [whole, List.length_append, List.length_cons]
  omega

theorem mem_of_split {chars before after : CString} {char : Char}
    (whole : chars = before ++ char :: after) : char ∈ chars := by
  rw [whole]
  exact List.mem_append_right before List.mem_cons_self

/-! ## Keys -/

theorem step_of_key {parser : Parser} (state : parser.state = .key) (char : Char) :
    step parser char = stepKey parser char := by
  rw [step, state]

theorem feed_key {parser : Parser} (state : parser.state = .keyBegin) {key : Quoted}
    (short : key.chars.length < bufferSize) (rest : CString) :
    feed parser ('"' :: (key.chars ++ ('"' :: rest))) =
      feed { parser with keyBuffer := key.chars, state := .keyEnd } rest := by
  have opened : step parser '"' = .next { parser with keyBuffer := [], state := .key } := by
    rw [step, state]
    rfl
  have collects : ∀ before char after, key.chars = before ++ char :: after →
      step { parser with keyBuffer := before, state := .key } char =
        .next { parser with keyBuffer := before ++ [char], state := .key } := by
    intro before char after whole
    have room : before.length < bufferSize := Nat.lt_trans (length_lt_of_split whole) short
    rw [step_of_key rfl, stepKey, if_pos room, if_neg (key.plain char (mem_of_split whole)).1]
  have closed : step { parser with keyBuffer := key.chars, state := .key } '"' =
      .next { parser with keyBuffer := key.chars, state := .keyEnd } := by
    rw [step_of_key rfl, stepKey, if_pos short, if_pos rfl]
  rw [feed_next opened]
  exact (feed_collected collects _).trans (feed_next closed rest)

/-! ## Printing -/

structure PrintedFrom (parser : Parser) (fullKey : CString) (value : Value)
    (after : Parser) : Prop where
  state : after.state = .valueEnd
  keyBuffer : after.keyBuffer = parser.keyBuffer
  keyStack : after.keyStack = parser.keyStack
  inArray : after.inArray = parser.inArray
  arrayIndex : after.arrayIndex = parser.arrayIndex + if parser.inArray then 1 else 0
  output : after.output = parser.output ++ [Emission.mk fullKey value]

def Parser.CanCount (parser : Parser) : Prop :=
  parser.inArray = true → parser.arrayIndex < intMax

theorem emit_of_canCount {parser : Parser} {fullKey : CString}
    (key : parser.fullKey = some fullKey) (canCount : parser.CanCount) (value : Value) :
    ∃ after, parser.emit value = some after ∧ PrintedFrom parser fullKey value after := by
  rw [Parser.emit, key]
  cases array : parser.inArray with
  | true =>
      simp only [if_true, if_pos (canCount array)]
      exact ⟨_, rfl, rfl, rfl, rfl, array.symm, by simp [array], rfl⟩
  | false => exact ⟨_, rfl, rfl, rfl, rfl, array.symm, by simp [array], rfl⟩

theorem emit_of_not_canCount {parser : Parser} (cannot : ¬parser.CanCount) (value : Value) :
    parser.emit value = none := by
  have array : parser.inArray = true := by
    cases array : parser.inArray with
    | true => rfl
    | false => exact absurd (fun inArray => by rw [array] at inArray; cases inArray) cannot
  have full : ¬parser.arrayIndex < intMax := fun room => cannot fun _ => room
  unfold Parser.emit
  cases parser.fullKey with
  | none => rfl
  | some key => simp only [array, if_true, if_neg full]

def EndsValue (rest : CString) : Prop :=
  ∃ char text, rest = char :: text ∧ continuesNumber char = false

theorem EndsValue.space {rest : CString} (ends : EndsValue rest) (space : Space) :
    EndsValue (space.chars ++ rest) := by
  cases chars : space.chars with
  | nil => exact ends
  | cons char text =>
      refine ⟨char, text ++ rest, rfl, ?_⟩
      rcases space.blank char (by rw [chars]; simp) with rfl | rfl | rfl | rfl <;> rfl

private theorem leads_of_emit {parser reading printing : Parser} {text rest : CString} {char : Char}
    {fullKey : CString} {value : Value} (key : parser.fullKey = some fullKey)
    (fed : feed parser (text ++ rest) = feed reading (char :: rest))
    (stepped : step reading char = .ofOption (printing.emit value))
    (sameKey : printing.fullKey = parser.fullKey)
    (sameBuffer : printing.keyBuffer = parser.keyBuffer)
    (sameStack : printing.keyStack = parser.keyStack)
    (sameArray : printing.inArray = parser.inArray)
    (sameIndex : printing.arrayIndex = parser.arrayIndex)
    (sameOutput : printing.output = parser.output) :
    Leads parser text rest parser.CanCount (PrintedFrom parser fullKey value) := by
  have sameCount : printing.CanCount ↔ parser.CanCount := by
    unfold Parser.CanCount
    rw [sameArray, sameIndex]
  constructor
  · intro canCount
    rcases emit_of_canCount (sameKey.trans key) (sameCount.mpr canCount) value with
      ⟨after, emitted, printed⟩
    refine ⟨after, ?_, printed.state, printed.keyBuffer.trans sameBuffer,
      printed.keyStack.trans sameStack, printed.inArray.trans sameArray, ?_, ?_⟩
    · rw [fed, feed_next (by rw [stepped, emitted]; rfl)]
    · rw [printed.arrayIndex, sameIndex, sameArray]
    · rw [printed.output, sameOutput]
  · intro cannot
    rw [fed]
    apply feed_undefined
    rw [stepped, emit_of_not_canCount (fun canCount => cannot (sameCount.mp canCount))]
    rfl

/-! ## Strings -/

theorem step_of_valueBegin {parser : Parser} (state : parser.state = .valueBegin) (char : Char) :
    step parser char = stepValueBegin parser char := by
  rw [step, state]

theorem step_of_valueString {parser : Parser} (state : parser.state = .valueString)
    (char : Char) : step parser char = stepValueString parser char := by
  rw [step, state]

private theorem string_leads {parser : Parser} {fullKey : CString}
    (state : parser.state = .valueBegin) (key : parser.fullKey = some fullKey) {content : Quoted}
    (short : content.chars.length < bufferSize) (rest : CString) :
    Leads parser ('"' :: (content.chars ++ ['"'])) rest parser.CanCount
      (PrintedFrom parser fullKey (.string content.chars)) := by
  have opened : step parser '"' = .next { parser with valBuffer := [], state := .valueString } := by
    rw [step_of_valueBegin state]
    rfl
  have collects : ∀ before char after, content.chars = before ++ char :: after →
      step { parser with valBuffer := before, state := .valueString } char =
        .next { parser with valBuffer := before ++ [char], state := .valueString } := by
    intro before char after whole
    have room : before.length < bufferSize := Nat.lt_trans (length_lt_of_split whole) short
    rw [step_of_valueString rfl, stepValueString, if_pos room,
      if_neg (content.plain char (mem_of_split whole)).1]
  have fed : feed parser ('"' :: (content.chars ++ ['"']) ++ rest) =
      feed { parser with valBuffer := content.chars, state := .valueString } ('"' :: rest) := by
    rw [List.cons_append, feed_next opened, List.append_assoc]
    exact feed_collected collects _
  have closed : ∀ reading : Parser, reading.state = .valueString →
      reading.valBuffer = content.chars →
      step reading '"' = .ofOption (reading.emit (.string content.chars)) := by
    intro reading state buffer
    rw [step_of_valueString state, stepValueString, buffer, if_pos short, if_pos rfl]
  exact leads_of_emit key fed (closed _ rfl rfl) rfl rfl rfl rfl rfl rfl

/-! ## Literals -/

private theorem literal_leads {parser : Parser} {fullKey : CString} {literal : CString}
    {state : ParserState} (key : parser.fullKey = some fullKey)
    (steps : ∀ {reading : Parser}, reading.state = state →
      ∀ char, step reading char = stepLiteral literal reading char)
    {first final : Char} {middle : CString} (shape : literal = first :: (middle ++ [final]))
    (opened : step parser first = .next { parser with literalIndex := 1, state := state })
    (rest : CString) :
    Leads parser literal rest parser.CanCount
      (PrintedFrom parser fullKey (.literal literal)) := by
  have count : literal.length = middle.length + 2 := by
    rw [shape]
    simp
  have collects : ∀ before char after, middle = before ++ char :: after →
      step { parser with literalIndex := before.length + 1, state := state } char =
        .next { parser with literalIndex := (before ++ [char]).length + 1, state := state } := by
    intro before char after whole
    have found : literal[before.length + 1]? = some char := by
      rw [shape, whole]
      simp
    have unfinished : ¬before.length + 1 + 1 = literal.length := by
      have shorter := length_lt_of_split whole
      omega
    rw [steps rfl, stepLiteral, if_pos found, List.length_append]
    exact if_neg unfinished
  have fed : feed parser (literal ++ rest) =
      feed { parser with literalIndex := middle.length + 1, state := state } (final :: rest) := by
    have whole : literal ++ rest = first :: (middle ++ final :: rest) := by
      rw [shape]
      simp
    rw [whole, feed_next opened]
    exact @feed_collected
      (fun read => { parser with literalIndex := read.length + 1, state := state })
      middle collects _
  have found : literal[middle.length + 1]? = some final := by
    rw [shape]
    simp
  have printed : step { parser with literalIndex := middle.length + 1, state := state } final =
      .ofOption (Parser.emit { parser with literalIndex := literal.length, state := state }
        (.literal literal)) := by
    rw [steps rfl, stepLiteral, if_pos found, count]
    exact if_pos rfl
  exact leads_of_emit key fed printed rfl rfl rfl rfl rfl rfl

theorem step_of_valueTrue {parser : Parser} (state : parser.state = .valueTrue) (char : Char) :
    step parser char = stepLiteral literalTrue parser char := by
  rw [step, state]

theorem step_of_valueFalse {parser : Parser} (state : parser.state = .valueFalse) (char : Char) :
    step parser char = stepLiteral literalFalse parser char := by
  rw [step, state]

theorem step_of_valueNull {parser : Parser} (state : parser.state = .valueNull) (char : Char) :
    step parser char = stepLiteral literalNull parser char := by
  rw [step, state]

/-! ## Numbers -/

theorem step_of_valueNumber {parser : Parser} (state : parser.state = .valueNumber)
    (char : Char) : step parser char = stepValueNumber parser char := by
  rw [step, state]

private theorem feed_digits {parser : Parser} (state : parser.state = .valueNumber)
    {digits : CString} (plain : ∀ char ∈ digits, continuesNumber char = true)
    (room : parser.valBuffer.length + digits.length ≤ bufferSize) (rest : CString) :
    feed parser (digits ++ rest) =
      feed { parser with valBuffer := parser.valBuffer ++ digits } rest := by
  have collects : ∀ before char after, digits = before ++ char :: after →
      step { parser with valBuffer := parser.valBuffer ++ before } char =
        .next { parser with valBuffer := parser.valBuffer ++ (before ++ [char]) } := by
    intro before char after whole
    have within : (parser.valBuffer ++ before).length < bufferSize := by
      have shorter := length_lt_of_split whole
      rw [List.length_append]
      omega
    rw [step_of_valueNumber (by exact state), stepValueNumber, if_pos within,
      if_pos (plain char (mem_of_split whole)), List.append_assoc]
  have read := feed_collected collects rest
  rw [List.append_nil] at read
  exact read

/-- The buffer of a number is full: whatever comes next is written behind it. -/
theorem feed_full {parser : Parser} (state : parser.state = .valueNumber)
    (full : parser.valBuffer.length = bufferSize) (char : Char) (rest : CString) :
    feed parser (char :: rest) = .undefined := by
  apply feed_undefined
  rw [step_of_valueNumber state, stepValueNumber, if_neg (by omega)]

private theorem feed_longDigits {parser : Parser} (state : parser.state = .valueNumber)
    {digits : CString} (plain : ∀ char ∈ digits, continuesNumber char = true)
    (room : parser.valBuffer.length ≤ bufferSize)
    (long : bufferSize ≤ parser.valBuffer.length + digits.length) {rest : CString}
    (more : rest ≠ []) : feed parser (digits ++ rest) = .undefined := by
  have split : digits = digits.take (bufferSize - parser.valBuffer.length) ++
      digits.drop (bufferSize - parser.valBuffer.length) := (List.take_append_drop _ _).symm
  rw [split, List.append_assoc, feed_digits state
    (fun char member => plain char (List.mem_of_mem_take member))
    (by rw [List.length_take]; omega)]
  cases remaining : digits.drop (bufferSize - parser.valBuffer.length) ++ rest with
  | nil => exact absurd (List.append_eq_nil_iff.mp remaining).2 more
  | cons char text =>
      apply feed_full (by exact state)
      rw [List.length_append, List.length_take]
      omega

theorem Number.plain_token (number : Number) :
    ∃ char digits, number.token = char :: digits ∧ startsNumber char = true ∧
      ∀ other ∈ digits, continuesNumber other = true := by
  unfold Number.token
  cases number.negative with
  | true => exact ⟨'-', number.body, rfl, rfl, number.plain⟩
  | false =>
      rcases List.exists_cons_of_ne_nil number.nonempty with ⟨char, digits, body⟩
      refine ⟨char, digits, body, ?_, fun other member => number.plain other ?_⟩
      · rw [startsNumber, number.plain char (by rw [body]; simp)]
        rfl
      · rw [body]
        exact List.mem_cons_of_mem _ member

theorem step_startsNumber {parser : Parser} (state : parser.state = .valueBegin) {char : Char}
    (starts : startsNumber char = true) :
    step parser char = .next { parser with valBuffer := [char], state := .valueNumber } := by
  rw [step_of_valueBegin state]
  rw [stepValueBegin, if_neg (by rintro rfl; exact absurd starts (by decide)),
    if_neg (by rintro rfl; exact absurd starts (by decide)),
    if_neg (by rintro rfl; exact absurd starts (by decide)), if_pos starts]

theorem step_of_valueEnd {parser : Parser} (state : parser.state = .valueEnd) (char : Char) :
    step parser char = stepValueEnd parser char := by
  rw [step, state]

theorem step_valueEnd_settles {parser : Parser} (state : parser.state = .valueEnd)
    (char : Char) (other : Parser) : step parser char ≠ .again other := by
  rw [step_of_valueEnd state]
  unfold stepValueEnd
  split
  · exact nofun
  · split
    · split <;> exact nofun
    · split <;> exact nofun

private theorem endNumber_leads {reading : Parser} {fullKey : CString} {rest : CString}
    (state : reading.state = .valueNumber) (short : reading.valBuffer.length < bufferSize)
    (key : reading.fullKey = some fullKey) (ends : EndsValue rest) :
    Leads reading [] rest reading.CanCount
      (PrintedFrom reading fullKey (numberValue reading.valBuffer)) := by
  rcases ends with ⟨char, text, rfl, stops⟩
  have notNumber : ¬continuesNumber char = true := by simp [stops]
  constructor
  · intro canCount
    rcases emit_of_canCount key canCount (numberValue reading.valBuffer) with
      ⟨after, emitted, printed⟩
    have stepped : step reading char = .again after := by
      rw [step_of_valueNumber state, stepValueNumber, if_pos short, if_neg notNumber, emitted]
    exact ⟨after, feed_again stepped (step_valueEnd_settles printed.state char) text, printed⟩
  · intro cannot
    apply feed_undefined
    rw [step_of_valueNumber state, stepValueNumber, if_pos short, if_neg notNumber,
      emit_of_not_canCount cannot]

private theorem number_leads {parser : Parser} {fullKey : CString}
    (state : parser.state = .valueBegin)
    (key : parser.fullKey = some fullKey) (number : Number) {rest : CString}
    (ends : EndsValue rest) :
    Leads parser number.token rest (number.token.length < bufferSize ∧ parser.CanCount)
      (PrintedFrom parser fullKey (numberValue number.token)) := by
  rcases number.plain_token with ⟨first, digits, token, starts, plain⟩
  have count : number.token.length = digits.length + 1 := by rw [token, List.length_cons]
  have opened : feed parser (number.token ++ rest) =
      feed { parser with valBuffer := [first], state := .valueNumber } (digits ++ rest) := by
    rw [token, List.cons_append, feed_next (step_startsNumber state starts)]
  by_cases short : number.token.length < bufferSize
  · have read : feed parser (number.token ++ rest) =
        feed { parser with valBuffer := number.token, state := .valueNumber } ([] ++ rest) := by
      rw [opened, feed_digits rfl plain (by simp only [List.length_singleton]; omega), token]
      rfl
    have printed := @endNumber_leads
      { parser with valBuffer := number.token, state := .valueNumber } fullKey rest rfl short key
      ends
    apply Leads.start read
    apply printed.imp (show _ ↔ _ from (and_iff_right short).symm)
    intro after printed
    exact ⟨printed.state, printed.keyBuffer, printed.keyStack, printed.inArray,
      printed.arrayIndex, printed.output⟩
  · rcases ends with ⟨char, text, rfl, _⟩
    constructor
    · exact fun fits => absurd fits.1 short
    · intro _
      rw [opened]
      apply feed_longDigits rfl plain
      · exact (by decide : 1 ≤ bufferSize)
      · simp only [List.length_singleton]
        omega
      · simp

/-! ## Scalars -/

theorem scalar_leads {parser : Parser} {fullKey : CString} (state : parser.state = .valueBegin)
    (key : parser.fullKey = some fullKey) {scalar : Scalar} (short : scalar.Short)
    {rest : CString} (ends : EndsValue rest) :
    Leads parser scalar.text rest (scalar.Fits ∧ parser.CanCount)
      (PrintedFrom parser fullKey scalar.value) := by
  have always : parser.CanCount ↔ True ∧ parser.CanCount := (and_iff_right trivial).symm
  cases scalar with
  | string content =>
      exact (string_leads state key short rest).imp always fun _ printed => printed
  | number number => exact number_leads state key number ends
  | true =>
      have opened : step parser 't' =
          .next { parser with literalIndex := 1, state := .valueTrue } := by
        rw [step_of_valueBegin state]
        rfl
      have leads := @literal_leads _ _ literalTrue _ key step_of_valueTrue 't' 'e' ['r', 'u'] rfl
        opened rest
      exact leads.imp always fun _ printed => printed
  | false =>
      have opened : step parser 'f' =
          .next { parser with literalIndex := 1, state := .valueFalse } := by
        rw [step_of_valueBegin state]
        rfl
      have leads := @literal_leads _ _ literalFalse _ key step_of_valueFalse 'f' 'e'
        ['a', 'l', 's'] rfl opened rest
      exact leads.imp always fun _ printed => printed
  | null =>
      have opened : step parser 'n' =
          .next { parser with literalIndex := 1, state := .valueNull } := by
        rw [step_of_valueBegin state]
        rfl
      have leads := @literal_leads _ _ literalNull _ key step_of_valueNull 'n' 'l' ['u', 'l'] rfl
        opened rest
      exact leads.imp always fun _ printed => printed

end SystemsRepository.JsonParser
