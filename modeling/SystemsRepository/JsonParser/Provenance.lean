import SystemsRepository.JsonParser.ArrayMode

/-! # Where the printed pairs come from

Every pair that is printed stands in the file: its value in one piece, behind the values printed
before, and the names of its key in front of the value. This is so for every file, well formed or
not.
-/

namespace SystemsRepository.JsonParser

/-! ## Pairs of a text -/

def Named (text name : CString) : Prop :=
  '"' ∉ name ∧ ∃ before after, text = before ++ ('"' :: (name ++ ['"'])) ++ after

inductive KeyFrom (text : CString) : CString → Prop
  | member {path : List CString} {name : CString} (inside : ∀ outer ∈ path, Named text outer)
      (named : Named text name) : KeyFrom text (getKey path name)
  | element {name : CString} (index : Nat) (named : Named text name) :
      KeyFrom text (arrayKey name index)

structure NumberText (token : CString) : Prop where
  starts : ∃ first rest, token = first :: rest ∧ startsNumber first = true ∧
    ∀ char ∈ rest, continuesNumber char = true

def Value.Formed : Value → Prop
  | .string token => '"' ∉ token
  | .float token => NumberText token ∧ isFloat token = true
  | .integer token => NumberText token ∧ isFloat token = false
  | .literal text => text = literalTrue ∨ text = literalFalse ∨ text = literalNull

def Value.source : Value → CString
  | .string token => '"' :: (token ++ ['"'])
  | .float token => token
  | .integer token => token
  | .literal text => text

/-- The values of the pairs stand in the text in their order and apart, each behind the names
of its key. -/
inductive Extracted : CString → List Emission → Prop
  | nothing (text : CString) : Extracted text []
  | pair {text fullKey : CString} {value : Value} {pairs : List Emission}
      (before : Extracted text pairs) (key : KeyFrom text fullKey) (formed : value.Formed)
      (rest : CString) :
      Extracted (text ++ value.source ++ rest) (pairs ++ [Emission.mk fullKey value])

section Texts

variable {text name fullKey : CString} {pairs : List Emission}

theorem Named.more (named : Named text name) (more : CString) : Named (text ++ more) name := by
  rcases named with ⟨noQuote, before, after, split⟩
  exact ⟨noQuote, before, after ++ more, by rw [split, List.append_assoc]⟩

private theorem named_of_closed (noQuote : '"' ∉ name) (before : CString) :
    Named (before ++ '"' :: name ++ ['"']) name :=
  ⟨noQuote, before, [], by simp⟩

theorem Extracted.more (extracted : Extracted text pairs) (more : CString) :
    Extracted (text ++ more) pairs := by
  cases extracted with
  | nothing => exact .nothing _
  | pair before key formed rest =>
      rw [List.append_assoc]
      exact .pair before key formed (rest ++ more)

private theorem numberValue_formed {token : CString} (number : NumberText token) :
    (numberValue token).Formed := by
  unfold numberValue
  split
  next float => exact ⟨number, float⟩
  next integer => exact ⟨number, eq_false_of_ne_true integer⟩

private theorem source_numberValue (token : CString) : (numberValue token).source = token := by
  unfold numberValue
  split <;> rfl

end Texts

/-! ## What the parser knows of the text behind it -/

def ParserState.Keyed : ParserState → Prop
  | .start | .keyBegin | .key => False
  | _ => True

structure Known (front : CString) (parser : Parser) : Prop where
  output : Extracted front parser.output
  stack : ∀ name ∈ parser.keyStack, Named front name
  key : parser.state.Keyed → Named front parser.keyBuffer

def Parser.Pending (parser : Parser) (pending : CString) : Prop :=
  match parser.state with
  | .key => pending = '"' :: parser.keyBuffer ∧ '"' ∉ parser.keyBuffer
  | .valueString => pending = '"' :: parser.valBuffer ∧ '"' ∉ parser.valBuffer
  | .valueNumber => pending = parser.valBuffer ∧ NumberText parser.valBuffer
  | .valueTrue => pending = literalTrue.take parser.literalIndex
  | .valueFalse => pending = literalFalse.take parser.literalIndex
  | .valueNull => pending = literalNull.take parser.literalIndex
  | _ => pending = []

def Traced (read : CString) (parser : Parser) : Prop :=
  ∃ front pending, read = front ++ pending ∧ parser.Pending pending ∧ Known front parser

section Steps

variable {front read : CString} {parser after : Parser} {char : Char} {value : Value}

theorem Known.more (known : Known front parser) (more : CString) : Known (front ++ more) parser where
  output := known.output.more more
  stack name member := (known.stack name member).more more
  key keyed := (known.key keyed).more more

private theorem Known.traced (known : Known front parser) (idle : parser.Pending []) :
    Traced front parser :=
  ⟨front, [], by simp, idle, known⟩

private theorem fullKey_from {fullKey : CString} (known : Known front parser)
    (keyed : parser.state.Keyed) (key : parser.fullKey = some fullKey) : KeyFrom front fullKey := by
  unfold Parser.fullKey at key
  split at key
  next =>
    split at key
    next => cases key
    next name last =>
      cases key
      exact .element _ (known.stack name (List.mem_of_getLast? last))
  next =>
    dsimp only at key
    split at key
    next =>
      cases key
      exact .member known.stack (known.key keyed)
    next => cases key

private theorem emit_cases (emitted : parser.emit value = some after) :
    ∃ fullKey, parser.fullKey = some fullKey ∧
      after.output = parser.output ++ [Emission.mk fullKey value] ∧
      after.keyStack = parser.keyStack ∧ after.keyBuffer = parser.keyBuffer ∧
      after.state = .valueEnd := by
  unfold Parser.emit at emitted
  split at emitted
  next => cases emitted
  next fullKey key =>
    refine ⟨fullKey, key, ?_⟩
    split at emitted
    next =>
      split at emitted
      next =>
        cases emitted
        exact ⟨rfl, rfl, rfl, rfl⟩
      next => cases emitted
    next =>
      cases emitted
      exact ⟨rfl, rfl, rfl, rfl⟩

theorem Known.emit (known : Known front parser) (keyed : parser.state.Keyed)
    (formed : value.Formed) (emitted : parser.emit value = some after) :
    Traced (front ++ value.source) after := by
  rcases emit_cases emitted with ⟨fullKey, key, output, stack, buffer, state⟩
  have extracted := Extracted.pair known.output (fullKey_from known keyed key) formed []
  rw [List.append_nil] at extracted
  refine Known.traced ⟨?_, ?_, ?_⟩ ?_
  · rw [output]
    exact extracted
  · rw [stack]
    exact (known.more _).stack
  · rw [buffer]
    exact fun _ => (known.more _).key keyed
  · rw [Parser.Pending, state]

/-! ## One execution of the switch -/

private theorem traced_start (known : Known read parser) (state : parser.state = .start)
    (next : step parser char = .next after) : Traced (read ++ [char]) after := by
  rw [step, state] at next
  cases next
  split
  next => exact Known.traced ⟨known.output.more _, (known.more _).stack, False.elim⟩ rfl
  next =>
    refine Known.traced (known.more _) ?_
    rw [Parser.Pending, state]

private theorem traced_keyBegin (known : Known read parser) (state : parser.state = .keyBegin)
    (next : step parser char = .next after) : Traced (read ++ [char]) after := by
  rw [step, state] at next
  cases next
  split
  next quote =>
    rw [quote]
    exact ⟨read, ['"'], rfl, ⟨rfl, List.not_mem_nil⟩, known.output, known.stack, False.elim⟩
  next =>
    refine Known.traced (known.more _) ?_
    rw [Parser.Pending, state]

private theorem traced_key (known : Known front parser) (noQuote : '"' ∉ parser.keyBuffer)
    (state : parser.state = .key) (next : step parser char = .next after) :
    Traced (front ++ '"' :: parser.keyBuffer ++ [char]) after := by
  rw [step_of_key state, stepKey] at next
  split at next
  next =>
    split at next
    next quote =>
      cases next
      rw [quote]
      refine Known.traced ⟨?_, ?_, fun _ => named_of_closed noQuote front⟩ rfl
      · exact (known.output.more _).more _
      · exact ((known.more _).more _).stack
    next notQuote =>
      cases next
      refine ⟨front, '"' :: (parser.keyBuffer ++ [char]), by simp, ?_, known.output, known.stack,
        ?_⟩
      · rw [Parser.Pending, state]
        refine ⟨rfl, ?_⟩
        simp only [List.mem_append, List.mem_singleton, not_or]
        exact ⟨noQuote, Ne.symm notQuote⟩
      · rw [state]
        exact False.elim
  next => cases next

private theorem traced_keyEnd (known : Known read parser) (state : parser.state = .keyEnd)
    (next : step parser char = .next after) : Traced (read ++ [char]) after := by
  have keyed : parser.state.Keyed := by
    rw [state]
    trivial
  rw [step, state] at next
  cases next
  split
  next =>
    exact Known.traced ⟨known.output.more _, (known.more _).stack, fun _ => (known.more _).key keyed⟩
      rfl
  next =>
    refine Known.traced (known.more _) ?_
    rw [Parser.Pending, state]

private theorem traced_valueString (known : Known front parser) (noQuote : '"' ∉ parser.valBuffer)
    (state : parser.state = .valueString) (next : step parser char = .next after) :
    Traced (front ++ '"' :: parser.valBuffer ++ [char]) after := by
  have keyed : parser.state.Keyed := by
    rw [state]
    trivial
  rw [step_of_valueString state] at next
  rcases stepValueString_cases next with ⟨quote, emitted⟩ | ⟨notQuote, rfl⟩
  · have printed := known.emit keyed (show Value.Formed (.string _) from noQuote) emitted
    rw [quote, List.append_assoc]
    exact printed
  · refine ⟨front, '"' :: (parser.valBuffer ++ [char]), by simp, ?_, known.output, known.stack,
      known.key⟩
    rw [Parser.Pending, state]
    refine ⟨rfl, ?_⟩
    simp only [List.mem_append, List.mem_singleton, not_or]
    exact ⟨noQuote, Ne.symm notQuote⟩

private theorem traced_valueNumber (known : Known front parser)
    (number : NumberText parser.valBuffer)
    (state : parser.state = .valueNumber) (next : step parser char = .next after) :
    Traced (front ++ parser.valBuffer ++ [char]) after := by
  rw [step_of_valueNumber state] at next
  rcases stepValueNumber_next next with ⟨continues, rfl⟩
  refine ⟨front, parser.valBuffer ++ [char], by simp, ?_, known.output, known.stack, known.key⟩
  rw [Parser.Pending, state]
  rcases number.starts with ⟨first, rest, split, starts, others⟩
  refine ⟨rfl, first, rest ++ [char], by rw [split, List.cons_append], starts, ?_⟩
  intro other member
  rcases List.mem_append.mp member with old | new
  · exact others other old
  · rw [List.mem_singleton.mp new]
    exact continues

private theorem traced_again (traced : Traced read parser)
    (again : step parser char = .again after) : Traced read after := by
  have state := (step_again again).1
  rcases traced with ⟨front, pending, split, collected, known⟩
  rw [Parser.Pending, state] at collected
  have keyed : parser.state.Keyed := by
    rw [state]
    trivial
  have printed := known.emit keyed (numberValue_formed collected.2) (step_again_emits again).2
  rw [source_numberValue] at printed
  rw [split, collected.1]
  exact printed

private theorem traced_literal {literal : CString} (known : Known front parser)
    (isLiteral : literal = literalTrue ∨ literal = literalFalse ∨ literal = literalNull)
    (keyed : parser.state.Keyed)
    (pending : ∀ parser' : Parser, parser'.state = parser.state →
      parser'.Pending (literal.take parser'.literalIndex))
    (next : stepLiteral literal parser char = .next after) :
    Traced (front ++ literal.take parser.literalIndex ++ [char]) after := by
  have found : literal[parser.literalIndex]? = some char := by
    unfold stepLiteral at next
    split at next
    next found => exact found
    next => cases next
  have longer : literal.take (parser.literalIndex + 1) =
      literal.take parser.literalIndex ++ [char] := by
    rw [List.take_add_one, found]
    rfl
  rw [List.append_assoc, ← longer]
  rcases stepLiteral_cases next with ⟨completes, emitted⟩ | ⟨_, rfl⟩
  · have whole : parser.literalIndex + 1 = literal.length := by
      simp only [completesLiteral, Bool.and_eq_true, beq_iff_eq] at completes
      exact completes.2
    have counted : Known front { parser with literalIndex := parser.literalIndex + 1 } :=
      ⟨known.output, known.stack, known.key⟩
    rw [whole, List.take_length]
    exact counted.emit keyed (show Value.Formed (.literal literal) from isLiteral) emitted
  · exact ⟨front, _, rfl, pending _ rfl, known.output, known.stack, known.key⟩

private theorem traced_valueBegin (known : Known read parser) (state : parser.state = .valueBegin)
    (next : step parser char = .next after) : Traced (read ++ [char]) after := by
  have keyed : parser.state.Keyed := by
    rw [state]
    trivial
  have named := known.key keyed
  have pushed : ∀ name ∈ parser.keyStack ++ [parser.keyBuffer], Named (read ++ [char]) name := by
    intro name member
    rcases List.mem_append.mp member with old | new
    · exact (known.stack name old).more _
    · rw [List.mem_singleton.mp new]
      exact named.more _
  rw [step_of_valueBegin state, stepValueBegin] at next
  split at next
  next =>
    rw [eq_of_pushKey next]
    exact Known.traced ⟨known.output.more _, pushed, False.elim⟩ rfl
  next =>
    split at next
    next =>
      rw [eq_of_pushKey next]
      exact Known.traced ⟨known.output.more _, pushed, fun _ => named.more _⟩ rfl
    next =>
      have begun : ∀ after : Parser, after.output = parser.output →
          after.keyStack = parser.keyStack → after.keyBuffer = parser.keyBuffer →
          Known read after := by
        intro after output stack buffer
        exact ⟨by rw [output]; exact known.output, by rw [stack]; exact known.stack,
          fun _ => by rw [buffer]; exact named⟩
      split at next
      next quote =>
        cases next
        rw [quote]
        exact ⟨read, ['"'], rfl, ⟨rfl, List.not_mem_nil⟩, begun _ rfl rfl rfl⟩
      next =>
        split at next
        next starts =>
          cases next
          exact ⟨read, [char], rfl, ⟨rfl, char, [], rfl, starts, by simp⟩, begun _ rfl rfl rfl⟩
        next =>
          split at next
          next letter =>
            cases next
            rw [letter]
            exact ⟨read, ['t'], rfl, rfl, begun _ rfl rfl rfl⟩
          next =>
            split at next
            next letter =>
              cases next
              rw [letter]
              exact ⟨read, ['f'], rfl, rfl, begun _ rfl rfl rfl⟩
            next =>
              split at next
              next letter =>
                cases next
                rw [letter]
                exact ⟨read, ['n'], rfl, rfl, begun _ rfl rfl rfl⟩
              next =>
                cases next
                refine Known.traced (known.more _) ?_
                rw [Parser.Pending, state]

private theorem traced_valueEnd (known : Known read parser) (state : parser.state = .valueEnd)
    (next : step parser char = .next after) : Traced (read ++ [char]) after := by
  have later := known.more [char]
  have named := later.key (by rw [state]; trivial)
  have popped : ∀ name ∈ parser.keyStack.dropLast, Named (read ++ [char]) name :=
    fun name member => later.stack name (List.dropLast_subset _ member)
  rw [step_of_valueEnd state] at next
  rcases stepValueEnd_cases next with ⟨_, rfl⟩ | ⟨_, _, rfl⟩ | ⟨_, _, rfl⟩ | ⟨_, rfl⟩ | ⟨_, _, rfl⟩
  · refine Known.traced ⟨later.output, later.stack, fun _ => named⟩ ?_
    rw [Parser.Pending]
    cases parser.inArray <;> rfl
  · exact Known.traced ⟨later.output, later.stack, fun _ => named⟩ rfl
  · exact Known.traced ⟨later.output, popped, fun _ => named⟩ rfl
  · exact Known.traced ⟨later.output, popped, fun _ => named⟩ rfl
  · refine Known.traced later ?_
    rw [Parser.Pending, state]

private theorem traced_next (traced : Traced read parser) (next : step parser char = .next after) :
    Traced (read ++ [char]) after := by
  rcases traced with ⟨front, pending, split, collected, known⟩
  rw [Parser.Pending] at collected
  cases state : parser.state <;> simp only [state] at collected
  case key =>
    rw [split, collected.1]
    exact traced_key known collected.2 state next
  case valueString =>
    rw [split, collected.1]
    exact traced_valueString known collected.2 state next
  case valueNumber =>
    rw [split, collected.1]
    exact traced_valueNumber known collected.2 state next
  case valueTrue =>
    rw [split, collected]
    rw [step_of_valueTrue state] at next
    exact traced_literal known (.inl rfl) (by rw [state]; trivial)
      (fun _ same => by rw [Parser.Pending, same, state]) next
  case valueFalse =>
    rw [split, collected]
    rw [step_of_valueFalse state] at next
    exact traced_literal known (.inr (.inl rfl)) (by rw [state]; trivial)
      (fun _ same => by rw [Parser.Pending, same, state]) next
  case valueNull =>
    rw [split, collected]
    rw [step_of_valueNull state] at next
    exact traced_literal known (.inr (.inr rfl)) (by rw [state]; trivial)
      (fun _ same => by rw [Parser.Pending, same, state]) next
  -- The other states collect nothing.
  all_goals rw [split, collected, List.append_nil]
  case start => exact traced_start known state next
  case keyBegin => exact traced_keyBegin known state next
  case keyEnd => exact traced_keyEnd known state next
  case valueBegin => exact traced_valueBegin known state next
  case valueEnd => exact traced_valueEnd known state next
  case done =>
    rw [step, state] at next
    cases next
    refine Known.traced (known.more _) ?_
    rw [Parser.Pending, state]

end Steps

/-! ## Runs -/

private theorem traced_initial : Traced [] Parser.initial :=
  Known.traced ⟨.nothing [], by simp [Parser.initial], False.elim⟩ rfl

private theorem visits_traced (text : CString) : ∀ visit ∈ visits .initial text,
    ∃ read, text = read ++ visit.char :: visit.rest ∧ Traced read visit.parser :=
  @visits_invariant (fun parser left => ∃ read, text = read ++ left ∧ Traced read parser)
    (fun _ => True)
    (fun _ char _ _ ⟨read, split, traced⟩ _ next =>
      ⟨read ++ [char], by rw [split, List.append_assoc]; rfl, traced_next traced next⟩)
    (fun _ _ _ _ ⟨read, split, traced⟩ _ again => ⟨read, split, traced_again traced again⟩)
    .initial text
    ⟨[], rfl, traced_initial⟩
    (fun _ _ => trivial)

def Outcome.last : Outcome → Option Parser
  | .running parser => some parser
  | .invalid parser _ _ => some parser
  | _ => none

private theorem Traced.extracted {read : CString} {parser : Parser} (traced : Traced read parser) :
    Extracted read parser.output := by
  rcases traced with ⟨front, pending, split, _, known⟩
  rw [split]
  exact known.output.more pending

private theorem feed_extracted :
    ∀ parser left, ∀ (read : CString) (last : Parser), Traced read parser →
    (feed parser left).last = some last → Extracted (read ++ left) last.output := by
  apply run_induction
  · intro parser read last traced ends
    cases ends
    rw [List.append_nil]
    exact traced.extracted
  · intro parser char rest after stepped induction read last traced ends
    rw [feed_next stepped] at ends
    rw [← List.singleton_append, ← List.append_assoc]
    exact induction _ last (traced_next traced stepped) ends
  · intro parser char rest after stepped induction read last traced ends
    rw [feed_again stepped (step_settles stepped)] at ends
    exact induction read last (traced_again traced stepped) ends
  · intro parser char rest stops read last traced ends
    rw [feed_stop stops] at ends
    split at ends
    next =>
      cases ends
      exact traced.extracted.more _
    next => cases ends

/-- Whatever the file, the parser makes nothing up: at every moment the values it has printed stand
in the part that it has read, and so they do at the end, also where a misspelt literal stops it. -/
theorem printed_extracted (contents : List Char) :
    (∀ visit ∈ visits .initial (readText contents), ∃ read,
      readText contents = read ++ visit.char :: visit.rest ∧
        Extracted read visit.parser.output) ∧
    ∀ last, (parse (some contents)).last = some last →
      Extracted (readText contents) last.output := by
  constructor
  · intro visit member
    rcases visits_traced _ visit member with ⟨read, split, traced⟩
    exact ⟨read, split, traced.extracted⟩
  · intro last ends
    rw [parse_eq_feed] at ends
    exact feed_extracted _ _ [] last traced_initial ends

def misspeltFile : List Char := "\x7b\"a\":[1,2],\"b\":\x7b\"c\":\"x\"\x7d,\"d\":nil\x7d".toList

theorem printed_extracted_of_misspelt : ∃ last,
    (parse (some misspeltFile)).last = some last ∧
      last.output.map Emission.fullKey = ["a[0]".toList, "a[1]".toList, "b.c".toList] ∧
      Extracted (readText misspeltFile) last.output := by
  refine ⟨_, rfl, by decide, (printed_extracted misspeltFile).2 _ rfl⟩

end SystemsRepository.JsonParser
