import SystemsRepository.JsonParser.Visits

/-! # String tokens

The string tokens of JSON, and which of them the machine leaves at their closing
quote.
-/

namespace SystemsRepository.JsonParser

/-! ## Tokens -/

def isHexDigit (char : Char) : Bool :=
  isDigit char || ('a'.toNat ≤ char.toNat && char.toNat ≤ 'f'.toNat) ||
    ('A'.toNat ≤ char.toNat && char.toNat ≤ 'F'.toNat)

def escapable : CString := ['"', '\\', '/', 'b', 'f', 'n', 'r', 't']

inductive StringItem
  | plain (char : Char) (allowed : char ≠ '"' ∧ char ≠ '\\' ∧ ' '.toNat ≤ char.toNat)
  | escape (char : Char) (standard : char ∈ escapable)
  | unicode (digits : CString) (count : digits.length = 4)
      (hex : ∀ char ∈ digits, isHexDigit char = true)

def StringItem.text : StringItem → CString
  | .plain char _ => [char]
  | .escape char _ => ['\\', char]
  | .unicode digits _ _ => '\\' :: 'u' :: digits

def stringText (items : List StringItem) : CString := items.flatMap StringItem.text

def StringItem.isQuote : StringItem → Bool
  | .escape char _ => char == '"'
  | _ => false

private theorem StringItem.quote_mem_text (item : StringItem) :
    '"' ∈ item.text ↔ item.isQuote = true := by
  cases item with
  | plain char allowed => simp [StringItem.text, StringItem.isQuote, allowed.1.symm]
  | escape char standard =>
      rw [StringItem.text, StringItem.isQuote, List.mem_cons, List.mem_singleton, beq_iff_eq,
        or_iff_right (by decide)]
      exact eq_comm
  | unicode digits count hex =>
      have noQuote : '"' ∉ digits := fun member => absurd (hex '"' member) (by decide)
      simp [StringItem.text, StringItem.isQuote, noQuote]

private theorem quote_notMem_stringText (items : List StringItem) :
    '"' ∉ stringText items ↔ ∀ item ∈ items, item.isQuote = false := by
  simp only [stringText, List.mem_flatMap, not_exists, not_and, StringItem.quote_mem_text,
    Bool.not_eq_true]

/-! ## The string states -/

/-- The machine is in the string state as long as it meets the content, and no longer when it
has met the closing quote. -/
structure EndsAtQuote (parser : Parser) (collecting : ParserState) (content : CString) : Prop where
  inside : ∀ front back, content = front ++ back →
    ∃ reading, feed parser ('"' :: front) = .running reading ∧ reading.state = collecting
  outside : ∃ after, feed parser ('"' :: (content ++ ['"'])) = .running after ∧
    after.state ≠ collecting

/-- From its opening quote on a string is collected into a buffer, which is closed with the
next quote. -/
structure CollectsString (parser : Parser) (collecting : ParserState)
    (reading : CString → Parser) (closed : CString → Option Parser) : Prop where
  opens : step parser '"' = .next (reading [])
  state : ∀ before, (reading before).state = collecting
  collects : ∀ before char, before.length < bufferSize → char ≠ '"' →
    step (reading before) char = .next (reading (before ++ [char]))
  closes : ∀ before, before.length < bufferSize →
    step (reading before) '"' = .ofOption (closed before)
  leaves : ∀ before after, closed before = some after → after.state ≠ collecting
  full : ∀ before char, ¬before.length < bufferSize → step (reading before) char = .undefined

namespace CollectsString

variable {parser : Parser} {collecting : ParserState} {reading : CString → Parser}
  {closed : CString → Option Parser}

private theorem feed_content (collects : CollectsString parser collecting reading closed)
    {content : CString} (noQuote : '"' ∉ content) (short : content.length ≤ bufferSize)
    (rest : CString) : feed parser ('"' :: (content ++ rest)) = feed (reading content) rest := by
  rw [feed_next collects.opens]
  apply feed_collected
  intro before char after whole
  apply collects.collects before char
  · exact Nat.lt_of_lt_of_le (length_lt_of_split whole) short
  · intro quote
    exact noQuote (quote ▸ mem_of_split whole)

theorem feed_quote_iff (collects : CollectsString parser collecting reading closed)
    {before : CString} (room : before.length < bufferSize) (after : Parser) :
    feed (reading before) ['"'] = .running after ↔ closed before = some after := by
  have stepped := collects.closes before room
  cases closing : closed before with
  | none =>
      rw [closing] at stepped
      rw [feed_undefined stepped]
      exact iff_of_false nofun nofun
  | some last =>
      rw [closing] at stepped
      rw [feed_next stepped, feed, Outcome.running.injEq, Option.some.injEq]

theorem feed_full (collects : CollectsString parser collecting reading closed)
    {before : CString} (full : ¬before.length < bufferSize) (char : Char) (after : Parser) :
    feed (reading before) [char] ≠ .running after := by
  rw [feed_undefined (collects.full before char full)]
  exact nofun

private theorem plain_of_inside (collects : CollectsString parser collecting reading closed)
    {left : CString} : ∀ {before : CString}, before.length ≤ bufferSize →
      (∀ front back, left = front ++ back →
        ∃ after, feed (reading before) front = .running after ∧ after.state = collecting) →
      '"' ∉ left ∧ before.length + left.length ≤ bufferSize := by
  induction left with
  | nil => exact fun short _ => ⟨List.not_mem_nil, short⟩
  | cons char left induction =>
      intro before short inside
      rcases inside [char] left rfl with ⟨after, fed, state⟩
      by_cases room : before.length < bufferSize
      · have notQuote : char ≠ '"' := by
          intro quote
          rw [quote, collects.feed_quote_iff room] at fed
          exact collects.leaves before after fed state
        have stepped := collects.collects before char room notQuote
        have later := @induction (before ++ [char])
          (by simp only [List.length_append, List.length_singleton]; omega)
          (by
            intro front back split
            rcases inside (char :: front) back (by rw [split]; rfl) with ⟨last, fed, state⟩
            rw [feed_next stepped] at fed
            exact ⟨last, fed, state⟩)
        rw [List.length_append, List.length_singleton] at later
        constructor
        · rw [List.mem_cons, not_or]
          exact ⟨fun quote => notQuote quote.symm, later.1⟩
        · rw [List.length_cons]
          omega
      · exact absurd fed (collects.feed_full room char after)

theorem endsAtQuote_iff (collects : CollectsString parser collecting reading closed)
    (content : CString) :
    EndsAtQuote parser collecting content ↔
      '"' ∉ content ∧ content.length < bufferSize ∧ (closed content).isSome := by
  constructor
  · intro ends
    have plain := @plain_of_inside _ _ _ _ collects content [] (Nat.zero_le _) (by
      intro front back split
      rcases ends.inside front back split with ⟨after, fed, state⟩
      rw [feed_next collects.opens] at fed
      exact ⟨after, fed, state⟩)
    rw [List.length_nil, Nat.zero_add] at plain
    rcases ends.outside with ⟨after, fed, left⟩
    rw [collects.feed_content plain.1 plain.2] at fed
    by_cases room : content.length < bufferSize
    · rw [collects.feed_quote_iff room] at fed
      exact ⟨plain.1, room, Option.isSome_iff_exists.mpr ⟨after, fed⟩⟩
    · exact absurd fed (collects.feed_full room '"' after)
  · intro conditions
    rcases conditions with ⟨noQuote, short, closes⟩
    rcases Option.isSome_iff_exists.mp closes with ⟨last, closing⟩
    constructor
    · intro front back split
      rw [split, List.mem_append, not_or] at noQuote
      rw [split, List.length_append] at short
      have fed := collects.feed_content noQuote.1 (by omega) []
      rw [List.append_nil] at fed
      exact ⟨reading front, fed, collects.state front⟩
    · refine ⟨last, ?_, collects.leaves content last closing⟩
      rw [collects.feed_content noQuote (Nat.le_of_lt short)]
      exact (collects.feed_quote_iff short last).mpr closing

end CollectsString

private theorem key_collects {parser : Parser} (state : parser.state = .keyBegin) :
    CollectsString parser .key (fun read => { parser with keyBuffer := read, state := .key })
      (fun read => some { parser with keyBuffer := read, state := .keyEnd }) where
  opens := by
    rw [step, state]
    rfl
  state _ := rfl
  collects before char room notQuote := by
    rw [step_of_key rfl, stepKey, if_pos room, if_neg notQuote]
  closes before room := by
    rw [step_of_key rfl, stepKey, if_pos room, if_pos rfl]
    rfl
  leaves before after closed := by
    cases closed
    intro same
    cases same
  full before char full := by
    rw [step_of_key rfl, stepKey, if_neg full]

private theorem valueString_collects {parser : Parser} (state : parser.state = .valueBegin) :
    CollectsString parser .valueString
      (fun read => { parser with valBuffer := read, state := .valueString })
      (fun read =>
        Parser.emit { parser with valBuffer := read, state := .valueString } (.string read)) where
  opens := by
    rw [step_of_valueBegin state]
    rfl
  state _ := rfl
  collects before char room notQuote := by
    rw [step_of_valueString rfl, stepValueString, if_pos room, if_neg notQuote]
  closes before room := by
    rw [step_of_valueString rfl, stepValueString, if_pos room, if_pos rfl]
  leaves before after closed := by
    rw [emit_state closed]
    intro same
    cases same
  full before char full := by
    rw [step_of_valueString rfl, stepValueString, if_neg full]

private theorem emit_isSome_iff (parser : Parser) (value : Value) :
    (parser.emit value).isSome ↔ parser.fullKey.isSome ∧ parser.CanCount := by
  cases key : parser.fullKey with
  | none => simp [Parser.emit, key]
  | some fullKey =>
      by_cases canCount : parser.CanCount
      · rcases emit_of_canCount key canCount value with ⟨after, emitted, _⟩
        simp [emitted, canCount]
      · simp [emit_of_not_canCount canCount, canCount]

/-- A string token ends at its closing quote exactly if it has no escaped quote and fits its
buffer, and if a value can be printed under its key. -/
theorem strings_end_at_quote (parser : Parser) (items : List StringItem) :
    (parser.state = .keyBegin →
      (EndsAtQuote parser .key (stringText items) ↔
        (∀ item ∈ items, item.isQuote = false) ∧ (stringText items).length < bufferSize)) ∧
    (parser.state = .valueBegin →
      (EndsAtQuote parser .valueString (stringText items) ↔
        (∀ item ∈ items, item.isQuote = false) ∧ (stringText items).length < bufferSize ∧
          parser.fullKey.isSome ∧ parser.CanCount)) := by
  constructor
  · intro state
    rw [(key_collects state).endsAtQuote_iff, quote_notMem_stringText]
    simp
  · intro state
    rw [(valueString_collects state).endsAtQuote_iff, quote_notMem_stringText, emit_isSome_iff]
    rfl

theorem strings_end_at_quote_of_escapes :
    let items : List StringItem :=
      [.plain 'a' (by decide), .escape '\\' (by decide), .escape 'n' (by decide),
        .unicode ['0', '0', 'e', '9'] rfl (List.all_eq_true.mp rfl)]
    EndsAtQuote { Parser.initial with state := .keyBegin } .key (stringText items) ∧
      EndsAtQuote { Parser.initial with keyBuffer := ['k'], state := .valueBegin } .valueString
        (stringText items) :=
  ⟨((strings_end_at_quote _ _).1 rfl).mpr (by decide),
    ((strings_end_at_quote _ _).2 rfl).mpr
      ⟨by decide, by decide, by decide, fun array => by cases array⟩⟩

/-- The key `a\"b` and the value `a\"b` are left at the quote in their middle. -/
theorem escapedQuote_ends_string :
    let items : List StringItem :=
      [.plain 'a' (by decide), .escape '"' (by decide), .plain 'b' (by decide)]
    let key : Parser := { Parser.initial with state := .keyBegin }
    let value : Parser := { Parser.initial with keyBuffer := ['k'], state := .valueBegin }
    feed .initial ['{'] = .running key ∧ ¬EndsAtQuote key .key (stringText items) ∧
      feed .initial "\x7b\"k\":".toList = .running value ∧
      ¬EndsAtQuote value .valueString (stringText items) := by
  refine ⟨by decide, ?_, by decide, ?_⟩
  · intro ends
    rcases ends.inside ['a', '\\', '"'] ['b'] rfl with ⟨reading, fed, state⟩
    cases fed
    cases state
  · intro ends
    rcases ends.inside ['a', '\\', '"'] ['b'] rfl with ⟨reading, fed, state⟩
    cases fed
    cases state

end SystemsRepository.JsonParser
