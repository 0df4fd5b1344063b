import SystemsRepository.Foundation.Numerals
import SystemsRepository.JsonParser.Printing

/-! # Number tokens

The number tokens of JSON, and which of them `STATE_VALUE_NUMBER` reads whole and
prints as what they denote.
-/

namespace SystemsRepository.JsonParser

open SystemsRepository.Foundation
open SystemsRepository.Foundation.Numerals (FitsInt)

/-! ## Tokens -/

structure Digits where
  chars : CString
  nonempty : chars ≠ []
  digit : ∀ char ∈ chars, isDigit char = true

inductive Sign
  | plus
  | minus
  deriving DecidableEq, Repr

def Sign.char : Sign → Char
  | .plus => '+'
  | .minus => '-'

structure Exponent where
  marker : Char
  isMarker : marker = 'e' ∨ marker = 'E'
  sign : Option Sign
  digits : Digits

/-- A number token of the JSON grammar. -/
structure NumberToken where
  negative : Bool
  whole : Digits
  noLeadingZero : whole.chars.head? = some '0' → whole.chars = ['0']
  fraction : Option Digits
  exponent : Option Exponent

def fractionText : Option Digits → CString
  | none => []
  | some digits => '.' :: digits.chars

def exponentText : Option Exponent → CString
  | none => []
  | some exponent =>
      exponent.marker :: ((exponent.sign.map Sign.char).toList ++ exponent.digits.chars)

private theorem fractionText_plain {fraction : Option Digits} :
    ∀ char ∈ fractionText fraction, continuesNumber char = true := by
  cases fraction with
  | none => exact fun _ member => absurd member List.not_mem_nil
  | some digits =>
      intro char member
      rcases List.mem_cons.mp member with dot | digit
      · rw [dot]
        rfl
      · rw [continuesNumber, digits.digit char digit]
        rfl

def NumberToken.mantissa (number : NumberToken) : Number where
  negative := number.negative
  body := number.whole.chars ++ fractionText number.fraction
  nonempty := by simp [number.whole.nonempty]
  plain := by
    intro char member
    rcases List.mem_append.mp member with whole | fraction
    · rw [continuesNumber, number.whole.digit char whole]
      rfl
    · exact fractionText_plain char fraction

@[simp] theorem NumberToken.mantissa_negative (number : NumberToken) :
    number.mantissa.negative = number.negative := rfl

@[simp] theorem NumberToken.mantissa_body (number : NumberToken) :
    number.mantissa.body = number.whole.chars ++ fractionText number.fraction := rfl

def NumberToken.text (number : NumberToken) : CString :=
  number.mantissa.token ++ exponentText number.exponent

def NumberToken.denotes (number : NumberToken) : Int :=
  Numerals.signed number.negative (Numerals.decimal number.whole.chars)

/-- A token without fraction and exponent is printed with `%d` as the integer that it denotes,
any other in the floating-point branch. -/
def NumberToken.PrintedAs (number : NumberToken) : Value → Prop
  | .integer token =>
      number.fraction.isNone ∧ number.exponent.isNone ∧ Numerals.atoi token = number.denotes
  | .float _ => number.fraction.isSome ∨ number.exponent.isSome
  | _ => False

instance (number : NumberToken) : DecidablePred number.PrintedAs
  | .integer _ => inferInstanceAs (Decidable (_ ∧ _ ∧ _))
  | .float _ => inferInstanceAs (Decidable (_ ∨ _))
  | .string _ => inferInstanceAs (Decidable False)
  | .literal _ => inferInstanceAs (Decidable False)

/-- The first value that is printed of the text is read from the whole token. -/
def NumberRead (parser : Parser) (number : NumberToken) (rest : CString) : Prop :=
  match (visits parser (number.text ++ rest)).find? Visit.emits with
  | none => False
  | some visit => visit.parser.valBuffer = number.text ∧ number.PrintedAs visit.value

instance (parser : Parser) (number : NumberToken) (rest : CString) :
    Decidable (NumberRead parser number rest) := by
  unfold NumberRead
  split <;> infer_instance

/-! ## Reading -/

private theorem find_digits {digits : CString}
    (plain : ∀ char ∈ digits, continuesNumber char = true)
    {parser : Parser} (state : parser.state = .valueNumber)
    (room : parser.valBuffer.length + digits.length ≤ bufferSize) (rest : CString) :
    (visits parser (digits ++ rest)).find? Visit.emits =
      (visits { parser with valBuffer := parser.valBuffer ++ digits } rest).find? Visit.emits := by
  induction digits generalizing parser with
  | nil => rw [List.append_nil, List.nil_append]
  | cons digit digits induction =>
      have continues := plain digit List.mem_cons_self
      rw [List.length_cons] at room
      have stepped : step parser digit =
          .next { parser with valBuffer := parser.valBuffer ++ [digit] } := by
        rw [step_of_valueNumber state, stepValueNumber, if_pos (by omega), if_pos continues]
      have silent : Visit.emits { parser, char := digit, rest := digits ++ rest } = false := by
        simp [Visit.emits, state, continues]
      have onwards := @induction (fun char member => plain char (List.mem_cons_of_mem _ member))
        { parser with valBuffer := parser.valBuffer ++ [digit] } state
        (by simp only [List.length_append, List.length_singleton]; omega)
      rw [List.cons_append, visits_next stepped, List.find?_cons_of_neg (by simp [silent]),
        onwards, List.append_assoc, List.singleton_append]

private theorem find_number {parser : Parser} (state : parser.state = .valueBegin)
    {first ender : Char} {digits : CString} (starts : startsNumber first = true)
    (plain : ∀ char ∈ digits, continuesNumber char = true)
    (short : digits.length < bufferSize - 1) (stops : continuesNumber ender = false)
    (rest : CString) :
    (visits parser (first :: (digits ++ ender :: rest))).find? Visit.emits =
      some (Visit.mk { parser with valBuffer := first :: digits, state := .valueNumber }
        ender rest) := by
  have silent : Visit.emits { parser, char := first, rest := digits ++ ender :: rest } = false := by
    simp [Visit.emits, state]
  have read := @find_digits digits plain
    { parser with valBuffer := [first], state := .valueNumber } rfl
    (by simp only [List.length_singleton]; omega) (ender :: rest)
  rw [visits_next (step_startsNumber state starts), List.find?_cons_of_neg (by simp [silent]),
    read, visits, List.find?_cons_of_pos (by simp [Visit.emits, stops])]
  rfl

private theorem find_token {parser : Parser} (state : parser.state = .valueBegin)
    (number : NumberToken) (short : number.text.length < bufferSize) {ender : Char}
    (ends : continuesNumber ender = false) (rest : CString) :
    ∃ char text, (visits parser (number.text ++ ender :: rest)).find? Visit.emits =
      some (Visit.mk { parser with valBuffer := number.mantissa.token, state := .valueNumber }
        char text) := by
  rcases number.mantissa.plain_token with ⟨first, digits, token, starts, plain⟩
  have room : digits.length < bufferSize - 1 := by
    rw [NumberToken.text, token, List.length_append, List.length_cons] at short
    omega
  rw [NumberToken.text, token, List.append_assoc, List.cons_append]
  cases number.exponent with
  | none => exact ⟨_, _, find_number state starts plain room ends rest⟩
  | some exponent =>
      have stops : continuesNumber exponent.marker = false := by
        rcases exponent.isMarker with small | capital
        · rw [small]
          rfl
        · rw [capital]
          rfl
      exact ⟨_, _, find_number state starts plain room stops _⟩

/-! ## Conversion -/

private theorem isDigit_eq (char : Char) : isDigit char = char.isDigit := by
  simp only [isDigit, Char.isDigit, Char.toNat, GE.ge, UInt32.le_iff_toNat_le]

private theorem Number.isFloat_token (number : Number) :
    isFloat number.token = number.body.contains '.' := by
  have noMarker : ∀ marker, continuesNumber marker = false → marker ∉ number.body := by
    intro marker stops member
    rw [number.plain marker member] at stops
    cases stops
  have small := noMarker 'e' rfl
  have capital := noMarker 'E' rfl
  unfold isFloat Number.token
  cases number.negative with
  | false => simp [small, capital]
  | true => simp [small, capital]

private theorem NumberToken.isFloat_mantissa (number : NumberToken) :
    isFloat number.mantissa.token = number.fraction.isSome := by
  have noDot : '.' ∉ number.whole.chars := by
    intro member
    exact absurd (number.whole.digit '.' member) (by decide)
  rw [Number.isFloat_token, NumberToken.mantissa_body]
  cases number.fraction with
  | none => simp [fractionText, noDot]
  | some digits => simp [fractionText]

private theorem NumberToken.numeral_mantissa {number : NumberToken}
    (noFraction : number.fraction = none) :
    Numerals.numeral number.mantissa.token = number.denotes := by
  have plain : ∀ char ∈ number.whole.chars, char.isDigit = true := by
    intro char member
    rw [← isDigit_eq]
    exact number.whole.digit char member
  rw [Number.token, NumberToken.mantissa_body, NumberToken.mantissa_negative, noFraction,
    fractionText, List.append_nil, NumberToken.denotes]
  cases number.negative with
  | false => exact Numerals.numeral_digits plain
  | true => exact Numerals.numeral_negative plain

private theorem NumberToken.printedAs_iff {number : NumberToken}
    (noExponent : number.exponent = none) : number.PrintedAs (numberValue number.mantissa.token) ↔
      (number.fraction.isNone → FitsInt number.denotes) := by
  rw [numberValue, number.isFloat_mantissa]
  cases fraction : number.fraction with
  | some digits => simp [NumberToken.PrintedAs, fraction]
  | none =>
      have read := Numerals.atoi_eq_iff number.mantissa.token
      rw [NumberToken.numeral_mantissa fraction] at read
      simp [NumberToken.PrintedAs, fraction, noExponent, read]

/-- A number token is read whole, and printed as what it denotes, exactly if it has no exponent
and an integer fits an `int`. -/
theorem numberRead_iff {parser : Parser} (state : parser.state = .valueBegin)
    (number : NumberToken) (short : number.text.length < bufferSize) {ender : Char}
    (ends : continuesNumber ender = false) (rest : CString) :
    NumberRead parser number (ender :: rest) ↔
      number.exponent.isNone ∧ (number.fraction.isNone → FitsInt number.denotes) := by
  rcases find_token state number short ends rest with ⟨char, text, found⟩
  have read : NumberRead parser number (ender :: rest) ↔
      number.mantissa.token = number.text ∧
        number.PrintedAs (numberValue number.mantissa.token) := by
    unfold NumberRead
    rw [found]
    rfl
  rw [read]
  cases exponent : number.exponent with
  | none =>
      have whole : number.mantissa.token = number.text := by
        rw [NumberToken.text, exponent, exponentText, List.append_nil]
      rw [NumberToken.printedAs_iff exponent, and_iff_right whole]
      simp
  | some exponent' =>
      have partly : number.mantissa.token ≠ number.text := by
        intro whole
        have same := congrArg List.length whole
        rw [NumberToken.text, exponent, exponentText, List.length_append, List.length_cons] at same
        omega
      simp [partly]

theorem numberRead_of_minus_twelve :
    let number : NumberToken := {
      negative := true
      whole := ⟨['1', '2'], by decide, List.all_eq_true.mp rfl⟩
      noLeadingZero := by decide
      fraction := none
      exponent := none }
    NumberRead { Parser.initial with keyBuffer := ['a'], state := .valueBegin } number ['}'] :=
  (numberRead_iff rfl _ (by decide) (by decide) []).mpr (by decide)

/-- `1e5` is cut off in front of its exponent, and `2147483648` is no `int`. -/
theorem numbers_misread :
    let parser : Parser := { Parser.initial with keyBuffer := ['a'], state := .valueBegin }
    let exponent : NumberToken := {
      negative := false
      whole := ⟨['1'], by decide, List.all_eq_true.mp rfl⟩
      noLeadingZero := by decide
      fraction := none
      exponent := some ⟨'e', .inl rfl, none, ⟨['5'], by decide, List.all_eq_true.mp rfl⟩⟩ }
    let large : NumberToken := {
      negative := false
      whole := ⟨"2147483648".toList, by decide, List.all_eq_true.mp rfl⟩
      noLeadingZero := by decide
      fraction := none
      exponent := none }
    feed .initial "\x7b\"a\":".toList = .running parser ∧
      exponent.text = "1e5".toList ∧ ¬NumberRead parser exponent ['}'] ∧
      large.text = "2147483648".toList ∧ ¬NumberRead parser large ['}'] := by
  decide +kernel

end SystemsRepository.JsonParser
