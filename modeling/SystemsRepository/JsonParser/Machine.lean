import SystemsRepository.Foundation.Text
import Mathlib.Algebra.Group.Nat.Defs

/-! # The JSON state machine

`main` of `jparse.c`. A buffer that a string is collected in is the list of the
bytes written to it; a write outside a buffer is undefined behaviour.
-/

namespace SystemsRepository.JsonParser

open SystemsRepository.Foundation

abbrev CString := List Char

def nul : Char := '\x00'

/-- The size of `key_buffer`, `val_buffer` and the entries of `key_stack`. -/
abbrev bufferSize : Nat := 256

abbrev keyStackSize : Nat := 10

/-- The size of `full_key` and of the line buffer. -/
abbrev lineSize : Nat := 512

abbrev intMax : Nat := 2 ^ 31 - 1

inductive ParserState
  | start
  | keyBegin
  | key
  | keyEnd
  | valueBegin
  | valueString
  | valueNumber
  | valueTrue
  | valueFalse
  | valueNull
  | valueEnd
  | done
  deriving DecidableEq, Repr

/-- What is printed as a value: a string, a number as `float` or as `int`, or a
literal. -/
inductive Value
  | string (token : CString)
  | float (token : CString)
  | integer (token : CString)
  | literal (text : CString)
  deriving DecidableEq, Repr

/-- A printed pair, `printf("Key: %s, Value: ...")`. -/
structure Emission where
  fullKey : CString
  value : Value
  deriving DecidableEq, Repr

/-- `keyStack` has the first `key_depth` entries, the innermost last; `output`
has what was printed. -/
structure Parser where
  state : ParserState
  keyBuffer : CString
  valBuffer : CString
  literalIndex : Nat
  keyStack : List CString
  inArray : Bool
  arrayIndex : Nat
  output : List Emission
  deriving DecidableEq, Repr

def Parser.initial : Parser where
  state := .start
  keyBuffer := []
  valBuffer := []
  literalIndex := 0
  keyStack := []
  inArray := false
  arrayIndex := 0
  output := []

/-! ## Keys -/

def getKey (keyStack : List CString) (key : CString) : CString :=
  (keyStack.flatMap fun name => name ++ ['.']) ++ key

/-- `snprintf(full_key, sizeof full_key, "%s[%d]", name, index)` -/
def arrayKey (name : CString) (index : Nat) : CString :=
  (name ++ '[' :: (Nat.toDigits 10 index ++ [']'])).take (lineSize - 1)

/-- The key of the next pair, or `none` if building it leaves a buffer. -/
def Parser.fullKey (parser : Parser) : Option CString :=
  if parser.inArray then
    match parser.keyStack.getLast? with
    | none => none
    | some name => some (arrayKey name parser.arrayIndex)
  else
    let key := getKey parser.keyStack parser.keyBuffer
    if key.length < lineSize then some key else none

/-- Print a pair; in an array, count it. -/
def Parser.emit (parser : Parser) (value : Value) : Option Parser :=
  match parser.fullKey with
  | none => none
  | some fullKey =>
      let printed := { parser with
        state := .valueEnd
        output := parser.output ++ [{ fullKey, value }] }
      if parser.inArray then
        if parser.arrayIndex < intMax then
          some { printed with arrayIndex := parser.arrayIndex + 1 }
        else none
      else some printed

/-- `strcpy(key_stack[key_depth++], key_buffer)` -/
def Parser.pushKey (parser : Parser) : Option Parser :=
  if parser.keyStack.length < keyStackSize then
    some { parser with keyStack := parser.keyStack ++ [parser.keyBuffer] }
  else none

/-! ## One character -/

/-- What the switch does with a character: go on to the next one, meet it again
(`i--`), or return 1. -/
inductive Step
  | next (parser : Parser)
  | again (parser : Parser)
  | invalid (char : Char) (literal : CString)
  | undefined
  deriving DecidableEq, Repr

def Step.ofOption : Option Parser → Step
  | some parser => .next parser
  | none => .undefined

def isDigit (char : Char) : Bool := '0'.toNat ≤ char.toNat && char.toNat ≤ '9'.toNat

def continuesNumber (char : Char) : Bool := isDigit char || char == '.'

def startsNumber (char : Char) : Bool := continuesNumber char || char == '-'

/-- `strchr(val_buffer, '.') || strchr(val_buffer, 'e') || strchr(val_buffer, 'E')` -/
def isFloat (token : CString) : Bool :=
  token.contains '.' || token.contains 'e' || token.contains 'E'

def numberValue (token : CString) : Value :=
  if isFloat token then .float token else .integer token

def literalTrue : CString := ['t', 'r', 'u', 'e']

def literalFalse : CString := ['f', 'a', 'l', 's', 'e']

def literalNull : CString := ['n', 'u', 'l', 'l']

def stepLiteral (literal : CString) (parser : Parser) (char : Char) : Step :=
  if literal[parser.literalIndex]? = some char then
    let matched := { parser with literalIndex := parser.literalIndex + 1 }
    if matched.literalIndex = literal.length then .ofOption (matched.emit (.literal literal))
    else .next matched
  else .invalid char literal

def stepKey (parser : Parser) (char : Char) : Step :=
  if parser.keyBuffer.length < bufferSize then
    if char = '"' then .next { parser with state := .keyEnd }
    else .next { parser with keyBuffer := parser.keyBuffer ++ [char] }
  else .undefined

def stepValueBegin (parser : Parser) (char : Char) : Step :=
  if char = '{' then
    .ofOption ((parser.pushKey).map fun pushed => { pushed with state := .keyBegin })
  else if char = '[' then
    .ofOption ((parser.pushKey).map fun pushed =>
      { pushed with inArray := true, arrayIndex := 0, state := .valueBegin })
  else if char = '"' then .next { parser with valBuffer := [], state := .valueString }
  else if startsNumber char then
    .next { parser with valBuffer := [char], state := .valueNumber }
  else if char = 't' then .next { parser with literalIndex := 1, state := .valueTrue }
  else if char = 'f' then .next { parser with literalIndex := 1, state := .valueFalse }
  else if char = 'n' then .next { parser with literalIndex := 1, state := .valueNull }
  else .next parser

def stepValueString (parser : Parser) (char : Char) : Step :=
  if parser.valBuffer.length < bufferSize then
    if char = '"' then .ofOption (parser.emit (.string parser.valBuffer))
    else .next { parser with valBuffer := parser.valBuffer ++ [char] }
  else .undefined

/-- The character after a number is met again in `STATE_VALUE_END`. -/
def stepValueNumber (parser : Parser) (char : Char) : Step :=
  if parser.valBuffer.length < bufferSize then
    if continuesNumber char then .next { parser with valBuffer := parser.valBuffer ++ [char] }
    else
      match parser.emit (numberValue parser.valBuffer) with
      | none => .undefined
      | some printed => .again printed
  else .undefined

def stepValueEnd (parser : Parser) (char : Char) : Step :=
  if char = ',' then
    .next { parser with state := if parser.inArray then .valueBegin else .keyBegin }
  else if char = '}' then
    if parser.keyStack = [] then .next { parser with state := .done }
    else .next { parser with keyStack := parser.keyStack.dropLast, state := .valueEnd }
  else if char = ']' then
    .next { parser with
      keyStack := parser.keyStack.dropLast, inArray := false, state := .valueEnd }
  else .next parser

def step (parser : Parser) (char : Char) : Step :=
  match parser.state with
  | .start => .next (if char = '{' then { parser with state := .keyBegin } else parser)
  | .keyBegin =>
      .next (if char = '"' then { parser with keyBuffer := [], state := .key } else parser)
  | .key => stepKey parser char
  | .keyEnd => .next (if char = ':' then { parser with state := .valueBegin } else parser)
  | .valueBegin => stepValueBegin parser char
  | .valueString => stepValueString parser char
  | .valueNumber => stepValueNumber parser char
  | .valueTrue => stepLiteral literalTrue parser char
  | .valueFalse => stepLiteral literalFalse parser char
  | .valueNull => stepLiteral literalNull parser char
  | .valueEnd => stepValueEnd parser char
  | .done => .next parser

/-! ## The loops -/

/-- How far a run has come; `unfinished` would be a character met too often. -/
inductive Outcome
  | running (parser : Parser)
  | invalid (parser : Parser) (char : Char) (literal : CString)
  | undefined
  | unfinished
  deriving DecidableEq, Repr

/-- Meet a character until the loop moves on. -/
def visit : Nat → Parser → Char → Outcome
  | 0, _, _ => .unfinished
  | visits + 1, parser, char =>
      match step parser char with
      | .next after => .running after
      | .again after => visit visits after char
      | .invalid char literal => .invalid parser char literal
      | .undefined => .undefined

/-- The loop over the characters of a string. No character is met more than
twice. -/
def feed : Parser → CString → Outcome
  | parser, [] => .running parser
  | parser, char :: text =>
      match visit 2 parser char with
      | .running after => feed after text
      | stopped => stopped

def feedLines : Parser → List (List Char) → Outcome
  | parser, [] => .running parser
  | parser, line :: lines =>
      match feed parser (line.takeWhile fun char => char != nul) with
      | .running after => feedLines after lines
      | stopped => stopped

/-- `temp.json` is not checked to exist. -/
def parse : Option (List Char) → Outcome
  | none => .undefined
  | some contents => feedLines .initial (Text.reads '\n' lineSize contents)

/-- The exit status; at the end of the file it is 0 in every state. -/
def Outcome.status : Outcome → Option Nat
  | .running _ => some 0
  | .invalid _ _ _ => some 1
  | _ => none

/-- `fprintf(stderr, "Error: Invalid character '%c' in '%s'\n")` -/
def errorMessage (char : Char) (literal : CString) : CString :=
  "Error: Invalid character '".toList ++ char :: ("' in '".toList ++ literal ++ "'\n".toList)

end SystemsRepository.JsonParser
