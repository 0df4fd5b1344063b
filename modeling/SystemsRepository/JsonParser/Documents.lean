import SystemsRepository.JsonParser.Machine

/-! # JSON documents

Documents with their layout: every place where the grammar allows whitespace has
its own. The leaves of a document are its scalars under their fully qualified
keys.
-/

namespace SystemsRepository.JsonParser

/-- The content of a string or key, which needs no escapes. -/
structure Quoted where
  chars : CString
  plain : ∀ char ∈ chars, char ≠ '"' ∧ char ≠ '\\' ∧ char ≠ nul

structure Number where
  negative : Bool
  body : CString
  nonempty : body ≠ []
  plain : ∀ char ∈ body, continuesNumber char = true

structure Space where
  chars : CString
  blank : ∀ char ∈ chars, char = ' ' ∨ char = '\t' ∨ char = '\n' ∨ char = '\r'

inductive Scalar
  | string (content : Quoted)
  | number (number : Number)
  | true
  | false
  | null

mutual

inductive Json
  | scalar (scalar : Scalar)
  | object (members : Members)
  | array (elements : Elements)

inductive Members
  | nil (space : Space)
  | cons (before : Space) (key : Quoted) (beforeColon afterColon : Space) (value : Json)
      (after : Space) (rest : Members)

inductive Elements
  | nil (space : Space)
  | cons (before : Space) (value : Json) (after : Space) (rest : Elements)

end

/-- A document whose root is an object. -/
structure Document where
  before : Space
  members : Members
  after : Space

/-! ## Text -/

def Number.token (number : Number) : CString :=
  if number.negative then '-' :: number.body else number.body

def Scalar.text : Scalar → CString
  | .string content => '"' :: (content.chars ++ ['"'])
  | .number digits => digits.token
  | .true => literalTrue
  | .false => literalFalse
  | .null => literalNull

def Members.separator : Members → CString
  | .nil _ => []
  | .cons _ _ _ _ _ _ _ => [',']

def Elements.separator : Elements → CString
  | .nil _ => []
  | .cons _ _ _ _ => [',']

mutual

def Json.text : Json → CString
  | .scalar scalar => scalar.text
  | .object members => '{' :: (members.text ++ ['}'])
  | .array elements => '[' :: (elements.text ++ [']'])

def Members.text : Members → CString
  | .nil space => space.chars
  | .cons before key beforeColon afterColon value after rest =>
      before.chars ++ ('"' :: (key.chars ++ ('"' :: (beforeColon.chars ++
        (':' :: (afterColon.chars ++ (value.text ++ (after.chars ++
          (rest.separator ++ rest.text)))))))))

def Elements.text : Elements → CString
  | .nil space => space.chars
  | .cons before value after rest =>
      before.chars ++ (value.text ++ (after.chars ++ (rest.separator ++ rest.text)))

end

def Document.text (document : Document) : CString :=
  document.before.chars ++ ('{' :: (document.members.text ++ ('}' :: document.after.chars)))

/-! ## Leaves -/

def Scalar.value : Scalar → Value
  | .string content => .string content.chars
  | .number digits => numberValue digits.token
  | .true => .literal literalTrue
  | .false => .literal literalFalse
  | .null => .literal literalNull

/-- An array step of a fully qualified key. -/
def indexStep (index : Nat) : CString := '[' :: (Nat.toDigits 10 index ++ [']'])

mutual

/-- The leaves of the value with this key, in document order. -/
def Json.leaves : CString → Json → List Emission
  | path, .scalar scalar => [{ fullKey := path, value := scalar.value }]
  | path, .object members => members.leaves (path ++ ['.'])
  | path, .array elements => elements.leaves path 0

/-- Object steps are joined by a dot, which the parent key ends with. -/
def Members.leaves : CString → Members → List Emission
  | _, .nil _ => []
  | parent, .cons _ key _ _ value _ rest =>
      value.leaves (parent ++ key.chars) ++ rest.leaves parent

def Elements.leaves : CString → Nat → Elements → List Emission
  | _, _, .nil _ => []
  | path, index, .cons _ value _ rest =>
      value.leaves (path ++ indexStep index) ++ rest.leaves path (index + 1)

end

def Document.leaves (document : Document) : List Emission := document.members.leaves []

/-! ## The documents the parser is made for -/

def Members.Nonempty : Members → Prop
  | .nil _ => False
  | .cons _ _ _ _ _ _ _ => True

def Elements.Nonempty : Elements → Prop
  | .nil _ => False
  | .cons _ _ _ _ => True

mutual

/-- Scalars and non-empty objects, nested in any way. -/
def Json.Nested : Json → Prop
  | .scalar _ => True
  | .object members => members.Nonempty ∧ members.Nested
  | .array _ => False

def Members.Nested : Members → Prop
  | .nil _ => True
  | .cons _ _ _ _ value _ rest => value.Nested ∧ rest.Nested

end

def Json.IsScalar : Json → Prop
  | .scalar _ => True
  | _ => False

def Elements.Scalars : Elements → Prop
  | .nil _ => True
  | .cons _ value _ rest => value.IsScalar ∧ rest.Scalars

/-- A member of the root may also be a non-empty array of scalars. -/
def Json.RootMember : Json → Prop
  | .array elements => elements.Nonempty ∧ elements.Scalars
  | value => value.Nested

def Members.RootMembers : Members → Prop
  | .nil _ => True
  | .cons _ _ _ _ value _ rest => value.RootMember ∧ rest.RootMembers

/-- No object or array is empty, and arrays of scalars occur only in the root. -/
def Document.Regular (document : Document) : Prop :=
  document.members.Nonempty ∧ document.members.RootMembers

/-! ## Lengths -/

def Scalar.Short : Scalar → Prop
  | .string content => content.chars.length < bufferSize
  | _ => True

mutual

/-- Keys and strings are shorter than their buffers, a leaf has at most ten
enclosing names, and its dotted key is shorter than its buffer. -/
def Json.Within : List CString → CString → Json → Prop
  | names, key, .scalar scalar =>
      scalar.Short ∧ names.length ≤ keyStackSize ∧ (getKey names key).length < lineSize
  | names, key, .object members => members.Within (names ++ [key])
  | _, _, .array elements => elements.Within

def Members.Within : List CString → Members → Prop
  | _, .nil _ => True
  | names, .cons _ key _ _ value _ rest =>
      key.chars.length < bufferSize ∧ value.Within names key.chars ∧ rest.Within names

def Elements.Within : Elements → Prop
  | .nil _ => True
  | .cons _ value _ rest => value.Within [] [] ∧ rest.Within

end

def Document.Within (document : Document) : Prop := document.members.Within []

def Elements.length : Elements → Nat
  | .nil _ => 0
  | .cons _ _ _ rest => rest.length + 1

def Scalar.Fits : Scalar → Prop
  | .number digits => digits.token.length < bufferSize
  | _ => True

mutual

/-- Number tokens are shorter than their buffer and arrays are no longer than
an `int` can count. -/
def Json.Fits : Json → Prop
  | .scalar scalar => scalar.Fits
  | .object members => members.Fits
  | .array elements => elements.NumbersFit ∧ elements.length ≤ intMax

def Members.Fits : Members → Prop
  | .nil _ => True
  | .cons _ _ _ _ value _ rest => value.Fits ∧ rest.Fits

def Elements.NumbersFit : Elements → Prop
  | .nil _ => True
  | .cons _ value _ rest => value.Fits ∧ rest.NumbersFit

end

def Document.Fits (document : Document) : Prop := document.members.Fits

end SystemsRepository.JsonParser
