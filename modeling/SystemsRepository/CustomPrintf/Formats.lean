import SystemsRepository.CustomPrintf.Integers
import Mathlib.Data.List.Forall2

/-! # The scan of a format

`sysout` goes through its format one character at a time, and takes the character
behind a `%` for a specifier whatever it is.
-/

namespace SystemsRepository.CustomPrintf

open SystemsRepository.Foundation

/-! ## The scan -/

/-- What `va_arg` can be asked for: an `int`, also for a character, or a string. -/
inductive Argument
  | int (n : CInt)
  | string (s : List Char)
  deriving DecidableEq, Repr

/-- The `switch` on the character behind a `%`: what is written, and the arguments that are
left. It is `none` where the next argument is missing or has another type. -/
def convert (c : Char) (args : List Argument) : Option (List Char × List Argument) :=
  if c = 'c' then
    match args with
    | .int n :: args => some (printChar (toChar n), args)
    | _ => none
  else if c = 's' then
    match args with
    | .string str :: args => some (printStr str, args)
    | _ => none
  else if c = 'd' then
    match args with
    | .int n :: args => (printInt n).map fun written => (written, args)
    | _ => none
  else some ([' '], args)

/-- `sysout`, given the format from `s` up to its terminator: what it writes, and the arguments
it leaves. It is `none` where the scan reads behind the terminator. -/
def sysout : List Char → List Argument → Option (List Char × List Argument)
  | [], args => some ([], args)
  | char :: s, args =>
      if char = '%' then
        match s with
        -- The terminator is taken for the specifier, and the loop goes on behind it.
        | [] => none
        | c :: s => do
            let (written, args) ← convert c args
            let (rest, args) ← sysout s args
            return (written ++ rest, args)
      else do
        let (rest, args) ← sysout s args
        return (char :: rest, args)

/-! ## What a format asks for -/

inductive Kind
  | character
  | string
  | integer
  deriving DecidableEq, Repr

inductive Item
  | literal (char : Char)
  | argument (kind : Kind)
  | space
  deriving DecidableEq, Repr

def Item.ofSpecifier (c : Char) : Item :=
  match c with
  | 'c' => .argument .character
  | 's' => .argument .string
  | 'd' => .argument .integer
  | _ => .space

def Item.kind? : Item → Option Kind
  | .argument kind => some kind
  | _ => none

/-- The items of a format. A `%` at its end begins none. -/
def items : List Char → List Item
  | [] => []
  | char :: format =>
      if char = '%' then
        match format with
        | [] => []
        | c :: format => Item.ofSpecifier c :: items format
      else .literal char :: items format

def Argument.Fits : Kind → Argument → Prop
  | .character, .int _ => True
  | .integer, .int _ => True
  | .string, .string _ => True
  | _, _ => False

def Supplies (format : List Char) (args : List Argument) : Prop :=
  List.Forall₂ Argument.Fits ((items format).filterMap Item.kind?) args

def Argument.rendered : Kind → Argument → List Char
  | .character, .int n => printChar (toChar n)
  | .integer, .int n => (printInt n).getD []
  | .string, .string s => printStr s
  | _, _ => []

def render : List Item → List Argument → List Char
  | [], _ => []
  | .literal char :: items, args => char :: render items args
  | .space :: items, args => ' ' :: render items args
  | .argument kind :: items, arg :: args => arg.rendered kind ++ render items args
  | .argument _ :: _, [] => []

/-- The scan stays inside the format, takes exactly these arguments, and writes the items. -/
def Scanned (format : List Char) (args : List Argument) : Prop :=
  ∀ more, sysout format (args ++ more) = some (render (items format) args, more)

def percentsAtEnd (format : List Char) : Nat :=
  (format.reverse.takeWhile fun char => char = '%').length

/-! ## Percent signs at the end -/

private theorem percentsAtEnd_literal {char : Char} (format : List Char) (literal : char ≠ '%') :
    percentsAtEnd (char :: format) = percentsAtEnd format := by
  unfold percentsAtEnd
  rw [List.reverse_cons, List.takeWhile_append]
  split
  next whole => simp [literal, whole]
  next => rfl

/-- A `%` and the character behind it count both or not at all, or the first one is not at
the end. -/
theorem percentsAtEnd_specifier (c : Char) (format : List Char) :
    percentsAtEnd ('%' :: c :: format) % 2 = percentsAtEnd format % 2 := by
  unfold percentsAtEnd
  rw [List.reverse_cons, List.reverse_cons, List.append_assoc, List.takeWhile_append]
  split
  next whole =>
    by_cases percent : c = '%'
    · simp [percent, whole]
    · simp [percent, whole]
  next => rfl

/-! ## Items -/

private theorem items_literal {char : Char} (format : List Char) (literal : char ≠ '%') :
    items (char :: format) = .literal char :: items format := by
  cases format <;> simp [items, literal]

private theorem items_specifier (c : Char) (format : List Char) :
    items ('%' :: c :: format) = Item.ofSpecifier c :: items format := by
  rw [items, if_pos rfl]

private theorem ofSpecifier_other {c : Char} (character : c ≠ 'c') (string : c ≠ 's')
    (integer : c ≠ 'd') : Item.ofSpecifier c = .space := by
  unfold Item.ofSpecifier
  split
  next => exact absurd rfl character
  next => exact absurd rfl string
  next => exact absurd rfl integer
  next => rfl

private theorem supplies_argument {c : Char} {kind : Kind} {format : List Char}
    {args : List Argument} (specifier : Item.ofSpecifier c = .argument kind)
    (supplies : Supplies ('%' :: c :: format) args) :
    ∃ arg rest, args = arg :: rest ∧ arg.Fits kind ∧ Supplies format rest := by
  unfold Supplies at supplies
  rw [items_specifier, specifier] at supplies
  rcases List.forall₂_cons_left_iff.mp supplies with ⟨arg, rest, fits, further, split⟩
  exact ⟨arg, rest, split, fits, further⟩

private theorem convert_eq {c : Char} {format : List Char} {args : List Argument}
    (supplies : Supplies ('%' :: c :: format) args) :
    ∃ written rest, Supplies format rest ∧
      (∀ more, convert c (args ++ more) = some (written, rest ++ more)) ∧
      render (items ('%' :: c :: format)) args = written ++ render (items format) rest := by
  rw [items_specifier]
  by_cases character : c = 'c'
  · subst character
    rcases supplies_argument rfl supplies with ⟨arg, rest, rfl, fits, further⟩
    cases arg with
    | int n => exact ⟨_, rest, further, fun _ => rfl, rfl⟩
    | string s => exact fits.elim
  · by_cases string : c = 's'
    · subst string
      rcases supplies_argument rfl supplies with ⟨arg, rest, rfl, fits, further⟩
      cases arg with
      | int n => exact fits.elim
      | string s => exact ⟨_, rest, further, fun _ => rfl, rfl⟩
    · by_cases integer : c = 'd'
      · subst integer
        rcases supplies_argument rfl supplies with ⟨arg, rest, rfl, fits, further⟩
        cases arg with
        | int n =>
            rcases Option.isSome_iff_exists.mp (printInt_isSome n) with ⟨text, printed⟩
            refine ⟨text, rest, further, ?_, ?_⟩
            · intro more
              simp [convert, printed]
            · change (printInt n).getD [] ++ _ = _
              rw [printed, Option.getD_some]
        | string s => exact fits.elim
      · have space := ofSpecifier_other character string integer
        unfold Supplies at supplies
        rw [items_specifier, space] at supplies
        rw [space]
        refine ⟨[' '], args, supplies, ?_, rfl⟩
        intro more
        unfold convert
        rw [if_neg character, if_neg string, if_neg integer]

/-- Given its arguments, the scan writes the items of the format, unless a `%` without a
specifier leads it behind the end. -/
theorem sysout_eq {format : List Char} {args : List Argument} (supplies : Supplies format args)
    (more : List Argument) :
    sysout format (args ++ more) =
      if percentsAtEnd format % 2 = 0 then some (render (items format) args, more) else none := by
  induction length : format.length using Nat.strongRecOn generalizing format args with
  | ind bound induction =>
      cases format with
      | nil =>
          have noArgument := List.forall₂_nil_left_iff.mp supplies
          subst noArgument
          rfl
      | cons char format =>
          by_cases percent : char = '%'
          · subst percent
            cases format with
            | nil => rfl
            | cons c format =>
                rcases convert_eq supplies with ⟨written, rest, further, converts, renders⟩
                have later := induction format.length
                  (by rw [← length, List.length_cons, List.length_cons]; omega) further rfl
                rw [percentsAtEnd_specifier, renders]
                simp only [sysout, if_true, converts, later, Option.bind_eq_bind,
                  Option.bind_some]
                split <;> rfl
          · have sameArguments : Supplies format args := by
              unfold Supplies at supplies ⊢
              rw [items_literal format percent] at supplies
              exact supplies
            have later := induction format.length (by rw [← length, List.length_cons]; omega)
              sameArguments rfl
            have scanned : sysout (char :: format) (args ++ more) =
                (sysout format (args ++ more)).bind fun next =>
                  some (char :: next.1, next.2) := by
              cases format <;> simp [sysout, percent]
            rw [scanned, later, percentsAtEnd_literal format percent, items_literal format percent]
            split <;> rfl

/-- The format is scanned as it should be exactly when the number of `%` at its end is even. -/
theorem scanned_iff {format : List Char} {args : List Argument}
    (supplies : Supplies format args) :
    Scanned format args ↔ percentsAtEnd format % 2 = 0 := by
  constructor
  · intro scanned
    have whole := scanned []
    rw [sysout_eq supplies] at whole
    split at whole
    next even => exact even
    next => cases whole
  · intro even more
    rw [sysout_eq supplies, if_pos even]

theorem scanned_of_sample :
    Scanned "%d is an integer!\n".toList [.int 100#32] ∧
      sysout "%d is an integer!\n".toList [.int 100#32] =
        some ("100 is an integer!\n".toList, []) := by
  have kinds : (items "%d is an integer!\n".toList).filterMap Item.kind? = [.integer] := by
    decide +kernel
  have supplies : Supplies "%d is an integer!\n".toList [.int 100#32] := by
    rw [Supplies, kinds]
    exact .cons trivial .nil
  exact ⟨(scanned_iff supplies).mpr (by decide +kernel), by decide +kernel⟩

/-- Behind a `%` at its end the format is read on. -/
theorem percent_at_end_overrun :
    Supplies "100%".toList [] ∧ sysout "100%".toList [] = none ∧ ¬Scanned "100%".toList [] := by
  have overrun : sysout "100%".toList [] = none := by decide +kernel
  have kinds : (items "100%".toList).filterMap Item.kind? = [] := by decide +kernel
  refine ⟨by rw [Supplies, kinds]; exact .nil, overrun, ?_⟩
  intro scanned
  have whole := scanned []
  rw [List.append_nil, overrun] at whole
  cases whole

end SystemsRepository.CustomPrintf
