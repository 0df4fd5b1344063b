import Mathlib.Algebra.Group.Int.Defs
import Mathlib.Algebra.Group.Nat.Defs

/-! # Decimal numerals

The parts of `stdlib.h` that read a number from a string, for a `long` of 64 and
an `int` of 32 bits.
-/

namespace SystemsRepository.Foundation.Numerals

def digitValue (char : Char) : Nat := char.toNat - '0'.toNat

def decimal (digits : List Char) : Nat :=
  digits.foldl (fun number digit => 10 * number + digitValue digit) 0

def isSpace (char : Char) : Bool :=
  char == ' ' || ('\t'.toNat ≤ char.toNat && char.toNat ≤ '\r'.toNat)

def signed (negative : Bool) (number : Nat) : Int :=
  if negative then -(number : Int) else number

/-- The number at the front of the text: white space, a sign and digits. -/
def numeral (text : List Char) : Int :=
  match text.dropWhile isSpace with
  | '-' :: digits => signed true (decimal (digits.takeWhile Char.isDigit))
  | '+' :: digits => signed false (decimal (digits.takeWhile Char.isDigit))
  | digits => signed false (decimal (digits.takeWhile Char.isDigit))

/-- `strtol(text, NULL, 10)`, which stops at `LONG_MIN` and `LONG_MAX` -/
def strtol (text : List Char) : Int :=
  max (-2 ^ 63) (min (numeral text) (2 ^ 63 - 1))

/-- `atoi`, which converts the `long` to an `int` -/
def atoi (text : List Char) : Int :=
  (strtol text).bmod (2 ^ 32)

def FitsInt (number : Int) : Prop := -2 ^ 31 ≤ number ∧ number ≤ 2 ^ 31 - 1

instance (number : Int) : Decidable (FitsInt number) :=
  inferInstanceAs (Decidable (_ ∧ _))

theorem atoi_fitsInt (text : List Char) : FitsInt (atoi text) := by
  have lower := @Int.le_bmod (strtol text) (2 ^ 32) (by decide)
  have upper := @Int.bmod_lt (strtol text) (2 ^ 32) (by decide)
  unfold FitsInt atoi
  omega

theorem atoi_eq_iff (text : List Char) : atoi text = numeral text ↔ FitsInt (numeral text) := by
  constructor
  · intro same
    exact same ▸ atoi_fitsInt text
  · intro fits
    have within : strtol text = numeral text := by
      unfold FitsInt at fits
      unfold strtol
      omega
    unfold FitsInt at fits
    rw [atoi, within]
    apply Int.bmod_eq_of_le <;> omega

/-! ## Plain numerals -/

section Plain

variable {digits : List Char}

theorem isSpace_of_isDigit {char : Char} (digit : char.isDigit = true) :
    isSpace char = false := by
  simp only [Char.isDigit, Bool.and_eq_true, decide_eq_true_eq] at digit
  have lower : '0'.toNat ≤ char.toNat := digit.1
  have noBlank : char ≠ ' ' := by
    intro blank
    rw [blank] at lower
    exact absurd lower (by decide)
  have above : '\r'.toNat < char.toNat := Nat.lt_of_lt_of_le (by decide) lower
  rw [isSpace, beq_false_of_ne noBlank, Bool.false_or, decide_eq_false (Nat.not_le.mpr above),
    Bool.and_false]

theorem takeWhile_digits (plain : ∀ char ∈ digits, char.isDigit = true) :
    digits.takeWhile Char.isDigit = digits := by
  have whole := @List.takeWhile_append_of_pos _ Char.isDigit digits [] plain
  simpa using whole

theorem numeral_negative (plain : ∀ char ∈ digits, char.isDigit = true) :
    numeral ('-' :: digits) = signed true (decimal digits) := by
  have noSpace : isSpace '-' = false := by decide
  rw [numeral, List.dropWhile_cons_of_neg (by simp [noSpace])]
  simp only [takeWhile_digits plain]

theorem numeral_digits (plain : ∀ char ∈ digits, char.isDigit = true) :
    numeral digits = signed false (decimal digits) := by
  cases digits with
  | nil => rfl
  | cons first digits =>
      have digit := plain first List.mem_cons_self
      rw [numeral, List.dropWhile_cons_of_neg (by simp [isSpace_of_isDigit digit])]
      split
      · next minus =>
          rw [(List.cons.inj minus).1] at digit
          exact absurd digit (by decide)
      · next plus =>
          rw [(List.cons.inj plus).1] at digit
          exact absurd digit (by decide)
      · rw [takeWhile_digits plain]

end Plain

/-! ## Canonical numerals -/

/-- The decimal numeral of a number: a minus sign if it is negative, no leading zeros. -/
def decimalText (number : Int) : List Char :=
  if number < 0 then '-' :: Nat.toDigits 10 number.natAbs else Nat.toDigits 10 number.natAbs

theorem decimal_append (digits : List Char) (digit : Char) :
    decimal (digits ++ [digit]) = 10 * decimal digits + digitValue digit := by
  simp [decimal]

theorem digitValue_digitChar {number : Nat} (single : number < 10) :
    digitValue (Nat.digitChar number) = number := by
  have zero : '0'.toNat = 48 := rfl
  rw [digitValue, Nat.toNat_digitChar_of_lt_ten single, zero, Nat.add_sub_cancel_left]

theorem decimal_toDigits (number : Nat) : decimal (Nat.toDigits 10 number) = number := by
  induction number using Nat.strongRecOn with
  | ind number induction =>
      rw [Nat.toDigits_eq_if (by decide)]
      split
      next single =>
        have first := decimal_append [] (Nat.digitChar number)
        rw [List.nil_append] at first
        rw [first, digitValue_digitChar single]
        simp [decimal]
      next =>
        rw [decimal_append, induction (number / 10) (by omega),
          digitValue_digitChar (Nat.mod_lt _ (by decide))]
        omega

end SystemsRepository.Foundation.Numerals
