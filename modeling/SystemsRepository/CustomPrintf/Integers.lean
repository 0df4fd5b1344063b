import SystemsRepository.Foundation.Numerals

/-! # Printing one argument

The helpers of `sysout.c`. `print_int` stores the digits of its argument in a small
buffer, the last one first, and writes the buffer backwards.
-/

namespace SystemsRepository.CustomPrintf

open SystemsRepository.Foundation

abbrev CInt := BitVec 32

def toChar (n : CInt) : Char := Char.ofNat (n.setWidth 8).toNat

def printChar (c : Char) : List Char := [c]

/-- The loop `while (*s != '\0')`; the end of the list is a terminator as well. -/
def printStr : List Char → List Char
  | [] => []
  | c :: s => if c.toNat = 0 then [] else c :: printStr s

def bufSize : Nat := 12

def digit (n : CInt) : Char := toChar (48#32 + n.srem 10#32)

/-- `buf[i++] = c`, or `none` where that is behind the end of the array. -/
def store (buf : List Char) (c : Char) : Option (List Char) :=
  if buf.length < bufSize then some (buf ++ [c]) else none

/-- The loop `while(n)`, for at most so many rounds. -/
def storeDigits : Nat → CInt → List Char → Option (List Char)
  | 0, n, buf => if n = 0#32 then some buf else none
  | rounds + 1, n, buf =>
      if n = 0#32 then some buf
      else (store buf (digit n)).bind (storeDigits rounds (n.sdiv 10#32))

def printInt (n : CInt) : Option (List Char) := do
  let negative := n.slt 0#32
  let n := if negative then -n else n
  if n = 0#32 then return printChar '0'
  else
    let buf ← storeDigits (bufSize + 1) n []
    let buf ← if negative then store buf '-' else some buf
    -- the loop `while(i--)`
    return buf.reverse

/-! ## Digits -/

section Nonnegative

variable {n : CInt}

private theorem ten_msb : (10#32).msb = false := by decide

private theorem digit_eq (nonnegative : n.msb = false) :
    digit n = Nat.digitChar (n.toNat % 10) := by
  have single : ∀ number < 10,
      toChar (48#32 + BitVec.ofNat 32 number) = Nat.digitChar number := by
    decide
  have remainder : n.srem 10#32 = BitVec.ofNat 32 (n.toNat % 10) := by
    rw [BitVec.srem_eq, nonnegative, ten_msb]
    apply BitVec.eq_of_toNat_eq
    simp
    omega
  rw [digit, remainder, single _ (Nat.mod_lt _ (by decide))]

private theorem sdiv_toNat (nonnegative : n.msb = false) : (n.sdiv 10#32).toNat = n.toNat / 10 := by
  rw [BitVec.toNat_sdiv, nonnegative, ten_msb]
  simp

private theorem sdiv_msb (nonnegative : n.msb = false) : (n.sdiv 10#32).msb = false := by
  rw [BitVec.msb_eq_false_iff_two_mul_lt] at nonnegative ⊢
  rw [sdiv_toNat (BitVec.msb_eq_false_iff_two_mul_lt.mpr nonnegative)]
  omega

private theorem storeDigits_eq {rounds digits : Nat} {buf : List Char} (nonnegative : n.msb = false)
    (small : n.toNat < 10 ^ digits) (enough : digits ≤ rounds)
    (room : buf.length + digits ≤ bufSize) :
    storeDigits rounds n buf =
      some (buf ++ if n = 0#32 then [] else (Nat.toDigits 10 n.toNat).reverse) := by
  induction rounds generalizing n digits buf with
  | zero =>
      have none : digits = 0 := Nat.le_zero.mp enough
      subst none
      have zero : n = 0#32 := by
        apply BitVec.eq_of_toNat_eq
        simpa using small
      simp [storeDigits, zero]
  | succ rounds induction =>
      by_cases zero : n = 0#32
      · simp [storeDigits, zero]
      · have positive : n.toNat ≠ 0 := fun same => zero (BitVec.eq_of_toNat_eq same)
        cases digits with
        | zero =>
            rw [Nat.pow_zero] at small
            omega
        | succ digits =>
            have quotient := sdiv_toNat nonnegative
            have smaller : (n.sdiv 10#32).toNat < 10 ^ digits := by
              rw [quotient, Nat.div_lt_iff_lt_mul (by decide), ← Nat.pow_succ]
              exact small
            have rest := @induction (n.sdiv 10#32) digits (buf ++ [digit n])
              (sdiv_msb nonnegative) smaller (by omega)
              (by rw [List.length_append, List.length_singleton]; omega)
            have ended : n.sdiv 10#32 = 0#32 ↔ n.toNat < 10 := by
              rw [← BitVec.toNat_inj, quotient]
              simp
            rw [storeDigits, if_neg zero, store, if_pos (by omega), Option.bind_some, rest,
              if_neg zero, quotient, digit_eq nonnegative, Option.some.injEq,
              List.append_assoc, List.append_cancel_left_eq]
            by_cases single : n.toNat < 10
            · rw [if_pos (ended.mpr single), Nat.toDigits_of_lt_base single,
                Nat.mod_eq_of_lt single]
              rfl
            · rw [if_neg (mt ended.mp single),
                Nat.toDigits_of_base_le (by decide) (Nat.le_of_not_lt single),
                List.reverse_append]
              rfl

end Nonnegative

/-! ## Numbers -/

theorem slt_zero_iff {n : CInt} : n.slt 0#32 = true ↔ n.toInt < 0 := by
  rw [BitVec.slt_iff_toInt_lt]
  rfl

private theorem absolute {n : CInt} (representable : n ≠ BitVec.intMin 32) :
    (if n.slt 0#32 then -n else n).msb = false ∧
      (if n.slt 0#32 then -n else n).toNat = n.toInt.natAbs := by
  have different : n.toNat ≠ 2 ^ 31 := by
    intro same
    exact representable (BitVec.eq_of_toNat_eq same)
  have value := @BitVec.toInt_eq_toNat_cond 32 n
  have bound := n.isLt
  rw [BitVec.msb_eq_false_iff_two_mul_lt]
  by_cases negative : n.slt 0#32
  · have below := slt_zero_iff.mp negative
    rw [if_pos negative, BitVec.toNat_neg]
    split at value
    next => omega
    next => omega
  · have above := mt slt_zero_iff.mpr negative
    rw [if_neg negative]
    split at value
    next => omega
    next => omega

private theorem printInt_of_ne_intMin {n : CInt} (representable : n ≠ BitVec.intMin 32) :
    printInt n = some (Numerals.decimalText n.toInt) := by
  rcases absolute representable with ⟨nonnegative, value⟩
  unfold printInt Numerals.decimalText
  dsimp only
  generalize absoluteValue : (if n.slt 0#32 then -n else n) = magnitude at nonnegative value ⊢
  by_cases zero : magnitude = 0#32
  · have nothing : n.toInt = 0 := by
      rw [zero] at value
      exact Int.natAbs_eq_zero.mp value.symm
    rw [if_pos zero, nothing]
    rfl
  · have bound := BitVec.msb_eq_false_iff_two_mul_lt.mp nonnegative
    have stored := @storeDigits_eq magnitude (bufSize + 1) 10 [] nonnegative
      (Nat.lt_of_lt_of_le (by omega) (by decide : 2 ^ 31 ≤ 10 ^ 10)) (by decide) (by decide)
    have short := (Nat.length_toDigits_le_iff (by decide : 1 < 10) (by decide : 0 < 10)).mpr
      (Nat.lt_of_lt_of_le (by omega : magnitude.toNat < 2 ^ 31) (by decide : 2 ^ 31 ≤ 10 ^ 10))
    rw [List.nil_append, if_neg zero] at stored
    rw [if_neg zero, stored, ← value, Option.bind_eq_bind, Option.bind_some]
    by_cases negative : n.slt 0#32
    · rw [if_pos negative, if_pos (slt_zero_iff.mp negative), store,
        if_pos (by rw [List.length_reverse]; exact Nat.lt_of_le_of_lt short (by decide))]
      simp
    · rw [if_neg negative, if_neg (mt slt_zero_iff.mpr negative)]
      simp

private theorem printInt_intMin : printInt (BitVec.intMin 32) = some "-./,),(-*,(".toList := by
  decide +kernel

theorem printInt_isSome (n : CInt) : (printInt n).isSome := by
  by_cases smallest : n = BitVec.intMin 32
  · rw [smallest, printInt_intMin]
    rfl
  · rw [printInt_of_ne_intMin smallest]
    rfl

/-- A number is printed as its decimal numeral unless its negation overflows. -/
theorem printInt_eq_iff (n : CInt) :
    printInt n = some (Numerals.decimalText n.toInt) ↔ n ≠ BitVec.intMin 32 := by
  constructor
  · intro printed smallest
    rw [smallest, printInt_intMin] at printed
    exact absurd printed (by decide +kernel)
  · exact printInt_of_ne_intMin

theorem intMin_misprinted :
    Numerals.decimalText (BitVec.intMin 32).toInt = "-2147483648".toList ∧
      printInt (BitVec.intMin 32) = some "-./,),(-*,(".toList ∧
      printInt (BitVec.intMin 32) ≠ some (Numerals.decimalText (BitVec.intMin 32).toInt) := by
  refine ⟨by decide +kernel, printInt_intMin, ?_⟩
  rw [printInt_intMin]
  decide +kernel

end SystemsRepository.CustomPrintf
