import Mathlib.Algebra.Group.Nat.Defs

/-! # Memory as bytes

A memory gives the byte at each address. A word is stored little-endian in the bytes
from its address on.
-/

namespace SystemsRepository.Foundation

abbrev ByteMemory := Nat → BitVec 8

namespace ByteMemory

def word (memory : ByteMemory) : Nat → Nat → Nat
  | _, 0 => 0
  | address, width + 1 => (memory address).toNat + 256 * word memory (address + 1) width

def storeWord (memory : ByteMemory) (address width value : Nat) : ByteMemory :=
  fun other =>
    if address ≤ other ∧ other < address + width then
      .ofNat 8 (value / 256 ^ (other - address))
    else memory other

variable {memory other : ByteMemory} {address start width size value : Nat}

/-! ## Reading -/

theorem word_congr (same : ∀ place, address ≤ place → place < address + width →
    memory place = other place) : memory.word address width = other.word address width := by
  induction width generalizing address with
  | zero => rfl
  | succ width induction =>
      have first := same address (Nat.le_refl _) (by omega)
      have rest := @induction (address + 1) fun place low high => same place (by omega) (by omega)
      rw [word, word, first, rest]

theorem word_lt (memory : ByteMemory) (address width : Nat) :
    memory.word address width < 256 ^ width := by
  induction width generalizing address with
  | zero => exact Nat.one_pos
  | succ width induction =>
      have low := (memory address).isLt
      have high := induction (address + 1)
      rw [word, Nat.pow_succ]
      omega

theorem word_digit {index : Nat} (inside : index < width) :
    memory.word address width / 256 ^ index % 256 = (memory (address + index)).toNat := by
  induction width generalizing address index with
  | zero => exact absurd inside (Nat.not_lt_zero _)
  | succ width induction =>
      have low := (memory address).isLt
      cases index with
      | zero =>
          rw [word, Nat.pow_zero, Nat.div_one, Nat.add_zero, Nat.add_mul_mod_self_left,
            Nat.mod_eq_of_lt low]
          rfl
      | succ index =>
          have shifted : ((memory address).toNat + 256 * memory.word (address + 1) width) / 256 =
              memory.word (address + 1) width := by
            omega
          rw [word, Nat.pow_succ', ← Nat.div_div_eq_div_mul, shifted,
            induction (Nat.lt_of_succ_lt_succ inside), Nat.add_assoc, Nat.add_comm 1]

theorem word_eq_of_digits : ∀ {width address value : Nat}, value < 256 ^ width →
    (∀ index < width, (memory (address + index)).toNat = value / 256 ^ index % 256) →
    memory.word address width = value
  | 0, address, value, small, _ => by
      rw [Nat.pow_zero] at small
      exact (Nat.lt_one_iff.mp small).symm
  | width + 1, address, value, small, digits => by
      have first := digits 0 (Nat.succ_pos _)
      rw [Nat.pow_zero, Nat.div_one, Nat.add_zero] at first
      have rest := @word_eq_of_digits width (address + 1) (value / 256)
        (Nat.div_lt_of_lt_mul (by rwa [← Nat.pow_succ'])) fun index inside => by
          have digit := digits (index + 1) (Nat.succ_lt_succ inside)
          rwa [Nat.pow_succ', ← Nat.div_div_eq_div_mul, ← Nat.add_assoc,
            Nat.add_right_comm] at digit
      rw [word, first, rest]
      omega

/-! ## Reading what has been stored -/

theorem storeWord_apart (apart : start < address ∨ address + width ≤ start) :
    memory.storeWord address width value start = memory start := by
  rw [storeWord, if_neg (by omega)]

theorem word_storeWord_same (memory : ByteMemory) (address width value : Nat) :
    (memory.storeWord address width value).word address width = value % 256 ^ width := by
  apply word_eq_of_digits (Nat.mod_lt _ (Nat.pow_pos (by decide)))
  intro index inside
  have place : address + index - address = index := Nat.add_sub_cancel_left _ _
  rw [storeWord, if_pos (by omega), place, BitVec.toNat_ofNat]
  have split : width = index + (width - index - 1 + 1) := by omega
  have lowest : 256 ^ (width - index - 1 + 1) = 256 * 256 ^ (width - index - 1) := Nat.pow_succ'
  rw [split, Nat.pow_add, Nat.mod_mul_right_div_self, lowest, Nat.mod_mul_right_mod]

theorem storeByte_here (byte : BitVec 8) :
    memory.storeWord address 1 byte.toNat address = byte := by
  rw [storeWord, if_pos (by omega), Nat.sub_self, Nat.pow_zero, Nat.div_one, BitVec.ofNat_toNat,
    BitVec.setWidth_eq]

theorem word_storeWord_apart (apart : start + size ≤ address ∨ address + width ≤ start) :
    (memory.storeWord address width value).word start size = memory.word start size :=
  word_congr fun _ _ _ => storeWord_apart (by omega)

end ByteMemory

end SystemsRepository.Foundation
