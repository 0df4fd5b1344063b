import SystemsRepository.Foundation.ByteMemory
import Mathlib.Logic.Function.Basic

/-! # The routine of `add_values.asm`

Its instructions on bytes that the process may read or write, and the loop over single
bytes that they stand for.
-/

namespace SystemsRepository.SimdAddition

open SystemsRepository.Foundation

/-! ## Instructions -/

inductive Register
  | rdi
  | rsi
  deriving DecidableEq, Repr

inductive Xmm
  | xmm0
  | xmm1
  deriving DecidableEq, Repr

/-- `movdqu` from and to memory. The stack is left out: the 16 bytes at `rdi`, which are written,
are taken not to hold the address that `ret` goes back to. -/
inductive Instruction
  | movdquLoad (target : Xmm) (address : Register)
  | movdquStore (address : Register) (source : Xmm)
  | paddb (target source : Xmm)
  | ret
  deriving DecidableEq, Repr

/-- Which bytes the process may read and write. -/
structure Pages where
  readable : Nat → Bool
  writable : Nat → Bool

structure Cpu where
  rdi : Nat
  rsi : Nat
  xmm0 : BitVec 128
  xmm1 : BitVec 128
  memory : ByteMemory

namespace Cpu

def register (cpu : Cpu) : Register → Nat
  | .rdi => cpu.rdi
  | .rsi => cpu.rsi

def xmm (cpu : Cpu) : Xmm → BitVec 128
  | .xmm0 => cpu.xmm0
  | .xmm1 => cpu.xmm1

def setXmm (cpu : Cpu) (value : BitVec 128) : Xmm → Cpu
  | .xmm0 => { cpu with xmm0 := value }
  | .xmm1 => { cpu with xmm1 := value }

end Cpu

def lane (value : BitVec 128) (index : Nat) : BitVec 8 := value.extractLsb' (8 * index) 8

def ofLanes (lanes : Nat → BitVec 8) : BitVec 128 := .ofNat 128 (ByteMemory.word lanes 0 16)

def addBytes (target source : BitVec 128) : BitVec 128 :=
  ofLanes fun index => lane target index + lane source index

def allBytes (allowed : Nat → Bool) (address : Nat) : Bool :=
  (List.range 16).all fun index => allowed (address + index)

/-- An instruction that does not return, or `none` for a page fault. -/
def Instruction.execute (pages : Pages) (instruction : Instruction) (cpu : Cpu) : Option Cpu :=
  match instruction with
  | .movdquLoad target address =>
      if allBytes pages.readable (cpu.register address) then
        some (cpu.setXmm (.ofNat 128 (cpu.memory.word (cpu.register address) 16)) target)
      else none
  | .movdquStore address source =>
      if allBytes pages.writable (cpu.register address) then
        some { cpu with
          memory := cpu.memory.storeWord (cpu.register address) 16 (cpu.xmm source).toNat }
      else none
  | .paddb target source => some (cpu.setXmm (addBytes (cpu.xmm target) (cpu.xmm source)) target)
  | .ret => some cpu

def call (pages : Pages) : List Instruction → Cpu → Option Cpu
  | [], _ => none
  | .ret :: _, cpu => some cpu
  | instruction :: instructions, cpu =>
      (instruction.execute pages cpu).bind (call pages instructions)

def addValues : List Instruction :=
  [.movdquLoad .xmm0 .rdi, .movdquLoad .xmm1 .rsi, .paddb .xmm0 .xmm1, .movdquStore .rdi .xmm0,
    .ret]

/-! ## Bytes of registers -/

private theorem lane_toNat (value : BitVec 128) (index : Nat) :
    (lane value index).toNat = value.toNat / 256 ^ index % 256 := by
  have base : (2 : Nat) ^ (8 * index) = 256 ^ index := by
    rw [Nat.pow_mul]
  rw [lane, BitVec.extractLsb'_toNat, Nat.shiftRight_eq_div_pow, base]

private theorem lane_load (memory : ByteMemory) (address : Nat) {index : Nat}
    (inside : index < 16) :
    lane (.ofNat 128 (memory.word address 16)) index = memory (address + index) := by
  have small : memory.word address 16 < 2 ^ 128 := memory.word_lt address 16
  apply BitVec.eq_of_toNat_eq
  rw [lane_toNat, BitVec.toNat_ofNat, Nat.mod_eq_of_lt small, ByteMemory.word_digit inside]

private theorem lane_ofLanes (lanes : Nat → BitVec 8) {index : Nat} (inside : index < 16) :
    lane (ofLanes lanes) index = lanes index := by
  rw [ofLanes, lane_load lanes 0 inside, Nat.zero_add]

private theorem storeWord_lane (memory : ByteMemory) (address : Nat) (value : BitVec 128)
    {place : Nat} : memory.storeWord address 16 value.toNat place =
      if address ≤ place ∧ place < address + 16 then lane value (place - address)
      else memory place := by
  rw [ByteMemory.storeWord]
  split
  next inside =>
    apply BitVec.eq_of_toNat_eq
    rw [lane_toNat, BitVec.toNat_ofNat]
  next => rfl

/-! ## What the routine does -/

def added (memory : ByteMemory) (src src2 : Nat) : ByteMemory := fun place =>
  if src ≤ place ∧ place < src + 16 then memory place + memory (src2 + (place - src))
  else memory place

/-- The process may make the accesses of the routine; `src` is written though its type says
that it is not. -/
def Accessible (pages : Pages) (src src2 : Nat) : Prop :=
  ∀ index < 16, pages.readable (src + index) ∧ pages.writable (src + index) ∧
    pages.readable (src2 + index)

theorem allBytes_iff {allowed : Nat → Bool} {address : Nat} :
    allBytes allowed address = true ↔ ∀ index < 16, allowed (address + index) = true := by
  simp [allBytes]

private theorem call_addValues (pages : Pages) (cpu : Cpu) :
    call pages addValues cpu =
      if allBytes pages.readable cpu.rdi ∧ allBytes pages.readable cpu.rsi ∧
          allBytes pages.writable cpu.rdi then
        some { cpu with
          xmm0 := addBytes (.ofNat 128 (cpu.memory.word cpu.rdi 16))
            (.ofNat 128 (cpu.memory.word cpu.rsi 16))
          xmm1 := .ofNat 128 (cpu.memory.word cpu.rsi 16)
          memory := added cpu.memory cpu.rdi cpu.rsi }
      else none := by
  have stored : cpu.memory.storeWord cpu.rdi 16
      (addBytes (.ofNat 128 (cpu.memory.word cpu.rdi 16))
        (.ofNat 128 (cpu.memory.word cpu.rsi 16))).toNat = added cpu.memory cpu.rdi cpu.rsi := by
    funext place
    rw [storeWord_lane, added]
    split
    next inside =>
      have index : place - cpu.rdi < 16 := by omega
      have back : cpu.rdi + (place - cpu.rdi) = place := by omega
      rw [addBytes, lane_ofLanes _ index, lane_load _ _ index, lane_load _ _ index, back]
    next => rfl
  by_cases first : allBytes pages.readable cpu.rdi
  · by_cases second : allBytes pages.readable cpu.rsi
    · by_cases target : allBytes pages.writable cpu.rdi
      · simp [addValues, call, Instruction.execute, Cpu.register, Cpu.setXmm, Cpu.xmm, first,
          second, target, stored]
      · simp [addValues, call, Instruction.execute, Cpu.register, Cpu.setXmm, Cpu.xmm, first,
          second, target]
    · simp [addValues, call, Instruction.execute, Cpu.register, Cpu.setXmm, first, second]
  · simp [addValues, call, Instruction.execute, Cpu.register, first]

theorem accessible_iff {pages : Pages} {src src2 : Nat} :
    Accessible pages src src2 ↔ allBytes pages.readable src ∧ allBytes pages.readable src2 ∧
      allBytes pages.writable src := by
  rw [allBytes_iff, allBytes_iff, allBytes_iff]
  constructor
  · intro accessible
    exact ⟨fun index inside => (accessible index inside).1,
      fun index inside => (accessible index inside).2.2,
      fun index inside => (accessible index inside).2.1⟩
  · intro all index inside
    exact ⟨all.1 index inside, all.2.2 index inside, all.2.1 index inside⟩

/-- Wherever the two pointers point, the routine returns exactly if it may make its accesses.
It then has added each of the bytes at `src2` to its counterpart at `src`, as they were, and
changed no other byte. -/
theorem addValues_adds (pages : Pages) (cpu : Cpu) :
    ((call pages addValues cpu).isSome ↔ Accessible pages cpu.rdi cpu.rsi) ∧
      ∀ final ∈ call pages addValues cpu, final.rdi = cpu.rdi ∧ final.rsi = cpu.rsi ∧
        (∀ index < 16, final.memory (cpu.rdi + index) =
          cpu.memory (cpu.rdi + index) + cpu.memory (cpu.rsi + index)) ∧
        ∀ place, place < cpu.rdi ∨ cpu.rdi + 16 ≤ place →
          final.memory place = cpu.memory place := by
  rw [call_addValues, accessible_iff]
  split
  next allowed =>
    refine ⟨by simp [allowed], ?_⟩
    intro final same
    cases same
    refine ⟨rfl, rfl, ?_, ?_⟩
    · intro index inside
      have back : cpu.rdi + index - cpu.rdi = index := Nat.add_sub_cancel_left _ _
      show added cpu.memory cpu.rdi cpu.rsi (cpu.rdi + index) = _
      rw [added, if_pos (by omega), back]
    · intro place outside
      show added cpu.memory cpu.rdi cpu.rsi place = _
      rw [added, if_neg (by omega)]
  next refused =>
    refine ⟨by simp [refused], ?_⟩
    intro final same
    cases same

/-! ## The loop over single bytes -/

/-- The first iterations of `for (i = 0; i < 16; ++i) src[i] += src2[i];` -/
def addLoop (src src2 : Nat) : Nat → ByteMemory → ByteMemory
  | 0, memory => memory
  | count + 1, memory =>
      let before := addLoop src src2 count memory
      Function.update before (src + count) (before (src + count) + before (src2 + count))

section Loop

variable {memory : ByteMemory} {src src2 count index place : Nat}

private theorem addLoop_outside (outside : place < src ∨ src + count ≤ place) :
    addLoop src src2 count memory place = memory place := by
  induction count with
  | zero => rfl
  | succ count induction =>
      rw [addLoop, Function.update_of_ne (by omega)]
      exact induction (by omega)

private theorem addLoop_at (inside : index < count) :
    addLoop src src2 count memory (src + index) =
      memory (src + index) + addLoop src src2 index memory (src2 + index) := by
  induction count with
  | zero => exact absurd inside (Nat.not_lt_zero _)
  | succ count induction =>
      by_cases last : index = count
      · rw [last, addLoop, Function.update_self, addLoop_outside (.inr (Nat.le_refl _))]
      · rw [addLoop, Function.update_of_ne (by omega)]
        exact induction (by omega)

private theorem addLoop_eq_added (apart : ¬(src2 < src ∧ src < src2 + 16)) :
    addLoop src src2 16 memory = added memory src src2 := by
  funext place
  rw [added]
  split
  next inside =>
    have back : src + (place - src) = place := by omega
    have there := @addLoop_at memory src src2 16 (place - src) (by omega)
    rw [back] at there
    rw [there, addLoop_outside (by omega)]
  next outside => exact addLoop_outside (by omega)

private theorem addLoop_carries (behind : src2 < src) (overlaps : src < src2 + 16) :
    ∃ memory, addLoop src src2 16 memory ≠ added memory src src2 := by
  refine ⟨Function.update (fun _ => 0) src2 1, fun same => ?_⟩
  have back : src2 + (src - src2) = src + 0 := by omega
  have there := @addLoop_at (Function.update (fun _ => 0) src2 1) src src2 16 (src - src2)
    (by omega)
  rw [same, back, addLoop_at (by omega), addLoop, added, if_pos (by omega), Nat.add_zero,
    Nat.add_zero, Nat.add_sub_cancel_left, Nat.add_sub_of_le (Nat.le_of_lt behind),
    Function.update_self, Function.update_of_ne (by omega), Function.update_of_ne (by omega)]
    at there
  exact absurd there (by decide)

end Loop

/-- The routine does what the loop does, whatever the bytes are, exactly when `src` does not
begin inside of the bytes behind the first one at `src2`. -/
theorem loop_agrees_iff {pages : Pages} {src src2 : Nat} (accessible : Accessible pages src src2) :
    (∀ cpu : Cpu, cpu.rdi = src → cpu.rsi = src2 → ∃ final, call pages addValues cpu = some final ∧
      final.memory = addLoop src src2 16 cpu.memory) ↔ ¬(src2 < src ∧ src < src2 + 16) := by
  have allowed := accessible_iff.mp accessible
  constructor
  · intro agrees overlap
    rcases addLoop_carries overlap.1 overlap.2 with ⟨memory, differs⟩
    rcases agrees { rdi := src, rsi := src2, xmm0 := 0, xmm1 := 0, memory } rfl rfl with
      ⟨final, returned, same⟩
    rw [call_addValues, if_pos allowed] at returned
    cases returned
    exact differs same.symm
  · rintro apart cpu rfl rfl
    exact ⟨_, (call_addValues pages cpu).trans (if_pos allowed), (addLoop_eq_added apart).symm⟩

def arrays : Cpu where
  rdi := 4096
  rsi := 4112
  xmm0 := 0
  xmm1 := 0
  memory place := if place < 4112 then BitVec.ofNat 8 (place - 4095) else 10

theorem loop_agrees_of_arrays :
    ∃ final, call ⟨fun _ => true, fun _ => true⟩ addValues arrays = some final ∧
      final.memory = addLoop 4096 4112 16 arrays.memory :=
  (loop_agrees_iff fun _ _ => ⟨rfl, rfl, rfl⟩).mpr (by decide) arrays rfl rfl

end SystemsRepository.SimdAddition
