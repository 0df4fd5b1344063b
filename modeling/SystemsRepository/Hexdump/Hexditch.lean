import SystemsRepository.Foundation.Framing

/-! # `hexditch`

The dump of a file in blocks of 16 bytes, one line for each. A `char` is signed.
-/

namespace SystemsRepository.Hexdump

open SystemsRepository.Foundation

abbrev Byte := BitVec 8

abbrev bufferSize : Nat := 16

def promote (char : Byte) : BitVec 32 := char.signExtend 32

def hexPadded (width number : Nat) : List Char :=
  List.replicate (width - (Nat.toDigits 16 number).length) '0' ++ Nat.toDigits 16 number

def isprint (char : Byte) : Bool :=
  0x20 ≤ (promote char).toInt && (promote char).toInt ≤ 0x7e

def printed (char : Byte) : Char := if isprint char then Char.ofNat char.toNat else '.'

def colorReset : List Char := "\x1b[0m".toList

def colorOffset : List Char := "\x1b[36m".toList

def colorHex : List Char := "\x1b[33m".toList

def colorAscii : List Char := "\x1b[32m".toList

def color (useColor : Bool) (escape : List Char) : List Char := if useColor then escape else []

def dumpLine (useColor : Bool) (offset : BitVec 64) (buffer : List Byte) : List Char :=
  color useColor colorOffset ++ (hexPadded 8 offset.toNat ++ ['\t']) ++
    color useColor colorReset ++ color useColor colorHex ++
    buffer.flatMap (fun char => hexPadded 2 (promote char).toNat ++ [' ']) ++
    color useColor colorReset ++ ['\t'] ++ ['|'] ++ color useColor colorAscii ++
    buffer.map printed ++ color useColor colorReset ++ ['|', '\n']

/-- The loop `while((bytes = fread(buffer, 1, 16, f)) > 0)`, for at most so many rounds. -/
def dump (useColor : Bool) : Nat → BitVec 64 → List Byte → List Char
  | 0, _, _ => []
  | rounds + 1, offset, f =>
      let buffer := f.take bufferSize
      if buffer.length = 0 then []
      else
        dumpLine useColor offset buffer ++
          dump useColor rounds (offset + BitVec.ofNat 64 buffer.length) (f.drop bufferSize)

/-- A file of `n` bytes takes fewer than `n + 1` rounds. -/
def hexditch (useColor : Bool) (f : List Byte) : List Char :=
  dump useColor (f.length + 1) 0 f

/-! ## Blocks -/

def blockCount (length : Nat) : Nat := (length + 15) / bufferSize

def block (f : List Byte) (index : Nat) : List Byte := (f.drop (bufferSize * index)).take bufferSize

theorem block_zero (f : List Byte) : block f 0 = f.take bufferSize := rfl

theorem block_succ (f : List Byte) (index : Nat) :
    block f (index + 1) = block (f.drop bufferSize) index := by
  rw [block, block, List.drop_drop, Nat.mul_succ, Nat.add_comm]

theorem blockCount_of_ne_nil {f : List Byte} (nonempty : f ≠ []) :
    blockCount f.length = blockCount (f.drop bufferSize).length + 1 := by
  have positive := List.length_pos_iff.mpr nonempty
  simp only [blockCount, bufferSize, List.length_drop]
  omega

theorem flatten_blocks (f : List Byte) :
    ((List.range (blockCount f.length)).map (block f)).flatten = f := by
  induction length : f.length using Nat.strongRecOn generalizing f with
  | ind bound induction =>
      by_cases empty : f = []
      · rw [← length, empty]
        rfl
      · have positive := List.length_pos_iff.mpr empty
        have rest := induction (f.drop bufferSize).length
          (by simp only [List.length_drop, bufferSize]; omega) (f.drop bufferSize) rfl
        rw [← length, blockCount_of_ne_nil empty, List.range_succ_eq_map, List.map_cons,
          List.map_map, List.flatten_cons, block_zero]
        have shifted : block f ∘ Nat.succ = block (f.drop bufferSize) := by
          funext index
          exact block_succ f index
        rw [shifted, rest, List.take_append_drop]

/-! ## Lines -/

theorem hexPadded_mem {width number : Nat} {char : Char} (member : char ∈ hexPadded width number) :
    ∃ value < 16, char = Nat.digitChar value := by
  have digits : ∀ number, ∀ char ∈ Nat.toDigits 16 number,
      ∃ value < 16, char = Nat.digitChar value := by
    intro number
    induction number using Nat.strongRecOn with
    | ind number induction =>
        intro char member
        rw [Nat.toDigits_eq_if (by decide)] at member
        split at member
        next single => exact ⟨number, single, List.mem_singleton.mp member⟩
        next =>
          rcases List.mem_append.mp member with earlier | last
          · exact induction (number / 16) (by omega) char earlier
          · exact ⟨number % 16, Nat.mod_lt _ (by decide), List.mem_singleton.mp last⟩
  rcases List.mem_append.mp member with padding | digit
  · exact ⟨0, by decide, (List.mem_replicate.mp padding).2⟩
  · exact digits number char digit

private theorem digit_plain : ∀ value < 16,
    Nat.digitChar value ≠ '\n' ∧ Nat.digitChar value ≠ '\t' ∧ Nat.digitChar value ≠ ' ' := by
  decide

theorem hexPadded_plain (width number : Nat) :
    '\n' ∉ hexPadded width number ∧ '\t' ∉ hexPadded width number ∧
      ' ' ∉ hexPadded width number := by
  have plain : ∀ char ∈ hexPadded width number, char ≠ '\n' ∧ char ≠ '\t' ∧ char ≠ ' ' := by
    intro char member
    rcases hexPadded_mem member with ⟨value, single, rfl⟩
    exact digit_plain value single
  exact ⟨fun member => (plain _ member).1 rfl, fun member => (plain _ member).2.1 rfl,
    fun member => (plain _ member).2.2 rfl⟩

private theorem printed_ne_newline (char : Byte) : printed char ≠ '\n' := by
  revert char
  decide +kernel

theorem dumpLine_plain (offset : BitVec 64) (buffer : List Byte) :
    dumpLine false offset buffer = hexPadded 8 offset.toNat ++ '\t' ::
      (Text.unlines ' ' (buffer.map fun char => hexPadded 2 (promote char).toNat) ++ '\t' ::
        ('|' :: (buffer.map printed ++ ['|', '\n']))) := by
  simp [dumpLine, color, Text.unlines, List.flatMap_map]

theorem unlines_plain {buffer : List Byte} {digits : Byte → List Char} {char : Char}
    (space : char ≠ ' ') (plain : ∀ byte ∈ buffer, char ∉ digits byte) :
    char ∉ Text.unlines ' ' (buffer.map digits) := by
  intro member
  rcases List.mem_flatMap.mp member with ⟨text, isText, inText⟩
  rcases List.mem_map.mp isText with ⟨byte, inBuffer, rfl⟩
  rcases List.mem_append.mp inText with digit | blank
  · exact plain byte inBuffer digit
  · exact space (List.mem_singleton.mp blank)

private theorem dumpLine_split (offset : BitVec 64) (buffer : List Byte) :
    ∃ text, dumpLine false offset buffer = text ++ ['\n'] ∧ '\n' ∉ text := by
  refine ⟨hexPadded 8 offset.toNat ++ '\t' ::
    (Text.unlines ' ' (buffer.map fun char => hexPadded 2 (promote char).toNat) ++ '\t' ::
      ('|' :: (buffer.map printed ++ ['|']))), ?_, ?_⟩
  · rw [dumpLine_plain]
    simp
  · have offsetPlain := (hexPadded_plain 8 offset.toNat).1
    have hexPlain := @unlines_plain buffer (fun char => hexPadded 2 (promote char).toNat) '\n'
      (by decide) fun byte _ => (hexPadded_plain 2 (promote byte).toNat).1
    have shownPlain : '\n' ∉ buffer.map printed := by
      intro member
      rcases List.mem_map.mp member with ⟨byte, _, same⟩
      exact printed_ne_newline byte same
    simp [offsetPlain, hexPlain, shownPlain]

private theorem lines_dump (offset : BitVec 64) {rounds : Nat} {f : List Byte}
    (enough : f.length < rounds) :
    Text.lines '\n' (dump false rounds offset f) =
      (List.range (blockCount f.length)).map fun index =>
        dumpLine false (offset + BitVec.ofNat 64 (bufferSize * index)) (block f index) := by
  induction rounds generalizing offset f with
  | zero => exact absurd enough (Nat.not_lt_zero _)
  | succ rounds induction =>
      by_cases empty : f = []
      · rw [empty]
        rfl
      · have positive := List.length_pos_iff.mpr empty
        have size : (f.take bufferSize).length = min bufferSize f.length := List.length_take
        have some : ¬(f.take bufferSize).length = 0 := by
          simp only [size, bufferSize]
          omega
        rcases dumpLine_split offset (f.take bufferSize) with ⟨text, split, clean⟩
        have rest := @induction (offset + BitVec.ofNat 64 (f.take bufferSize).length)
          (f.drop bufferSize) (by simp only [List.length_drop, bufferSize]; omega)
        have first : offset + BitVec.ofNat 64 (bufferSize * 0) = offset := by simp
        rw [dump]
        simp only [some, if_false]
        rw [split, List.append_assoc, List.singleton_append, Text.lines_line_append clean, rest,
          blockCount_of_ne_nil empty, List.range_succ_eq_map, List.map_cons, List.map_map, first,
          block_zero, split]
        apply congrArg
        apply List.map_congr_left
        intro index member
        -- Only a block that is full is followed by another one.
        have full : bufferSize ≤ f.length := by
          have later := List.mem_range.mp member
          simp only [blockCount, List.length_drop, bufferSize] at later
          simp only [bufferSize]
          omega
        have next : bufferSize + bufferSize * index = bufferSize * (index + 1) := by
          rw [Nat.mul_succ, Nat.add_comm]
        rw [Function.comp_apply, Nat.succ_eq_add_one, block_succ, size, Nat.min_eq_left full,
          BitVec.add_assoc, ← BitVec.ofNat_add, next]

theorem lines_hexditch (f : List Byte) :
    Text.lines '\n' (hexditch false f) =
      (List.range (blockCount f.length)).map fun index =>
        dumpLine false (BitVec.ofNat 64 (bufferSize * index)) (block f index) := by
  rw [hexditch, lines_dump 0 (Nat.lt_succ_self _)]
  simp

end SystemsRepository.Hexdump
