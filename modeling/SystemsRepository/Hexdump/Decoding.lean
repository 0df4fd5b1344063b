import SystemsRepository.Hexdump.Hexditch
import Mathlib.Algebra.Group.Nat.Defs

/-! # Reading a dump back

What a line of a dump should show of its block, and the files whose dumps do.
-/

namespace SystemsRepository.Hexdump

open SystemsRepository.Foundation

/-! ## What a dump should show -/

def byteDigits (byte : Byte) : List Char :=
  [Nat.digitChar (byte.toNat / 16), Nat.digitChar (byte.toNat % 16)]

/-- The line has the offset, two digits and a space for each byte, and between the bars one
character for each byte. -/
def Shows (offset : Nat) (bytes : List Byte) (line : List Char) : Prop :=
  ∃ shown, shown.length = bytes.length ∧ line = hexPadded 8 offset ++ '\t' ::
    (Text.unlines ' ' (bytes.map byteDigits) ++ '\t' :: ('|' :: (shown ++ ['|', '\n'])))

def decodeDigit (char : Char) : Option Nat :=
  (List.range 16).find? fun value => Nat.digitChar value == char

def decodeHex : List Char → Option (List Byte)
  | [] => some []
  | high :: low :: space :: rest =>
      if space = ' ' then do
        let high ← decodeDigit high
        let low ← decodeDigit low
        let bytes ← decodeHex rest
        return BitVec.ofNat 8 (16 * high + low) :: bytes
      else none
  | _ => none

def hexColumn (line : List Char) : List Char :=
  ((line.dropWhile fun char => char ≠ '\t').drop 1).takeWhile fun char => char ≠ '\t'

def decodeLines : List (List Char) → Option (List Byte)
  | [] => some []
  | line :: lines => do
      let bytes ← decodeHex (hexColumn line)
      let rest ← decodeLines lines
      return bytes ++ rest

def decode (output : List Char) : Option (List Byte) := decodeLines (Text.lines '\n' output)

/-- The dump shows the file, block by block, and can be read back. -/
structure Faithful (f : List Byte) : Prop where
  count : (Text.lines '\n' (hexditch false f)).length = blockCount f.length
  shows : ∀ index line, (Text.lines '\n' (hexditch false f))[index]? = some line →
    Shows (bufferSize * index) (block f index) line
  decodes : decode (hexditch false f) = some f

/-! ## Columns -/

private theorem byteDigits_plain (byte : Byte) :
    '\n' ∉ byteDigits byte ∧ '\t' ∉ byteDigits byte ∧ ' ' ∉ byteDigits byte := by
  simp [byteDigits]

theorem two_digits_iff : ∀ byte : Byte,
    hexPadded 2 (promote byte).toNat = byteDigits byte ↔ byte.toNat < 128 := by
  decide +kernel

private theorem digits_of_unlines {bytes : List Byte} {digits expected : Byte → List Char}
    (digitsPlain : ∀ byte, ' ' ∉ digits byte) (expectedPlain : ∀ byte, ' ' ∉ expected byte)
    (same : Text.unlines ' ' (bytes.map digits) = Text.unlines ' ' (bytes.map expected)) :
    ∀ byte ∈ bytes, digits byte = expected byte := by
  have clean : ∀ digits : Byte → List Char, (∀ byte, ' ' ∉ digits byte) →
      ∀ text ∈ bytes.map digits, ' ' ∉ text := by
    intro digits plain text member
    rcases List.mem_map.mp member with ⟨byte, _, rfl⟩
    exact plain byte
  have equal := Text.unlines_injective (clean digits digitsPlain) (clean expected expectedPlain)
    same
  exact List.map_inj_left.mp equal

/-- A line shows its block exactly when its offset is printed right and none of its bytes has
the top bit. -/
theorem shows_iff (offset : BitVec 64) (expected : Nat) (bytes : List Byte) :
    Shows expected bytes (dumpLine false offset bytes) ↔
      hexPadded 8 offset.toNat = hexPadded 8 expected ∧ ∀ byte ∈ bytes, byte.toNat < 128 := by
  have offsetPlain := fun number => (hexPadded_plain 8 number).2.1
  constructor
  · intro shows
    rcases shows with ⟨shown, _, same⟩
    rw [dumpLine_plain] at same
    rcases Text.line_append_injective (offsetPlain _) (offsetPlain _) same with
      ⟨offsets, columns⟩
    have printedPlain := @unlines_plain bytes (fun char => hexPadded 2 (promote char).toNat) '\t'
      (by decide) fun byte _ => (hexPadded_plain 2 (promote byte).toNat).2.1
    have digitsPlain := @unlines_plain bytes byteDigits '\t'
      (by decide) fun byte _ => (byteDigits_plain byte).2.1
    have hex := (Text.line_append_injective printedPlain digitsPlain columns).1
    refine ⟨offsets, fun byte member => (two_digits_iff byte).mp ?_⟩
    exact digits_of_unlines (fun byte => (hexPadded_plain 2 (promote byte).toNat).2.2)
      (fun byte => (byteDigits_plain byte).2.2) hex byte member
  · intro right
    refine ⟨bytes.map printed, List.length_map .., ?_⟩
    rw [dumpLine_plain, right.1,
      List.map_congr_left fun byte member => (two_digits_iff byte).mpr (right.2 byte member)]

/-! ## Decoding -/

private theorem decodeDigit_digitChar :
    ∀ value < 16, decodeDigit (Nat.digitChar value) = some value := by
  decide

private theorem decodeHex_digits (bytes : List Byte) :
    decodeHex (Text.unlines ' ' (bytes.map byteDigits)) = some bytes := by
  induction bytes with
  | nil => rfl
  | cons byte bytes induction =>
      have bound := byte.isLt
      have high := decodeDigit_digitChar (byte.toNat / 16) (by omega)
      have low := decodeDigit_digitChar (byte.toNat % 16) (Nat.mod_lt _ (by decide))
      have value : BitVec.ofNat 8 (16 * (byte.toNat / 16) + byte.toNat % 16) = byte := by
        rw [Nat.div_add_mod]
        simp
      rw [List.map_cons, Text.unlines_cons, byteDigits, List.cons_append, List.cons_append,
        List.nil_append, decodeHex, if_pos rfl, high, low, induction]
      simp only [Option.bind_eq_bind, Option.bind_some, value]
      rfl

private theorem decodeHex_of_shows {offset : Nat} {bytes : List Byte} {line : List Char}
    (shows : Shows offset bytes line) : decodeHex (hexColumn line) = some bytes := by
  rcases shows with ⟨shown, _, rfl⟩
  have skipped : ∀ char ∈ hexPadded 8 offset, decide (char ≠ '\t') = true :=
    fun char member => decide_eq_true fun same => (hexPadded_plain 8 offset).2.1 (same ▸ member)
  have column := @unlines_plain bytes byteDigits '\t' (by decide)
    fun byte _ => (byteDigits_plain byte).2.1
  have kept : ∀ char ∈ Text.unlines ' ' (bytes.map byteDigits), decide (char ≠ '\t') = true :=
    fun char member => decide_eq_true fun same => column (same ▸ member)
  rw [hexColumn, List.dropWhile_append_of_pos skipped, List.dropWhile_cons_of_neg (by simp),
    List.drop_one, List.tail_cons, List.takeWhile_append_of_pos kept,
    List.takeWhile_cons_of_neg (by simp), List.append_nil, decodeHex_digits]

private theorem decodeLines_map {line : Nat → List Char} {bytes : Nat → List Byte}
    {indices : List Nat}
    (decodes : ∀ index ∈ indices, decodeHex (hexColumn (line index)) = some (bytes index)) :
    decodeLines (indices.map line) = some (indices.map bytes).flatten := by
  induction indices with
  | nil => rfl
  | cons index indices induction =>
      have rest := induction fun other member => decodes other (List.mem_cons_of_mem _ member)
      rw [List.map_cons, decodeLines, decodes index List.mem_cons_self, rest]
      rfl

/-! ## Files -/

theorem line_eq {f : List Byte} {index : Nat} (inside : index < blockCount f.length) :
    (Text.lines '\n' (hexditch false f))[index]? =
      some (dumpLine false (BitVec.ofNat 64 (bufferSize * index)) (block f index)) := by
  rw [lines_hexditch, List.getElem?_map, List.getElem?_range inside, Option.map_some]

private theorem offset_eq {f : List Byte} (short : f.length ≤ 2 ^ 64) {index : Nat}
    (inside : index < blockCount f.length) :
    (BitVec.ofNat 64 (bufferSize * index)).toNat = bufferSize * index := by
  rw [BitVec.toNat_ofNat, Nat.mod_eq_of_lt]
  simp only [blockCount, bufferSize] at inside ⊢
  omega

/-- The dump is faithful for exactly the files without a byte of 128 or more, if they are not
so long that the offset overflows. -/
theorem faithful_iff (f : List Byte) :
    Faithful f ↔ (∀ byte ∈ f, byte.toNat < 128) ∧ f.length ≤ 2 ^ 64 := by
  constructor
  · intro faithful
    have shows : ∀ index, index < blockCount f.length → _ := fun index inside =>
      (shows_iff _ _ _).mp (faithful.shows index _ (line_eq inside))
    constructor
    · intro byte member
      rw [← flatten_blocks f] at member
      rcases List.mem_flatten.mp member with ⟨bytes, isBlock, inBlock⟩
      rcases List.mem_map.mp isBlock with ⟨index, inside, rfl⟩
      exact (shows index (List.mem_range.mp inside)).2 byte inBlock
    · apply Nat.le_of_not_lt
      intro long
      have inside : 2 ^ 60 < blockCount f.length := by
        simp only [blockCount, bufferSize]
        omega
      have offsets := (shows (2 ^ 60) inside).1
      exact absurd offsets (by decide +kernel)
  · intro printable
    have shows : ∀ index, index < blockCount f.length →
        Shows (bufferSize * index) (block f index)
          (dumpLine false (BitVec.ofNat 64 (bufferSize * index)) (block f index)) := by
      intro index inside
      rw [shows_iff, offset_eq printable.2 inside]
      refine ⟨rfl, fun byte member => printable.1 byte ?_⟩
      exact List.mem_of_mem_drop (List.mem_of_mem_take member)
    refine ⟨?_, ?_, ?_⟩
    · rw [lines_hexditch, List.length_map, List.length_range]
    · intro index line isLine
      have inside : index < blockCount f.length := by
        have position := (List.getElem?_eq_some_iff.mp isLine).1
        rwa [lines_hexditch, List.length_map, List.length_range] at position
      rw [line_eq inside, Option.some.injEq] at isLine
      rw [← isLine]
      exact shows index inside
    · rw [decode, lines_hexditch, decodeLines_map fun index member =>
        decodeHex_of_shows (shows index (List.mem_range.mp member)), flatten_blocks]

/-- A byte of 128 is printed with eight digits. -/
theorem high_byte_misprinted :
    hexditch false [0x80#8] = "00000000\tffffff80 \t|.|\n".toList ∧
      decode (hexditch false [0x80#8]) = none ∧ ¬Faithful [0x80#8] := by
  have undecodable : decode (hexditch false [0x80#8]) = none := by decide +kernel
  refine ⟨by decide +kernel, undecodable, ?_⟩
  intro faithful
  rw [faithful.decodes] at undecodable
  cases undecodable

end SystemsRepository.Hexdump
