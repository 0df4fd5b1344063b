import SystemsRepository.Hexdump.Decoding

/-! # Dumps with colors and negative bytes

A dump is not what it should be where a byte has the top bit, but it still tells the file:
the last two digits that are printed for a byte are its own. Colors do not hide this.
-/

namespace SystemsRepository.Hexdump

open SystemsRepository.Foundation

/-! ## Colors -/

def escape : Char := '\x1b'

/-- The text without what stands between an escape character and the next `m`. -/
def stripColor : Bool → List Char → List Char
  | _, [] => []
  | true, char :: text => stripColor (char ≠ 'm') text
  | false, char :: text =>
      if char = escape then stripColor true text else char :: stripColor false text

private theorem stripColor_plain {text : List Char} (plain : escape ∉ text) (rest : List Char) :
    stripColor false (text ++ rest) = text ++ stripColor false rest := by
  induction text with
  | nil => rfl
  | cons char text induction =>
      have different : char ≠ escape := fun same => plain (by simp [same])
      rw [List.cons_append, stripColor, if_neg different,
        induction fun member => plain (List.mem_cons_of_mem _ member), List.cons_append]

private def escapes : List (List Char) := [colorReset, colorOffset, colorHex, colorAscii]

private theorem stripColor_color {code : List Char} (isEscape : code ∈ escapes) (useColor : Bool)
    (rest : List Char) : stripColor false (color useColor code ++ rest) = stripColor false rest := by
  cases useColor with
  | false => rfl
  | true =>
      simp only [escapes, List.mem_cons, List.not_mem_nil, or_false] at isEscape
      rcases isEscape with rfl | rfl | rfl | rfl
      · rfl
      · rfl
      · rfl
      · rfl

private theorem escape_not_mem_hexPadded (width number : Nat) :
    escape ∉ hexPadded width number := by
  intro member
  rcases hexPadded_mem member with ⟨value, single, same⟩
  have other : ∀ value < 16, escape ≠ Nat.digitChar value := by decide
  exact other value single same

private theorem printed_ne_escape (char : Byte) : printed char ≠ escape := by
  revert char
  decide +kernel

private theorem stripColor_dumpLine (useColor : Bool) (offset : BitVec 64) (buffer : List Byte)
    (rest : List Char) :
    stripColor false (dumpLine useColor offset buffer ++ rest) =
      dumpLine false offset buffer ++ stripColor false rest := by
  have offsets : escape ∉ hexPadded 8 offset.toNat := escape_not_mem_hexPadded _ _
  have tab : escape ∉ ['\t'] := by decide
  have bar : escape ∉ ['|'] := by decide
  have ending : escape ∉ ['|', '\n'] := by decide
  have hexes : escape ∉ buffer.flatMap fun char => hexPadded 2 (promote char).toNat ++ [' '] := by
    intro member
    rcases List.mem_flatMap.mp member with ⟨char, _, inside⟩
    rcases List.mem_append.mp inside with digit | blank
    · exact escape_not_mem_hexPadded _ _ digit
    · exact absurd (List.mem_singleton.mp blank) (by decide)
  have shown : escape ∉ buffer.map printed := by
    intro member
    rcases List.mem_map.mp member with ⟨char, _, same⟩
    exact printed_ne_escape char same
  have reset : colorReset ∈ escapes := by simp [escapes]
  have offsetColor : colorOffset ∈ escapes := by simp [escapes]
  have hexColor : colorHex ∈ escapes := by simp [escapes]
  have asciiColor : colorAscii ∈ escapes := by simp [escapes]
  simp only [dumpLine, List.append_assoc]
  rw [stripColor_color offsetColor, stripColor_plain offsets, stripColor_plain tab,
    stripColor_color reset, stripColor_color hexColor, stripColor_plain hexes,
    stripColor_color reset, stripColor_plain tab, stripColor_plain bar,
    stripColor_color asciiColor, stripColor_plain shown, stripColor_color reset,
    stripColor_plain ending]
  rfl

private theorem stripColor_dump (useColor : Bool) (rounds : Nat) (offset : BitVec 64)
    (f : List Byte) :
    stripColor false (dump useColor rounds offset f) = dump false rounds offset f := by
  induction rounds generalizing offset f with
  | zero => rfl
  | succ rounds induction =>
      rw [dump, dump]
      split
      next => rfl
      next => rw [stripColor_dumpLine, induction]

/-! ## Bytes -/

def lastByte (digits : List Char) : Option Byte :=
  match digits.reverse with
  | low :: high :: _ => do
      let high ← decodeDigit high
      let low ← decodeDigit low
      return BitVec.ofNat 8 (16 * high + low)
  | _ => none

private theorem lastByte_hexPadded : ∀ byte : Byte,
    lastByte (hexPadded 2 (promote byte).toNat) = some byte := by
  decide +kernel

def undumpLine (line : List Char) : Option (List Byte) :=
  (Text.words (fun char => char == ' ') (hexColumn line)).mapM lastByte

def undump (output : List Char) : Option (List Byte) :=
  ((Text.lines '\n' (stripColor false output)).mapM undumpLine).map List.flatten

private theorem hexPadded_ne_nil (byte : Byte) : hexPadded 2 (promote byte).toNat ≠ [] := by
  intro empty
  have shown := lastByte_hexPadded byte
  rw [empty] at shown
  cases shown

private theorem words_unlines (bytes : List Byte) :
    Text.words (fun char => char == ' ')
        (Text.unlines ' ' (bytes.map fun byte => hexPadded 2 (promote byte).toNat)) =
      bytes.map fun byte => hexPadded 2 (promote byte).toNat := by
  induction bytes with
  | nil => rfl
  | cons byte bytes induction =>
      have clean : ∀ char ∈ hexPadded 2 (promote byte).toNat, (char == ' ') = false := by
        intro char member
        apply beq_false_of_ne
        rintro rfl
        exact (hexPadded_plain _ _).2.2 member
      rw [List.map_cons, Text.unlines_cons,
        Text.words_clean_append (hexPadded_ne_nil byte) clean rfl, induction]

private theorem mapM_map {α : Type u} {β : Type v} {γ : Type w} {encode : α → β}
    {decode : β → Option γ}
    {value : α → γ} (decodes : ∀ item, decode (encode item) = some (value item)) (items : List α) :
    (items.map encode).mapM decode = some (items.map value) := by
  induction items with
  | nil => rfl
  | cons item items induction =>
      rw [List.map_cons, List.mapM_cons, decodes, induction]
      rfl

private theorem undumpLine_dumpLine (offset : BitVec 64) (buffer : List Byte) :
    undumpLine (dumpLine false offset buffer) = some buffer := by
  have skipped : ∀ char ∈ hexPadded 8 offset.toNat, decide (char ≠ '\t') = true :=
    fun char member => decide_eq_true fun same => (hexPadded_plain 8 _).2.1 (same ▸ member)
  have column := @unlines_plain buffer (fun byte => hexPadded 2 (promote byte).toNat) '\t'
    (by decide) fun byte _ => (hexPadded_plain 2 (promote byte).toNat).2.1
  have kept : ∀ char ∈ Text.unlines ' ' (buffer.map fun byte => hexPadded 2 (promote byte).toNat),
      decide (char ≠ '\t') = true :=
    fun char member => decide_eq_true fun same => column (same ▸ member)
  have column : hexColumn (dumpLine false offset buffer) =
      Text.unlines ' ' (buffer.map fun byte => hexPadded 2 (promote byte).toNat) := by
    rw [dumpLine_plain, hexColumn, List.dropWhile_append_of_pos skipped,
      List.dropWhile_cons_of_neg (by simp), List.drop_one, List.tail_cons,
      List.takeWhile_append_of_pos kept, List.takeWhile_cons_of_neg (by simp), List.append_nil]
  rw [undumpLine, column, words_unlines]
  exact (mapM_map lastByte_hexPadded buffer).trans (by rw [List.map_id'])

/-- Every dump can be read back, whatever the bytes of the file are and whether it is colored
or not. -/
theorem undump_hexditch (useColor : Bool) (f : List Byte) :
    undump (hexditch useColor f) = some f := by
  have plain : stripColor false (hexditch useColor f) = hexditch false f :=
    stripColor_dump useColor _ 0 f
  rw [undump, plain, lines_hexditch]
  have lines := mapM_map (fun index => undumpLine_dumpLine
    (BitVec.ofNat 64 (bufferSize * index)) (block f index)) (List.range (blockCount f.length))
  rw [lines, Option.map_some, flatten_blocks]

end SystemsRepository.Hexdump
