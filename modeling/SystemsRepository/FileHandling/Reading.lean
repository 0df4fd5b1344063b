import SystemsRepository.Foundation.Numerals
import SystemsRepository.Foundation.Text
import Mathlib.Data.List.TakeWhile

/-! # The files of `fhand.c`

`read_text_file` prints a file three times: by characters, by lines and by words. A function
is `none` where it uses a file that could not be opened or stores past the end of a buffer.
-/

namespace SystemsRepository.FileHandling

open SystemsRepository.Foundation

abbrev bufferSize : Nat := 1024

def nul : Char := Char.ofNat 0

def cString (buffer : List Char) : List Char := buffer.takeWhile fun char => char ≠ nul

/-- `fscanf(f, "%s", line)`: the word that is stored, and what is left to read. -/
def scanWord (stream : List Char) : Option (List Char × List Char) :=
  match stream.dropWhile Numerals.isSpace with
  | [] => none
  | start =>
      some (start.takeWhile fun char => !Numerals.isSpace char,
        start.dropWhile fun char => !Numerals.isSpace char)

/-- The loop `while(fscanf(f, "%s", line) != EOF)`, with the words it prints. -/
def scanWords : Nat → List Char → Option (List (List Char))
  | 0, _ => none
  | fuel + 1, stream =>
      match scanWord stream with
      | none => some []
      | some (word, rest) =>
          if word.length < bufferSize then (scanWords fuel rest).map fun words => word :: words
          else none

structure Reading where
  characters : List Char
  lines : List Char
  words : List Char
  deriving DecidableEq, Repr

/-- `read_text_file`, with what the file holds if it can be opened. -/
def readTextFile (file : Option (List Char)) : Option Reading := do
  let text ← file
  let words ← scanWords (text.length + 1) text
  return {
    characters := text
    lines := (Text.reads '\n' bufferSize text).flatMap cString
    words := Text.unlines '\n' (words.map cString) }

/-! ## Words -/

private theorem scanWord_none {stream : List Char} (ended : scanWord stream = none) :
    Text.words Numerals.isSpace stream = [] := by
  rw [scanWord] at ended
  split at ended
  next empty =>
    rw [← Text.words_dropWhile, empty]
    rfl
  next => cases ended

private theorem scanWord_some {stream word rest : List Char}
    (found : scanWord stream = some (word, rest)) :
    Text.words Numerals.isSpace stream = word :: Text.words Numerals.isSpace rest ∧
      rest.length < stream.length := by
  have split : word ++ rest = stream.dropWhile Numerals.isSpace ∧
      Text.strtok Numerals.isSpace stream = some (word, rest.drop 1) ∧
      ∀ char ∈ rest.head?, Numerals.isSpace char = true := by
    rw [scanWord] at found
    rw [Text.strtok]
    cases start : stream.dropWhile Numerals.isSpace with
    | nil =>
        rw [start] at found
        cases found
    | cons head tail =>
        rw [start] at found
        cases found
        refine ⟨List.takeWhile_append_dropWhile, rfl, ?_⟩
        intro char first
        have stops := @List.head?_dropWhile_not _ (fun char => !Numerals.isSpace char)
          (head :: tail)
        rw [Option.mem_def] at first
        rw [first] at stops
        simpa using stops
  rcases split with ⟨parts, token, ends⟩
  have same : Text.words Numerals.isSpace (rest.drop 1) = Text.words Numerals.isSpace rest := by
    cases rest with
    | nil => rfl
    | cons char rest =>
        have delimits := ends char rfl
        rw [List.drop_one, List.tail_cons, ← Text.words_dropWhile rest,
          ← Text.words_dropWhile (char :: rest), List.dropWhile_cons_of_pos delimits]
  have size := congrArg List.length parts
  have shorter := (List.dropWhile_sublist Numerals.isSpace (l := stream)).length_le
  have positive := List.length_pos_iff.mpr (Text.strtok_token_ne_nil token)
  rw [List.length_append] at size
  exact ⟨by rw [Text.words_of_strtok token, same], by omega⟩

private theorem scanWords_eq {fuel : Nat} {stream : List Char} (enough : stream.length < fuel) :
    scanWords fuel stream =
      if ∀ word ∈ Text.words Numerals.isSpace stream, word.length < bufferSize then
        some (Text.words Numerals.isSpace stream)
      else none := by
  induction fuel generalizing stream with
  | zero => exact absurd enough (Nat.not_lt_zero _)
  | succ fuel induction =>
      rw [scanWords]
      cases found : scanWord stream with
      | none => simp [scanWord_none found]
      | some next =>
          rcases next with ⟨word, rest⟩
          rcases scanWord_some found with ⟨words, shorter⟩
          rw [words]
          dsimp only
          rw [induction (by omega)]
          simp only [List.forall_mem_cons]
          by_cases fits : word.length < bufferSize
          · by_cases others : ∀ word ∈ Text.words Numerals.isSpace rest, word.length < bufferSize
            · rw [if_pos fits, if_pos others, if_pos ⟨fits, others⟩]
              rfl
            · rw [if_pos fits, if_neg others, if_neg fun all => others all.2]
              rfl
          · rw [if_neg fits, if_neg fun all => fits all.1]

/-! ## The three renderings -/

theorem cStrings_whole_iff {pieces : List (List Char)} :
    pieces.flatMap cString = pieces.flatten ↔ nul ∉ pieces.flatten := by
  constructor
  · intro whole member
    rw [← whole] at member
    rcases List.mem_flatMap.mp member with ⟨piece, _, printed⟩
    have kept := List.all_eq_true.mp
      (List.all_takeWhile (p := fun char => decide (char ≠ nul)) (l := piece)) nul printed
    exact of_decide_eq_true kept rfl
  · intro clean
    have same : ∀ piece ∈ pieces, cString piece = id piece := by
      intro piece member
      apply List.takeWhile_eq_self_iff.mpr
      intro char inside
      apply decide_eq_true
      intro isNul
      rw [isNul] at inside
      exact clean (List.mem_flatten_of_mem member inside)
    rw [List.flatMap_def, List.map_congr_left same, List.map_id]

def visible (text : List Char) : List Char := text.filter fun char => !Numerals.isSpace char

private theorem visible_unlines {words : List (List Char)}
    (clean : ∀ word ∈ words, ∀ char ∈ word, Numerals.isSpace char = false) :
    visible (Text.unlines '\n' words) = words.flatten := by
  induction words with
  | nil => rfl
  | cons word words induction =>
      rcases List.forall_mem_cons.mp clean with ⟨first, rest⟩
      have whole : word.filter (fun char => !Numerals.isSpace char) = word := by
        apply List.filter_eq_self.mpr
        intro char member
        rw [first char member]
        rfl
      have newline : Numerals.isSpace '\n' = true := by decide
      have later := induction rest
      rw [visible] at later
      rw [visible, Text.unlines_cons, List.filter_append, whole,
        List.filter_cons_of_neg (by simp [newline]), later, List.flatten_cons]

private theorem mem_visible_nul_iff {text : List Char} : nul ∈ visible text ↔ nul ∈ text := by
  have notSpace : Numerals.isSpace nul = false := by decide
  simp [visible, notSpace]

/-- The file can be read exactly if every word fits the buffer. Line by line it then looks as
it does character by character, and word by word it does but for the white space, exactly if
it is a text without zero bytes. -/
theorem renderings_agree_iff (text : List Char) :
    ((readTextFile (some text)).isSome ↔
      ∀ word ∈ Text.words Numerals.isSpace text, word.length < bufferSize) ∧
    ∀ reading ∈ readTextFile (some text), reading.characters = text ∧
      (reading.lines = reading.characters ↔ nul ∉ text) ∧
      (visible reading.words = visible reading.characters ↔ nul ∉ text) := by
  have scanned := scanWords_eq (Nat.lt_succ_self text.length)
  by_cases fits : ∀ word ∈ Text.words Numerals.isSpace text, word.length < bufferSize
  · rw [if_pos fits] at scanned
    have read : readTextFile (some text) = some
        { characters := text
          lines := (Text.reads '\n' bufferSize text).flatMap cString
          words := Text.unlines '\n' ((Text.words Numerals.isSpace text).map cString) } := by
      rw [readTextFile, Option.bind_eq_bind, Option.bind_some, scanned]
      rfl
    rw [read]
    refine ⟨⟨fun _ => fits, fun _ => rfl⟩, ?_⟩
    intro reading same
    cases same
    have whole := @Text.words_flatten _ Numerals.isSpace text
    refine ⟨rfl, ?_, ?_⟩
    · have lines := @Text.reads_flatten _ _ '\n' bufferSize (by decide) text
      have printed := @cStrings_whole_iff (Text.reads '\n' bufferSize text)
      rw [lines] at printed
      exact printed
    · have clean : ∀ word ∈ (Text.words Numerals.isSpace text).map cString, ∀ char ∈ word,
          Numerals.isSpace char = false := by
        intro word member char inside
        rcases List.mem_map.mp member with ⟨original, isWord, rfl⟩
        have kept := (List.takeWhile_sublist _).subset inside
        have visible := List.mem_flatten_of_mem isWord kept
        rw [whole] at visible
        simpa using (List.mem_filter.mp visible).2
      have printed := @cStrings_whole_iff (Text.words Numerals.isSpace text)
      rw [visible_unlines clean, ← List.flatMap_def]
      rw [whole] at printed
      exact printed.trans (not_congr mem_visible_nul_iff)
  · rw [if_neg fits] at scanned
    have unread : readTextFile (some text) = none := by
      rw [readTextFile, Option.bind_eq_bind, Option.bind_some, scanned]
      rfl
    rw [unread]
    refine ⟨⟨fun read => (by cases read), fun all => absurd all fits⟩, ?_⟩
    intro reading same
    cases same

/-! ## The binary file -/

def readBinaryFile (bytes : List UInt8) : List Char :=
  bytes.flatMap fun byte => Nat.toDigits 10 byte.toNat ++ [' ']

def writeBinaryFile : List UInt8 := [1, 2, 3, 4, 5]

example : readBinaryFile writeBinaryFile = "1 2 3 4 5 ".toList := by decide

end SystemsRepository.FileHandling
