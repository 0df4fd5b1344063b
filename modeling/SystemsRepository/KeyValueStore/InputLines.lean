import SystemsRepository.Foundation.LineLoop
import SystemsRepository.KeyValueStore.Records

/-! # The input lines of the command loop

The rounds of `main`'s loop over a finite `stdin`, and when it executes its
lines one by one.
-/

namespace SystemsRepository.KeyValueStore

open SystemsRepository.Foundation

/-! ## The loop -/

inductive LoopState
  | reading (stdin : List Char) (handled : List (List Char))
  | halted (handled : List (List Char))
  deriving DecidableEq, Repr

/-- One round; the handlers neither read `stdin` nor leave the loop. -/
def round : LoopState → LoopState
  | .reading stdin handled =>
      match Text.fgets newline inputSize stdin with
      -- At the end of the input the loop prompts again.
      | none => .reading stdin handled
      | some (input, rest) =>
          match parseLine input with
          | .exit => .halted handled
          | _ => .reading rest (handled ++ [input])
  | .halted handled => .halted handled

def rounds : Nat → LoopState → LoopState
  | 0, state => state
  | count + 1, state => rounds count (round state)

def executes (input : List Char) : Bool :=
  match parseLine input with
  | .exit => false
  | .blank => false
  | _ => true

/-! ## Lines -/

def isExit (input : List Char) : Bool :=
  match parseLine input with
  | .exit => true
  | _ => false

def linesBeforeExit (stdin : List Char) : List (List Char) :=
  (Text.lines newline stdin).takeWhile fun line => !isExit line

def inputPieces (line : List Char) : List (List Char) := Text.reads newline inputSize line

/-- The loop halts at the first line `exit`, after it has handled each line before it
and executed at most one command for it. -/
structure OneCommandPerLine (stdin : List Char) : Prop where
  halts : ∃ count, rounds count (.reading stdin []) =
    .halted ((linesBeforeExit stdin).flatMap inputPieces)
  single : ∀ line ∈ linesBeforeExit stdin, ((inputPieces line).filter executes).length ≤ 1

abbrev pieceSize : Nat := inputSize - 1

def exitWord : CString := ['e', 'x', 'i', 't']

/-- All of the line but spaces lies in one of the windows of 699 bytes that `fgets` cuts it
into, and what is left of it at a window is never the word `exit`. -/
structure FitsBuffer (line : CString) : Prop where
  window : ∃ count, (∀ char ∈ line.take (count * pieceSize), char = ' ') ∧
    ∀ char ∈ line.drop ((count + 1) * pieceSize), char = ' '
  notExit : ∀ count, line.drop (count * pieceSize) ≠ exitWord

structure Framed (stdin : List Char) : Prop where
  exits : ∃ line ∈ Text.lines newline stdin, isExit line = true
  fits : ∀ line ∈ linesBeforeExit stdin, FitsBuffer (chomp line)

private theorem fitsBuffer_of_short {line : CString} (short : line.length ≤ pieceSize)
    (notExit : line ≠ exitWord) : FitsBuffer line where
  window := by
    refine ⟨0, by simp, ?_⟩
    rw [Nat.zero_add, Nat.one_mul, List.drop_of_length_le short]
    exact nofun
  notExit count := by
    cases count with
    | zero => simpa using notExit
    | succ count =>
        rw [Text.drop_succ_mul, List.drop_of_length_le short, List.drop_nil]
        exact nofun

/-! ## What the loop does with a piece -/

private theorem dispatch_executes (word rest : CString) :
    dispatch word rest ≠ .exit ∧ dispatch word rest ≠ .blank := by
  unfold dispatch
  repeat' split
  all_goals exact ⟨nofun, nofun⟩

theorem isExit_iff (input : List Char) : isExit input = true ↔ chomp input = exitWord := by
  unfold isExit parseLine exitWord
  by_cases exit : chomp input = ['e', 'x', 'i', 't']
  · simp [exit]
  · simp only [exit, if_false, iff_false]
    cases Text.strtok isSpace (chomp input) with
    | none => simp
    | some found =>
        have notExit := (dispatch_executes found.1 found.2).1
        cases dispatched : dispatch found.1 found.2 <;> simp_all

def isInk (char : Char) : Bool := !isSpace char && char != newline

theorem isInk_eq_false_iff {char : Char} (notNewline : char ≠ newline) :
    isInk char = false ↔ char = ' ' := by
  simp [isInk, isSpace, notNewline]

private theorem parseLine_of_not_exit {input : List Char} (notExit : isExit input = false) :
    parseLine input =
      match Text.strtok isSpace (chomp input) with
      | none => .blank
      | some (word, rest) => dispatch word rest := by
  have differs : ¬chomp input = ['e', 'x', 'i', 't'] := by
    intro exit
    rw [(isExit_iff input).mpr exit] at notExit
    cases notExit
  exact if_neg differs

private theorem executes_iff {input : List Char} (notExit : isExit input = false) :
    executes input = true ↔ ∃ char ∈ chomp input, isSpace char = false := by
  have blank : Text.strtok isSpace (chomp input) = none ↔
      ¬∃ char ∈ chomp input, isSpace char = false := by
    rw [Text.strtok_eq_none_iff]
    simp
  rw [executes, parseLine_of_not_exit notExit]
  cases tokens : Text.strtok isSpace (chomp input) with
  | none => exact iff_of_false Bool.false_ne_true (blank.mp tokens)
  | some found =>
      have inked := mt blank.mpr (by rw [tokens]; exact nofun)
      have dispatched := dispatch_executes found.1 found.2
      refine iff_of_true ?_ (Classical.not_not.mp inked)
      simp only
      split
      · exact absurd (by assumption) dispatched.1
      · exact absurd (by assumption) dispatched.2
      · rfl

private theorem executes_eq_any {text ending : List Char}
    (clean : ∀ char ∈ text, char ≠ newline ∧ char ≠ nul)
    (ends : ending = [] ∨ ending = [newline]) (notExit : isExit (text ++ ending) = false) :
    executes (text ++ ending) = (text ++ ending).any isInk := by
  have unmarkedEnding : ending.any isInk = false := by
    rcases ends with rfl | rfl <;> rfl
  apply Bool.eq_iff_iff.mpr
  rw [executes_iff notExit, chomp_line clean ending ends, List.any_append, unmarkedEnding,
    Bool.or_false, List.any_eq_true]
  constructor
  · intro exists_
    rcases exists_ with ⟨char, member, ink⟩
    exact ⟨char, member, by simp [isInk, ink, (clean char member).1]⟩
  · intro exists_
    rcases exists_ with ⟨char, member, ink⟩
    refine ⟨char, member, ?_⟩
    simp only [isInk, Bool.and_eq_true, Bool.not_eq_true'] at ink
    exact ink.1

section Pieces

variable {line : CString}

private theorem piece_clean (clean : ∀ char ∈ line, char ≠ newline ∧ char ≠ nul) {piece : List Char}
    (member : piece ∈ inputPieces (line ++ [newline])) :
    ∃ text ending, piece = text ++ ending ∧ (ending = [] ∨ ending = [newline]) ∧
      (ending = [] → piece.length = pieceSize) ∧
      ∀ char ∈ text, char ≠ newline ∧ char ≠ nul := by
  have noNewline : newline ∉ line := fun inLine => (clean newline inLine).1 rfl
  have noNul : ∀ char ∈ piece, char ≠ nul := by
    intro char inPiece
    have whole : (inputPieces (line ++ [newline])).flatten = line ++ [newline] :=
      Text.reads_flatten (by decide) _
    have inWhole : char ∈ line ++ [newline] :=
      whole ▸ List.mem_flatten.mpr ⟨piece, member, inPiece⟩
    rcases List.mem_append.mp inWhole with inLine | atEnd
    · exact (clean char inLine).2
    · rw [List.mem_singleton.mp atEnd]
      decide
  rcases Text.piece_shape (by decide) noNewline member with ended | filled
  · rcases ended with ⟨text, rfl, textClean⟩
    refine ⟨text, [newline], rfl, .inr rfl, nofun, ?_⟩
    exact fun char inText =>
      ⟨fun equal => textClean (equal ▸ inText), noNul char (List.mem_append_left _ inText)⟩
  · refine ⟨piece, [], by simp, .inl rfl, fun _ => filled.1, ?_⟩
    exact fun char inPiece => ⟨fun equal => filled.2 (equal ▸ inPiece), noNul char inPiece⟩

theorem exit_piece_iff (clean : ∀ char ∈ line, char ≠ newline ∧ char ≠ nul) :
    (∃ piece ∈ inputPieces (line ++ [newline]), isExit piece = true) ↔
      ∃ count, line.drop (count * pieceSize) = exitWord := by
  have noNewline : newline ∉ line := fun inLine => (clean newline inLine).1 rfl
  rw [← Text.end_piece_mem_iff (by decide) noNewline (by decide : exitWord ≠ []) (by decide)]
  constructor
  · intro found
    rcases found with ⟨piece, member, exit⟩
    rcases piece_clean clean member with ⟨text, ending, rfl, ends, filled, textClean⟩
    rw [isExit_iff, chomp_line textClean ending ends] at exit
    rcases ends with rfl | rfl
    · have length := filled rfl
      rw [List.append_nil, exit] at length
      exact absurd length (by decide)
    · rw [← exit]
      exact member
  · exact fun member => ⟨_, member, by decide⟩

theorem pieces_single_iff (clean : ∀ char ∈ line, char ≠ newline ∧ char ≠ nul) :
    ((∀ piece ∈ inputPieces (line ++ [newline]), isExit piece = false) ∧
        ((inputPieces (line ++ [newline])).filter executes).length ≤ 1) ↔ FitsBuffer line := by
  have noNewline : newline ∉ line := fun inLine => (clean newline inLine).1 rfl
  have notExit : (∀ piece ∈ inputPieces (line ++ [newline]), isExit piece = false) ↔
      ∀ count, line.drop (count * pieceSize) ≠ exitWord := by
    have exits := not_congr (exit_piece_iff clean)
    simpa using exits
  have windows := @Text.marked_pieces_le_one_iff _ _ newline inputSize (by decide) isInk
    (by decide) line noNewline
  have inked : ∀ part : CString, part ⊆ line →
      (Text.Unmarked isInk part ↔ ∀ char ∈ part, char = ' ') := by
    intro part subset
    constructor
    · exact fun unmarked char member =>
        (isInk_eq_false_iff (clean char (subset member)).1).mp (unmarked char member)
    · exact fun spaces char member =>
        (isInk_eq_false_iff (clean char (subset member)).1).mpr (spaces char member)
  have filtered : (∀ piece ∈ inputPieces (line ++ [newline]), isExit piece = false) →
      (inputPieces (line ++ [newline])).filter executes =
        (inputPieces (line ++ [newline])).filter fun piece => piece.any isInk := by
    intro none
    apply List.filter_congr
    intro piece member
    have kept := none piece member
    rcases piece_clean clean member with ⟨text, ending, rfl, ends, _, textClean⟩
    exact executes_eq_any textClean ends kept
  constructor
  · intro single
    have atMostOne := single.2
    rw [filtered single.1] at atMostOne
    rcases windows.mp atMostOne with ⟨count, before, after⟩
    exact ⟨⟨count, (inked _ (List.take_subset _ _)).mp before,
      (inked _ (List.drop_subset _ _)).mp after⟩, notExit.mp single.1⟩
  · intro fits
    have none := notExit.mpr fits.notExit
    rcases fits.window with ⟨count, before, after⟩
    rw [filtered none]
    exact ⟨none, windows.mpr ⟨count, (inked _ (List.take_subset _ _)).mpr before,
      (inked _ (List.drop_subset _ _)).mpr after⟩⟩

end Pieces

/-! ## Runs of the loop -/

def LoopState.loop : LoopState → Text.Loop Char
  | .reading stdin handled => .reading stdin handled
  | .halted handled => .halted handled

private theorem round_loop (state : LoopState) :
    (round state).loop = Text.round newline inputSize isExit state.loop := by
  cases state with
  | halted handled => rfl
  | reading stdin handled =>
      cases read : Text.fgets newline inputSize stdin with
      | none => simp [round, Text.round, LoopState.loop, read]
      | some found =>
          cases parsed : parseLine found.1 <;>
            simp [round, Text.round, LoopState.loop, isExit, read, parsed]

private theorem rounds_loop (count : Nat) (state : LoopState) :
    (rounds count state).loop = Text.rounds newline inputSize isExit count state.loop := by
  induction count generalizing state with
  | zero => rfl
  | succ count induction =>
      rw [rounds, induction, round_loop]
      rfl

theorem rounds_halted_iff {count : Nat} {stdin : List Char} {final : List (List Char)} :
    rounds count (.reading stdin []) = .halted final ↔
      Text.rounds newline inputSize isExit count (.reading stdin []) = .halted final := by
  have same := rounds_loop count (.reading stdin [])
  rw [LoopState.loop] at same
  rw [← same]
  cases rounds count (.reading stdin []) <;> simp [LoopState.loop]

/-! ## Lines and their pieces -/

private theorem linesBeforeExit_shape {stdin : List Char} (noNul : nul ∉ stdin)
    (exits : ∃ line ∈ Text.lines newline stdin, isExit line = true) :
    ∀ line ∈ linesBeforeExit stdin, ∃ text, line = text ++ [newline] ∧
      ∀ char ∈ text, char ≠ newline ∧ char ≠ nul := by
  rcases Text.lines_split_at_leaving exits with ⟨first, more, split, _⟩
  intro line member
  rcases Text.lines_terminated split line member with ⟨text, rfl, clean⟩
  refine ⟨text, rfl, fun char inText => ⟨fun equal => clean (equal ▸ inText), ?_⟩⟩
  intro isNul
  apply noNul
  have inLines := (List.takeWhile_sublist _).subset member
  rw [← isNul]
  exact Text.mem_of_mem_lines inLines (List.mem_append_left _ inText)

private theorem inputPieces_exit {stdin line : List Char} (noNul : nul ∉ stdin)
    (member : line ∈ Text.lines newline stdin) (exit : isExit line = true) :
    inputPieces line = [line] := by
  have lineNul : nul ∉ line := fun inLine => noNul (Text.mem_of_mem_lines member inLine)
  have shape : ∃ text ending, line = text ++ ending ∧ (ending = [] ∨ ending = [newline]) ∧
      newline ∉ text := by
    rcases Text.line_shape member with ended | open_
    · rcases ended with ⟨text, equal, clean⟩
      exact ⟨text, [newline], equal, .inr rfl, clean⟩
    · exact ⟨line, [], by simp, .inl rfl, open_⟩
  rcases shape with ⟨text, ending, rfl, ends, noNewline⟩
  have clean : ∀ char ∈ text, char ≠ newline ∧ char ≠ nul := fun char inText =>
    ⟨fun equal => noNewline (equal ▸ inText),
      fun equal => lineNul (equal ▸ List.mem_append_left _ inText)⟩
  rw [isExit_iff, chomp_line clean ending ends] at exit
  rw [exit]
  rcases ends with rfl | rfl <;> decide

theorem Framed.pieces {stdin : List Char} (framed : Framed stdin) (noNul : nul ∉ stdin) :
    ∀ line ∈ linesBeforeExit stdin,
      (∀ piece ∈ inputPieces line, isExit piece = false) ∧
        ((inputPieces line).filter executes).length ≤ 1 := by
  intro line member
  rcases linesBeforeExit_shape noNul framed.exits line member with ⟨text, rfl, clean⟩
  have fitting := framed.fits _ member
  rw [chomp_line clean [newline] (.inr rfl)] at fitting
  exact (pieces_single_iff clean).mpr fitting

/-- The loop executes one command a line, up to the line `exit`, on exactly these
inputs. -/
theorem oneCommandPerLine_iff_framed {stdin : List Char} (noNul : nul ∉ stdin) :
    OneCommandPerLine stdin ↔ Framed stdin := by
  have leaves := @Text.leavesAtLine_iff _ _ newline inputSize isExit (by decide) stdin
    fun _ member exit => inputPieces_exit noNul member exit
  have halts : (∃ count, rounds count (.reading stdin []) =
      .halted ((linesBeforeExit stdin).flatMap inputPieces)) ↔
        Text.LeavesAtLine newline inputSize isExit stdin :=
    exists_congr fun _ => rounds_halted_iff
  constructor
  · intro single
    rcases leaves.mp (halts.mp single.halts) with ⟨exits, quiet⟩
    refine ⟨exits, ?_⟩
    intro line member
    rcases linesBeforeExit_shape noNul exits line member with ⟨text, rfl, clean⟩
    rw [chomp_line clean [newline] (.inr rfl)]
    exact (pieces_single_iff clean).mp ⟨quiet _ member, single.single _ member⟩
  · intro framed
    have quiet := fun line member => (framed.pieces noNul line member).1
    exact ⟨halts.mpr (leaves.mpr ⟨framed.exits, quiet⟩),
      fun line member => (framed.pieces noNul line member).2⟩

theorem oneCommandPerLine_of_short_lines :
    OneCommandPerLine ['G', 'E', 'T', ' ', 'k', '\n', 'e', 'x', 'i', 't', '\n', 'L'] := by
  apply (oneCommandPerLine_iff_framed (by decide)).mpr
  refine ⟨⟨['e', 'x', 'i', 't', '\n'], by decide, by decide⟩, ?_⟩
  have before : linesBeforeExit
      ['G', 'E', 'T', ' ', 'k', '\n', 'e', 'x', 'i', 't', '\n', 'L'] =
      [['G', 'E', 'T', ' ', 'k', '\n']] := by
    decide
  rw [before]
  intro line member
  rw [List.mem_singleton.mp member]
  exact fitsBuffer_of_short (by decide) (by decide)

/-- The end of a long line is executed as a command of its own, and the loop never ends
on an input without `exit`. -/
theorem long_line_and_missing_exit :
    let line := ['G', 'E', 'T', ' ', 'k'] ++ List.replicate 694 ' ' ++
      ['D', 'E', 'L', 'E', 'T', 'E', ' ', 'k', '\n']
    (inputPieces line).map parseLine = [.command (.get ['k']), .command (.delete ['k'])] ∧
      ¬OneCommandPerLine (line ++ ['e', 'x', 'i', 't', '\n']) ∧
      (∀ count final, rounds count (.reading ['L', 'I', 'S', 'T', '\n'] []) ≠ .halted final) ∧
      ¬OneCommandPerLine ['L', 'I', 'S', 'T', '\n'] := by
  intro line
  have two : (inputPieces line).map parseLine =
      [.command (.get ['k']), .command (.delete ['k'])] := by
    decide +kernel
  have twice : ¬((inputPieces line).filter executes).length ≤ 1 := by
    decide +kernel
  have before : line ∈ linesBeforeExit (line ++ ['e', 'x', 'i', 't', '\n']) := by
    decide +kernel
  have stays : ∀ piece ∈ inputPieces ['L', 'I', 'S', 'T', '\n'], isExit piece = false := by
    decide
  have forever : ∀ count final,
      rounds count (.reading ['L', 'I', 'S', 'T', '\n'] []) ≠ .halted final := by
    intro count final halted
    exact Text.rounds_ne_halted (by decide) stays count [] final (rounds_halted_iff.mp halted)
  refine ⟨two, fun single => twice (single.single line before), forever, ?_⟩
  intro single
  rcases single.halts with ⟨count, halted⟩
  exact forever count _ halted

end SystemsRepository.KeyValueStore
