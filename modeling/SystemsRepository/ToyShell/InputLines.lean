import SystemsRepository.Foundation.LineLoop
import SystemsRepository.ToyShell.Shell

/-! # The input lines of the shell

What `main` does with the pieces in which `fgets` delivers a line, and which lines it runs as
one command.
-/

namespace SystemsRepository.ToyShell

open SystemsRepository.Foundation

/-! ## The pieces of a line -/

/-- `main` breaks out of its loop on this content of its buffer. -/
def isExit (input : List Char) : Bool := readLine input = some .exit

def runsCommand (input : List Char) : Bool :=
  match readLine input with
  | some (.piped _) => true
  | some (.foreground _) => true
  | some (.background _) => true
  | _ => false

def hasWords (input : List Char) : Bool := !(lineWords input).isEmpty

abbrev inputPieces (line : List Char) : List (List Char) := Text.reads '\n' maxBufferSize line

def Idle (text : List Char) : Prop := lineWords text = [] ∨ lineWords text = [['&']]

instance (text : List Char) : Decidable (Idle text) := inferInstanceAs (Decidable (_ ∨ _))

abbrev pieceSize : Nat := maxBufferSize - 1

def exitWord : List Char := "exit".toList

def exitLine : List Char := "exit\n".toList

/-- Of the windows of 255 bytes that `fgets` cuts the line into only blank ones stand in front of
one that is not idle, and what is left of the line at a window is never the word `exit`. -/
structure FitsBuffer (line : List Char) : Prop where
  window : ∀ earlier later, earlier < later → ¬Idle (Text.window pieceSize later line) →
    lineWords (Text.window pieceSize earlier line) = []
  notExit : ∀ count, line.drop (count * pieceSize) ≠ exitWord

abbrev mainRound : Text.Loop Char → Text.Loop Char := Text.round '\n' maxBufferSize isExit

abbrev mainRounds : Nat → Text.Loop Char → Text.Loop Char :=
  Text.rounds '\n' maxBufferSize isExit

abbrev linesBeforeExit (stdin : List Char) : List (List Char) := Text.linesBefore '\n' isExit stdin

abbrev piecesBeforeExit (stdin : List Char) : List (List Char) :=
  (linesBeforeExit stdin).flatMap inputPieces

/-! ## What the loop does with a piece -/

theorem isExit_iff (input : List Char) : isExit input = true ↔ cString input = exitLine := by
  rcases readLine_eq input with ⟨words, behind, background, _, read⟩
  rw [isExit, decide_eq_true_eq, read, Option.some.injEq]
  by_cases exit : cString input = "exit\n".toList
  · simp [exit, exitLine]
  · rw [if_neg exit]
    refine iff_of_false ?_ exit
    split
    next => exact nofun
    next =>
      split
      next => exact nofun
      next => split <;> exact nofun

theorem cString_append {text ending : List Char} :
    cString (text ++ ending) = text ++ cString ending ∧ cString text = text ∨
      cString (text ++ ending) = cString text := by
  unfold cString
  rw [List.takeWhile_append]
  split
  next whole =>
    left
    exact ⟨rfl, (List.takeWhile_prefix _).eq_of_length whole⟩
  next => exact .inr rfl

theorem isExit_append_iff {text ending : List Char} (clean : '\n' ∉ text)
    (ends : ending = [] ∨ ending = ['\n']) :
    isExit (text ++ ending) = true ↔ text = exitWord ∧ ending = ['\n'] := by
  rw [isExit_iff]
  constructor
  · intro exit
    have newline : '\n' ∈ exitLine := by decide
    rcases @cString_append text ending with whole | cut
    · rw [whole.1] at exit
      rcases ends with none | some
      · subst none
        have same : text = exitLine := by simpa [cString] using exit
        exact absurd (same ▸ newline) clean
      · subst some
        have same : text ++ ['\n'] = exitWord ++ ['\n'] := exit
        exact ⟨List.append_cancel_right same, rfl⟩
    · rw [cut] at exit
      rw [← exit] at newline
      exact absurd ((List.takeWhile_sublist _).subset newline) clean
  · intro parts
    rw [parts.1, parts.2]
    decide

private theorem lineWords_newline {text : List Char} (clean : '\n' ∉ text) :
    lineWords (text ++ ['\n']) = lineWords text := by
  have kept : ∀ char ∈ text, decide (char ≠ '\n') = true := fun char member =>
    decide_eq_true fun same => clean (same ▸ member)
  have whole := @List.takeWhile_append_of_pos _ _ _ [] kept
  rw [List.append_nil, List.takeWhile_nil, List.append_nil] at whole
  unfold lineWords
  rcases @cString_append text ['\n'] with parts | cut
  · rw [parts.1, parts.2, List.takeWhile_append_of_pos kept, whole]
    simp [cString]
  · rw [cut]

private theorem idle_newline {text : List Char} (clean : '\n' ∉ text) :
    Idle (text ++ ['\n']) ↔ Idle text := by
  rw [Idle, Idle, lineWords_newline clean]

private theorem withoutAmpersand_eq_nil_iff {words : List Token} :
    withoutAmpersand words = [] ↔ words = [] ∨ words = [['&']] := by
  unfold withoutAmpersand
  split
  next ampersand =>
    rcases List.eq_nil_or_concat words with empty | ⟨front, last, split⟩
    · simp [empty]
    · rw [split, List.concat_eq_append] at ampersand
      rw [split, List.concat_eq_append, List.dropLast_concat]
      simp at ampersand
      simp [ampersand]
  next other =>
    constructor
    · exact fun empty => .inl empty
    · intro cases
      rcases cases with empty | alone
      · exact empty
      · rw [alone] at other
        exact absurd rfl other

private theorem idle_iff {text : List Char} :
    withoutAmpersand ((lineWords text).take (maxTokens - 1)) = [] ↔ Idle text := by
  rw [withoutAmpersand_eq_nil_iff, Idle]
  cases lineWords text with
  | nil => simp
  | cons word words => simp

theorem runsCommand_eq {input : List Char} (stays : isExit input = false) :
    runsCommand input = !decide (Idle input) := by
  rcases readLine_eq input with ⟨words, behind, background, parsed, read⟩
  rcases parseInput_words input with ⟨_, same, _⟩
  have count : words.length =
      (withoutAmpersand ((lineWords input).take (maxTokens - 1))).length := by
    rw [parsed, Option.some.injEq] at same
    exact congrArg ParsedInput.tokenCount same
  have blank : words = [] ↔ Idle input := by
    rw [← idle_iff, ← List.length_eq_zero_iff, count, List.length_eq_zero_iff]
  have proceeds : cString input ≠ "exit\n".toList := by
    intro exit
    rw [(isExit_iff input).mpr exit] at stays
    cases stays
  rw [if_neg proceeds] at read
  unfold runsCommand
  by_cases empty : words = []
  · rw [read, if_pos empty, decide_eq_true (blank.mp empty)]
    rfl
  · rw [read, if_neg empty, decide_eq_false (mt blank.mpr empty)]
    by_cases piped : pipeSymbol ∈ words
    · rw [if_pos piped]
      rfl
    · rw [if_neg piped]
      cases background <;> rfl

private theorem runsCommand_of_letter {tail : List Char} (stays : isExit ('e' :: tail) = false) :
    runsCommand ('e' :: tail) = true := by
  rw [runsCommand_eq stays, Bool.not_eq_true', decide_eq_false_iff_not]
  have letters : (lineWords ('e' :: tail)).flatten =
      'e' :: ((cString tail).takeWhile fun char => char ≠ '\n').filter fun char =>
        !isSpace char :=
    Text.words_flatten _
  rintro (empty | alone)
  · rw [empty] at letters
    cases letters
  · rw [alone] at letters
    cases letters

private theorem runs_of_not_exitLine {stream : List Char} (other : ¬exitLine <+: 'e' :: stream) :
    ∃ piece more, inputPieces ('e' :: stream) = piece :: more ∧ isExit piece = false ∧
      runsCommand piece = true := by
  have pieces := @Text.reads_cons _ _ '\n' maxBufferSize (by decide) _
    (List.cons_ne_nil 'e' stream)
  have stays : isExit (Text.takeLine '\n' 255 ('e' :: stream)).1 = false := by
    rw [← Bool.not_eq_true, isExit_iff]
    intro exit
    have leads : cString (Text.takeLine '\n' 255 ('e' :: stream)).1 <+:
        (Text.takeLine '\n' 255 ('e' :: stream)).1 := List.takeWhile_prefix _
    rw [exit] at leads
    have whole := Text.takeLine_append '\n' 255 ('e' :: stream)
    exact other (leads.trans ⟨_, whole⟩)
  exact ⟨_, _, pieces, stays, runsCommand_of_letter stays⟩

/-- Some beginning of the line `exit` makes a command of whatever stands behind it. -/
theorem exists_torn_command (rest : List Char) :
    ∃ torn : List Char, torn <+: exitLine ∧ torn ≠ [] ∧ ∃ piece more,
      inputPieces (torn ++ rest) = piece :: more ∧ isExit piece = false ∧
        runsCommand piece = true := by
  by_cases exits : exitLine <+: 'e' :: rest
  · refine ⟨['e', 'x'], by decide, by decide, runs_of_not_exitLine fun again => ?_⟩
    rcases exits with ⟨after, same⟩
    have goes : 'e' :: 'x' :: 'i' :: 't' :: '\n' :: after = 'e' :: rest := same
    rw [← (List.cons.inj goes).2] at again
    simp [exitLine] at again
  · exact ⟨['e'], by decide, by decide, runs_of_not_exitLine exits⟩

/-! ## Lines -/

theorem isExit_line_iff {stdin line : List Char} (member : line ∈ Text.lines '\n' stdin) :
    isExit line = true ↔ line = exitLine := by
  constructor
  · intro exit
    rcases Text.line_shape member with ended | open_
    · rcases ended with ⟨text, rfl, clean⟩
      rw [((isExit_append_iff clean (.inr rfl)).mp exit).1]
      rfl
    · rw [← List.append_nil line] at exit
      cases ((isExit_append_iff open_ (.inl rfl)).mp exit).2
  · intro same
    rw [same]
    decide

theorem inputPieces_flatten (stream : List Char) : (inputPieces stream).flatten = stream :=
  Text.reads_flatten (by decide) stream

theorem inputPieces_unlines_append {lines : List (List Char)}
    (clean : ∀ line ∈ lines, '\n' ∉ line) (rest : List Char) :
    inputPieces (Text.unlines '\n' lines ++ rest) =
      inputPieces (Text.unlines '\n' lines) ++ inputPieces rest := by
  rw [inputPieces, Text.reads_unlines_append (by decide) clean,
    ← Text.reads_unlines (by decide) clean]

theorem piece_shape {text piece : List Char} (clean : '\n' ∉ text)
    (member : piece ∈ inputPieces (text ++ ['\n'])) :
    ∃ front ending, piece = front ++ ending ∧ (ending = [] ∨ ending = ['\n']) ∧
      '\n' ∉ front := by
  rcases Text.piece_shape (by decide) clean member with ended | filled
  · rcases ended with ⟨front, equal, frontClean⟩
    exact ⟨front, ['\n'], equal, .inr rfl, frontClean⟩
  · exact ⟨piece, [], by simp, .inl rfl, filled.2⟩

theorem exit_piece_iff {text : List Char} (clean : '\n' ∉ text) :
    (∀ piece ∈ inputPieces (text ++ ['\n']), isExit piece = false) ↔
      ∀ count, text.drop (count * pieceSize) ≠ exitWord := by
  have found : (∃ piece ∈ inputPieces (text ++ ['\n']), isExit piece = true) ↔
      ∃ count, text.drop (count * pieceSize) = exitWord := by
    rw [← Text.end_piece_mem_iff (by decide) clean (by decide : exitWord ≠ []) (by decide)]
    constructor
    · intro found
      rcases found with ⟨piece, member, exit⟩
      rcases piece_shape clean member with ⟨front, ending, rfl, ends, frontClean⟩
      have parts := (isExit_append_iff frontClean ends).mp exit
      rw [parts.1, parts.2] at member
      exact member
    · exact fun member => ⟨_, member, by decide⟩
  have nowhere := not_congr found
  simpa using nowhere

theorem hasWords_eq_false_iff {text : List Char} : hasWords text = false ↔ lineWords text = [] := by
  simp [hasWords]

theorem pieces_single_iff {text : List Char} (clean : '\n' ∉ text) :
    ((∀ piece ∈ inputPieces (text ++ ['\n']), isExit piece = false) ∧
        (inputPieces (text ++ ['\n'])).Pairwise fun earlier later =>
          runsCommand later = true → hasWords earlier = false) ↔ FitsBuffer text := by
  have windows := @Text.pairwise_pieces_iff _ _ '\n' maxBufferSize
    (fun piece => !decide (Idle piece)) (by decide) hasWords
    (fun front frontClean => congrArg not (decide_eq_decide.mpr (idle_newline frontClean)))
    (by decide) text clean
  simp only [Bool.not_eq_true', decide_eq_false_iff_not, hasWords_eq_false_iff] at windows
  constructor
  · intro single
    refine ⟨windows.mp (single.2.imp_of_mem ?_), (exit_piece_iff clean).mp single.1⟩
    intro earlier later _ member quiet acts
    rw [← hasWords_eq_false_iff]
    apply quiet
    rw [runsCommand_eq (single.1 later member), decide_eq_false acts]
    rfl
  · intro fits
    have stays := (exit_piece_iff clean).mpr fits.notExit
    refine ⟨stays, (windows.mpr fits.window).imp_of_mem ?_⟩
    intro earlier later _ member quiet runs
    rw [hasWords_eq_false_iff]
    apply quiet
    intro idle
    rw [runsCommand_eq (stays later member), decide_eq_true idle] at runs
    cases runs

theorem linesBefore_shape {stdin line : List Char} (exits : exitLine ∈ Text.lines '\n' stdin)
    (member : line ∈ Text.linesBefore '\n' isExit stdin) :
    ∃ text, line = text ++ ['\n'] ∧ '\n' ∉ text := by
  rcases @Text.lines_split_at_leaving _ _ '\n' isExit stdin ⟨exitLine, exits, by decide⟩ with
    ⟨first, more, split, _⟩
  exact Text.lines_terminated split line member

end SystemsRepository.ToyShell
