import SystemsRepository.ToyShell.Rereading

/-! # One command a line

When the shell runs the lines of its input one by one.
-/

namespace SystemsRepository.ToyShell

open SystemsRepository.Foundation

/-- However much the stream reads at once, and whatever the children do when: the commands run
are those of the lines before the first line `exit`, in order; of a line no words stand in front
of what is run for it; and the shell exits after these lines, within a bounded number of
rounds. -/
structure RunsLineByLine (seekable : Bool) (stdin : List Char) : Prop where
  single : ∀ line ∈ linesBeforeExit stdin, (inputPieces line).Pairwise fun earlier later =>
    runsCommand later = true → hasWords earlier = false
  ordered : ∀ source session, source.text = stdin →
    Session.Reachable { toSource := source, seekable } session →
      session.handled.filter runsCommand <+: (piecesBeforeExit stdin).filter runsCommand
  stops : ∀ source session, source.text = stdin →
    Session.Reachable { toSource := source, seekable } session →
      session.shell.phase = .exited → session.handled = piecesBeforeExit stdin
  terminates : ∃ bound, ∀ source session, source.text = stdin →
    Session.Reachable { toSource := source, seekable } session → session.rounds ≤ bound

/-- The input has the line `exit`, the lines before it fit, and if it can be sought, none of them
takes the input of a command from a file. -/
structure Framed (seekable : Bool) (stdin : List Char) : Prop where
  exits : exitLine ∈ Text.lines '\n' stdin
  fits : ∀ text, text ++ ['\n'] ∈ linesBeforeExit stdin → FitsBuffer text
  unshared : seekable = true → ∀ piece ∈ piecesBeforeExit stdin, reopens piece = false

section Parts

variable {seekable : Bool} {stdin : List Char}

theorem leavesAtLine_input_iff :
    Text.LeavesAtLine '\n' maxBufferSize isExit stdin ↔
      exitLine ∈ Text.lines '\n' stdin ∧
        ∀ line ∈ linesBeforeExit stdin, ∀ piece ∈ inputPieces line, isExit piece = false := by
  have whole : ∀ line ∈ Text.lines '\n' stdin, isExit line = true → inputPieces line = [line] := by
    intro line member exit
    rw [(isExit_line_iff member).mp exit]
    decide
  rw [Text.leavesAtLine_iff (by decide) whole]
  apply and_congr_left
  intro quiet
  constructor
  · intro left
    rcases left with ⟨line, member, exit⟩
    rw [← (isExit_line_iff member).mp exit]
    exact member
  · exact fun exits => ⟨exitLine, exits, by decide⟩

private theorem RunsLineByLine.leavesAtLine (runs : RunsLineByLine seekable stdin) :
    Text.LeavesAtLine '\n' maxBufferSize isExit stdin := by
  let source : Text.Source Char := { text := stdin, capacity := 1, positive := by decide }
  rcases runs.terminates with ⟨bound, bounded⟩
  rcases Session.exists_exited ⟨bound, fun session => bounded source session rfl⟩ with
    ⟨session, reached, exited, count, halted⟩
  rw [runs.stops source session rfl reached exited] at halted
  exact ⟨count, halted⟩

private theorem exists_text_before_exit (exits : exitLine ∈ Text.lines '\n' stdin) :
    ∃ before rest, stdin = Text.unlines '\n' before ++ (exitLine ++ rest) ∧
      (∀ line ∈ before, '\n' ∉ line) ∧
      piecesBeforeExit stdin = inputPieces (Text.unlines '\n' before) := by
  rcases @Text.lines_split_at_leaving _ _ '\n' isExit stdin ⟨exitLine, exits, by decide⟩ with
    ⟨first, more, split, leaves⟩
  have member : first ∈ Text.lines '\n' stdin := by
    rw [split]
    simp
  rw [(isExit_line_iff member).mp leaves] at split
  rcases Text.exists_unlines (Text.lines_terminated split) with ⟨before, clean, whole, same⟩
  refine ⟨before, more.flatten, ?_, clean, ?_⟩
  · have text := @Text.lines_flatten _ _ '\n' stdin
    rw [split, List.flatten_append, List.flatten_cons, whole] at text
    exact text.symm
  · rw [piecesBeforeExit, linesBeforeExit, same, List.flatMap_map, inputPieces,
      Text.reads_unlines (by decide) clean]

theorem RunsLineByLine.unshared (runs : RunsLineByLine true stdin) :
    ∀ piece ∈ piecesBeforeExit stdin, reopens piece = false := by
  rcases leavesAtLine_input_iff.mp runs.leavesAtLine with ⟨exits, quiet⟩
  rcases exists_text_before_exit exits with ⟨before, rest, text, clean, pieces⟩
  intro piece member
  cases taken : reopens piece with
  | false => rfl
  | true =>
      rcases List.append_of_mem member with ⟨front, later, split⟩
      have stays : ∀ other ∈ front ++ piece :: later, isExit other = false := by
        intro other found
        rw [← split] at found
        rcases List.mem_flatMap.mp found with ⟨line, before, inLine⟩
        exact quiet line before other inLine
      rcases @Session.exists_extra_command _ _ _ rest _ clean (pieces.symm.trans split) stays taken
        with ⟨source, session, extra, same, reached, handled, acts⟩
      have leads := runs.ordered source session (same.trans text.symm) reached
      rw [handled, ← split, List.filter_append, List.filter_cons_of_pos acts] at leads
      have shorter := leads.length_le
      rw [List.length_append] at shorter
      exact absurd shorter (by simp)

private theorem Framed.leavesAtLine (framed : Framed seekable stdin) :
    Text.LeavesAtLine '\n' maxBufferSize isExit stdin := by
  refine leavesAtLine_input_iff.mpr ⟨framed.exits, fun line before => ?_⟩
  rcases linesBefore_shape framed.exits before with ⟨text, rfl, clean⟩
  exact ((pieces_single_iff clean).mpr (framed.fits text before)).1

end Parts

end SystemsRepository.ToyShell
