import SystemsRepository.ToyShell.Rounds

/-! # Input that is read twice

Runs of a session that show what a bad input leads to: rounds in which every `fork` fails, and a
child that reopens `stdin` before the shell has read what its stream has in the buffer.
-/

namespace SystemsRepository.ToyShell

open SystemsRepository.Foundation
open Relation (ReflTransGen)

namespace Session

variable {stdin : Stdin} {session : Session}

/-! ## Runs in which nothing is forked -/

private structure Skips (stdin : Stdin) (session : Session) (piece : List Char) (next : Session) :
    Prop where
  step : Step stdin session next
  read : stdin.fgets '\n' maxBufferSize session.stream = some (piece, next.stream)
  phase : next.shell.phase = if isExit piece then .exited else .prompt
  children : next.shell.children = session.shell.children
  copies : next.copies = session.copies
  handled : next.handled = if isExit piece then session.handled else session.handled ++ [piece]

private theorem exists_skips {piece rest : List Char} (prompt : session.shell.phase = .prompt)
    (read : Text.fgets '\n' maxBufferSize (stdin.remaining session.stream) = some (piece, rest)) :
    ∃ next, Skips stdin session piece next ∧ stdin.remaining next.stream = rest := by
  rcases fgets_of_read read with ⟨stream, found, same⟩
  have moved := @Shell.step_unforked
    { session.shell with input := stdin.remaining session.stream } _ _ prompt read
  have leaves : readLine piece = some .exit ↔ isExit piece = true := decide_eq_true_iff.symm
  simp only [leaves] at moved
  let next : Session := {
    shell := { session.shell with
      input := rest, phase := if isExit piece then .exited else .prompt }
    stream
    copies := session.copies
    rounds := session.rounds + 1
    handled := if isExit piece then session.handled else session.handled ++ [piece] }
  refine ⟨next, ⟨⟨.system (.line false none none), ?_⟩, found, rfl, rfl, rfl, rfl⟩, same⟩
  simp only [step, moved, found, Option.bind_eq_bind, Option.bind_some, forked,
    Option.toList_none, List.filter_nil, ite_self, List.map_nil, List.nil_append, Option.pure_def]
  cases leaves : isExit piece <;> simp [next, leaves]

private structure Skipped (stdin : Stdin) (session : Session) (front : List (List Char))
    (next : Session) : Prop where
  run : ReflTransGen (Step stdin) session next
  phase : next.shell.phase = .prompt
  children : next.shell.children = session.shell.children
  copies : next.copies = session.copies
  handled : next.handled = session.handled ++ front
  ahead : ∀ bound count, stdin.Ahead bound count session.stream →
    count + front.flatten.length < bound →
      stdin.Ahead bound (count + front.flatten.length) next.stream

private theorem exists_skipped {front after : List (List Char)}
    (prompt : session.shell.phase = .prompt)
    (pieces : inputPieces (stdin.remaining session.stream) = front ++ after)
    (stays : ∀ piece ∈ front, isExit piece = false) :
    ∃ next, Skipped stdin session front next ∧
      inputPieces (stdin.remaining next.stream) = after := by
  induction front generalizing session with
  | nil =>
      refine ⟨session, ⟨.refl, prompt, rfl, rfl, (List.append_nil _).symm, ?_⟩, pieces⟩
      intro bound count ahead _
      exact ahead
  | cons piece front induction =>
      rcases Text.fgets_of_reads (by decide) pieces with ⟨rest, read, others⟩
      have proceeds := stays piece List.mem_cons_self
      rcases exists_skips prompt read with ⟨middle, skips, remaining⟩
      have phase := skips.phase
      have handled := skips.handled
      rw [proceeds, if_neg Bool.false_ne_true] at phase handled
      rw [← remaining] at others
      rcases induction phase others fun piece member =>
        stays piece (List.mem_cons_of_mem _ member) with ⟨next, skipped, left⟩
      refine ⟨next, ⟨.head skips.step skipped.run, skipped.phase,
        skipped.children.trans skips.children, skipped.copies.trans skips.copies, ?_, ?_⟩, left⟩
      · rw [skipped.handled, handled, List.append_assoc]
        rfl
      · intro bound count ahead inside
        rw [List.flatten_cons, List.length_append, ← Nat.add_assoc] at inside ⊢
        exact skipped.ahead _ _ (ahead.fgets (by decide) skips.read (by omega)).1 inside

private theorem exists_ended (prompt : session.shell.phase = .prompt)
    (ended : stdin.remaining session.stream = []) :
    ∃ next, Step stdin session next ∧ next.shell.phase = .prompt ∧
      stdin.remaining next.stream = [] ∧ next.rounds = session.rounds + 1 := by
  have nothing : Text.fgets '\n' maxBufferSize (stdin.remaining session.stream) = none := by
    rw [ended]
    rfl
  refine ⟨{ session with
    shell := { session.shell with input := [] }, rounds := session.rounds + 1 },
    ⟨.system (.line false none none), ?_⟩, prompt, ended, rfl⟩
  rw [ended] at nothing
  simp [step, Shell.step, prompt, ended, nothing, fgets_of_ended (ended ▸ nothing)]

private theorem exists_rounds (prompt : session.shell.phase = .prompt)
    (ended : stdin.remaining session.stream = []) (count : Nat) :
    ∃ next, ReflTransGen (Step stdin) session next ∧ next.rounds = session.rounds + count := by
  induction count generalizing session with
  | zero => exact ⟨session, .refl, rfl⟩
  | succ count induction =>
      rcases exists_ended prompt ended with ⟨middle, stepped, prompt, ended, once⟩
      rcases induction prompt ended with ⟨next, run, more⟩
      exact ⟨next, .head stepped run, by omega⟩

/-- A shell that stops its loop has met a line that makes it leave, and has then handled what
stands before it. -/
theorem exists_exited (bounded : ∃ bound, ∀ session, Reachable stdin session →
    session.rounds ≤ bound) :
    ∃ session, Reachable stdin session ∧ session.shell.phase = .exited ∧
      ∃ count, mainRounds count (.reading stdin.text []) = .halted session.handled := by
  have leaves : ∃ piece ∈ inputPieces stdin.text, isExit piece = true := by
    apply Classical.byContradiction
    intro none
    simp only [not_exists, not_and, Bool.not_eq_true] at none
    rcases @exists_skipped stdin .start _ _ rfl (List.append_nil _).symm none with
      ⟨middle, skipped, left⟩
    have ended := inputPieces_flatten (stdin.remaining middle.stream)
    rw [left] at ended
    rcases bounded with ⟨bound, bounded⟩
    rcases exists_rounds skipped.phase ended.symm (bound + 1) with ⟨late, run, rounds⟩
    have early := bounded late (skipped.run.trans run)
    omega
  rcases Option.isSome_iff_exists.mp (List.find?_isSome.mpr leaves) with ⟨piece, found⟩
  rcases List.find?_eq_some_iff_append.mp found with ⟨exit, front, later, split, stays⟩
  have proceeds : ∀ other ∈ front, isExit other = false := by simpa using stays
  rcases @exists_skipped stdin .start _ _ rfl split proceeds with ⟨middle, skipped, left⟩
  rcases Text.fgets_of_reads (by decide) left with ⟨rest, read, _⟩
  rcases exists_skips skipped.phase read with ⟨last, skips, _⟩
  have phase := skips.phase
  have handled := skips.handled
  rw [exit, if_pos rfl] at phase handled
  refine ⟨last, skipped.run.tail skips.step, phase,
    (Text.rounds_halt_iff (by decide)).mpr ⟨?_, leaves⟩⟩
  rw [handled, skipped.handled, ← inputPieces, split, List.takeWhile_append_of_pos stays,
    List.takeWhile_cons_of_neg (by simp [exit]), List.append_nil]
  rfl

/-! ## A child that reopens `stdin` -/

private theorem shell_forks {shell : Shell} {piece rest : List Char}
    (prompt : shell.phase = .prompt) (childless : shell.children = [])
    (read : Text.fgets '\n' maxBufferSize shell.input = some (piece, rest))
    (taken : reopens piece = true) :
    ∃ phase, shell.step (.line true (some 1) none) =
        some { input := rest, phase, children := [{ pid := 1, running := true }] } ∧
      (phase = .prompt ∨ phase = .foreground 1 ∨ phase = .pipeline [some 1, none]) := by
  rcases Option.isSome_iff_exists.mp (readLine_isSome piece) with ⟨line, understood⟩
  rw [reopens, understood] at taken
  simp only [Shell.step, prompt, read, understood, Option.bind_some]
  cases line with
  | exit => cases taken
  | blank => cases taken
  | foreground tokens =>
      refine ⟨.foreground 1, ?_, .inr (.inl rfl)⟩
      simp [Shell.runLine, Shell.executeCommand, Shell.fork, childless]
  | background tokens =>
      refine ⟨.prompt, ?_, .inl rfl⟩
      simp [Shell.runLine, Shell.executeCommand, Shell.fork, childless]
  | piped tokens =>
      refine ⟨.pipeline [some 1, none], ?_, .inr (.inr rfl)⟩
      dsimp only at taken
      split at taken
      next first second commands =>
        simp [Shell.runLine, Shell.pipeOut, commands, Shell.fork, childless, Shell.afterWait]
      next => cases taken

private theorem exists_reopened {piece rest : List Char} {stream : Text.Buffered Char}
    (sought : stdin.seekable = true) (prompt : session.shell.phase = .prompt)
    (childless : session.shell.children = []) (copyless : session.copies = [])
    (read : Text.fgets '\n' maxBufferSize (stdin.remaining session.stream) = some (piece, rest))
    (found : stdin.fgets '\n' maxBufferSize session.stream = some (piece, stream))
    (taken : reopens piece = true) :
    ∃ next, ReflTransGen (Step stdin) session next ∧
      (next.shell.phase = .prompt ∨ next.shell.phase = .foreground 1 ∨
        next.shell.phase = .pipeline [some 1, none]) ∧
      next.shell.children = [{ pid := 1, running := true }] ∧
      next.stream = { stream with offset := stream.position } ∧
      next.handled = session.handled ++ [piece] := by
  rcases @shell_forks { session.shell with input := stdin.remaining session.stream } _ _ prompt
    childless read taken with ⟨phase, moved, waits⟩
  have stays : phase ≠ .exited := by
    rcases waits with rfl | rfl | rfl <;> exact nofun
  let middle : Session := {
    shell := { input := rest, phase, children := [{ pid := 1, running := true }] }
    stream
    copies := [(1, stream.position)]
    rounds := session.rounds + 1
    handled := session.handled ++ [piece] }
  have started : Step stdin session middle := by
    refine ⟨.system (.line true (some 1) none), ?_⟩
    simp only [step, moved, found, Option.bind_eq_bind, Option.bind_some, taken, if_true]
    simp [middle, forked, childless, copyless, stays]
  have reopened : Step stdin middle
      { middle with stream := { stream with offset := stream.position }, copies := [] } := by
    refine ⟨.reopens 1, ?_⟩
    simp [step, middle, sought]
  exact ⟨_, .head started (.single reopened), waits, rfl, rfl, rfl⟩

private theorem exists_settled
    (waits : session.shell.phase = .prompt ∨ session.shell.phase = .foreground 1 ∨
      session.shell.phase = .pipeline [some 1, none])
    (running : session.shell.children = [{ pid := 1, running := true }]) :
    ∃ next, ReflTransGen (Step stdin) session next ∧ next.shell.phase = .prompt ∧
      next.stream = session.stream ∧ next.handled = session.handled := by
  rcases session with ⟨⟨input, phase, children⟩, stream, copies, rounds, handled⟩
  dsimp only at waits running
  subst running
  rcases waits with rfl | rfl | rfl
  · exact ⟨_, .refl, rfl, rfl, rfl⟩
  · refine ⟨_, .head ⟨.system (.exits 1), rfl⟩ (.single ⟨.system (.reaps 1), rfl⟩), rfl, rfl, rfl⟩
  · refine ⟨_, .head ⟨.system (.exits 1), rfl⟩ (.head ⟨.system (.reaps 1), rfl⟩
      (.single ⟨.system .noChild, rfl⟩)), rfl, rfl, rfl⟩

section Rerun

variable {front later : List (List Char)} {piece ahead rest : List Char}

private theorem exists_reread {source : Text.Source Char}
    (text : source.text = (front ++ [piece]).flatten ++ ahead ++ rest)
    (capacity : source.capacity = (front ++ [piece]).flatten.length + ahead.length)
    (nonempty : ahead ≠ []) (pieces : inputPieces source.text = front ++ piece :: later)
    (stays : ∀ other ∈ front, isExit other = false) (taken : reopens piece = true) :
    ∃ session, Reachable { toSource := source, seekable := true } session ∧
      session.shell.phase = .prompt ∧
      source.remaining session.stream = ahead ++ (ahead ++ rest) ∧
      session.handled = front ++ [piece] := by
  let stdin : Stdin := { toSource := source, seekable := true }
  have some := List.length_pos_iff.mpr nonempty
  have whole : source.capacity ≤ source.text.length := by
    rw [text, capacity]
    simp only [List.length_append]
    omega
  have length : (front ++ [piece]).flatten.length = front.flatten.length + piece.length := by
    simp
  have inside : front.flatten.length + piece.length < source.capacity := by omega
  rcases @exists_skipped stdin .start _ _ rfl pieces stays with ⟨first, skipped, remaining⟩
  have served := skipped.ahead _ _ (Text.Source.ahead_start whole)
    (Nat.lt_of_le_of_lt (by omega) inside)
  rw [Nat.zero_add] at served
  rcases Text.fgets_of_reads (by decide) remaining with ⟨behind, read, _⟩
  rcases fgets_of_read read with ⟨stream, found, _⟩
  have buffered := (served.fgets (by decide) found inside).2
  rcases exists_reopened rfl skipped.phase skipped.children skipped.copies read found taken with
    ⟨second, reopened, waits, running, moved, handled⟩
  rcases exists_settled waits running with ⟨session, settled, prompt, same, kept⟩
  refine ⟨session, (skipped.run.trans reopened).trans settled, prompt, ?_, ?_⟩
  · have block : source.text.take source.capacity = (front ++ [piece]).flatten ++ ahead := by
      rw [text, capacity, ← List.length_append, List.take_left]
    rw [block, ← length, List.drop_left] at buffered
    have position : stream.position = (front ++ [piece]).flatten.length := by
      rw [Text.Buffered.position, buffered, capacity]
      exact Nat.add_sub_cancel _ _
    rw [same, moved, Text.Source.remaining, position, buffered, text, List.append_assoc,
      List.drop_left]
  · rw [kept, handled, skipped.handled]
    rfl

/-- The shell runs a line that is not there, with what the stream has read ahead of the line
`exit`. -/
theorem exists_extra_command {before : List (List Char)} (clean : ∀ line ∈ before, '\n' ∉ line)
    (pieces : inputPieces (Text.unlines '\n' before) = front ++ piece :: later)
    (stays : ∀ other ∈ front ++ piece :: later, isExit other = false)
    (taken : reopens piece = true) :
    ∃ (source : Text.Source Char) (session : Session) (extra : List Char),
      source.text = Text.unlines '\n' before ++ (exitLine ++ rest) ∧
        Reachable { toSource := source, seekable := true } session ∧
        session.handled = front ++ piece :: later ++ [extra] ∧ runsCommand extra = true := by
  have split : inputPieces (Text.unlines '\n' before) = front ++ [piece] ++ later := by
    rw [pieces, List.append_cons]
  rcases Text.exists_unlines_behind (by decide) clean split with
    ⟨left, whole, leftClean, leftPieces⟩
  rcases exists_torn_command (Text.unlines '\n' left ++ (exitLine ++ rest)) with
    ⟨torn, ⟨tail, leads⟩, nonempty, extra, more, again, extraStays, runs⟩
  let source : Text.Source Char := {
    text := Text.unlines '\n' before ++ (exitLine ++ rest)
    capacity := (front ++ [piece]).flatten.length + (Text.unlines '\n' left ++ torn).length
    positive := by
      have some := List.length_pos_iff.mpr nonempty
      rw [List.length_append]
      omega }
  have text : source.text =
      (front ++ [piece]).flatten ++ (Text.unlines '\n' left ++ torn) ++ (tail ++ rest) := by
    simp only [source, whole, ← leads, List.append_assoc]
  have allPieces : inputPieces source.text =
      front ++ piece :: (later ++ inputPieces (exitLine ++ rest)) := by
    rw [inputPieces_unlines_append clean, pieces, List.append_assoc]
    rfl
  rcases exists_reread text rfl (by simp [nonempty]) allPieces
    (fun other member => stays other (List.mem_append_left _ member)) taken with
    ⟨session, reached, prompt, remaining, handled⟩
  have rerun : inputPieces (source.remaining session.stream) = later ++ [extra] ++ more := by
    have once : Text.unlines '\n' left ++ torn ++ (tail ++ rest) =
        Text.unlines '\n' left ++ (exitLine ++ rest) := by
      simp only [← leads, List.append_assoc]
    rw [remaining, once, List.append_assoc, inputPieces_unlines_append leftClean, again,
      inputPieces, leftPieces, List.append_cons]
  rcases @exists_skipped { toSource := source, seekable := true } session _ _ prompt rerun (by
    intro other member
    rcases List.mem_append.mp member with old | new
    · exact stays other (List.mem_append_right _ (List.mem_cons_of_mem _ old))
    · rw [List.mem_singleton.mp new]
      exact extraStays) with ⟨last, skipped, _⟩
  refine ⟨source, last, extra, rfl, reached.trans skipped.run, ?_, runs⟩
  rw [skipped.handled, handled]
  simp

end Rerun

end Session

end SystemsRepository.ToyShell
