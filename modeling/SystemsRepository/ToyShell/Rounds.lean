import SystemsRepository.ToyShell.InputLines
import SystemsRepository.ToyShell.SharedInput
import SystemsRepository.ToyShell.Waiting

/-! # The rounds of a session

A turn of the shell and its children is at most one round of the loop in `main`. The loop goes
over its input once while no child moves the offset of the file.
-/

namespace SystemsRepository.ToyShell

open SystemsRepository.Foundation
open Relation (ReflTransGen)

/-! ## What a turn does -/

namespace Session

variable {stdin : Stdin} {session next : Session} {turn : Turn}

/-- A child moves the offset of the file back, something happens outside of the loop, or the loop
goes through a round. -/
inductive Moves (stdin : Stdin) (session next : Session) : Prop
  | reopens (copy : Nat × Nat) (member : copy ∈ session.copies)
      (stream : next.stream =
        if stdin.seekable then { session.stream with offset := copy.2 } else session.stream)
      (shell : next.shell = session.shell) (copies : next.copies ⊆ session.copies)
      (rounds : next.rounds = session.rounds) (handled : next.handled = session.handled)
  | waits (stream : next.stream = session.stream)
      (phase : next.shell.phase = .exited ↔ session.shell.phase = .exited)
      (copies : next.copies ⊆ session.copies) (rounds : next.rounds = session.rounds)
      (handled : next.handled = session.handled)
  | ends (phase : session.shell.phase = .prompt) (ended : stdin.remaining session.stream = [])
      (stream : next.stream = session.stream) (stays : next.shell.phase = .prompt)
      (copies : next.copies = session.copies) (rounds : next.rounds = session.rounds + 1)
      (handled : next.handled = session.handled)
  | reads (piece : List Char) (phase : session.shell.phase = .prompt)
      (read : Text.fgets '\n' maxBufferSize (stdin.remaining session.stream) =
        some (piece, stdin.remaining next.stream))
      (exits : next.shell.phase = .exited ↔ isExit piece = true)
      (copies : reopens piece = false → next.copies = session.copies)
      (rounds : next.rounds = session.rounds + 1)
      (handled : next.handled =
        if isExit piece then session.handled else session.handled ++ [piece])

private theorem not_reopens_of_exit {piece : List Char} (leaves : isExit piece = true) :
    reopens piece = false := by
  rw [isExit, decide_eq_true_eq] at leaves
  rw [reopens, leaves]

theorem fgets_of_ended {stream : Text.Buffered Char}
    (ended : Text.fgets '\n' maxBufferSize (stdin.remaining stream) = none) :
    stdin.fgets '\n' maxBufferSize stream = none := by
  rw [← Text.Source.fgets_eq, Option.map_eq_none_iff] at ended
  exact ended

theorem fgets_of_read {stream : Text.Buffered Char} {piece rest : List Char}
    (read : Text.fgets '\n' maxBufferSize (stdin.remaining stream) = some (piece, rest)) :
    ∃ after, stdin.fgets '\n' maxBufferSize stream = some (piece, after) ∧
      stdin.remaining after = rest := by
  rw [← Text.Source.fgets_eq, Option.map_eq_some_iff] at read
  rcases read with ⟨⟨line, after⟩, found, same⟩
  cases same
  exact ⟨after, found, rfl⟩

def Follows (stdin : Stdin) (session : Session) : Text.Loop Char → Prop
  | .reading stream handled => stdin.remaining session.stream = stream ∧
      session.handled = handled ∧ session.shell.phase ≠ .exited
  | .halted handled => session.shell.phase = .exited ∧ session.handled = handled

/-- Nobody moves the offset of the file but the stream of `main`. -/
def Undisturbed (stdin : Stdin) (session : Session) : Prop :=
  stdin.seekable = false ∨ session.copies = []

theorem Follows.moves {loop : Text.Loop Char} (follows : Follows stdin session loop)
    (undisturbed : Undisturbed stdin session) (moves : Moves stdin session next) :
    next.rounds = session.rounds ∧ Follows stdin next loop ∨
      next.rounds = session.rounds + 1 ∧ Follows stdin next (mainRound loop) := by
  cases loop with
  | halted handled =>
      cases moves with
      | reopens copy member stream shell copies rounds same =>
          exact .inl ⟨rounds, shell ▸ follows.1, same.trans follows.2⟩
      | waits stream phase copies rounds same =>
          exact .inl ⟨rounds, phase.mpr follows.1, same.trans follows.2⟩
      | ends phase => cases phase.symm.trans follows.1
      | reads piece phase => cases phase.symm.trans follows.1
  | reading left handled =>
      rcases follows with ⟨remaining, sameHandled, stays⟩
      cases moves with
      | reopens copy member stream shell copies rounds same =>
          rcases undisturbed with fixed | none
          · rw [if_neg (by simp [fixed])] at stream
            exact .inl ⟨rounds, stream ▸ remaining, same.trans sameHandled, shell ▸ stays⟩
          · rw [none] at member
            cases member
      | waits stream phase copies rounds same =>
          exact .inl ⟨rounds, stream ▸ remaining, same.trans sameHandled, mt phase.mp stays⟩
      | ends phase ended stream prompt copies rounds same =>
          refine .inr ⟨rounds, ?_⟩
          rw [← remaining, ended]
          exact ⟨stream ▸ ended, same.trans sameHandled, by rw [prompt]; exact nofun⟩
      | reads piece phase read exits copies rounds same =>
          refine .inr ⟨rounds, ?_⟩
          rw [remaining] at read
          simp only [mainRound, Text.round, read]
          cases leaves : isExit piece with
          | true =>
              rw [leaves, if_pos rfl] at same
              exact ⟨exits.mpr leaves, same.trans sameHandled⟩
          | false =>
              rw [leaves, if_neg Bool.false_ne_true, sameHandled] at same
              refine ⟨rfl, same, fun exited => ?_⟩
              rw [leaves] at exits
              cases exits.mp exited

section Framed

variable {text : List Char} {bound : Nat}

private theorem reading_before_exit
    (halts : mainRounds bound (.reading text []) = .halted (piecesBeforeExit text))
    {count : Nat} {stream : List Char} {handled : List (List Char)}
    (reached : mainRounds count (.reading text []) = .reading stream handled) :
    count < bound ∧ piecesBeforeExit text =
      handled ++ (inputPieces stream).takeWhile fun piece => !isExit piece := by
  have split : ∀ more, mainRounds (more + count) (.reading text []) =
      mainRounds more (.reading stream handled) := by
    intro more
    rw [← reached]
    exact Function.iterate_add_apply _ _ _ _
  have earlier : count < bound := by
    apply Nat.lt_of_not_le
    intro late
    rcases Nat.exists_eq_add_of_le' late with ⟨more, rfl⟩
    have halted : mainRounds (more + bound) (.reading text []) =
        mainRounds more (.halted (piecesBeforeExit text)) := by
      rw [← halts]
      exact Function.iterate_add_apply _ _ _ _
    rw [reached, mainRounds, Text.rounds_halted] at halted
    cases halted
  refine ⟨earlier, ?_⟩
  rcases Nat.exists_eq_add_of_le' (Nat.le_of_lt earlier) with ⟨more, rfl⟩
  rw [split] at halts
  exact ((Text.rounds_halt_iff (by decide)).mp ⟨more, halts⟩).1

structure Kept (stdin : Stdin) (bound : Nat) (session : Session) : Prop where
  follows : Follows stdin session (mainRounds session.rounds (.reading stdin.text []))
  undisturbed : Undisturbed stdin session
  bounded : session.rounds ≤ bound

theorem Undisturbed.fewer (undisturbed : Undisturbed stdin session)
    (fewer : next.copies ⊆ session.copies) : Undisturbed stdin next := by
  rcases undisturbed with fixed | none
  · exact .inl fixed
  · rw [none] at fewer
    exact .inr (List.eq_nil_of_subset_nil fewer)

private theorem Kept.mem_piecesBeforeExit
    (halts : mainRounds bound (.reading stdin.text []) = .halted (piecesBeforeExit stdin.text))
    (kept : Kept stdin bound session) (stays : session.shell.phase ≠ .exited)
    {piece rest : List Char}
    (read : Text.fgets '\n' maxBufferSize (stdin.remaining session.stream) = some (piece, rest)) :
    session.rounds < bound ∧ (isExit piece = false → piece ∈ piecesBeforeExit stdin.text) := by
  have follows := kept.follows
  cases reached : mainRounds session.rounds (.reading stdin.text []) with
  | halted handled =>
      rw [reached] at follows
      exact absurd follows.1 stays
  | reading stream handled =>
      rw [reached] at follows
      rcases reading_before_exit halts reached with ⟨earlier, whole⟩
      refine ⟨earlier, fun proceeds => ?_⟩
      rw [follows.1] at read
      rw [whole, inputPieces, Text.reads_of_fgets (by decide) read,
        List.takeWhile_cons_of_pos (by simp [proceeds])]
      simp

private theorem Kept.undisturbed_next
    (halts : mainRounds bound (.reading stdin.text []) = .halted (piecesBeforeExit stdin.text))
    (unshared : stdin.seekable = true →
      ∀ piece ∈ piecesBeforeExit stdin.text, reopens piece = false)
    (kept : Kept stdin bound session) (moves : Moves stdin session next) :
    Undisturbed stdin next := by
  cases moves with
  | reopens copy member stream shell copies => exact kept.undisturbed.fewer copies
  | waits stream phase copies => exact kept.undisturbed.fewer copies
  | ends phase ended stream stays copies =>
      exact kept.undisturbed.fewer (copies ▸ List.Subset.refl _)
  | reads piece phase read exits copies =>
      rcases Bool.eq_false_or_eq_true stdin.seekable with sought | fixed
      · have quiet : reopens piece = false := by
          cases leaves : isExit piece with
          | true => exact not_reopens_of_exit leaves
          | false =>
              have stays : session.shell.phase ≠ .exited := by
                rw [phase]
                exact nofun
              exact unshared sought piece ((kept.mem_piecesBeforeExit halts stays read).2 leaves)
        exact kept.undisturbed.fewer (copies quiet ▸ List.Subset.refl _)
      · exact .inl fixed

theorem Kept.moves
    (halts : mainRounds bound (.reading stdin.text []) = .halted (piecesBeforeExit stdin.text))
    (unshared : stdin.seekable = true →
      ∀ piece ∈ piecesBeforeExit stdin.text, reopens piece = false)
    (kept : Kept stdin bound session) (moves : Moves stdin session next) :
    Kept stdin bound next := by
  have undisturbed := kept.undisturbed_next halts unshared moves
  rcases kept.follows.moves kept.undisturbed moves with ⟨rounds, follows⟩ | ⟨rounds, follows⟩
  · exact ⟨rounds ▸ follows, undisturbed, rounds ▸ kept.bounded⟩
  · refine ⟨?_, undisturbed, ?_⟩
    · rw [rounds, mainRounds, Text.rounds, Function.iterate_succ_apply']
      exact follows
    · have before := kept.follows
      cases reached : mainRounds session.rounds (.reading stdin.text []) with
      | reading stream handled =>
          rw [rounds]
          exact (reading_before_exit halts reached).1
      | halted handled =>
          rw [reached, mainRound, Text.round] at follows
          rw [reached] at before
          cases moves with
          | reopens copy member stream shell copies same => omega
          | waits stream phase copies same => omega
          | ends phase => cases phase.symm.trans before.1
          | reads piece phase => cases phase.symm.trans before.1

end Framed

end Session

end SystemsRepository.ToyShell
