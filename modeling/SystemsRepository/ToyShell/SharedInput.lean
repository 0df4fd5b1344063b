import SystemsRepository.Foundation.Buffering
import SystemsRepository.ToyShell.Shell

/-! # The standard input that the shell shares with its children

A child has a copy of the stream of `main`, and both refer to one file with one offset. Where
`freopen` gives the child another input, it first moves that offset back to where the copy
stands, if the file can be sought: what the stream of `main` has in its buffer is then read from
the file once more. Programs that have been executed are taken to leave the input of the shell
alone.
-/

namespace SystemsRepository.ToyShell

open SystemsRepository.Foundation
open Relation (ReflTransGen)

/-- A pipe or a terminal cannot be sought. -/
structure Stdin extends Text.Source Char where
  seekable : Bool

/-- For this content of the buffer the child, or the first of the two, reopens `stdin`. What the
second one reopens is the end of the pipe. -/
def reopens (input : List Char) : Bool :=
  match readLine input with
  | some (.foreground tokens) | some (.background tokens) =>
      (redirect tokens).any fun command => command.inputFile.isSome
  | some (.piped tokens) =>
      match pipeCommands tokens with
      | some (some (first, _)) => first.inputFile.isSome
      | _ => false
  | _ => false

/-- `copies` has the children that are yet to reopen `stdin`, each with the position of its copy
of the stream. `rounds` counts the rounds of the loop in `main`, and `handled` has the contents of
its buffer. -/
structure Session where
  shell : Shell
  stream : Text.Buffered Char
  copies : List (Nat × Nat)
  rounds : Nat
  handled : List (List Char)
  deriving DecidableEq, Repr

inductive Turn
  | system (event : Shell.Event)
  | reopens (pid : Nat)
  deriving DecidableEq, Repr

namespace Session

def start : Session where
  shell := .start []
  stream := { unread := [], offset := 0 }
  copies := []
  rounds := 0
  handled := []

/-- Children that have just been forked. -/
def forked (before after : Shell) (pid : Option Nat) : List Nat :=
  pid.toList.filter fun pid =>
    { pid, running := true } ∈ after.children ∧ ∀ child ∈ before.children, child.pid ≠ pid

def step (stdin : Stdin) (session : Session) : Turn → Option Session
  | .reopens pid =>
      match session.copies.find? fun copy => copy.1 = pid with
      | none => none
      | some copy =>
          some { session with
            stream :=
              if stdin.seekable then { session.stream with offset := copy.2 } else session.stream
            copies := session.copies.filter fun copy => copy.1 ≠ pid }
  | .system event => do
      let before := { session.shell with input := stdin.remaining session.stream }
      let shell ← before.step event
      match event with
      | .line _ first _ =>
          match stdin.fgets '\n' maxBufferSize session.stream with
          | none => return { session with shell, rounds := session.rounds + 1 }
          | some (piece, stream) =>
              let reopening := if reopens piece then forked before shell first else []
              return {
                shell, stream
                copies := reopening.map (fun pid => (pid, stream.position)) ++ session.copies
                rounds := session.rounds + 1
                handled :=
                  if shell.phase = .exited then session.handled else session.handled ++ [piece] }
      | .exits pid =>
          return { session with
            shell, copies := session.copies.filter fun copy => copy.1 ≠ pid }
      | _ => return { session with shell }

def Step (stdin : Stdin) (session next : Session) : Prop :=
  ∃ turn, session.step stdin turn = some next

def Reachable (stdin : Stdin) (session : Session) : Prop := ReflTransGen (Step stdin) start session

end Session

end SystemsRepository.ToyShell
