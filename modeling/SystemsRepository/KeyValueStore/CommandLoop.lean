import SystemsRepository.KeyValueStore.Handlers

/-! # The command loop

How `main` cuts an input line into a command, and which files its commands can
produce.
-/

namespace SystemsRepository.KeyValueStore

open SystemsRepository.Foundation

def isSpace (char : Char) : Bool := char == ' '

abbrev inputSize : Nat := 700

inductive Command
  | put (key value : CString)
  | get (key : CString)
  | delete (key : CString)
  | list
  | update (key value : CString)
  deriving DecidableEq, Repr

/-- What the loop does with one input line. -/
inductive Input
  | exit
  | blank
  | command (command : Command)
  | invalid (error : List Char)
  | help
  | unknown (word : CString)
  deriving DecidableEq, Repr

def oneArgument (text : CString) : Option CString :=
  match Text.strtok isSpace text with
  | none => none
  | some (key, rest) =>
      match Text.strtok isSpace rest with
      | none => some key
      | some _ => none

def twoArguments (text : CString) : Option (CString × CString) :=
  match Text.strtok isSpace text with
  | none => none
  | some (key, rest) => (oneArgument rest).map fun value => (key, value)

def dispatch (word rest : CString) : Input :=
  if word = ['P', 'U', 'T'] then
    match twoArguments rest with
    | some (key, value) => .command (.put key value)
    | none => .invalid "INVALID PUT FORMAT!".toList
  else if word = ['G', 'E', 'T'] then
    match oneArgument rest with
    | some key => .command (.get key)
    | none => .invalid "INVALID GET FORMAT!".toList
  else if word = ['D', 'E', 'L', 'E', 'T', 'E'] then
    match oneArgument rest with
    | some key => .command (.delete key)
    | none => .invalid "INVALID DELETE FORMAT!".toList
  else if word = ['L', 'I', 'S', 'T'] then .command .list
  else if word = ['U', 'P', 'D', 'A', 'T', 'E'] then
    match twoArguments rest with
    | some (key, value) => .command (.update key value)
    | none => .invalid "INVALID UPDATE FORMAT!".toList
  else if word = ['h', 'e', 'l', 'p'] ∨ word = ['H', 'E', 'L', 'P'] then .help
  else .unknown word

/-- One round of the loop, from what `fgets` stored in `input`. -/
def parseLine (input : List Char) : Input :=
  let input := chomp input
  if input = ['e', 'x', 'i', 't'] then .exit
  else
    match Text.strtok isSpace input with
    | none => .blank
    | some (word, rest) => dispatch word rest

def runCommand (ops : FileOps) (files : Files) : Command → Files
  | .put key value => (handlePut ops (some key) (some value) files).2
  | .get _ => files
  | .delete key => (handleDelete ops key files).2
  | .list => files
  | .update key value => (handleUpdate ops key value files).2

/-- The loop dispatches this command for some content of its input buffer. -/
def Command.Admitted (command : Command) : Prop :=
  ∃ input : List Char, input.length < inputSize ∧ parseLine input = .command command

/-- Files that the loop can produce from an absent store, when each command and
the outcomes of its file operations satisfy `permitted`. -/
inductive Reachable (permitted : FileOps → Command → Prop) : Files → Prop
  | absent (temp : Option (List Char)) : Reachable permitted { store := none, temp }
  | run {files : Files} {ops : FileOps} {command : Command} :
      Reachable permitted files → command.Admitted → permitted ops command →
      Reachable permitted (runCommand ops files command)

/-- Every file operation succeeds. -/
def Succeeding (ops : FileOps) (_ : Command) : Prop := ops = FileOps.allSucceed

end SystemsRepository.KeyValueStore
