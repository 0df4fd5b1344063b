import SystemsRepository.Foundation.Descriptors
import SystemsRepository.Foundation.Execution
import SystemsRepository.ToyShell.Shell

/-! # The descriptors of the shell and of its children

`execute_command` and `pipe_out` with what each process has open, one call a step, in any
order across the processes. What a command does once it has been executed is left out, and
so is which child ends a wait. The offset of a file is no part of a descriptor here: the lines
are those that the shell reads by itself, as if no child moved the offset of its input.
-/

namespace SystemsRepository.ToyShell

open SystemsRepository.Foundation

/-! ## Processes -/

/-- What a descriptor refers to: what the shell was started with, an end of the pipe with
this number, or a file that was opened for a redirection. -/
inductive Channel
  | inherited (descriptor : Nat)
  | readEnd (pipe : Nat)
  | writeEnd (pipe : Nat)
  | file (name : Token) (direction : Direction)
  deriving DecidableEq, Repr

abbrev stdinFileno : Nat := 0

abbrev stdoutFileno : Nat := 1

structure Pipe where
  number : Nat
  readFd : Nat
  writeFd : Nat
  deriving DecidableEq, Repr

inductive Role
  | command
  | first (pipe : Pipe)
  | second (pipe : Pipe)
  deriving DecidableEq, Repr

def Role.channel : Role → Option Channel
  | .command => none
  | .first pipe => some (.writeEnd pipe.number)
  | .second pipe => some (.readEnd pipe.number)

/-- A child of `execute_command` ends where a file cannot be opened. -/
def Role.required : Role → Bool
  | .command => true
  | _ => false

def Redirected.input (redirected : Redirected) : Option Channel :=
  redirected.inputFile.map fun name => .file name .input

def Redirected.output (redirected : Redirected) : Option Channel :=
  redirected.outputFile.map fun name => .file name .output

def Role.connects : Role → List (DescriptorCall Channel)
  | .command => []
  | .first pipe => [.close pipe.readFd, .dup2 pipe.writeFd stdoutFileno, .close pipe.writeFd]
  | .second pipe => [.close pipe.writeFd, .dup2 pipe.readFd stdinFileno, .close pipe.readFd]

/-- The calls of a child up to `execvp`. -/
def Role.script (role : Role) (redirected : Redirected) : List (DescriptorCall Channel) :=
  role.connects ++
    ((redirected.input.toList.map fun file => .reopen stdinFileno file role.required) ++
      (redirected.output.toList.map fun file => .reopen stdoutFileno file role.required))

inductive Progress
  | starting
  | executing
  | ended
  deriving DecidableEq, Repr

/-- `left` are the calls that a child has yet to make. -/
structure Child where
  role : Role
  redirected : Redirected
  table : Descriptors Channel
  left : List (DescriptorCall Channel)
  progress : Progress

/-- The next call of a child, `execvp` behind the last one, or its end. -/
def Child.step (child : Child) (succeeds : Bool) : Option Child :=
  match child.progress, child.left with
  | .starting, call :: left =>
      match child.table.perform call succeeds with
      | none => some { child with progress := .ended }
      | some table => some { child with table, left }
  | .starting, [] =>
      some { child with progress := if succeeds then .executing else .ended }
  | .executing, _ => some { child with progress := .ended }
  | .ended, _ => none

/-- The shell is at its prompt, in `pipe_out` before a call, in a wait, or has left `main`. -/
inductive Stage
  | prompt
  | forkFirst (pipe : Pipe) (first second : Redirected)
  | forkSecond (pipe : Pipe) (second : Redirected)
  | closeRead (pipe : Pipe)
  | closeWrite (pipe : Pipe)
  | waiting
  | exited
  deriving DecidableEq, Repr

/-- `table` is what the shell has open, and `pipes` is how many pipes there have been. -/
structure Processes where
  input : List Char
  stage : Stage
  table : Descriptors Channel
  pipes : Nat
  children : List Child

namespace Processes

def inherited (isOpen : Nat → Bool) : Descriptors Channel := fun descriptor =>
  if isOpen descriptor then some (.inherited descriptor) else none

def start (isOpen : Nat → Bool) (input : List Char) : Processes where
  input
  stage := .prompt
  table := inherited isOpen
  pipes := 0
  children := []

def fork (processes : Processes) (role : Role) (redirected : Redirected) (succeeds : Bool) :
    Processes :=
  if succeeds then
    { processes with
      children := processes.children ++
        [{ role, redirected, table := processes.table, left := role.script redirected,
           progress := .starting }] }
  else processes

/-- `execute_command` up to its wait. -/
def executeCommand (processes : Processes) (tokens : Tokens) (isBackgroundProcess forks : Bool) :
    Option Processes :=
  (redirect tokens).map fun redirected =>
    { processes.fork .command redirected forks with
      stage := if forks && !isBackgroundProcess then .waiting else .prompt }

def piped (processes : Processes) (readFd writeFd : Nat) : Processes :=
  { processes with
    table := Function.update
      (Function.update processes.table readFd (some (.readEnd processes.pipes)))
      writeFd (some (.writeEnd processes.pipes))
    pipes := processes.pipes + 1 }

/-- `pipe_out` up to its first `fork`. Where there is no symbol, it leaves the pipe open. -/
def pipeOut (processes : Processes) (tokens : Tokens) : Option (Nat × Nat) → Option Processes
  | none => some processes
  | some (readFd, writeFd) =>
      if processes.table readFd = none ∧ processes.table writeFd = none ∧ readFd ≠ writeFd then
        (pipeCommands tokens).map fun commands =>
          match commands with
          | none => processes.piped readFd writeFd
          | some (first, second) =>
              { processes.piped readFd writeFd with
                stage := .forkFirst { number := processes.pipes, readFd, writeFd } first second }
      else none

def runLine (processes : Processes) (line : Line) (pipefd : Option (Nat × Nat)) (forks : Bool) :
    Option Processes :=
  match line with
  | .exit => some { processes with stage := .exited }
  | .blank => some processes
  | .foreground tokens => processes.executeCommand tokens false forks
  | .background tokens => processes.executeCommand tokens true forks
  | .piped tokens => processes.pipeOut tokens pipefd

/-- The shell reads a line, and the system says what `pipe` returns and whether a child is
made for a command; `pipe_out` goes on; a wait ends; or a child goes on. -/
inductive Turn
  | line (pipefd : Option (Nat × Nat)) (forks : Bool)
  | fork (succeeds : Bool)
  | close
  | waited
  | child (index : Nat) (succeeds : Bool)
  deriving DecidableEq, Repr

def step (processes : Processes) (turn : Turn) : Option Processes :=
  match turn, processes.stage with
  | .child index succeeds, _ => do
      let child ← processes.children[index]?
      let next ← child.step succeeds
      return { processes with children := processes.children.set index next }
  | .line pipefd forks, .prompt =>
      match Text.fgets '\n' maxBufferSize processes.input with
      | none => some processes
      | some (piece, rest) =>
          (readLine piece).bind fun line =>
            { processes with input := rest }.runLine line pipefd forks
  | .fork succeeds, .forkFirst pipe first second =>
      some { processes.fork (.first pipe) first succeeds with stage := .forkSecond pipe second }
  | .fork succeeds, .forkSecond pipe second =>
      some { processes.fork (.second pipe) second succeeds with stage := .closeRead pipe }
  | .close, .closeRead pipe =>
      some { processes with
        table := Function.update processes.table pipe.readFd none
        stage := .closeWrite pipe }
  | .close, .closeWrite pipe =>
      some { processes with
        table := Function.update processes.table pipe.writeFd none
        stage := .waiting }
  | .waited, .waiting => some { processes with stage := .prompt }
  | _, _ => none

def machine : Machine Processes Turn where
  execute turn processes := processes.step turn

end Processes

/-! ## A child -/

open Descriptors (Leaves Opened)

section Children

variable {initial table final : Descriptors Channel} {pipe : Pipe} {redirected : Redirected}

structure Pipe.Fits (pipe : Pipe) (initial : Descriptors Channel) : Prop where
  readFree : initial pipe.readFd = none
  writeFree : initial pipe.writeFd = none
  different : pipe.readFd ≠ pipe.writeFd

def Pipe.opened (pipe : Pipe) (initial : Descriptors Channel) : Descriptors Channel :=
  Function.update (Function.update initial pipe.readFd (some (.readEnd pipe.number)))
    pipe.writeFd (some (.writeEnd pipe.number))

def Role.origin (initial : Descriptors Channel) : Role → Descriptors Channel
  | .command => initial
  | .first pipe => pipe.opened initial
  | .second pipe => pipe.opened initial

def Role.Fits (initial : Descriptors Channel) : Role → Prop
  | .command => True
  | .first pipe => pipe.Fits initial
  | .second pipe => pipe.Fits initial

def Role.stdin (initial : Descriptors Channel) : Role → Option Channel
  | .command => initial stdinFileno
  | .first _ => initial stdinFileno
  | .second pipe => some (.readEnd pipe.number)

def Role.stdout (initial : Descriptors Channel) : Role → Option Channel
  | .command => initial stdoutFileno
  | .first pipe => some (.writeEnd pipe.number)
  | .second _ => initial stdoutFileno

/-- What a command has open when it is executed: its own input and output, and for the rest
what the shell had. -/
def Connected (initial : Descriptors Channel) (role : Role) (redirected : Redirected)
    (table : Descriptors Channel) : Prop :=
  ∃ stdin stdout, Opened redirected.input role.required (role.stdin initial) stdin ∧
    Opened redirected.output role.required (role.stdout initial) stdout ∧
      table = Function.update (Function.update initial stdinFileno stdin) stdoutFileno stdout

private theorem Pipe.Fits.read_ne (fits : pipe.Fits initial) {fd : Nat}
    (isOpen : initial fd ≠ none) : fd ≠ pipe.readFd := by
  rintro rfl
  exact isOpen fits.readFree

private theorem Pipe.Fits.write_ne (fits : pipe.Fits initial) {fd : Nat}
    (isOpen : initial fd ≠ none) : fd ≠ pipe.writeFd := by
  rintro rfl
  exact isOpen fits.writeFree

theorem Pipe.Fits.closed (fits : pipe.Fits initial) :
    Function.update (Function.update (pipe.opened initial) pipe.readFd none) pipe.writeFd none =
      initial := by
  funext fd
  by_cases writes : fd = pipe.writeFd
  · rw [writes, Function.update_self, fits.writeFree]
  · rw [Function.update_of_ne writes]
    by_cases reads : fd = pipe.readFd
    · rw [reads, Function.update_self, fits.readFree]
    · rw [Function.update_of_ne reads, Pipe.opened, Function.update_of_ne writes,
        Function.update_of_ne reads]

/-- A child of `pipe_out` has its end of the pipe in place of its input or output, and no
other end. -/
theorem Role.connects_leaves {role : Role} (fits : role.Fits initial)
    (stdin : initial stdinFileno ≠ none) (stdout : initial stdoutFileno ≠ none)
    {calls : List (DescriptorCall Channel)} :
    Leaves (role.connects ++ calls) (role.origin initial) final ↔
      Leaves calls (Function.update (Function.update initial stdinFileno (role.stdin initial))
        stdoutFileno (role.stdout initial)) final := by
  cases role with
  | command =>
      rw [Role.connects, List.nil_append, Role.origin, Role.stdin, Role.stdout,
        Function.update_eq_self, Function.update_eq_self]
  | first pipe =>
      have writes : Function.update (pipe.opened initial) pipe.readFd none pipe.writeFd =
          some (.writeEnd pipe.number) := by
        rw [Function.update_of_ne (Ne.symm fits.different), Pipe.opened, Function.update_self]
      rw [Role.connects, List.cons_append, List.cons_append, List.cons_append, List.nil_append,
        Role.origin, Descriptors.leaves_close, Descriptors.leaves_dup2 writes,
        Descriptors.leaves_close,
        Function.update_comm (fits.write_ne stdout), fits.closed, Role.stdin, Role.stdout,
        Function.update_eq_self]
  | second pipe =>
      have reads : Function.update (pipe.opened initial) pipe.writeFd none pipe.readFd =
          some (.readEnd pipe.number) := by
        rw [Function.update_of_ne fits.different, Pipe.opened,
          Function.update_of_ne fits.different, Function.update_self]
      rw [Role.connects, List.cons_append, List.cons_append, List.cons_append, List.nil_append,
        Role.origin, Descriptors.leaves_close, Descriptors.leaves_dup2 reads,
        Descriptors.leaves_close, Function.update_comm (fits.read_ne stdin),
        Function.update_comm (Ne.symm fits.different), fits.closed, Role.stdin, Role.stdout]
      have out : Function.update initial stdinFileno (some (.readEnd pipe.number)) stdoutFileno =
          initial stdoutFileno := Function.update_of_ne (by decide) _ _
      rw [← out, Function.update_eq_self]

private theorem Role.script_leaves {role : Role} (fits : role.Fits initial)
    (stdin : initial stdinFileno ≠ none) (stdout : initial stdoutFileno ≠ none)
    (leaves : Leaves (role.script redirected) (role.origin initial) final) :
    Connected initial role redirected final := by
  rw [Role.script, role.connects_leaves fits stdin stdout] at leaves
  rcases Descriptors.leaves_reopen.mp leaves with ⟨input, opened, leaves⟩
  rw [← List.append_nil (List.map _ redirected.output.toList)] at leaves
  rcases Descriptors.leaves_reopen.mp leaves with ⟨output, alsoOpened, same⟩
  refine ⟨input, output, ?_, ?_, ?_⟩
  · rw [Function.update_of_ne (by decide), Function.update_self] at opened
    exact opened
  · rw [Function.update_of_ne (by decide), Function.update_self] at alsoOpened
    exact alsoOpened
  · have apart : stdoutFileno ≠ stdinFileno := by decide
    rw [Descriptors.leaves_nil.mp same, Function.update_comm apart, Function.update_idem,
      Function.update_idem]

def Channel.place : Channel → Option Nat
  | .inherited _ => none
  | .readEnd _ => some stdinFileno
  | .writeEnd _ => some stdoutFileno
  | .file _ _ => none

private theorem Redirected.place_input {file : Channel} (isInput : redirected.input = some file) :
    file.place = none := by
  rcases Option.map_eq_some_iff.mp isInput with ⟨name, _, rfl⟩
  rfl

private theorem Redirected.place_output {file : Channel}
    (isOutput : redirected.output = some file) : file.place = none := by
  rcases Option.map_eq_some_iff.mp isOutput with ⟨name, _, rfl⟩
  rfl

private theorem opened_end {file before after : Option Channel} {required : Bool}
    {channel : Channel} {fd : Nat} (opened : Opened file required before after)
    (isFile : ∀ {named}, file = some named → named.place = none)
    (isEnd : channel.place = some fd) (same : after = some channel) : before = some channel := by
  cases file with
  | none => exact Eq.trans (Eq.symm opened) same
  | some named =>
      have other := @isFile named rfl
      rcases opened with isNamed | ⟨_, isNone⟩
      · cases isNamed.symm.trans same
        rw [isEnd] at other
        cases other
      · cases isNone.symm.trans same

/-- An end of a pipe is open in the command that it is meant for, as its input or output. -/
theorem Connected.channel {role : Role} (connected : Connected initial role redirected table)
    (noEnd : ∀ {fd channel}, initial fd = some channel → channel.place = none)
    {fd place : Nat} {channel : Channel} (has : table fd = some channel)
    (isEnd : channel.place = some place) : role.channel = some channel ∧ fd = place := by
  have absurdEnd : ∀ {other}, initial other = some channel → False := by
    intro other inherited
    have none := noEnd inherited
    rw [isEnd] at none
    cases none
  rcases connected with ⟨stdin, stdout, input, output, rfl⟩
  by_cases out : fd = stdoutFileno
  · rw [out, Function.update_self] at has
    have given := opened_end output Redirected.place_output isEnd has
    cases role with
    | command => exact (absurdEnd given).elim
    | second pipe => exact (absurdEnd given).elim
    | first pipe =>
        cases given
        cases isEnd
        exact ⟨rfl, out⟩
  · rw [Function.update_of_ne out] at has
    by_cases into : fd = stdinFileno
    · rw [into, Function.update_self] at has
      have given := opened_end input Redirected.place_input isEnd has
      cases role with
      | command => exact (absurdEnd given).elim
      | first pipe => exact (absurdEnd given).elim
      | second pipe =>
          cases given
          cases isEnd
          exact ⟨rfl, into⟩
    · rw [Function.update_of_ne into] at has
      exact (absurdEnd has).elim

end Children

/-! ## The invariant -/

structure Child.Sound (initial : Descriptors Channel) (child : Child) : Prop where
  fits : child.role.Fits initial
  script : child.progress ≠ .ended → ∀ final, Leaves child.left child.table final →
    Leaves (child.role.script child.redirected) (child.role.origin initial) final
  executing : child.progress = .executing → child.left = []

theorem Child.Sound.step {initial : Descriptors Channel} {child next : Child} {succeeds : Bool}
    (sound : child.Sound initial) (stepped : child.step succeeds = some next) :
    next.Sound initial ∧ next.role = child.role := by
  rw [Child.step] at stepped
  split at stepped
  next call left progress isLeft =>
    split at stepped
    next =>
      cases stepped
      exact ⟨⟨sound.fits, fun running => absurd rfl running, fun running => by cases running⟩, rfl⟩
    next table performed =>
      cases stepped
      refine ⟨⟨sound.fits, ?_, ?_⟩, rfl⟩
      · intro running final leaves
        apply sound.script running
        rw [isLeft]
        exact ⟨succeeds, table, performed, leaves⟩
      · intro executing
        rw [progress] at executing
        cases executing
  next progress isLeft =>
    cases stepped
    refine ⟨⟨sound.fits, ?_, fun _ => isLeft⟩, rfl⟩
    intro _
    exact sound.script (by rw [progress]; intro same; cases same)
  next left progress =>
    cases stepped
    exact ⟨⟨sound.fits, fun running => absurd rfl running, fun running => by cases running⟩, rfl⟩
  next => cases stepped

/-- The children have ends of pipes that there have been, and no two are meant for the same
end. -/
structure Family (initial : Descriptors Channel) (pipes : Nat) (children : List Child) : Prop where
  sound : ∀ child ∈ children, child.Sound initial
  known : ∀ child ∈ children, ∀ number, pipes ≤ number →
    child.role.channel ≠ some (.readEnd number) ∧ child.role.channel ≠ some (.writeEnd number)
  alone : ∀ {index other : Nat} {child sibling : Child} {channel : Channel},
    children[index]? = some child → children[other]? = some sibling →
      child.role.channel = some channel → sibling.role.channel = some channel → index = other

namespace Family

variable {initial : Descriptors Channel} {pipes : Nat} {children : List Child}

theorem empty : Family initial 0 [] where
  sound := by simp
  known := by simp
  alone := by simp

theorem mono (family : Family initial pipes children) : Family initial (pipes + 1) children where
  sound := family.sound
  known := fun child member number beyond => family.known child member number (by omega)
  alone := family.alone

private theorem add (family : Family initial pipes children) {child : Child}
    (sound : child.Sound initial) (known : ∀ number, pipes ≤ number →
      child.role.channel ≠ some (.readEnd number) ∧ child.role.channel ≠ some (.writeEnd number))
    (fresh : ∀ sibling ∈ children, ∀ channel, child.role.channel = some channel →
      sibling.role.channel ≠ some channel) :
    Family initial pipes (children ++ [child]) where
  sound := by
    intro other member
    rcases List.mem_append.mp member with old | new
    · exact family.sound other old
    · rw [List.mem_singleton.mp new]
      exact sound
  known := by
    intro other member
    rcases List.mem_append.mp member with old | new
    · exact family.known other old
    · rw [List.mem_singleton.mp new]
      exact known
  alone := by
    have placed : ∀ {index : Nat} {found : Child}, (children ++ [child])[index]? = some found →
        children[index]? = some found ∨ index = children.length ∧ found = child := by
      intro index found here
      rw [List.getElem?_append] at here
      split at here
      next => exact .inl here
      next behind =>
        have isLast := List.getElem?_eq_some_iff.mp here
        rcases isLast with ⟨inside, rfl⟩
        rw [List.length_singleton] at inside
        exact .inr ⟨by omega, by simp⟩
    intro index other first second channel here there meant also
    rcases placed here with old | ⟨last, rfl⟩ <;> rcases placed there with older | ⟨lastToo, rfl⟩
    · exact family.alone old older meant also
    · exact absurd meant (fresh first (List.mem_of_getElem? old) channel also)
    · exact absurd also (fresh second (List.mem_of_getElem? older) channel meant)
    · rw [last, lastToo]

theorem step (family : Family initial pipes children) {index : Nat} {child next : Child}
    {succeeds : Bool} (here : children[index]? = some child)
    (stepped : child.step succeeds = some next) :
    Family initial pipes (children.set index next) := by
  have member := List.mem_of_getElem? here
  rcases (family.sound child member).step stepped with ⟨sound, role⟩
  have placed : ∀ {other : Nat} {found : Child}, (children.set index next)[other]? = some found →
      ∃ before, children[other]? = some before ∧ found.role = before.role := by
    intro other found there
    by_cases same : other = index
    · rw [same, List.getElem?_set_self (List.getElem?_eq_some_iff.mp here).1] at there
      cases there
      exact ⟨child, by rw [same, here], role⟩
    · rw [List.getElem?_set_ne (Ne.symm same)] at there
      exact ⟨found, there, rfl⟩
  refine ⟨?_, ?_, ?_⟩
  · intro other isMember
    rcases List.mem_or_eq_of_mem_set isMember with old | rfl
    · exact family.sound other old
    · exact sound
  · intro other isMember
    rcases List.mem_or_eq_of_mem_set isMember with old | rfl
    · exact family.known other old
    · rw [role]
      exact family.known child member
  · intro first second one two channel isFirst isSecond meant also
    rcases placed isFirst with ⟨before, there, same⟩
    rcases placed isSecond with ⟨earlier, thereToo, sameToo⟩
    rw [same] at meant
    rw [sameToo] at also
    exact family.alone there thereToo meant also

end Family

def Stage.table (initial : Descriptors Channel) : Stage → Descriptors Channel
  | .prompt => initial
  | .forkFirst pipe _ _ => pipe.opened initial
  | .forkSecond pipe _ => pipe.opened initial
  | .closeRead pipe => pipe.opened initial
  | .closeWrite pipe => Function.update (pipe.opened initial) pipe.readFd none
  | .waiting => initial
  | .exited => initial

def Stage.pipe? : Stage → Option Pipe
  | .forkFirst pipe _ _ => some pipe
  | .forkSecond pipe _ => some pipe
  | .closeRead pipe => some pipe
  | .closeWrite pipe => some pipe
  | _ => none

def Stage.pending : Stage → List Channel
  | .forkFirst pipe _ _ => [.writeEnd pipe.number, .readEnd pipe.number]
  | .forkSecond pipe _ => [.readEnd pipe.number]
  | _ => []

namespace Processes

structure Plumbed (initial : Descriptors Channel) (processes : Processes) : Prop where
  table : processes.table = processes.stage.table initial
  fits : ∀ pipe ∈ processes.stage.pipe?, pipe.Fits initial ∧ pipe.number < processes.pipes
  family : Family initial processes.pipes processes.children
  fresh : ∀ channel ∈ processes.stage.pending, ∀ child ∈ processes.children,
    child.role.channel ≠ some channel

private theorem pipeCommands_of_piped {input : List Char} {tokens : Tokens}
    (piped : readLine input = some (.piped tokens)) :
    ∃ first second, pipeCommands tokens = some (some (first, second)) := by
  rcases readLine_eq input with ⟨words, behind, background, _, read⟩
  rw [read, Option.some.injEq] at piped
  split at piped
  next => cases piped
  next =>
    split at piped
    next => cases piped
    next =>
      split at piped
      next member =>
        cases piped
        rcases List.eq_append_cons_of_mem member with ⟨before, after, split, absent⟩
        rcases @pipeCommands_eq before after behind absent with ⟨first, second, taken, _⟩
        exact ⟨first, second, by rw [split, taken]⟩
      next => split at piped <;> cases piped

namespace Plumbed

variable {initial : Descriptors Channel} {processes next : Processes}

private theorem ofQuiet (quiet : processes.stage = .prompt ∨ processes.stage = .waiting ∨
    processes.stage = .exited) (table : processes.table = initial)
    (family : Family initial processes.pipes processes.children) : Plumbed initial processes := by
  rcases quiet with stage | stage | stage
  · exact ⟨by rw [table, stage]; rfl, by simp [stage, Stage.pipe?], family,
      by simp [stage, Stage.pending]⟩
  · exact ⟨by rw [table, stage]; rfl, by simp [stage, Stage.pipe?], family,
      by simp [stage, Stage.pending]⟩
  · exact ⟨by rw [table, stage]; rfl, by simp [stage, Stage.pipe?], family,
      by simp [stage, Stage.pending]⟩

theorem ofStart (isOpen : Nat → Bool) (input : List Char) :
    Plumbed (inherited isOpen) (start isOpen input) :=
  ofQuiet (.inl rfl) rfl .empty

private theorem fork_family (plumbed : Plumbed initial processes) (role : Role)
    (fits : role.Fits initial) (origin : role.origin initial = processes.table)
    (known : ∀ number, processes.pipes ≤ number →
      role.channel ≠ some (.readEnd number) ∧ role.channel ≠ some (.writeEnd number))
    (meant : ∀ channel, role.channel = some channel → channel ∈ processes.stage.pending)
    (redirected : Redirected) (succeeds : Bool) :
    Family initial processes.pipes (processes.fork role redirected succeeds).children := by
  cases succeeds with
  | false => exact plumbed.family
  | true =>
      refine plumbed.family.add ⟨fits, ?_, fun running => by cases running⟩ known ?_
      · intro _ final leaves
        rw [origin]
        exact leaves
      · intro sibling member channel own
        exact plumbed.fresh channel (meant channel own) sibling member

private theorem fork_fresh {role : Role} {redirected : Redirected} {succeeds : Bool}
    {channel : Channel} (fresh : ∀ child ∈ processes.children, child.role.channel ≠ some channel)
    (other : role.channel ≠ some channel) :
    ∀ child ∈ (processes.fork role redirected succeeds).children,
      child.role.channel ≠ some channel := by
  cases succeeds with
  | false => exact fresh
  | true =>
      intro child member
      rcases List.mem_append.mp member with old | new
      · exact fresh child old
      · rw [List.mem_singleton.mp new]
        exact other

theorem executeCommand (plumbed : Plumbed initial processes) (prompt : processes.stage = .prompt)
    {tokens : Tokens} {isBackgroundProcess forks : Bool}
    (done : processes.executeCommand tokens isBackgroundProcess forks = some next) :
    Plumbed initial next := by
  rcases Option.map_eq_some_iff.mp done with ⟨redirected, _, rfl⟩
  have table : processes.table = initial := by rw [plumbed.table, prompt]; rfl
  have family := plumbed.fork_family .command trivial table.symm
    (by simp [Role.channel]) (by simp [Role.channel]) redirected forks
  have same : (processes.fork .command redirected forks).table = initial := by
    cases forks <;> exact table
  have pipes : (processes.fork .command redirected forks).pipes = processes.pipes := by
    cases forks <;> rfl
  rw [← pipes] at family
  refine ofQuiet ?_ same family
  cases waits : forks && !isBackgroundProcess with
  | false => exact .inl rfl
  | true => exact .inr (.inl rfl)

theorem pipeOut (plumbed : Plumbed initial processes) (prompt : processes.stage = .prompt)
    {tokens : Tokens} {pipefd : Option (Nat × Nat)} {first second : Redirected}
    (commands : pipeCommands tokens = some (some (first, second)))
    (done : processes.pipeOut tokens pipefd = some next) : Plumbed initial next := by
  have table : processes.table = initial := by rw [plumbed.table, prompt]; rfl
  rcases pipefd with _ | ⟨readFd, writeFd⟩
  · cases done
    exact plumbed
  · rw [Processes.pipeOut] at done
    split at done
    next free =>
      rw [commands] at done
      cases done
      rw [table] at free
      refine ⟨?_, ?_, plumbed.family.mono, ?_⟩
      · rw [Processes.piped, table]
        rfl
      · intro pipe named
        cases named
        exact ⟨⟨free.1, free.2.1, free.2.2⟩, Nat.lt_succ_self _⟩
      · intro channel pending child member
        have known := plumbed.family.known child member processes.pipes (Nat.le_refl _)
        simp only [Stage.pending, List.mem_cons, List.not_mem_nil, or_false] at pending
        rcases pending with rfl | rfl
        · exact known.2
        · exact known.1
    next => cases done

theorem runLine (plumbed : Plumbed initial processes) (prompt : processes.stage = .prompt)
    {input : List Char} {line : Line} (read : readLine input = some line)
    {pipefd : Option (Nat × Nat)} {forks : Bool}
    (done : processes.runLine line pipefd forks = some next) : Plumbed initial next := by
  cases line with
  | exit =>
      cases done
      exact ofQuiet (.inr (.inr rfl)) (by rw [plumbed.table, prompt]; rfl) plumbed.family
  | blank =>
      cases done
      exact plumbed
  | foreground tokens => exact plumbed.executeCommand prompt done
  | background tokens => exact plumbed.executeCommand prompt done
  | piped tokens =>
      rcases pipeCommands_of_piped read with ⟨first, second, commands⟩
      exact plumbed.pipeOut prompt commands done

private theorem forkFirst (plumbed : Plumbed initial processes) {pipe : Pipe}
    {first second : Redirected}
    (stage : processes.stage = .forkFirst pipe first second) (succeeds : Bool) :
    Plumbed initial { processes.fork (.first pipe) first succeeds with
      stage := .forkSecond pipe second } := by
  rcases plumbed.fits pipe (by rw [stage]; rfl) with ⟨fits, numbered⟩
  have table := plumbed.table
  rw [stage] at table
  have family := plumbed.fork_family (.first pipe) fits table.symm
    (fun number beyond => ⟨by simp [Role.channel], by simp [Role.channel]; omega⟩)
    (by simp [Role.channel, stage, Stage.pending]) first succeeds
  have same : (processes.fork (.first pipe) first succeeds).table = processes.table := by
    cases succeeds <;> rfl
  have pipes : (processes.fork (.first pipe) first succeeds).pipes = processes.pipes := by
    cases succeeds <;> rfl
  rw [← pipes] at family numbered
  refine ⟨same.trans table, ?_, family, ?_⟩
  · intro named isNamed
    cases isNamed
    exact ⟨fits, numbered⟩
  · intro channel pending
    rw [List.mem_singleton.mp pending]
    exact fork_fresh (plumbed.fresh _ (by simp [stage, Stage.pending])) (by simp [Role.channel])

private theorem forkSecond (plumbed : Plumbed initial processes) {pipe : Pipe} {second : Redirected}
    (stage : processes.stage = .forkSecond pipe second) (succeeds : Bool) :
    Plumbed initial { processes.fork (.second pipe) second succeeds with
      stage := .closeRead pipe } := by
  rcases plumbed.fits pipe (by rw [stage]; rfl) with ⟨fits, numbered⟩
  have table := plumbed.table
  rw [stage] at table
  have family := plumbed.fork_family (.second pipe) fits table.symm
    (fun number beyond => ⟨by simp [Role.channel]; omega, by simp [Role.channel]⟩)
    (by simp [Role.channel, stage, Stage.pending]) second succeeds
  have same : (processes.fork (.second pipe) second succeeds).table = processes.table := by
    cases succeeds <;> rfl
  have pipes : (processes.fork (.second pipe) second succeeds).pipes = processes.pipes := by
    cases succeeds <;> rfl
  rw [← pipes] at family numbered
  refine ⟨same.trans table, ?_, family, fun channel pending => by cases pending⟩
  intro named isNamed
  cases isNamed
  exact ⟨fits, numbered⟩

theorem step (plumbed : Plumbed initial processes) {turn : Turn}
    (stepped : processes.step turn = some next) : Plumbed initial next := by
  rw [Processes.step.eq_def] at stepped
  split at stepped
  next index succeeds _ =>
    rcases Option.bind_eq_some_iff.mp stepped with ⟨child, here, rest⟩
    rcases Option.bind_eq_some_iff.mp rest with ⟨after, moved, done⟩
    cases done
    refine ⟨plumbed.table, plumbed.fits, plumbed.family.step here moved, ?_⟩
    intro channel pending other member
    rcases List.mem_or_eq_of_mem_set member with old | rfl
    · exact plumbed.fresh channel pending other old
    · have before := List.mem_of_getElem? here
      rw [((plumbed.family.sound child before).step moved).2]
      exact plumbed.fresh channel pending child before
  next pipefd forks prompt =>
    split at stepped
    next =>
      cases stepped
      exact plumbed
    next piece rest _ =>
      rcases Option.bind_eq_some_iff.mp stepped with ⟨line, read, done⟩
      have same : Plumbed initial { processes with input := rest } :=
        ⟨plumbed.table, plumbed.fits, plumbed.family, plumbed.fresh⟩
      exact same.runLine prompt read done
  next succeeds pipe first second stage =>
    cases stepped
    exact plumbed.forkFirst stage succeeds
  next succeeds pipe second stage =>
    cases stepped
    exact plumbed.forkSecond stage succeeds
  next pipe stage =>
    cases stepped
    have table := plumbed.table
    have fits := plumbed.fits pipe (by rw [stage]; rfl)
    rw [stage] at table
    refine ⟨by rw [table]; rfl, ?_, plumbed.family, fun channel pending => by cases pending⟩
    intro named isNamed
    cases isNamed
    exact fits
  next pipe stage =>
    cases stepped
    have table := plumbed.table
    have fits := plumbed.fits pipe (by rw [stage]; rfl)
    rw [stage] at table
    refine ofQuiet (.inr (.inl rfl)) ?_ plumbed.family
    rw [table]
    exact fits.1.closed
  next stage =>
    cases stepped
    have table := plumbed.table
    rw [stage] at table
    exact ofQuiet (.inl rfl) table plumbed.family
  next => cases stepped

end Plumbed

end Processes

/-! ## Runs -/

open Processes in
/-- In every run, whatever the lines are and however the processes take turns: the shell has
what it started with whenever it is at its prompt or in a wait. A command that is executed has
its own input and output, and for the rest what the shell started with. An end of a pipe is
open in one command at most, as the output of the one that writes or the input of the one that
reads. -/
theorem descriptors_plumbed {isOpen : Nat → Bool} (stdin : isOpen stdinFileno)
    (stdout : isOpen stdoutFileno) {input : List Char} {turns : List Turn} {final : Processes}
    (ran : Processes.machine.run turns (start isOpen input) = some final) :
    (final.stage = .prompt ∨ final.stage = .waiting ∨ final.stage = .exited →
      final.table = inherited isOpen) ∧
    (∀ child ∈ final.children, child.progress = .executing →
      Connected (inherited isOpen) child.role child.redirected child.table) ∧
    (∀ (index other : Nat) (child sibling : Child) (channel : Channel) (fd place number : Nat),
      final.children[index]? = some child → child.progress = .executing →
      final.children[other]? = some sibling → sibling.progress = .executing →
      channel.place = some place → child.table fd = some channel →
      sibling.table number = some channel → index = other ∧ fd = place ∧ number = place) := by
  have plumbed : Plumbed (inherited isOpen) final := by
    refine @Machine.run_induction _ _ Processes.machine _
      (fun _ processes => Plumbed (inherited isOpen) processes) (.ofStart isOpen input) ?_ _ _ ran
    intro calls processes turn next plumbed executed
    exact plumbed.step executed
  have connected : ∀ child ∈ final.children, child.progress = .executing →
      Connected (inherited isOpen) child.role child.redirected child.table := by
    intro child member executing
    have sound := plumbed.family.sound child member
    apply Role.script_leaves sound.fits
    · rw [inherited, if_pos stdin]
      intro none
      cases none
    · rw [inherited, if_pos stdout]
      intro none
      cases none
    · apply sound.script
      · rw [executing]
        intro same
        cases same
      · rw [sound.executing executing]
        rfl
  have noEnd : ∀ {fd channel}, inherited isOpen fd = some channel → channel.place = none := by
    intro fd channel inherits
    rw [inherited] at inherits
    split at inherits
    next =>
      cases inherits
      rfl
    next => cases inherits
  refine ⟨?_, connected, ?_⟩
  · have table := plumbed.table
    rintro (stage | stage | stage)
    all_goals
      rw [stage] at table
      exact table
  · intro index other child sibling channel fd place number here runs there alsoRuns isEnd has also
    rcases (connected child (List.mem_of_getElem? here) runs).channel noEnd has isEnd with
      ⟨meant, isPlace⟩
    rcases (connected sibling (List.mem_of_getElem? there) alsoRuns).channel noEnd also isEnd with
      ⟨alsoMeant, alsoPlace⟩
    exact ⟨plumbed.family.alone here there meant alsoMeant, isPlace, alsoPlace⟩

def pipeTurns : List Processes.Turn :=
  [.line (some (3, 4)) true, .fork true, .child 0 true, .fork true, .child 1 true, .child 0 true,
    .close, .child 0 true, .child 1 true, .child 0 true, .close, .child 1 true, .child 1 true,
    .child 1 true]

theorem descriptors_plumbed_of_pipe :
    ∃ final child, Processes.machine.run pipeTurns
        (.start (fun fd => fd < 3) "ls | wc > n\n".toList) = some final ∧
      final.table = Processes.inherited (fun fd => fd < 3) ∧
      final.children[1]? = some child ∧ child.table 4 = none ∧
      child.table stdinFileno = some (.readEnd 0) ∧
      child.table stdoutFileno = some (.file ['n'] .output) := by
  have ends : (Processes.machine.run pipeTurns
      (.start (fun fd => fd < 3) "ls | wc > n\n".toList)).map (fun final =>
        (final.stage, final.children[1]?.map fun child =>
          (child.table 4, child.table stdinFileno, child.table stdoutFileno))) =
      some (.waiting, some (none, some (.readEnd 0), some (.file ['n'] .output))) := by
    decide +kernel
  rcases Option.map_eq_some_iff.mp ends with ⟨final, ran, same⟩
  rcases Option.map_eq_some_iff.mp (congrArg Prod.snd same) with ⟨child, here, tables⟩
  have stage : final.stage = .waiting := congrArg Prod.fst same
  refine ⟨final, child, ran, ?_, here, congrArg Prod.fst tables,
    congrArg (fun pair => pair.2.1) tables, congrArg (fun pair => pair.2.2) tables⟩
  exact (@descriptors_plumbed (fun fd => fd < 3) rfl rfl _ _ _ ran).1 (.inr (.inl stage))

end SystemsRepository.ToyShell
