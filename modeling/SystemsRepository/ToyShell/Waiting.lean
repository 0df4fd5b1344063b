import SystemsRepository.ToyShell.Shell
import Mathlib.Data.List.Pairwise

/-! # Waiting for foreground commands

`execute_command` calls `wait(NULL)`, which any child answers, where `pipe_out`
asks for the children it forked. A foreground command is waited for as long as no
background command has been started before it.
-/

namespace SystemsRepository.ToyShell

open SystemsRepository.Foundation
open Relation (ReflTransGen)

/-! ## The lines of an input -/

def isBackground (line : List Char) : Bool :=
  match readLine line with
  | some (.background _) => true
  | _ => false

def isForeground (line : List Char) : Bool :=
  match readLine line with
  | some (.foreground _) => true
  | _ => false

private theorem isBackground_iff {line : List Char} :
    isBackground line ↔ ∃ tokens, readLine line = some (.background tokens) := by
  unfold isBackground
  split <;> simp_all

private theorem isForeground_iff {line : List Char} :
    isForeground line ↔ ∃ tokens, readLine line = some (.foreground tokens) := by
  unfold isForeground
  split <;> simp_all

/-- The lines `main` reads before it leaves its loop. -/
def linesRead (input : List Char) : List (List Char) :=
  (Text.reads '\n' maxBufferSize input).takeWhile fun line => readLine line ≠ some .exit

/-- No background command is started before a foreground command. -/
def ForegroundFirst (lines : List (List Char)) : Prop :=
  lines.Pairwise fun earlier later => isBackground earlier → ¬isForeground later

instance (lines : List (List Char)) : Decidable (ForegroundFirst lines) :=
  inferInstanceAs (Decidable (lines.Pairwise _))

private theorem linesRead_of_fgets {input piece rest : List Char}
    (read : Text.fgets '\n' maxBufferSize input = some (piece, rest))
    (stays : readLine piece ≠ some .exit) : linesRead input = piece :: linesRead rest := by
  unfold linesRead
  rw [Text.reads_of_fgets (by decide) read, List.takeWhile_cons_of_pos (by simpa using stays)]

private theorem fgets_of_linesRead {input line : List Char} {after : List (List Char)}
    (lines : linesRead input = line :: after) :
    ∃ rest, Text.fgets '\n' maxBufferSize input = some (line, rest) ∧
      readLine line ≠ some .exit ∧ linesRead rest = after := by
  cases read : Text.fgets '\n' maxBufferSize input with
  | none =>
      rw [Text.eq_nil_of_fgets read] at lines
      cases lines
  | some next =>
      rcases next with ⟨piece, rest⟩
      by_cases leaves : readLine piece = some .exit
      · rw [linesRead, Text.reads_of_fgets (by decide) read,
          List.takeWhile_cons_of_neg (by simpa using leaves)] at lines
        cases lines
      · rw [linesRead_of_fgets read leaves] at lines
        cases lines
        exact ⟨rest, rfl, leaves, rfl⟩

namespace Shell

/-- When the wait for a foreground command ends, its child has exited. -/
def Waited (shell next : Shell) : Prop :=
  ∀ child, shell.phase = .foreground child → next.phase ≠ .foreground child →
    { pid := child, running := true } ∉ next.children

/-! ## What a step does -/

theorem executeCommand_eq {shell next : Shell} {isBackgroundProcess : Bool} {pid : Option Nat}
    (ran : shell.executeCommand isBackgroundProcess pid = some next) :
    next = shell ∨ ∃ child, next = { shell with
      phase := if isBackgroundProcess then shell.phase else .foreground child
      children := { pid := child, running := true } :: shell.children } := by
  rw [executeCommand, Option.bind_eq_bind, Option.bind_eq_some_iff] at ran
  rcases ran with ⟨forked, created, ran⟩
  rcases fork_eq_some_iff.mp created with ⟨_, rfl⟩
  cases pid with
  | none =>
      cases ran
      exact .inl rfl
  | some child =>
      refine .inr ⟨child, ?_⟩
      cases isBackgroundProcess <;> cases ran <;> rfl

theorem pipeOut_eq {shell next : Shell} {tokens : Tokens} {pipe : Bool}
    {first second : Option Nat} (ran : shell.pipeOut tokens pipe first second = some next) :
    next = shell ∨
      (∀ pid ∈ second, ∀ other ∈ first, other ≠ pid) ∧
        next = { shell with
          phase := .pipeline [first, second]
          children := (second.toList.map fun pid => { pid, running := true }) ++
            ((first.toList.map fun pid => { pid, running := true }) ++ shell.children) } := by
  unfold pipeOut at ran
  split at ran
  next =>
    split at ran
    next => cases ran
    next =>
      cases ran
      exact .inl rfl
    next =>
      simp only [Option.bind_eq_bind, Option.bind_eq_some_iff] at ran
      rcases ran with ⟨one, createdOne, two, createdTwo, ran⟩
      rcases fork_eq_some_iff.mp createdOne with ⟨_, rfl⟩
      rcases fork_eq_some_iff.mp createdTwo with ⟨distinct, rfl⟩
      cases ran
      refine .inr ⟨?_, rfl⟩
      intro pid secondPid other firstPid
      exact distinct pid secondPid { pid := other, running := true } (by simp_all)
  next =>
    cases ran
    exact .inl rfl

theorem step_exits {shell next : Shell} {pid : Nat}
    (stepped : shell.step (.exits pid) = some next) :
    next = { shell with children := markExited pid shell.children } := by
  simp only [step] at stepped
  split at stepped
  next =>
    cases stepped
    rfl
  next => cases stepped

theorem step_line {shell next : Shell} {pipe : Bool} {first second : Option Nat}
    (stepped : shell.step (.line pipe first second) = some next) :
    shell.phase = .prompt ∧
      (Text.fgets '\n' maxBufferSize shell.input = none ∧ next = shell ∨
        ∃ piece rest line, Text.fgets '\n' maxBufferSize shell.input = some (piece, rest) ∧
          readLine piece = some line ∧
          { shell with input := rest }.runLine line pipe first second = some next) := by
  cases phase : shell.phase <;> simp only [step, phase, reduceCtorEq] at stepped
  refine ⟨rfl, ?_⟩
  split at stepped
  next ended =>
    cases stepped
    exact .inl ⟨ended, rfl⟩
  next piece rest read =>
    rcases Option.bind_eq_some_iff.mp stepped with ⟨line, understood, ran⟩
    exact .inr ⟨piece, rest, line, read, understood, ran⟩

private theorem step_prompt {shell next : Shell} {event : Event} (phase : shell.phase = .prompt)
    (stepped : shell.step event = some next) :
    next = shell ∨
      (∃ pid, next = { shell with children := markExited pid shell.children }) ∨
      ∃ piece rest line pipe first second,
        Text.fgets '\n' maxBufferSize shell.input = some (piece, rest) ∧
        readLine piece = some line ∧
        { shell with input := rest }.runLine line pipe first second = some next := by
  cases event with
  | line pipe first second =>
      rcases (step_line stepped).2 with ⟨_, same⟩ | ⟨piece, rest, line, read, understood, ran⟩
      · exact .inl same
      · exact .inr (.inr ⟨piece, rest, line, pipe, first, second, read, understood, ran⟩)
  | exits pid => exact .inr (.inl ⟨pid, step_exits stepped⟩)
  | reaps pid => simp [step, phase] at stepped
  | noChild => simp [step, phase] at stepped

/-- In a `wait` a child exits, some child is reported, or there is none. -/
theorem step_foreground {shell next : Shell} {event : Event} {child : Nat}
    (phase : shell.phase = .foreground child) (stepped : shell.step event = some next) :
    (∃ pid, next = { shell with children := markExited pid shell.children }) ∨
      (∃ pid, { pid, running := false } ∈ shell.children ∧ next = { shell with
        phase := .prompt
        children := shell.children.erase { pid, running := false } }) ∨
      shell.children = [] ∧ next = { shell with phase := .prompt } := by
  cases event with
  | line pipe first second => simp [step, phase] at stepped
  | exits pid => exact .inl ⟨pid, step_exits stepped⟩
  | reaps pid =>
      simp only [step, phase] at stepped
      split at stepped
      next member =>
        cases stepped
        exact .inr (.inl ⟨pid, member, rfl⟩)
      next => cases stepped
  | noChild =>
      simp only [step, phase] at stepped
      split at stepped
      next childless =>
        cases stepped
        exact .inr (.inr ⟨childless, rfl⟩)
      next => cases stepped

/-- In a `waitpid` a child exits, a child it asks for is reported, or there is none. -/
theorem step_pipeline {shell next : Shell} {event : Event} {targets : List (Option Nat)}
    (phase : shell.phase = .pipeline targets) (stepped : shell.step event = some next) :
    (∃ pid, next = { shell with children := markExited pid shell.children }) ∨
      ∃ target later, targets = target :: later ∧
        ((∃ pid, { pid, running := false } ∈ shell.children ∧ Awaits target pid ∧
          next = { shell with
            phase := afterWait later
            children := shell.children.erase { pid, running := false } }) ∨
        (∀ child ∈ shell.children, ¬Awaits target child.pid) ∧
          next = { shell with phase := afterWait later }) := by
  cases event with
  | line pipe first second => simp [step, phase] at stepped
  | exits pid => exact .inl ⟨pid, step_exits stepped⟩
  | reaps pid =>
      cases targets with
      | nil => simp [step, phase] at stepped
      | cons target targets =>
          simp only [step, phase] at stepped
          split at stepped
          next possible =>
            cases stepped
            exact .inr ⟨target, targets, rfl, .inl ⟨pid, possible.1, possible.2, rfl⟩⟩
          next => cases stepped
  | noChild =>
      cases targets with
      | nil => simp [step, phase] at stepped
      | cons target targets =>
          simp only [step, phase] at stepped
          split at stepped
          next unasked =>
            cases stepped
            exact .inr ⟨target, targets, rfl, .inr ⟨unasked, rfl⟩⟩
          next => cases stepped

theorem step_exited {shell next : Shell} {event : Event} (phase : shell.phase = .exited)
    (stepped : shell.step event = some next) : next.phase = .exited := by
  cases event with
  | line pipe first second => simp [step, phase] at stepped
  | exits pid =>
      rw [step_exits stepped]
      exact phase
  | reaps pid => simp [step, phase] at stepped
  | noChild => simp [step, phase] at stepped

/-! ## Children -/

private theorem markExited_pids (pid : Nat) (children : List Process) :
    (markExited pid children).map Process.pid = children.map Process.pid := by
  rw [markExited, List.map_map]
  apply List.map_congr_left
  intro child _
  simp only [Function.comp_apply]
  split <;> rfl

/-- All children are among those the calls that are left ask for. -/
structure Covers (targets : List (Option Nat)) (children : List Process) : Prop where
  asked : ∀ pid ∈ children.map Process.pid, some pid ∈ targets
  distinct : (children.map Process.pid).Nodup

namespace Covers

variable {target : Option Nat} {targets : List (Option Nat)} {children : List Process}

private theorem nil_iff : Covers [] children ↔ children = [] := by
  constructor
  · intro covers
    cases children with
    | nil => rfl
    | cons child children => cases covers.asked child.pid (by simp)
  · intro none
    subst none
    exact ⟨by simp, by simp⟩

theorem markExited (covers : Covers targets children) (pid : Nat) :
    Covers targets (markExited pid children) where
  asked := by
    rw [markExited_pids]
    exact covers.asked
  distinct := by
    rw [markExited_pids]
    exact covers.distinct

private theorem reap (covers : Covers (target :: targets) children) {pid : Nat} {running : Bool}
    (member : { pid, running } ∈ children) (awaits : Awaits target pid) :
    Covers targets (children.erase { pid, running }) := by
  have permuted := (List.perm_cons_erase member).map Process.pid
  have nodup := permuted.nodup_iff.mp covers.distinct
  rw [List.map_cons, List.nodup_cons] at nodup
  refine ⟨?_, nodup.2⟩
  intro other remains
  have asked := covers.asked other (permuted.mem_iff.mpr (List.mem_cons_of_mem _ remains))
  rcases List.mem_cons.mp asked with here | later
  · have same := awaits other (by rw [← here]; rfl)
    exact absurd (same ▸ remains) nodup.1
  · exact later

theorem noChild (covers : Covers (target :: targets) children)
    (unasked : ∀ child ∈ children, ¬Awaits target child.pid) : Covers targets children := by
  refine ⟨?_, covers.distinct⟩
  intro pid member
  rcases List.mem_map.mp member with ⟨child, childMember, rfl⟩
  rcases List.mem_cons.mp (covers.asked _ member) with here | later
  · refine absurd ?_ (unasked child childMember)
    intro wanted asked
    rw [← here] at asked
    exact (Option.some.inj asked).symm
  · exact later

theorem forked {first second : Option Nat}
    (different : ∀ pid ∈ second, ∀ other ∈ first, other ≠ pid) :
    Covers [first, second]
      ((second.toList.map fun pid => { pid, running := true }) ++
        first.toList.map fun pid => { pid, running := true }) := by
  constructor
  · intro pid member
    simp only [List.map_append, List.map_map, List.mem_append] at member
    simpa [eq_comm] using member.symm
  · cases first with
    | none => cases second <;> simp
    | some one =>
        cases second with
        | none => simp
        | some two => simpa [eq_comm] using different two rfl one rfl

end Covers

/-! ## Runs that wait for their foreground commands -/

/-- What holds as long as no background command has been started, at each place of
the program, and afterwards, when there is no foreground command left. -/
inductive Orderly (shell : Shell) : Prop
  | idle (phase : shell.phase = .prompt) (childless : shell.children = [])
      (lines : ForegroundFirst (linesRead shell.input))
  | waiting (child : Nat) (running : Bool) (phase : shell.phase = .foreground child)
      (only : shell.children = [{ pid := child, running }])
      (lines : ForegroundFirst (linesRead shell.input))
  | piping (targets : List (Option Nat)) (phase : shell.phase = .pipeline targets)
      (covers : Covers targets shell.children)
      (lines : ForegroundFirst (linesRead shell.input))
  | late (phase : ∀ child, shell.phase ≠ .foreground child)
      (lines : ∀ line ∈ linesRead shell.input, ¬isForeground line)
  | finished (phase : shell.phase = .exited)

private theorem orderly_start {input : List Char} (lines : ForegroundFirst (linesRead input)) :
    Orderly (start input) := .idle rfl rfl lines

private theorem afterWait_ne_foreground (targets : List (Option Nat)) (child : Nat) :
    afterWait targets ≠ .foreground child := by
  cases targets <;> intro equal <;> cases equal

theorem Orderly.afterWait {shell : Shell} {targets : List (Option Nat)}
    (phase : shell.phase = Shell.afterWait targets) (covers : Covers targets shell.children)
    (lines : ForegroundFirst (linesRead shell.input)) : Orderly shell := by
  cases targets with
  | nil => exact .idle phase (Covers.nil_iff.mp covers) lines
  | cons target targets => exact .piping _ phase covers lines

namespace Orderly

variable {shell next : Shell}

private theorem ofPrompt (phase : shell.phase = .prompt) (childless : shell.children = [])
    (lines : ForegroundFirst (linesRead shell.input)) {event : Event}
    (stepped : shell.step event = some next) : Orderly next := by
  rcases step_prompt phase stepped with rfl | ⟨pid, rfl⟩ | ⟨piece, rest, line, pipe, first,
    second, read, understood, ran⟩
  · exact .idle phase childless lines
  · exact .idle phase (by rw [childless]; rfl) lines
  · by_cases leaves : line = .exit
    · subst leaves
      cases ran
      exact .finished rfl
    have stays : readLine piece ≠ some .exit := by simpa [understood] using leaves
    rw [linesRead_of_fgets read stays] at lines
    rcases List.pairwise_cons.mp lines with ⟨later, rest⟩
    cases line with
    | exit => exact absurd rfl leaves
    | blank =>
        cases ran
        exact .idle phase childless rest
    | piped tokens =>
        rcases pipeOut_eq ran with rfl | ⟨different, rfl⟩
        · exact .idle phase childless rest
        · refine .piping _ rfl ?_ rest
          simpa [childless] using Covers.forked different
    | foreground tokens =>
        rcases executeCommand_eq ran with rfl | ⟨child, rfl⟩
        · exact .idle phase childless rest
        · exact .waiting child true rfl (by simp [childless]) rest
    | background tokens =>
        have final : ∀ other ∈ linesRead _, ¬isForeground other := fun other member =>
          later other member (by simp [isBackground, understood])
        rcases executeCommand_eq ran with rfl | ⟨child, rfl⟩
        · exact .late (by simp [phase]) final
        · exact .late (by simp [phase]) final

private theorem ofForeground {child : Nat} {running : Bool}
    (phase : shell.phase = .foreground child) (only : shell.children = [{ pid := child, running }])
    (lines : ForegroundFirst (linesRead shell.input)) {event : Event}
    (stepped : shell.step event = some next) : Orderly next ∧ Waited shell next := by
  rcases step_foreground phase stepped with ⟨pid, rfl⟩ | ⟨pid, member, rfl⟩ | ⟨childless, rfl⟩
  · refine ⟨?_, fun other same moved => absurd same moved⟩
    by_cases same : child = pid
    · exact .waiting child false phase (by simp [only, markExited, same]) lines
    · exact .waiting child running phase (by simp [only, markExited, same]) lines
  · rw [only, List.mem_singleton] at member
    rw [← member] at only
    have reaped : shell.children.erase { pid, running := false } = [] := by simp [only]
    refine ⟨.idle rfl reaped lines, ?_⟩
    intro other _ _
    simp [reaped]
  · rw [only] at childless
    cases childless

private theorem ofPipeline {targets : List (Option Nat)} (phase : shell.phase = .pipeline targets)
    (covers : Covers targets shell.children)
    (lines : ForegroundFirst (linesRead shell.input)) {event : Event}
    (stepped : shell.step event = some next) : Orderly next := by
  rcases step_pipeline phase stepped with ⟨pid, rfl⟩ | ⟨target, later, rfl, reaped | failed⟩
  · exact .piping targets phase (covers.markExited pid) lines
  · rcases reaped with ⟨pid, member, awaits, rfl⟩
    exact afterWait rfl (covers.reap member awaits) lines
  · rcases failed with ⟨unasked, rfl⟩
    exact afterWait rfl (covers.noChild unasked) lines

private theorem ofLate (phase : ∀ child, shell.phase ≠ .foreground child)
    (lines : ∀ line ∈ linesRead shell.input, ¬isForeground line) {event : Event}
    (stepped : shell.step event = some next) : Orderly next := by
  cases place : shell.phase with
  | foreground child => exact absurd place (phase child)
  | exited => exact .finished (step_exited place stepped)
  | pipeline targets =>
      rcases step_pipeline place stepped with ⟨pid, rfl⟩ | ⟨target, later, rfl, reaped | failed⟩
      · exact .late phase lines
      · rcases reaped with ⟨pid, _, _, rfl⟩
        exact .late (afterWait_ne_foreground later) lines
      · rcases failed with ⟨_, rfl⟩
        exact .late (afterWait_ne_foreground later) lines
  | prompt =>
      rcases step_prompt place stepped with rfl | ⟨pid, rfl⟩ | ⟨piece, rest, line, pipe, first,
        second, read, understood, ran⟩
      · exact .late phase lines
      · exact .late phase lines
      · by_cases leaves : line = .exit
        · subst leaves
          cases ran
          exact .finished rfl
        have stays : readLine piece ≠ some .exit := by simpa [understood] using leaves
        rw [linesRead_of_fgets read stays] at lines
        rcases List.forall_mem_cons.mp lines with ⟨here, rest⟩
        cases line with
        | exit => exact absurd rfl leaves
        | blank =>
            cases ran
            exact .late phase rest
        | piped tokens =>
            rcases pipeOut_eq ran with rfl | ⟨_, rfl⟩
            · exact .late phase rest
            · exact .late (by simp) rest
        | foreground tokens => exact absurd (by simp [isForeground, understood]) here
        | background tokens =>
            rcases executeCommand_eq ran with rfl | ⟨child, rfl⟩
            · exact .late phase rest
            · exact .late phase rest

/-- Every step keeps the invariant and waits for the child of a foreground command. -/
theorem step (orderly : Orderly shell) (stepped : Step shell next) :
    Orderly next ∧ Waited shell next := by
  rcases stepped with ⟨event, stepped⟩
  have elsewhere : (∀ child, shell.phase ≠ .foreground child) → Waited shell next :=
    fun phase child same _ => absurd same (phase child)
  cases orderly with
  | idle phase childless lines =>
      exact ⟨ofPrompt phase childless lines stepped, elsewhere (by simp [phase])⟩
  | waiting child running phase only lines => exact ofForeground phase only lines stepped
  | piping targets phase covers lines =>
      exact ⟨ofPipeline phase covers lines stepped, elsewhere (by simp [phase])⟩
  | late phase lines => exact ⟨ofLate phase lines stepped, elsewhere phase⟩
  | finished phase => exact ⟨.finished (step_exited phase stepped), elsewhere (by simp [phase])⟩

theorem reachable {input : List Char} (lines : ForegroundFirst (linesRead input))
    (reached : Reachable input shell) : Orderly shell := by
  induction reached with
  | refl => exact orderly_start lines
  | tail _ stepped induction => exact (induction.step stepped).1

end Orderly

/-! ## Runs that do not -/

/-- With no call of `fork` or `pipe` that succeeds, a line leaves everything as it is. -/
theorem step_unforked {shell : Shell} {line rest : List Char} (phase : shell.phase = .prompt)
    (read : Text.fgets '\n' maxBufferSize shell.input = some (line, rest)) :
    shell.step (.line false none none) = some { shell with
      input := rest, phase := if readLine line = some .exit then .exited else .prompt } := by
  rcases Option.isSome_iff_exists.mp (readLine_isSome line) with ⟨command, understood⟩
  simp only [Shell.step, phase, read, understood, Option.bind_some]
  cases command with
  | exit => simp [runLine]
  | blank => simp [runLine]
  | piped tokens => simp [runLine, pipeOut]
  | foreground tokens => simp [runLine, executeCommand, fork]
  | background tokens => simp [runLine, executeCommand, fork]

private theorem step_skip {shell : Shell} {line rest : List Char} (phase : shell.phase = .prompt)
    (read : Text.fgets '\n' maxBufferSize shell.input = some (line, rest))
    (stays : readLine line ≠ some .exit) : Step shell { shell with input := rest } := by
  refine ⟨.line false none none, ?_⟩
  rw [step_unforked phase read, if_neg stays, ← phase]

private theorem exists_turn {line : List Char} {after : List (List Char)} :
    ∀ {front : List (List Char)} {shell : Shell}, shell.phase = .prompt →
    linesRead shell.input = front ++ line :: after →
    ∃ turn rest, ReflTransGen Step shell { shell with input := turn } ∧
      Text.fgets '\n' maxBufferSize turn = some (line, rest) ∧ linesRead rest = after := by
  intro front
  induction front with
  | nil =>
      intro shell phase lines
      rcases fgets_of_linesRead lines with ⟨rest, read, _, remaining⟩
      exact ⟨shell.input, rest, .refl, read, remaining⟩
  | cons skipped front induction =>
      intro shell phase lines
      rcases fgets_of_linesRead lines with ⟨rest, read, stays, remaining⟩
      rcases @induction { shell with input := rest } phase remaining with
        ⟨turn, after, run, found⟩
      exact ⟨turn, after, .head (step_skip phase read stays) run, found⟩

private theorem exists_unwaited {input earlier later : List Char}
    {front between after : List (List Char)}
    (lines : linesRead input = front ++ earlier :: (between ++ later :: after))
    (background : isBackground earlier) (foreground : isForeground later) :
    ∃ shell next, Reachable input shell ∧ Step shell next ∧ ¬Waited shell next := by
  rcases isBackground_iff.mp background with ⟨backgroundTokens, readEarlier⟩
  rcases isForeground_iff.mp foreground with ⟨foregroundTokens, readLater⟩
  rcases @exists_turn _ _ _ (start input) rfl lines with ⟨first, rest, reached, read, remaining⟩
  have forks : Step { start input with input := first }
      { input := rest, phase := .prompt, children := [{ pid := 1, running := true }] } :=
    ⟨.line true (some 1) none, by
      simp [step, start, read, readEarlier, runLine, executeCommand, fork]⟩
  have exits : Step
      { input := rest, phase := .prompt, children := [{ pid := 1, running := true }] }
      { input := rest, phase := .prompt, children := [{ pid := 1, running := false }] } :=
    ⟨.exits 1, by simp [step, markExited]⟩
  rcases @exists_turn _ _ _
    { input := rest, phase := .prompt, children := [{ pid := 1, running := false }] }
    rfl remaining with ⟨second, rest, passed, read, _⟩
  have waits : Step
      { input := second, phase := .prompt, children := [{ pid := 1, running := false }] }
      { input := rest, phase := .foreground 2,
        children := [{ pid := 2, running := true }, { pid := 1, running := false }] } :=
    ⟨.line true (some 2) none, by
      simp [step, read, readLater, runLine, executeCommand, fork]⟩
  have reaps : Step
      { input := rest, phase := .foreground 2,
        children := [{ pid := 2, running := true }, { pid := 1, running := false }] }
      { input := rest, phase := .prompt, children := [{ pid := 2, running := true }] } :=
    ⟨.reaps 1, by simp [step]⟩
  have started := ((reached.tail forks).tail exits).trans passed
  refine ⟨_, _, started.tail waits, reaps, ?_⟩
  intro waited
  exact absurd (by simp) (waited 2 rfl (by simp))

private theorem exists_unwaited_of_not {input : List Char}
    (misordered : ¬ForegroundFirst (linesRead input)) :
    ∃ shell next, Reachable input shell ∧ Step shell next ∧ ¬Waited shell next := by
  rw [ForegroundFirst, List.pairwise_iff_forall_sublist] at misordered
  push Not at misordered
  rcases misordered with ⟨earlier, later, sublist, background, foreground⟩
  rcases List.cons_sublist_iff.mp sublist with ⟨before, behind, lines, member, laterSublist⟩
  rcases List.append_of_mem member with ⟨front, between, rfl⟩
  rcases List.append_of_mem (List.singleton_sublist.mp laterSublist) with ⟨middle, after, rfl⟩
  refine @exists_unwaited input earlier later front (between ++ middle) after ?_ background
    foreground
  rw [lines]
  simp

end Shell

/-! ## Foreground commands -/

/-- Whatever exits when, the prompt comes back only after the child of the foreground
command has exited, exactly when no background command stands before a foreground
command. -/
theorem foreground_waited_iff (input : List Char) :
    (∀ shell next, Shell.Reachable input shell → Shell.Step shell next →
        Shell.Waited shell next) ↔
      ForegroundFirst (linesRead input) := by
  constructor
  · intro waited
    by_contra misordered
    rcases Shell.exists_unwaited_of_not misordered with
      ⟨shell, next, reached, stepped, unwaited⟩
    exact unwaited (waited shell next reached stepped)
  · intro lines shell next reached stepped
    exact ((Shell.Orderly.reachable lines reached).step stepped).2

example : ForegroundFirst (linesRead "ls\nsleep 5 &\n".toList) := by decide +kernel

/-- `sleep 5 &`, and then `ls`: when `sleep` exits, the prompt is back while `ls` runs. -/
theorem background_answers_wait :
    ∃ shell next, Shell.Reachable "sleep 5 &\nls\n".toList shell ∧ Shell.Step shell next ∧
      shell.phase = .foreground 2 ∧ next.phase = .prompt ∧
      next.children = [{ pid := 2, running := true }] ∧ ¬Shell.Waited shell next := by
  have forks : Shell.Step (Shell.start "sleep 5 &\nls\n".toList)
      { input := "ls\n".toList, phase := .prompt,
        children := [{ pid := 1, running := true }] } :=
    ⟨.line true (some 1) none, by decide +kernel⟩
  have exits : Shell.Step
      { input := "ls\n".toList, phase := .prompt,
        children := [{ pid := 1, running := true }] }
      { input := "ls\n".toList, phase := .prompt,
        children := [{ pid := 1, running := false }] } :=
    ⟨.exits 1, by decide +kernel⟩
  have waits : Shell.Step
      { input := "ls\n".toList, phase := .prompt,
        children := [{ pid := 1, running := false }] }
      { input := [], phase := .foreground 2,
        children := [{ pid := 2, running := true }, { pid := 1, running := false }] } :=
    ⟨.line true (some 2) none, by decide +kernel⟩
  have reaps : Shell.Step
      { input := [], phase := .foreground 2,
        children := [{ pid := 2, running := true }, { pid := 1, running := false }] }
      { input := [], phase := .prompt, children := [{ pid := 2, running := true }] } :=
    ⟨.reaps 1, by decide⟩
  have reached := ((Relation.ReflTransGen.single forks).tail exits).tail waits
  refine ⟨_, _, reached, reaps, rfl, rfl, rfl, ?_⟩
  intro waited
  exact absurd (by simp) (waited 2 rfl (by simp))

end SystemsRepository.ToyShell
