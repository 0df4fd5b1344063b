import SystemsRepository.Foundation.Text
import SystemsRepository.ToyShell.Redirection
import Mathlib.Logic.Relation

/-! # The loop of `tiny-shell.c`

How `main` reads a line and what it forks for it, one system call a step. The
system decides which calls of `fork` and `pipe` succeed, when a child exits, and
which child a `wait` reports. What children do is left out.
-/

namespace SystemsRepository.ToyShell

open SystemsRepository.Foundation
open Relation (ReflTransGen)

abbrev maxBufferSize : Nat := 256

abbrev maxTokens : Nat := 50

/-! ## A line -/

def cString (buffer : List Char) : List Char := buffer.takeWhile fun char => char.toNat ≠ 0

def isSpace (char : Char) : Bool := char == ' '

structure ParsedInput where
  tokens : Tokens
  isBackgroundProcess : Bool
  tokenCount : Nat
  deriving DecidableEq, Repr

/-- The loop `while (word != NULL && tokenCount < MAX_TOKENS - 1)`. -/
def fillTokens : Nat → List Char → Tokens → Nat → Option (Tokens × Nat)
  | 0, _, _, _ => none
  | fuel + 1, text, tokens, tokenCount =>
      match Text.strtok isSpace text with
      | none => some (tokens, tokenCount)
      | some (word, rest) =>
          if tokenCount < maxTokens - 1 then do
            let tokens ← tokens.store tokenCount (.word word)
            fillTokens fuel rest tokens (tokenCount + 1)
          else some (tokens, tokenCount)

/-- `parse_input`; no entry of the array has been set for this line. -/
def parseInput (input : List Char) : Option ParsedInput := do
  let text := (cString input).takeWhile fun char => char ≠ '\n'
  let (tokens, tokenCount) ← fillTokens maxTokens text (List.replicate maxTokens .stale) 0
  let tokens ← tokens.store tokenCount .null
  if tokenCount = 0 then
    return { tokens, isBackgroundProcess := false, tokenCount }
  else
    match ← tokens.load (tokenCount - 1) with
    | none => none
    | some last =>
        if last = ['&'] then
          let tokens ← tokens.store (tokenCount - 1) .null
          return { tokens, isBackgroundProcess := true, tokenCount := tokenCount - 1 }
        else return { tokens, isBackgroundProcess := false, tokenCount }

def pipeSymbol : Token := ['|']

/-- The loop that sets `has_pipe`, with so many tokens left. -/
def hasPipe (tokens : Tokens) : Nat → Nat → Option Bool
  | 0, _ => some false
  | left + 1, i => do
      match ← tokens.load i with
      | none => none
      | some token => if token = pipeSymbol then return true else hasPipe tokens left (i + 1)

/-- What `main` does with a line. -/
inductive Line
  | exit
  | blank
  | piped (tokens : Tokens)
  | foreground (tokens : Tokens)
  | background (tokens : Tokens)
  deriving DecidableEq, Repr

def readLine (input : List Char) : Option Line :=
  if cString input = "exit\n".toList then some .exit
  else do
    let parsed ← parseInput input
    if parsed.tokenCount = 0 then return .blank
    else if ← hasPipe parsed.tokens parsed.tokenCount 0 then return .piped parsed.tokens
    else if parsed.isBackgroundProcess then return .background parsed.tokens
    else return .foreground parsed.tokens

/-- The loop `while (tokens[pipe_pos] != NULL && strcmp(tokens[pipe_pos], "|") != 0)`,
and whether it stopped at the symbol. -/
def pipePosition (tokens : Tokens) : Nat → Nat → Option (Nat × Bool)
  | 0, _ => none
  | fuel + 1, position => do
      match ← tokens.load position with
      | none => return (position, false)
      | some token =>
          if token = pipeSymbol then return (position, true)
          else pipePosition tokens fuel (position + 1)

/-- The two commands of `pipe_out`, or that there is no symbol. -/
def pipeCommands (tokens : Tokens) : Option (Option (Redirected × Redirected)) := do
  let (position, found) ← pipePosition tokens (tokens.length + 1) 0
  if found then
    let tokens ← tokens.store position .null
    let first ← redirect tokens
    let second ← redirect (first.tokens.drop (position + 1))
    return some (first, second)
  else return none

/-! ## Processes -/

/-- A child that has been forked and not yet been waited for. -/
structure Process where
  pid : Nat
  running : Bool
  deriving DecidableEq, Repr

/-- `main` is about to print its prompt, is in the `wait` of `execute_command` with
the child it forked, is in `pipe_out` with these `waitpid` calls left, where `none`
stands for the argument -1, or has returned. -/
inductive Phase
  | prompt
  | foreground (child : Nat)
  | pipeline (targets : List (Option Nat))
  | exited
  deriving DecidableEq, Repr

/-- `input` is what is left of `stdin`, which only `main` reads here: it cannot be sought, or no
child reopens it for a `<`. -/
structure Shell where
  input : List Char
  phase : Phase
  children : List Process
  deriving DecidableEq, Repr

namespace Shell

def start (input : List Char) : Shell where
  input
  phase := .prompt
  children := []

def fork (shell : Shell) : Option Nat → Option Shell
  | none => some shell
  | some pid =>
      if ∀ child ∈ shell.children, child.pid ≠ pid then
        some { shell with children := { pid, running := true } :: shell.children }
      else none

def executeCommand (shell : Shell) (isBackgroundProcess : Bool) (pid : Option Nat) :
    Option Shell := do
  let forked ← shell.fork pid
  match pid with
  | none => return forked
  | some child =>
      if isBackgroundProcess then return forked
      else return { forked with phase := .foreground child }

/-- `waitpid` calls that are left, or the prompt. -/
def afterWait : List (Option Nat) → Phase
  | [] => .prompt
  | targets => .pipeline targets

def pipeOut (shell : Shell) (tokens : Tokens) (pipe : Bool) (first second : Option Nat) :
    Option Shell :=
  if pipe then
    match pipeCommands tokens with
    | none => none
    | some none => some shell
    | some (some _) => do
        let forked ← shell.fork first
        let forked ← forked.fork second
        return { forked with phase := afterWait [first, second] }
  else some shell

/-- The body of the loop in `main`, once the line has been read. -/
def runLine (shell : Shell) (line : Line) (pipe : Bool) (first second : Option Nat) :
    Option Shell :=
  match line with
  | .exit => some { shell with phase := .exited }
  | .blank => some shell
  | .foreground _ => shell.executeCommand false first
  | .background _ => shell.executeCommand true first
  | .piped tokens => shell.pipeOut tokens pipe first second

/-- What the system does: it delivers the next line and decides what `pipe` and the
calls of `fork` return, a child exits, a wait reports a child, or that there is none. -/
inductive Event
  | line (pipe : Bool) (first second : Option Nat)
  | exits (pid : Nat)
  | reaps (pid : Nat)
  | noChild
  deriving DecidableEq, Repr

/-- `waitpid` with this argument reports the child. -/
def Awaits (target : Option Nat) (pid : Nat) : Prop := ∀ wanted ∈ target, wanted = pid

instance (target : Option Nat) (pid : Nat) : Decidable (Awaits target pid) :=
  inferInstanceAs (Decidable (∀ _ ∈ target, _))

def markExited (pid : Nat) (children : List Process) : List Process :=
  children.map fun child => if child.pid = pid then { child with running := false } else child

def step (shell : Shell) (event : Event) : Option Shell :=
  match event, shell.phase with
  | .exits pid, _ =>
      if { pid, running := true } ∈ shell.children then
        some { shell with children := markExited pid shell.children }
      else none
  | .line pipe first second, .prompt =>
      match Text.fgets '\n' maxBufferSize shell.input with
      | none => some shell
      | some (piece, rest) =>
          (readLine piece).bind fun line =>
            { shell with input := rest }.runLine line pipe first second
  | .reaps pid, .foreground _ =>
      if { pid, running := false } ∈ shell.children then
        some { shell with
          phase := .prompt
          children := shell.children.erase { pid, running := false } }
      else none
  | .reaps pid, .pipeline (target :: targets) =>
      if { pid, running := false } ∈ shell.children ∧ Awaits target pid then
        some { shell with
          phase := afterWait targets
          children := shell.children.erase { pid, running := false } }
      else none
  | .noChild, .foreground _ =>
      if shell.children = [] then some { shell with phase := .prompt } else none
  | .noChild, .pipeline (target :: targets) =>
      if ∀ child ∈ shell.children, ¬Awaits target child.pid then
        some { shell with phase := afterWait targets }
      else none
  | _, _ => none

def Step (shell next : Shell) : Prop := ∃ event, shell.step event = some next

def Reachable (input : List Char) (shell : Shell) : Prop :=
  ReflTransGen Step (start input) shell

end Shell

/-! ## Every line can be read -/

private theorem fillTokens_filled {fuel : Nat} :
    ∀ {room : Nat} {text : List Char} {words : List Token},
    words.length + room = maxTokens → 1 ≤ room → room ≤ fuel →
    ∃ (filled : List Token) (space : Nat),
      fillTokens fuel text (words.map Slot.word ++ List.replicate room .stale) words.length =
        some (filled.map Slot.word ++ List.replicate space .stale, filled.length) ∧
      filled = words ++ (Text.words isSpace text).take (room - 1) ∧
      filled.length + space = maxTokens ∧ 1 ≤ space := by
  induction fuel with
  | zero =>
      intro room text words _ left enough
      omega
  | succ fuel induction =>
      intro room text words size left enough
      cases found : Text.strtok isSpace text with
      | none =>
          refine ⟨words, room, by simp [fillTokens, found], ?_, size, left⟩
          rw [Text.words_of_strtok_none found, List.take_nil, List.append_nil]
      | some next =>
          rcases next with ⟨word, rest⟩
          have cut := Text.words_of_strtok found
          by_cases space : words.length < maxTokens - 1
          · rcases Nat.exists_eq_add_of_le' left with ⟨others, rfl⟩
            have stored := Tokens.store_append (words.map Slot.word)
              (List.replicate others .stale) .stale (.word word)
            have someLeft : 1 ≤ others := by
              simp only [maxTokens] at space size
              omega
            have further := @induction others rest (words ++ [word])
              (by rw [List.length_append, List.length_singleton]; omega) someLeft (by omega)
            have taken : words ++ (Text.words isSpace text).take others =
                words ++ [word] ++ (Text.words isSpace rest).take (others - 1) := by
              rcases Nat.exists_eq_add_of_le' someLeft with ⟨fewer, rfl⟩
              rw [cut, List.take_succ_cons, Nat.add_sub_cancel, List.append_assoc]
              rfl
            rw [Nat.add_sub_cancel, taken]
            simp only [List.map_append, List.map_cons, List.map_nil, List.append_assoc,
              List.cons_append, List.nil_append, List.length_append, List.length_singleton]
              at further
            rw [List.length_map] at stored
            simp only [fillTokens, found, space, if_true, List.replicate_succ, stored,
              Option.bind_eq_bind, Option.bind_some, List.append_assoc, List.cons_append,
              List.nil_append]
            exact further
          · have full : room = 1 := by
              simp only [maxTokens] at space size
              omega
            refine ⟨words, room, by simp only [fillTokens, found, space, if_false], ?_, size, left⟩
            rw [full, Nat.sub_self, List.take_zero, List.append_nil]

/-- The maximal parts of a line without spaces. -/
def lineWords (input : List Char) : List Token :=
  Text.words isSpace ((cString input).takeWhile fun char => char ≠ '\n')

def withoutAmpersand (words : List Token) : List Token :=
  if words.getLast? = some ['&'] then words.dropLast else words

theorem parseInput_words (input : List Char) :
    ∃ behind, parseInput input = some
        { tokens := Tokens.terminated
            (withoutAmpersand ((lineWords input).take (maxTokens - 1))) behind
          isBackgroundProcess :=
            ((lineWords input).take (maxTokens - 1)).getLast? = some ['&']
          tokenCount := (withoutAmpersand ((lineWords input).take (maxTokens - 1))).length } ∧
      (withoutAmpersand ((lineWords input).take (maxTokens - 1))).length + 1 + behind.length =
        maxTokens := by
  rcases @fillTokens_filled maxTokens maxTokens
    ((cString input).takeWhile fun char => char ≠ '\n') [] rfl (by decide) (Nat.le_refl _) with
    ⟨filled, space, fills, isFilled, size, left⟩
  rcases Nat.exists_eq_add_of_le' left with ⟨others, rfl⟩
  have stored := Tokens.store_append (filled.map Slot.word) (List.replicate others .stale)
    .stale .null
  rw [List.length_map] at stored
  rw [List.map_nil, List.nil_append, List.length_nil] at fills
  rw [List.nil_append] at isFilled
  rw [lineWords, ← isFilled]
  unfold parseInput
  dsimp only
  rw [fills]
  rcases List.eq_nil_or_concat filled with empty | ⟨front, last, split⟩
  · rw [empty]
    rw [empty] at size
    refine ⟨List.replicate others .stale, ?_, ?_⟩
    · simp [List.replicate_succ, Tokens.store, Tokens.terminated, withoutAmpersand]
    · rw [List.length_replicate, ← size]
      simp [withoutAmpersand]
      omega
  · rw [List.concat_eq_append] at split
    rw [split]
    rw [split] at stored size
    have loaded := Tokens.load_append_word (front.map Slot.word)
      (.null :: List.replicate others .stale) last
    have cleared := Tokens.store_append (front.map Slot.word)
      (.null :: List.replicate others .stale) (.word last) .null
    rw [List.length_map] at loaded cleared
    have positive : ¬(front ++ [last]).length = 0 := by simp
    have position : (front ++ [last]).length - 1 = front.length := by simp
    have array : (front ++ [last]).map Slot.word ++ .null :: List.replicate others .stale =
        front.map Slot.word ++ .word last :: .null :: List.replicate others .stale := by
      simp
    simp only [Option.bind_eq_bind, Option.bind_some, List.replicate_succ, stored, positive,
      if_false, position, array, loaded, withoutAmpersand, List.getLast?_append,
      List.getLast?_singleton, Option.some_or, Option.some.injEq, List.dropLast_concat]
    rw [List.length_append, List.length_singleton] at size
    by_cases ampersand : last = ['&']
    · simp only [ampersand, if_true, decide_true]
      rw [ampersand] at cleared
      refine ⟨.null :: List.replicate others .stale, by rw [cleared]; rfl, ?_⟩
      rw [List.length_cons, List.length_replicate]
      omega
    · simp only [ampersand, if_false, decide_false]
      refine ⟨List.replicate others .stale, ?_, ?_⟩
      · rw [Tokens.terminated, array]
        rfl
      · rw [List.length_append, List.length_singleton, List.length_replicate]
        omega

private theorem parseInput_eq (input : List Char) :
    ∃ words behind background, parseInput input = some
      { tokens := Tokens.terminated words behind
        isBackgroundProcess := background
        tokenCount := words.length } := by
  rcases parseInput_words input with ⟨behind, parsed, _⟩
  exact ⟨_, behind, _, parsed⟩

private theorem hasPipe_words {after : Tokens} : ∀ (words : List Token) (front : Tokens),
    hasPipe (front ++ words.map Slot.word ++ after) words.length front.length =
      some (decide (pipeSymbol ∈ words))
  | [], front => by simp [hasPipe]
  | word :: words, front => by
      have loaded := Tokens.load_append_word front (words.map Slot.word ++ after) word
      have rest := @hasPipe_words after words (front ++ [.word word])
      simp only [List.length_append, List.length_singleton, List.append_assoc,
        List.cons_append, List.nil_append] at rest
      by_cases here : word = pipeSymbol
      · subst here
        simp [hasPipe, loaded]
      · have different : pipeSymbol ≠ word := fun same => here same.symm
        simp [hasPipe, loaded, here, rest, different]

private theorem pipePosition_words {after : Tokens} : ∀ {words : List Token} {front : Tokens}
    {fuel : Nat}, pipeSymbol ∉ words →
    pipePosition (front ++ words.map Slot.word ++ after) (words.length + fuel) front.length =
      pipePosition (front ++ words.map Slot.word ++ after) fuel (front.length + words.length)
  | [], _, _, _ => by simp
  | word :: words, front, fuel, absent => by
      have different : word ≠ pipeSymbol := fun same => absent (same ▸ List.mem_cons_self)
      have loaded := Tokens.load_append_word front (words.map Slot.word ++ after) word
      have rest := @pipePosition_words after words (front ++ [.word word]) fuel fun member =>
        absent (List.mem_cons_of_mem _ member)
      simp only [List.length_append, List.length_singleton, List.append_assoc,
        List.cons_append, List.nil_append] at rest
      have position : front.length + 1 + words.length = front.length + (words.length + 1) := by
        omega
      rw [List.length_cons, Nat.add_right_comm, pipePosition, List.append_assoc, List.map_cons,
        List.cons_append, loaded, Option.bind_eq_bind, Option.bind_some]
      simp only [different, if_false, rest, position]

private theorem terminated_at_pipe (before after : List Token) (behind : Tokens) :
    Tokens.terminated (before ++ pipeSymbol :: after) behind =
      before.map Slot.word ++ .word pipeSymbol :: Tokens.terminated after behind := by
  simp [Tokens.terminated]

private theorem pipePosition_found {before after : List Token} {behind : Tokens}
    (absent : pipeSymbol ∉ before) :
    pipePosition (Tokens.terminated (before ++ pipeSymbol :: after) behind)
        ((Tokens.terminated (before ++ pipeSymbol :: after) behind).length + 1) 0 =
      some (before.length, true) := by
  rw [terminated_at_pipe]
  have room : ∃ fuel, (before.map Slot.word ++
      .word pipeSymbol :: Tokens.terminated after behind).length + 1 = before.length + (fuel + 1) :=
    ⟨(Tokens.terminated after behind).length + 1, by simp; omega⟩
  rcases room with ⟨fuel, room⟩
  have found := Tokens.load_append_word (before.map Slot.word) (Tokens.terminated after behind)
    pipeSymbol
  have walked := @pipePosition_words (.word pipeSymbol :: Tokens.terminated after behind)
    before [] (fuel + 1) absent
  rw [List.length_map] at found
  rw [List.nil_append, List.length_nil, Nat.zero_add] at walked
  rw [room, walked]
  simp [pipePosition, found]

/-- The commands on both sides of the first pipe, with the words that are left of them. -/
theorem pipeCommands_eq {before after : List Token} (behind : Tokens)
    (absent : pipeSymbol ∉ before) :
    ∃ first second, pipeCommands (Tokens.terminated (before ++ pipeSymbol :: after) behind) =
        some (some (first, second)) ∧
      first.tokens.argv = some (keptWords before) ∧
      second.tokens.argv = some (keptWords after) := by
  have position := @pipePosition_found before after behind absent
  have stored := Tokens.store_append (before.map Slot.word) (Tokens.terminated after behind)
    (.word pipeSymbol) .null
  rw [List.length_map, ← terminated_at_pipe] at stored
  rcases redirect_terminated before (Tokens.terminated after behind) with
    ⟨first, rest, firstCall, tokens, fewer, same⟩
  rcases redirect_terminated after behind with ⟨second, _, secondCall, left, _⟩
  have firstTokens : before.map Slot.word ++ .null :: Tokens.terminated after behind =
      Tokens.terminated before (Tokens.terminated after behind) := rfl
  have secondTokens : first.tokens.drop (before.length + 1) = Tokens.terminated after behind := by
    have distance : before.length + 1 = ((keptWords before).map Slot.word ++ [Slot.null]).length +
        (before.length - (keptWords before).length) := by
      simp only [List.length_append, List.length_map, List.length_singleton]
      omega
    rw [tokens, Tokens.terminated, List.append_cons, distance, ← List.drop_drop,
      List.drop_left, same]
  refine ⟨first, second, ?_, by rw [tokens, Tokens.argv_terminated],
    by rw [left, Tokens.argv_terminated]⟩
  simp only [pipeCommands, position, Option.bind_eq_bind, Option.bind_some, if_true, stored,
    firstTokens, firstCall, secondTokens, secondCall]
  rfl

theorem readLine_eq (input : List Char) :
    ∃ words behind background, parseInput input = some
        { tokens := Tokens.terminated words behind
          isBackgroundProcess := background
          tokenCount := words.length } ∧
      readLine input = some
        (if cString input = "exit\n".toList then .exit
        else if words = [] then .blank
        else if pipeSymbol ∈ words then .piped (Tokens.terminated words behind)
        else if background then .background (Tokens.terminated words behind)
        else .foreground (Tokens.terminated words behind)) := by
  rcases parseInput_eq input with ⟨words, behind, background, parsed⟩
  have scanned := @hasPipe_words (.null :: behind) words []
  rw [List.nil_append, List.length_nil] at scanned
  refine ⟨words, behind, background, parsed, ?_⟩
  unfold readLine
  split
  next => rfl
  next =>
    rw [parsed]
    simp only [Option.bind_eq_bind, Option.bind_some, List.length_eq_zero_iff]
    split
    next => rfl
    next =>
      rw [Tokens.terminated, scanned]
      simp only [Option.bind_some, decide_eq_true_eq]
      split
      next => rfl
      next => split <;> rfl

theorem readLine_isSome (input : List Char) : (readLine input).isSome := by
  rcases readLine_eq input with ⟨_, _, _, _, read⟩
  rw [read]
  rfl

namespace Shell

theorem fork_eq_some_iff {shell next : Shell} {pid : Option Nat} :
    shell.fork pid = some next ↔
      (∀ fresh ∈ pid, ∀ child ∈ shell.children, child.pid ≠ fresh) ∧
        next = { shell with
          children := (pid.toList.map fun fresh => { pid := fresh, running := true }) ++
            shell.children } := by
  cases pid with
  | none =>
      constructor
      · intro forked
        cases forked
        exact ⟨nofun, rfl⟩
      · intro parts
        rw [parts.2]
        rfl
  | some fresh => simp [fork, eq_comm]

end Shell

end SystemsRepository.ToyShell
