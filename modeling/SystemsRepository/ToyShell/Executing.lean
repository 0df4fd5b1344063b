import SystemsRepository.ToyShell.Shell

/-! # What a line executes

The calls of `execvp` that a line leads to, with the words they are given, and the
lines for which the shell must not come to one.
-/

namespace SystemsRepository.ToyShell

/-- What `pipe`, the calls of `fork` and the calls of `freopen` come to: whether there is a
pipe, a first and a second child, and whether a file can be opened. -/
structure Answers where
  pipe : Bool
  first : Bool
  second : Bool
  inputFile : Bool
  outputFile : Bool
  deriving DecidableEq, Repr

/-- The child of `execute_command`. The results of the redirection functions are not looked
at. An empty list stands for a call with the command word `NULL`. -/
def executedCommand (tokens : Tokens) (answers : Answers) : Option (List (List Token)) := do
  let redirected ← redirect tokens
  let words ← redirected.tokens.argv
  if redirected.inputFile.isSome ∧ ¬answers.inputFile then return []
  else if redirected.outputFile.isSome ∧ ¬answers.outputFile then return []
  else return [words]

/-- The children of `pipe_out`, which do not look at the results of `freopen` either. -/
def executedPipe (tokens : Tokens) (answers : Answers) : Option (List (List Token)) := do
  match ← pipeCommands tokens with
  | none => return []
  | some (first, second) =>
      let firstWords ← first.tokens.argv
      let secondWords ← second.tokens.argv
      return (if answers.first then [firstWords] else []) ++
        (if answers.second then [secondWords] else [])

def Line.executed (line : Line) (answers : Answers) : Option (List (List Token)) :=
  match line with
  | .exit => some []
  | .blank => some []
  | .foreground tokens =>
      if answers.first then executedCommand tokens answers else some []
  | .background tokens =>
      if answers.first then executedCommand tokens answers else some []
  | .piped tokens => if answers.pipe then executedPipe tokens answers else some []

/-- The arguments of the calls of `execvp` for a line. -/
def executed (input : List Char) (answers : Answers) : Option (List (List Token)) :=
  (readLine input).bind fun line => line.executed answers

/-! ## Malformed lines -/

def lineTokens (input : List Char) : List Token :=
  ((parseInput input).bind fun parsed => parsed.tokens.argv).getD []

def operators : List Token := [inputSymbol, outputSymbol, pipeSymbol]

def redirections : List Token := [inputSymbol, outputSymbol]

def Dangling (words : List Token) : Prop :=
  ∃ before symbol after, words = before ++ symbol :: after ∧ symbol ∈ redirections ∧
    ∀ name ∈ after.head?, name ∈ operators

def commandWord : List Token → Option Token
  | [] => none
  | word :: rest =>
      if word ∈ redirections then
        match rest with
        | [] => none
        | _ :: rest => commandWord rest
      else if word = pipeSymbol then none
      else some word

def sides (words : List Token) : List (List Token) :=
  if pipeSymbol ∈ words then
    [words.takeWhile fun word => word ≠ pipeSymbol,
      (words.dropWhile fun word => word ≠ pipeSymbol).tail]
  else [words]

def Malformed (words : List Token) : Prop :=
  Dangling words ∨ pipeSymbol ∈ words ∧ ∃ side ∈ sides words, commandWord side = none

def Begins (side : List Token) : Prop := ∃ word ∈ side.head?, word ∉ operators

/-- No call has a `NULL` command word, and a malformed line leads to none. -/
def NeverMalformed (input : List Char) : Prop :=
  ∀ answers, ∃ calls, executed input answers = some calls ∧ (∀ call ∈ calls, call ≠ []) ∧
    (Malformed (lineTokens input) → calls = [])

/-! ## The words of a call -/

private theorem keptWords_begins {side : List Token} (begins : Begins side) :
    keptWords side ≠ [] := by
  rcases begins with ⟨word, first, plain⟩
  cases side with
  | nil => cases first
  | cons head rest =>
      have same : head = word := Option.some.inj first
      subst same
      have notInput : head ≠ inputSymbol := fun same => plain (by rw [same]; decide)
      have notOutput : head ≠ outputSymbol := fun same => plain (by rw [same]; decide)
      rw [keptWords, cutAt_cons notInput, cutAt_cons notOutput]
      exact List.cons_ne_nil _ _

private theorem keptWords_redirection {symbol name : Token} {rest : List Token}
    (isRedirection : symbol ∈ redirections) (isName : name ∉ operators) :
    keptWords (symbol :: name :: rest) = [] := by
  have notInput : name ≠ inputSymbol := fun same => isName (by rw [same]; decide)
  rcases List.mem_pair.mp isRedirection with rfl | rfl
  · rw [keptWords, ← List.nil_append (inputSymbol :: name :: rest),
      cutAt_found (List.not_mem_nil), cutAt_absent (List.not_mem_nil)]
  · rw [keptWords, cutAt_cons (by decide), cutAt_cons notInput,
      ← List.nil_append (outputSymbol :: name :: _), cutAt_found (List.not_mem_nil)]

/-- Words without a file name missing, which do not begin with the pipe symbol, begin with a
command word if anything is left of them. -/
theorem begins_of_kept {side : List Token} (kept : keptWords side ≠ []) (named : ¬Dangling side)
    (noPipe : pipeSymbol ∉ side.head?) : Begins side := by
  cases side with
  | nil => exact absurd rfl kept
  | cons head rest =>
      refine ⟨head, rfl, ?_⟩
      intro isOperator
      by_cases isRedirection : head ∈ redirections
      · cases rest with
        | nil => exact named ⟨[], head, [], rfl, isRedirection, nofun⟩
        | cons name rest =>
            by_cases isName : name ∈ operators
            · apply named
              refine ⟨[], head, name :: rest, rfl, isRedirection, ?_⟩
              intro first isFirst
              rw [← Option.some.inj isFirst]
              exact isName
            · exact kept (keptWords_redirection isRedirection isName)
      · have isPipe : head = pipeSymbol := by
          simp only [operators, redirections, List.mem_cons, List.not_mem_nil, or_false] at *
          tauto
        exact noPipe (congrArg some isPipe)

/-! ## Sides -/

private theorem sides_piped {before after : List Token} (absent : pipeSymbol ∉ before) :
    sides (before ++ pipeSymbol :: after) = [before, after] := by
  rw [sides, if_pos (by simp), dropWhile_symbol absent, takeWhile_symbol absent, List.tail_cons]

private theorem sides_single {words : List Token} (absent : pipeSymbol ∉ words) :
    sides words = [words] := by
  rw [sides, if_neg absent]

private theorem sides_ne_nil (words : List Token) : sides words ≠ [] := by
  unfold sides
  split <;> exact List.cons_ne_nil _ _

private theorem dangling_of_side {words side : List Token} (isSide : side ∈ sides words)
    (dangling : Dangling side) : Dangling words := by
  rcases dangling with ⟨front, symbol, back, rfl, isRedirection, missing⟩
  by_cases member : pipeSymbol ∈ words
  · rcases List.eq_append_cons_of_mem member with ⟨before, after, rfl, absent⟩
    rw [sides_piped absent] at isSide
    rcases List.mem_pair.mp isSide with first | second
    · subst first
      refine ⟨front, symbol, back ++ pipeSymbol :: after, by simp, isRedirection, ?_⟩
      cases back with
      | nil =>
          intro name isName
          rw [← Option.some.inj isName]
          decide
      | cons name back => exact missing
    · subst second
      exact ⟨before ++ pipeSymbol :: front, symbol, back, by simp, isRedirection, missing⟩
  · rw [sides_single member, List.mem_singleton] at isSide
    subst isSide
    exact ⟨front, symbol, back, rfl, isRedirection, missing⟩

private theorem pipe_of_side {words rest : List Token} (isSide : pipeSymbol :: rest ∈ sides words) :
    pipeSymbol ∈ words := by
  by_contra absent
  rw [sides_single absent, List.mem_singleton] at isSide
  subst isSide
  exact absent List.mem_cons_self

private theorem not_dangling_of_plain {words : List Token}
    (plain : ∀ symbol ∈ redirections, symbol ∉ words) : ¬Dangling words := by
  intro dangling
  rcases dangling with ⟨before, symbol, after, rfl, isRedirection, _⟩
  exact plain symbol isRedirection (by simp)

private theorem commandWord_begins {side : List Token} (begins : Begins side) :
    commandWord side ≠ none := by
  rcases begins with ⟨word, first, plain⟩
  cases side with
  | nil => cases first
  | cons head rest =>
      have same : head = word := Option.some.inj first
      subst same
      simp only [operators, List.mem_cons, List.not_mem_nil, or_false, not_or] at plain
      unfold commandWord
      simp [redirections, plain]

/-! ## The calls for a line -/

/-- Nothing the line needs is refused. -/
def granted : Answers where
  pipe := true
  first := true
  second := true
  inputFile := true
  outputFile := true

private theorem executedCommand_eq (words : List Token) (behind : Tokens) (answers : Answers) :
    ∃ calls, executedCommand (Tokens.terminated words behind) answers = some calls ∧
      calls.Sublist [keptWords words] ∧ (answers = granted → calls = [keptWords words]) := by
  rcases redirect_terminated words behind with ⟨redirected, rest, taken, tokens, _⟩
  have argv : redirected.tokens.argv = some (keptWords words) := by
    rw [tokens, Tokens.argv_terminated]
  simp only [executedCommand, taken, argv, Option.bind_eq_bind, Option.bind_some]
  split
  next refused =>
    refine ⟨[], rfl, List.nil_sublist _, ?_⟩
    intro isGranted
    exact absurd (isGranted ▸ rfl) refused.2
  next =>
    split
    next refused =>
      refine ⟨[], rfl, List.nil_sublist _, ?_⟩
      intro isGranted
      exact absurd (isGranted ▸ rfl) refused.2
    next => exact ⟨_, rfl, List.Sublist.refl _, fun _ => rfl⟩

private theorem executedPipe_eq {before after : List Token} (behind : Tokens) (answers : Answers)
    (absent : pipeSymbol ∉ before) :
    executedPipe (Tokens.terminated (before ++ pipeSymbol :: after) behind) answers =
      some ((if answers.first then [keptWords before] else []) ++
        (if answers.second then [keptWords after] else [])) := by
  rcases @pipeCommands_eq before after behind absent with
    ⟨first, second, taken, firstArgv, secondArgv⟩
  simp only [executedPipe, taken, firstArgv, secondArgv, Option.bind_eq_bind, Option.bind_some]
  rfl

private theorem lineTokens_exit {input : List Char} (isExit : cString input = "exit\n".toList) :
    lineTokens input = ["exit".toList] := by
  rw [lineTokens, parseInput, isExit]
  decide +kernel

/-- What is executed of these words is what is left of their sides, unless something fails. -/
def Executes (words : List Token) (answers : Answers) (executed : Option (List (List Token))) :
    Prop :=
  ∃ calls, executed = some calls ∧ calls.Sublist ((sides words).map keptWords) ∧
    (answers = granted → calls = (sides words).map keptWords)

private theorem piped_executes {words : List Token} (behind : Tokens) (answers : Answers)
    (piped : pipeSymbol ∈ words) :
    Executes words answers ((Line.piped (Tokens.terminated words behind)).executed answers) := by
  rcases List.eq_append_cons_of_mem piped with ⟨before, after, rfl, absent⟩
  rw [Executes, sides_piped absent, Line.executed, executedPipe_eq behind answers absent]
  split
  next =>
    refine ⟨_, rfl, ?_, ?_⟩
    · cases answers.first <;> cases answers.second <;> simp
    · intro isGranted
      subst isGranted
      rfl
  next refused =>
    refine ⟨[], rfl, List.nil_sublist _, ?_⟩
    intro isGranted
    exact absurd (isGranted ▸ rfl) refused

private theorem command_executes {words : List Token} (behind : Tokens) (answers : Answers)
    (single : pipeSymbol ∉ words) (background : Bool) :
    Executes words answers
      ((if background then Line.background (Tokens.terminated words behind)
        else .foreground (Tokens.terminated words behind)).executed answers) := by
  have command : (if background then Line.background (Tokens.terminated words behind)
      else .foreground (Tokens.terminated words behind)).executed answers =
        if answers.first then executedCommand (Tokens.terminated words behind) answers
        else some [] := by
    cases background <;> rfl
  rw [Executes, command, sides_single single]
  split
  next => exact executedCommand_eq words behind answers
  next refused =>
    refine ⟨[], rfl, List.nil_sublist _, ?_⟩
    intro isGranted
    exact absurd (isGranted ▸ rfl) refused

theorem executed_eq (input : List Char) (answers : Answers) :
    (cString input = "exit\n".toList ∨ lineTokens input = []) ∧ executed input answers = some [] ∨
      cString input ≠ "exit\n".toList ∧ lineTokens input ≠ [] ∧
        Executes (lineTokens input) answers (executed input answers) := by
  rcases readLine_eq input with ⟨words, behind, background, parsed, read⟩
  have tokens : lineTokens input = words := by
    rw [lineTokens, parsed, Option.bind_some, Tokens.argv_terminated, Option.getD_some]
  rw [executed, read, Option.bind_some, tokens]
  split
  next isExit => exact .inl ⟨.inl isExit, rfl⟩
  next proceeds =>
    split
    next empty => exact .inl ⟨.inr empty, rfl⟩
    next nonempty =>
      right
      refine ⟨proceeds, nonempty, ?_⟩
      split
      next piped => exact piped_executes behind answers piped
      next single => exact command_executes behind answers single background

/-- In a line that is not malformed, a side of which anything is left begins with its command
word. -/
theorem begins_of_not_malformed {words side : List Token} (wellFormed : ¬Malformed words)
    (isSide : side ∈ sides words) (kept : keptWords side ≠ []) : Begins side := by
  apply begins_of_kept kept
  · exact fun dangling => wellFormed (.inl (dangling_of_side isSide dangling))
  · intro first
    cases side with
    | nil => cases first
    | cons head rest =>
        have same : head = pipeSymbol := Option.some.inj first
        subst same
        have missing : commandWord (pipeSymbol :: rest) = none := by
          unfold commandWord
          rw [if_neg (by decide), if_pos rfl]
        exact wellFormed (.inr ⟨pipe_of_side isSide, _, isSide, missing⟩)

private theorem exit_wellFormed :
    (∀ side ∈ sides ["exit".toList], Begins side) ∧ ¬Dangling ["exit".toList] := by
  refine ⟨?_, not_dangling_of_plain (by decide +kernel)⟩
  intro side isSide
  rw [sides_single (by decide +kernel), List.mem_singleton] at isSide
  subst isSide
  exact ⟨_, rfl, by decide +kernel⟩

private theorem neverMalformed_sides {input : List Char} (never : NeverMalformed input)
    (proceeds : cString input ≠ "exit\n".toList) (nonempty : lineTokens input ≠ []) :
    ¬Malformed (lineTokens input) ∧ ∀ side ∈ sides (lineTokens input), keptWords side ≠ [] := by
  rcases never granted with ⟨calls, executes, words, quiet⟩
  have every : calls = (sides (lineTokens input)).map keptWords := by
    rcases executed_eq input granted with ⟨isExit | empty, _⟩ | ⟨_, _, _, same, _, all⟩
    · exact absurd isExit proceeds
    · exact absurd empty nonempty
    · rw [executes, Option.some.injEq] at same
      rw [same]
      exact all rfl
  constructor
  · intro malformed
    rw [quiet malformed] at every
    exact sides_ne_nil _ (List.map_eq_nil_iff.mp every.symm)
  · intro side isSide
    apply words
    rw [every]
    exact List.mem_map_of_mem isSide

/-- A line is never executed in spite of being malformed exactly when both its sides begin with
their command words and no `<` or `>` is without a file name: nothing is rejected. -/
theorem neverMalformed_iff (input : List Char) :
    NeverMalformed input ↔ lineTokens input = [] ∨
      ((∀ side ∈ sides (lineTokens input), Begins side) ∧ ¬Dangling (lineTokens input)) := by
  constructor
  · intro never
    by_cases empty : lineTokens input = []
    · exact .inl empty
    · right
      by_cases isExit : cString input = "exit\n".toList
      · rw [lineTokens_exit isExit]
        exact exit_wellFormed
      · rcases neverMalformed_sides never isExit empty with ⟨wellFormed, kept⟩
        exact ⟨fun side isSide => begins_of_not_malformed wellFormed isSide (kept side isSide),
          fun dangling => wellFormed (.inl dangling)⟩
  · intro condition answers
    rcases executed_eq input answers with ⟨_, nothing⟩ | ⟨_, nonempty, calls, executes, within, _⟩
    · exact ⟨[], nothing, nofun, fun _ => rfl⟩
    · rcases condition.resolve_left nonempty with ⟨begins, named⟩
      refine ⟨calls, executes, ?_, ?_⟩
      · intro call isCall
        rcases List.mem_map.mp (within.subset isCall) with ⟨side, isSide, rfl⟩
        exact keptWords_begins (begins side isSide)
      · intro malformed
        rcases malformed with dangling | ⟨_, side, isSide, missing⟩
        · exact absurd dangling named
        · exact absurd missing (commandWord_begins (begins side isSide))

private theorem not_neverMalformed {input : List Char} {answers : Answers}
    {calls : List (List Token)} (executes : executed input answers = some calls)
    (wrong : [] ∈ calls ∨ calls ≠ [] ∧ Malformed (lineTokens input)) : ¬NeverMalformed input := by
  intro never
  rcases never answers with ⟨_, same, words, quiet⟩
  rw [executes, Option.some.injEq] at same
  subst same
  rcases wrong with null | ⟨some, malformed⟩
  · exact words [] null rfl
  · exact some (quiet malformed)

/-- `cat <` runs `cat` with the argument `<`; the second command of `ls |` is `NULL`. -/
theorem malformed_lines_executed :
    executed "cat <\n".toList granted = some [["cat".toList, "<".toList]] ∧
      ¬NeverMalformed "cat <\n".toList ∧
      executed "ls |\n".toList granted = some [["ls".toList], []] ∧
      ¬NeverMalformed "ls |\n".toList := by
  have redirected : executed "cat <\n".toList granted = some [["cat".toList, "<".toList]] := by
    decide +kernel
  have piped : executed "ls |\n".toList granted = some [["ls".toList], []] := by
    decide +kernel
  have dangling : Dangling (lineTokens "cat <\n".toList) :=
    ⟨["cat".toList], inputSymbol, [], by decide +kernel, by decide, nofun⟩
  refine ⟨redirected, ?_, piped, ?_⟩
  · exact not_neverMalformed redirected (.inr ⟨List.cons_ne_nil _ _, .inl dangling⟩)
  · exact not_neverMalformed piped (.inl (by simp))

end SystemsRepository.ToyShell
