import SystemsRepository.ToyShell.Shell

/-! # The use of the token array

What `parse_input` makes of the words of a line, and that no pass over the array
leaves it.
-/

namespace SystemsRepository.ToyShell

/-! ## Words -/

/-- The array has these words, the last of which may be an `&`. -/
def ParsedInput.Holds (parsed : ParsedInput) (words : List Token) : Prop :=
  (∃ behind, parsed.tokens = Tokens.terminated (withoutAmpersand words) behind) ∧
    (parsed.isBackgroundProcess = true ↔ words.getLast? = some ['&']) ∧
    parsed.tokenCount = (withoutAmpersand words).length

def Tokenised (input : List Char) : Prop :=
  ∃ parsed, parseInput input = some parsed ∧ parsed.Holds (lineWords input)

/-- The array holds the first words of the line, as many as it has room for in front of
`NULL`. -/
theorem parseInput_holds (input : List Char) :
    ∃ parsed, parseInput input = some parsed ∧
      parsed.Holds ((lineWords input).take (maxTokens - 1)) := by
  rcases parseInput_words input with ⟨behind, parsed, _⟩
  exact ⟨_, parsed, ⟨behind, rfl⟩, by simp, rfl⟩

/-- A line of 50 words, which fits the buffer, loses the last one. -/
theorem fiftieth_word_lost :
    let line := (List.replicate 50 ['a', ' ']).flatten ++ ['\n']
    line.length < maxBufferSize ∧ lineWords line = List.replicate 50 ['a'] ∧
      (parseInput line).map ParsedInput.tokenCount = some 49 ∧ ¬Tokenised line := by
  intro line
  have words : lineWords line = List.replicate 50 ['a'] := by decide +kernel
  have count : (parseInput line).map ParsedInput.tokenCount = some 49 := by decide +kernel
  refine ⟨by decide +kernel, words, count, ?_⟩
  intro tokenised
  rcases tokenised with ⟨parsed, parses, _, _, counted⟩
  rw [parses, Option.map_some, Option.some.injEq, counted, words] at count
  exact absurd count (by decide +kernel)

/-! ## Bounds -/

private theorem parseInput_length {input : List Char} {parsed : ParsedInput}
    (parses : parseInput input = some parsed) : parsed.tokens.length = maxTokens := by
  rcases parseInput_words input with ⟨behind, same, size⟩
  rw [parses, Option.some.injEq] at same
  rw [same]
  simp only [Tokens.terminated, List.length_append, List.length_map, List.length_cons]
  omega

private theorem pipeCommands_length {tokens : Tokens} {first second : Redirected}
    (taken : pipeCommands tokens = some (some (first, second))) :
    ∃ position, pipePosition tokens (tokens.length + 1) 0 = some (position, true) ∧
      first.tokens.length = tokens.length ∧
      position + 1 + second.tokens.length = tokens.length := by
  rcases Option.bind_eq_some_iff.mp taken with ⟨⟨position, found⟩, walked, taken⟩
  cases found with
  | false => cases taken
  | true =>
      rcases Option.bind_eq_some_iff.mp taken with ⟨halves, storing, taken⟩
      rcases Option.bind_eq_some_iff.mp taken with ⟨one, firstCall, taken⟩
      rcases Option.bind_eq_some_iff.mp taken with ⟨two, secondCall, taken⟩
      cases taken
      have stored := Tokens.store_length storing
      have firstLength := redirect_length firstCall
      have secondLength := redirect_length secondCall
      rw [List.length_drop] at secondLength
      refine ⟨position, walked, by omega, by omega⟩

def CommandContained (tokens : Tokens) : Prop :=
  tokens.length = maxTokens ∧ ∃ redirected words, redirect tokens = some redirected ∧
    redirected.tokens.length = maxTokens ∧ redirected.tokens.argv = some words

/-- So are those over the array with a pipe, whose second half begins behind the symbol. -/
def PipeContained (tokens : Tokens) : Prop :=
  tokens.length = maxTokens ∧ ∃ position first second firstWords secondWords,
    pipePosition tokens (tokens.length + 1) 0 = some (position, true) ∧
    pipeCommands tokens = some (some (first, second)) ∧
    first.tokens.length = maxTokens ∧ first.tokens.argv = some firstWords ∧
    position + 1 + second.tokens.length = maxTokens ∧ second.tokens.argv = some secondWords

def Line.Contained : Line → Prop
  | .exit => True
  | .blank => True
  | .foreground tokens => CommandContained tokens
  | .background tokens => CommandContained tokens
  | .piped tokens => PipeContained tokens

private theorem commandContained {words : List Token} {behind : Tokens}
    (size : (Tokens.terminated words behind).length = maxTokens) :
    CommandContained (Tokens.terminated words behind) := by
  rcases redirect_terminated words behind with ⟨redirected, rest, done, tokens, _⟩
  refine ⟨size, redirected, keptWords words, done, ?_, ?_⟩
  · rw [redirect_length done, size]
  · rw [tokens, Tokens.argv_terminated]

private theorem pipeContained {words : List Token} {behind : Tokens} (piped : pipeSymbol ∈ words)
    (size : (Tokens.terminated words behind).length = maxTokens) :
    PipeContained (Tokens.terminated words behind) := by
  rcases List.eq_append_cons_of_mem piped with ⟨before, after, split, absent⟩
  rw [split] at size
  rw [split]
  rcases @pipeCommands_eq before after behind absent with
    ⟨first, second, taken, firstWords, secondWords⟩
  rcases pipeCommands_length taken with ⟨position, walked, firstLength, secondLength⟩
  rw [size] at firstLength secondLength
  exact ⟨size, position, first, second, _, _, walked, taken, firstLength, firstWords,
    secondLength, secondWords⟩

/-- For no line does a pass access the array outside its bounds, or an entry that the line
has not set. -/
theorem readLine_contained (input : List Char) :
    ∃ line, readLine input = some line ∧ line.Contained := by
  rcases readLine_eq input with ⟨words, behind, background, parsed, read⟩
  have size := parseInput_length parsed
  refine ⟨_, read, ?_⟩
  split
  next => trivial
  next =>
    split
    next => trivial
    next =>
      split
      next piped => exact pipeContained piped size
      next =>
        split
        next => exact commandContained size
        next => exact commandContained size

end SystemsRepository.ToyShell
