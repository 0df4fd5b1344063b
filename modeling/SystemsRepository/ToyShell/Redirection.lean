import SystemsRepository.ToyShell.Tokens
import Mathlib.Data.List.Basic

/-! # Both redirections of a command

The input redirection is taken out of the array first, then the output one. The
function that takes one out ends the array where its symbol stood, so what follows
a redirection on the command line is lost.
-/

namespace SystemsRepository.ToyShell

structure Redirected where
  tokens : Tokens
  inputFile : Option Token
  outputFile : Option Token
  deriving DecidableEq, Repr

/-- What `execute_command` and `pipe_out` do with the tokens of a command. -/
def redirect (tokens : Tokens) : Option Redirected := do
  let input ← handleInputRedirection tokens none
  let output ← handleOutputRedirection input.tokens none
  return { tokens := output.tokens, inputFile := input.file, outputFile := output.file }

/-- The words of a command that are left of its words on the line. -/
def keptWords (words : List Token) : List Token := cutAt outputSymbol (cutAt inputSymbol words)

/-- Both redirections can be taken out of any words, and what is behind them stays. -/
theorem redirect_terminated (words : List Token) (behind : Tokens) :
    ∃ redirected rest, redirect (Tokens.terminated words behind) = some redirected ∧
      redirected.tokens = Tokens.terminated (keptWords words) rest ∧
      (keptWords words).length ≤ words.length ∧
      rest.drop (words.length - (keptWords words).length) = behind := by
  have room : ∀ (words : List Token) (behind : Tokens),
      words.length < (Tokens.terminated words behind).length + 1 := by
    intro words behind
    simp only [Tokens.terminated, List.length_append, List.length_map]
    omega
  rcases @scanRedirection_terminated inputSymbol
    "Error: No input file specified after '<'\n".toList none behind words _ (room words behind) with
    ⟨input, rest, inputCall, tokens, fewer, same⟩
  rcases @scanRedirection_terminated outputSymbol
    "Error: No output file specified after '>'\n".toList none rest (cutAt inputSymbol words) _
    (room _ rest) with ⟨output, final, outputCall, finalTokens, less, sameRest⟩
  rw [← tokens] at outputCall
  refine ⟨{ tokens := output.tokens, inputFile := input.file, outputFile := output.file },
    final, ?_, finalTokens, Nat.le_trans less fewer, ?_⟩
  · rw [redirect, handleInputRedirection, inputCall, Option.bind_eq_bind, Option.bind_some,
      handleOutputRedirection, outputCall]
    rfl
  · have distance : words.length - (keptWords words).length =
        ((cutAt inputSymbol words).length - (keptWords words).length) +
          (words.length - (cutAt inputSymbol words).length) := by
      unfold keptWords
      omega
    rw [distance, ← List.drop_drop, keptWords, sameRest, same]

theorem redirect_length {tokens : Tokens} {redirected : Redirected}
    (done : redirect tokens = some redirected) : redirected.tokens.length = tokens.length := by
  rcases Option.bind_eq_some_iff.mp done with ⟨input, inputCall, done⟩
  rcases Option.bind_eq_some_iff.mp done with ⟨output, outputCall, done⟩
  cases done
  rw [scanRedirection_length outputCall, scanRedirection_length inputCall]

/-! ## Command lines -/

inductive Direction
  | input
  | output
  deriving DecidableEq, Repr

def Direction.symbol : Direction → Token
  | .input => inputSymbol
  | .output => outputSymbol

inductive Item
  | argument (token : Token)
  | redirect (direction : Direction) (file : Token)
  deriving DecidableEq, Repr

namespace Item

def tokens : Item → List Token
  | .argument token => [token]
  | .redirect direction file => [direction.symbol, file]

def argument? : Item → Option Token
  | .argument token => some token
  | .redirect _ _ => none

def file? (direction : Direction) : Item → Option Token
  | .argument _ => none
  | .redirect other file => if other = direction then some file else none

def rank : Item → Nat
  | .argument _ => 0
  | .redirect .output _ => 1
  | .redirect .input _ => 2

/-- The words of the item are not themselves `<` or `>`. -/
def Plain : Item → Prop
  | .argument token => ∀ direction : Direction, token ≠ direction.symbol
  | .redirect _ file => ∀ direction : Direction, file ≠ direction.symbol

end Item

def commandLine (command : Token) (items : List Item) : List Token :=
  command :: items.flatMap Item.tokens

def arguments (items : List Item) : List Token := items.filterMap Item.argument?

def fileOf (direction : Direction) (items : List Item) : Option Token :=
  items.findSome? (Item.file? direction)

def inFrontOf (direction : Direction) (items : List Item) : List Item :=
  items.takeWhile fun item => item.file? direction = none

/-- At most one redirection of each direction, and no other `<` or `>`. -/
structure WellFormed (command : Token) (items : List Item) : Prop where
  command : ∀ direction : Direction, command ≠ direction.symbol
  plain : ∀ item ∈ items, item.Plain
  once : ∀ direction, (items.filterMap (Item.file? direction)).length ≤ 1

/-- The array is left with the command and its arguments, and both files are set. -/
def Parsed (command : Token) (items : List Item) (tokens : Tokens) : Prop :=
  ∃ after, redirect tokens = some
      { tokens := after, inputFile := fileOf .input items, outputFile := fileOf .output items } ∧
    after.argv = some (command :: arguments items)

/-! ## One redirection -/

private theorem symbol_not_mem {direction : Direction} {item : Item} (plain : item.Plain)
    (other : item.file? direction = none) : direction.symbol ∉ item.tokens := by
  cases item with
  | argument token => simpa [Item.tokens, eq_comm] using plain direction
  | redirect found file =>
      have different : found ≠ direction := by
        intro same
        simp [Item.file?, same] at other
      have symbols : direction.symbol ≠ found.symbol := by
        cases direction <;> cases found <;> first | exact absurd rfl different | decide
      simpa [Item.tokens, symbols, eq_comm] using plain direction

private theorem symbol_not_mem_commandLine {direction : Direction} {command : Token}
    {items : List Item} (commandPlain : ∀ direction : Direction, command ≠ direction.symbol)
    (plain : ∀ item ∈ items, item.Plain) (others : ∀ item ∈ items, item.file? direction = none) :
    direction.symbol ∉ commandLine command items := by
  intro member
  rcases List.mem_cons.mp member with same | member
  · exact commandPlain direction same.symm
  · rcases List.mem_flatMap.mp member with ⟨item, inside, isToken⟩
    exact symbol_not_mem (plain item inside) (others item inside) isToken

private theorem split_at_redirect (direction : Direction) : ∀ items : List Item,
    ((∀ item ∈ items, item.file? direction = none) ∧ inFrontOf direction items = items ∧
      fileOf direction items = none) ∨
    ∃ front file back, items = front ++ .redirect direction file :: back ∧
      (∀ item ∈ front, item.file? direction = none) ∧ inFrontOf direction items = front ∧
      fileOf direction items = some file
  | [] => .inl ⟨nofun, rfl, rfl⟩
  | item :: items => by
      cases found : item.file? direction with
      | some file =>
          right
          cases item with
          | argument token => cases found
          | redirect other name =>
              by_cases same : other = direction
              · simp only [Item.file?, same, if_true, Option.some.injEq] at found
                subst same found
                exact ⟨[], name, items, rfl, nofun, by simp [inFrontOf, Item.file?],
                  by simp [fileOf, Item.file?]⟩
              · simp [Item.file?, same] at found
      | none =>
          rcases split_at_redirect direction items with
            ⟨others, front, file⟩ | ⟨front, file, back, split, others, isFront, isFile⟩
          · left
            refine ⟨?_, ?_, ?_⟩
            · exact List.forall_mem_cons.mpr ⟨found, others⟩
            · rw [inFrontOf] at front ⊢
              simp [found, front]
            · rw [fileOf] at file ⊢
              simp [found, file]
          · right
            refine ⟨item :: front, file, back, by rw [split]; rfl, ?_, ?_, ?_⟩
            · exact List.forall_mem_cons.mpr ⟨found, others⟩
            · rw [inFrontOf] at isFront ⊢
              simp [found, isFront]
            · rw [fileOf] at isFile ⊢
              simp [found, isFile]

private theorem scanRedirection_commandLine {direction : Direction} {command : Token}
    {items : List Item} (commandPlain : ∀ direction : Direction, command ≠ direction.symbol)
    (plain : ∀ item ∈ items, item.Plain) (error : List Char) (behind : Tokens) :
    ∃ status rest, scanRedirection direction.symbol error
        ((Tokens.terminated (commandLine command items) behind).length + 1) 0
        (Tokens.terminated (commandLine command items) behind) none =
      some
        { status, error := []
          tokens := Tokens.terminated (commandLine command (inFrontOf direction items)) rest
          file := fileOf direction items } := by
  rcases split_at_redirect direction items with
    ⟨others, front, file⟩ | ⟨front, file, back, split, others, isFront, isFile⟩
  · refine ⟨0, behind, ?_⟩
    rw [front, file]
    apply scanRedirection_absent (symbol_not_mem_commandLine commandPlain plain others)
    simp only [Tokens.terminated, List.length_append, List.length_map]
    omega
  · rw [isFront, isFile]
    have absent : direction.symbol ∉ commandLine command front := by
      apply symbol_not_mem_commandLine commandPlain _ others
      intro item member
      exact plain item (by simp [split, member])
    have words : commandLine command items =
        commandLine command front ++ direction.symbol :: file :: back.flatMap Item.tokens := by
      simp [commandLine, split, Item.tokens]
    have enough : (commandLine command front).length <
        (Tokens.terminated (commandLine command items) behind).length + 1 := by
      rw [words]
      simp only [Tokens.terminated, List.length_append, List.length_map]
      omega
    rw [words] at enough ⊢
    rcases scanRedirection_found absent enough with ⟨middle, _, scanned⟩
    exact ⟨1, _, scanned⟩

/-! ## Both -/

private theorem redirect_commandLine {command : Token} {items : List Item}
    (wellFormed : WellFormed command items) (behind : Tokens) :
    ∃ rest, redirect (Tokens.terminated (commandLine command items) behind) = some
      { tokens := Tokens.terminated
          (commandLine command (inFrontOf .output (inFrontOf .input items))) rest
        inputFile := fileOf .input items
        outputFile := fileOf .output (inFrontOf .input items) } := by
  have frontPlain : ∀ item ∈ inFrontOf .input items, item.Plain := fun item member =>
    wellFormed.plain item ((List.takeWhile_sublist _).subset member)
  rcases @scanRedirection_commandLine .input _ _ wellFormed.command wellFormed.plain
    "Error: No input file specified after '<'\n".toList behind with ⟨_, middle, input⟩
  rcases @scanRedirection_commandLine .output _ _ wellFormed.command frontPlain
    "Error: No output file specified after '>'\n".toList middle with ⟨_, rest, output⟩
  have inputCall : handleInputRedirection (Tokens.terminated (commandLine command items) behind)
      none = _ := input
  have outputCall : handleOutputRedirection
      (Tokens.terminated (commandLine command (inFrontOf .input items)) middle) none = _ := output
  refine ⟨rest, ?_⟩
  rw [redirect, inputCall, Option.bind_eq_bind, Option.bind_some, outputCall]
  rfl

theorem arguments_eq_nil_iff {items : List Item} :
    arguments items = [] ↔ ∀ item ∈ items, item.argument? = none := by
  simp [arguments, List.filterMap_eq_nil_iff]

private theorem fileOf_eq_none_iff {direction : Direction} {items : List Item} :
    fileOf direction items = none ↔ ∀ item ∈ items, item.file? direction = none := by
  simp [fileOf, List.findSome?_eq_none_iff]

private theorem once_tail {direction : Direction} {item : Item} {items : List Item}
    (once : ((item :: items).filterMap (Item.file? direction)).length ≤ 1) :
    (items.filterMap (Item.file? direction)).length ≤ 1 := by
  rw [List.filterMap_cons] at once
  split at once
  · exact once
  · rw [List.length_cons] at once
    omega

private theorem none_behind {direction : Direction} {file : Token} {items : List Item}
    (once : ((Item.redirect direction file :: items).filterMap
      (Item.file? direction)).length ≤ 1) :
    ∀ item ∈ items, item.file? direction = none := by
  rw [List.filterMap_cons_some (by simp [Item.file?] : Item.file? direction _ = some file),
    List.length_cons] at once
  exact List.filterMap_eq_nil_iff.mp (List.eq_nil_of_length_eq_zero (by omega))

/-! ## What is lost -/

namespace Item

theorem argument?_eq_none_iff {item : Item} : item.argument? = none ↔ item.rank ≠ 0 := by
  cases item with
  | argument token => simp [argument?, rank]
  | redirect direction file => cases direction <;> simp [argument?, rank]

theorem file?_output_eq_none_iff {item : Item} :
    item.file? .output = none ↔ item.rank ≠ 1 := by
  cases item with
  | argument token => simp [file?, rank]
  | redirect direction file => cases direction <;> simp [file?, rank]

theorem file?_input_eq_none_iff {item : Item} : item.file? .input = none ↔ item.rank ≠ 2 := by
  cases item with
  | argument token => simp [file?, rank]
  | redirect direction file => cases direction <;> simp [file?, rank]

private theorem rank_le (item : Item) : item.rank ≤ 2 := by
  cases item with
  | argument token => exact Nat.zero_le 2
  | redirect direction file => cases direction <;> simp [rank]

end Item

/-- The two scans miss neither the output file nor an argument. -/
def NothingLost (items : List Item) : Prop :=
  fileOf .output (inFrontOf .input items) = fileOf .output items ∧
    (inFrontOf .output (inFrontOf .input items)).flatMap Item.tokens = arguments items

private theorem nothingLost_argument {token : Token} {items : List Item} :
    NothingLost (.argument token :: items) ↔ NothingLost items := by
  have first : inFrontOf .output (inFrontOf .input (.argument token :: items)) =
      .argument token :: inFrontOf .output (inFrontOf .input items) := rfl
  have inputFile : fileOf .output (inFrontOf .input (.argument token :: items)) =
      fileOf .output (inFrontOf .input items) := rfl
  have outputFile : fileOf .output (.argument token :: items) = fileOf .output items := rfl
  have words : arguments (.argument token :: items) = token :: arguments items := rfl
  rw [NothingLost, first, inputFile, outputFile, words]
  simp [NothingLost, Item.tokens]

private theorem nothingLost_input {file : Token} {items : List Item}
    (noInput : ∀ item ∈ items, item.file? .input = none) :
    NothingLost (.redirect .input file :: items) ↔ items = [] := by
  have stops : inFrontOf .input (.redirect .input file :: items) = [] := rfl
  have outputFile : fileOf .output (.redirect .input file :: items) = fileOf .output items := rfl
  have words : arguments (.redirect .input file :: items) = arguments items := rfl
  rw [NothingLost, stops, outputFile, words]
  constructor
  · intro nothing
    have noOutput := fileOf_eq_none_iff.mp nothing.1.symm
    have noArgument := arguments_eq_nil_iff.mp nothing.2.symm
    apply List.eq_nil_iff_forall_not_mem.mpr
    intro item member
    have notInput := Item.file?_input_eq_none_iff.mp (noInput item member)
    have notOutput := Item.file?_output_eq_none_iff.mp (noOutput item member)
    have notArgument := Item.argument?_eq_none_iff.mp (noArgument item member)
    have bound := item.rank_le
    omega
  · intro empty
    subst empty
    exact ⟨rfl, rfl⟩

private theorem nothingLost_output {file : Token} {items : List Item} :
    NothingLost (.redirect .output file :: items) ↔ arguments items = [] := by
  have stops : inFrontOf .output (inFrontOf .input (.redirect .output file :: items)) = [] := rfl
  have inputFile : fileOf .output (inFrontOf .input (.redirect .output file :: items)) =
      some file := rfl
  have outputFile : fileOf .output (.redirect .output file :: items) = some file := rfl
  have words : arguments (.redirect .output file :: items) = arguments items := rfl
  rw [NothingLost, stops, inputFile, outputFile, words]
  constructor
  · intro nothing
    exact nothing.2.symm
  · intro noArgument
    exact ⟨rfl, noArgument.symm⟩

theorem nothingLost_iff : ∀ {items : List Item},
    (∀ direction, (items.filterMap (Item.file? direction)).length ≤ 1) →
    (NothingLost items ↔ items.Pairwise fun earlier later => earlier.rank ≤ later.rank)
  | [], _ => by simp [NothingLost, inFrontOf, fileOf, arguments]
  | .argument token :: items, once => by
      have rest := nothingLost_iff fun direction => once_tail (once direction)
      rw [nothingLost_argument, rest, List.pairwise_cons]
      simp [Item.rank]
  | .redirect .input file :: items, once => by
      have noInput := none_behind (once .input)
      rw [nothingLost_input noInput, List.pairwise_cons]
      constructor
      · intro empty
        subst empty
        exact ⟨nofun, .nil⟩
      · intro ranks
        apply List.eq_nil_iff_forall_not_mem.mpr
        intro item member
        have high : 2 ≤ item.rank := ranks.1 item member
        have notInput := Item.file?_input_eq_none_iff.mp (noInput item member)
        have bound := item.rank_le
        omega
  | .redirect .output file :: items, once => by
      have noOutput := none_behind (once .output)
      rw [nothingLost_output, arguments_eq_nil_iff, List.pairwise_cons]
      constructor
      · intro noArgument
        have inputs : ∀ item ∈ items, item.rank = 2 := by
          intro item member
          have notOutput := Item.file?_output_eq_none_iff.mp (noOutput item member)
          have notArgument := Item.argument?_eq_none_iff.mp (noArgument item member)
          have bound := item.rank_le
          omega
        constructor
        · intro item member
          rw [inputs item member]
          exact (by decide : 1 ≤ 2)
        · apply List.pairwise_of_forall_mem_list
          intro earlier earlierMember later laterMember
          exact Nat.le_of_eq
            ((inputs earlier earlierMember).trans (inputs later laterMember).symm)
      · intro ranks item member
        have high : 1 ≤ item.rank := ranks.1 item member
        exact Item.argument?_eq_none_iff.mpr (by omega)

/-- The redirections of a command line are parsed as they should be exactly when the
arguments stand in front of both, and `> g` in front of `< f`. -/
theorem redirections_parsed_iff {command : Token} {items : List Item}
    (wellFormed : WellFormed command items) (behind : Tokens) :
    Parsed command items (Tokens.terminated (commandLine command items) behind) ↔
      items.Pairwise fun earlier later => earlier.rank ≤ later.rank := by
  rcases redirect_commandLine wellFormed behind with ⟨rest, redirected⟩
  rw [← nothingLost_iff wellFormed.once, NothingLost, Parsed, redirected]
  constructor
  · rintro ⟨after, same, left⟩
    simp only [Option.some.injEq, Redirected.mk.injEq, true_and] at same
    rw [← same.1, Tokens.argv_terminated, Option.some.injEq, commandLine,
      List.cons.injEq] at left
    exact ⟨same.2, left.2⟩
  · rintro ⟨file, words⟩
    refine ⟨_, by rw [file], ?_⟩
    rw [Tokens.argv_terminated, commandLine, words]

/-- `sort -r > g < f` -/
theorem redirections_parsed_of_sort :
    Parsed ['s', 'o', 'r', 't']
      [.argument ['-', 'r'], .redirect .output ['g'], .redirect .input ['f']]
      (Tokens.terminated (commandLine ['s', 'o', 'r', 't']
        [.argument ['-', 'r'], .redirect .output ['g'], .redirect .input ['f']]) [.stale]) := by
  have wellFormed : WellFormed ['s', 'o', 'r', 't']
      [.argument ['-', 'r'], .redirect .output ['g'], .redirect .input ['f']] := by
    refine ⟨?_, ?_, ?_⟩
    · intro direction
      cases direction <;> decide
    · intro item member
      simp only [List.mem_cons, List.not_mem_nil, or_false] at member
      rcases member with rfl | rfl | rfl <;> intro direction <;> cases direction <;> decide
    · intro direction
      cases direction <;> decide
  exact (redirections_parsed_iff wellFormed [.stale]).mpr (by decide)

/-- The README's `sort < unsorted.txt > sorted.txt` loses its output file. -/
theorem sort_loses_output :
    redirect (Tokens.terminated (commandLine "sort".toList
      [.redirect .input "unsorted.txt".toList, .redirect .output "sorted.txt".toList]) []) =
      some
        { tokens := [.word "sort".toList, .null, .word "sorted.txt".toList,
            .word ">".toList, .word "sorted.txt".toList, .null]
          inputFile := some "unsorted.txt".toList
          outputFile := none } ∧
    ¬Parsed "sort".toList
      [.redirect .input "unsorted.txt".toList, .redirect .output "sorted.txt".toList]
      (Tokens.terminated (commandLine "sort".toList
        [.redirect .input "unsorted.txt".toList, .redirect .output "sorted.txt".toList]) []) := by
  have computed : redirect (Tokens.terminated (commandLine "sort".toList
      [.redirect .input "unsorted.txt".toList, .redirect .output "sorted.txt".toList]) []) =
      some
        { tokens := [.word "sort".toList, .null, .word "sorted.txt".toList,
            .word ">".toList, .word "sorted.txt".toList, .null]
          inputFile := some "unsorted.txt".toList
          outputFile := none } := by
    decide
  refine ⟨computed, ?_⟩
  rintro ⟨after, parsed, _⟩
  rw [computed] at parsed
  simp only [Option.some.injEq, Redirected.mk.injEq] at parsed
  exact absurd parsed.2.2 (by decide)

end SystemsRepository.ToyShell
