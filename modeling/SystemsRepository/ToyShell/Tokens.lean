import Mathlib.Data.List.TakeWhile

/-! # The token array of `tiny-shell.c`

`tokens` and the functions that take a redirection out of it. A function is `none`
where it accesses the array outside its bounds or reads an entry that has not been
set for this input line.
-/

namespace SystemsRepository.ToyShell

abbrev Token := List Char

/-- An entry of the array; it is stale until the current line sets it. -/
inductive Slot
  | stale
  | null
  | word (token : Token)
  deriving DecidableEq, Repr

abbrev Tokens := List Slot

namespace Tokens

/-- Read an entry: a word, or `NULL`. -/
def load (tokens : Tokens) (index : Nat) : Option (Option Token) :=
  match tokens[index]? with
  | some .null => some none
  | some (.word token) => some (some token)
  | _ => none

def store (tokens : Tokens) (index : Nat) (slot : Slot) : Option Tokens :=
  if index < tokens.length then some (tokens.set index slot) else none

/-- These words, `NULL`, and whatever is behind it. -/
def terminated (words : List Token) (behind : Tokens) : Tokens :=
  words.map Slot.word ++ .null :: behind

def argv : Tokens → Option (List Token)
  | [] => none
  | .stale :: _ => none
  | .null :: _ => some []
  | .word token :: rest => (argv rest).map fun words => token :: words

/-- The loop `for (int j = t; tokens[j + 2] != NULL; j++)`. -/
def shift : Nat → Nat → Tokens → Option Tokens
  | 0, _, _ => none
  | fuel + 1, j, tokens => do
      match ← tokens.load (j + 2) with
      | none => return tokens
      | some token => shift fuel (j + 1) (← tokens.store j (.word token))

end Tokens

/-- What a redirection function returns, prints to `stderr`, and leaves in the
array and in the file name it is given the address of. -/
structure Redirection where
  status : Int
  error : List Char
  tokens : Tokens
  file : Option Token
  deriving DecidableEq, Repr

/-- The loop `while(tokens[t] != NULL)` of both functions. -/
def scanRedirection (symbol : Token) (error : List Char) :
    Nat → Nat → Tokens → Option Token → Option Redirection
  | 0, _, _, _ => none
  | fuel + 1, t, tokens, file => do
      match ← tokens.load t with
      | none => return { status := 0, error := [], tokens, file }
      | some token =>
          if token = symbol then
            match ← tokens.load (t + 1) with
            | some name => do
                let shifted ← tokens.shift tokens.length t
                let tokens ← shifted.store t .null
                return { status := 1, error := [], tokens, file := some name }
            | none => return { status := -1, error, tokens, file }
          else scanRedirection symbol error fuel (t + 1) tokens file

def inputSymbol : Token := ['<']

def outputSymbol : Token := ['>']

def handleInputRedirection (tokens : Tokens) (inputFile : Option Token) : Option Redirection :=
  scanRedirection inputSymbol "Error: No input file specified after '<'\n".toList
    (tokens.length + 1) 0 tokens inputFile

def handleOutputRedirection (tokens : Tokens) (outputFile : Option Token) : Option Redirection :=
  scanRedirection outputSymbol "Error: No output file specified after '>'\n".toList
    (tokens.length + 1) 0 tokens outputFile

/-! ## Entries -/

namespace Tokens

private theorem load_append_null (front behind : Tokens) :
    load (front ++ .null :: behind) front.length = some none := by
  simp [load]

theorem load_append_word (front behind : Tokens) (token : Token) :
    load (front ++ .word token :: behind) front.length = some (some token) := by
  simp [load]

theorem store_append (front behind : Tokens) (old slot : Slot) :
    store (front ++ old :: behind) front.length slot = some (front ++ slot :: behind) := by
  simp [store]

theorem store_length {tokens next : Tokens} {index : Nat} {slot : Slot}
    (stored : tokens.store index slot = some next) :
    index < tokens.length ∧ next.length = tokens.length := by
  unfold store at stored
  split at stored
  next inside =>
    cases stored
    exact ⟨inside, List.length_set⟩
  next => cases stored

private theorem shift_length {tokens next : Tokens} {fuel j : Nat}
    (shifted : shift fuel j tokens = some next) : next.length = tokens.length := by
  induction fuel generalizing j tokens with
  | zero => cases shifted
  | succ fuel induction =>
      simp only [shift, Option.bind_eq_bind, Option.bind_eq_some_iff] at shifted
      rcases shifted with ⟨entry, _, shifted⟩
      cases entry with
      | none =>
          cases shifted
          rfl
      | some token =>
          rcases Option.bind_eq_some_iff.mp shifted with ⟨stored, storing, further⟩
          rw [induction further, (store_length storing).2]

theorem argv_terminated (words : List Token) (behind : Tokens) :
    argv (terminated words behind) = some words := by
  induction words with
  | nil => rfl
  | cons word words induction =>
      simp only [terminated] at induction
      simp [terminated, argv, induction]

private theorem exists_shift {behind : Tokens} : ∀ {after : List Token} {front : Tokens}
    (first second : Slot) {fuel : Nat}, after.length < fuel →
    ∃ slot middle, middle.length = after.length + 1 ∧
      shift fuel front.length (front ++ first :: second :: terminated after behind) =
        some (front ++ slot :: (middle ++ .null :: behind))
  | [], front, first, second, fuel + 1, _ => by
      have ended := load_append_null (front ++ [first, second]) behind
      simp only [List.length_append, List.length_cons, List.length_nil, List.append_assoc,
        List.cons_append, List.nil_append] at ended
      refine ⟨first, [second], rfl, ?_⟩
      simp [shift, terminated, ended]
  | word :: after, front, first, second, fuel + 1, enough => by
      have loaded := load_append_word (front ++ [first, second]) (terminated after behind) word
      simp only [List.length_append, List.length_cons, List.length_nil, List.append_assoc,
        List.cons_append, List.nil_append] at loaded
      have stored := store_append front (second :: .word word :: terminated after behind) first
        (.word word)
      rcases @exists_shift behind after (front ++ [.word word]) second (.word word) fuel
        (Nat.lt_of_succ_lt_succ enough) with ⟨slot, middle, size, shifted⟩
      simp only [List.length_append, List.length_singleton, List.append_assoc,
        List.cons_append, List.nil_append] at shifted
      refine ⟨.word word, slot :: middle, by rw [List.length_cons, size, List.length_cons], ?_⟩
      have split : terminated (word :: after) behind = .word word :: terminated after behind := rfl
      simp only [shift, split, loaded, stored, Option.bind_eq_bind, Option.bind_some, shifted,
        List.cons_append]

end Tokens

/-! ## Redirections -/

section Scan

variable {symbol : Token} {error : List Char} {file : Option Token} {behind : Tokens}

open Tokens

private theorem scanRedirection_skip {after : Tokens} : ∀ {words : List Token} {front : Tokens}
    {fuel : Nat}, symbol ∉ words →
    scanRedirection symbol error (words.length + fuel) front.length
        (front ++ words.map Slot.word ++ after) file =
      scanRedirection symbol error fuel (front.length + words.length)
        (front ++ words.map Slot.word ++ after) file
  | [], _, _, _ => by simp
  | word :: words, front, fuel, absent => by
      have different : word ≠ symbol := fun same => absent (same ▸ List.mem_cons_self)
      have loaded := load_append_word front (words.map Slot.word ++ after) word
      have rest := @scanRedirection_skip after words (front ++ [.word word]) fuel fun member =>
        absent (List.mem_cons_of_mem _ member)
      simp only [List.length_append, List.length_singleton, List.append_assoc,
        List.cons_append, List.nil_append] at rest
      have position : front.length + 1 + words.length = front.length + (words.length + 1) := by
        omega
      rw [List.length_cons, Nat.add_right_comm, scanRedirection, List.append_assoc, List.map_cons,
        List.cons_append, loaded, Option.bind_eq_bind, Option.bind_some]
      simp only [different, if_false, rest, position]

private theorem scanRedirection_words {words : List Token} {rest : Tokens} (absent : symbol ∉ words)
    {fuel : Nat} :
    scanRedirection symbol error (words.length + fuel) 0 (words.map Slot.word ++ rest) file =
      scanRedirection symbol error fuel words.length (words.map Slot.word ++ rest) file := by
  have skipped := @scanRedirection_skip symbol error file rest words [] fuel absent
  simpa using skipped

theorem scanRedirection_absent {words : List Token} (absent : symbol ∉ words) {fuel : Nat}
    (enough : words.length < fuel) :
    scanRedirection symbol error fuel 0 (terminated words behind) file =
      some { status := 0, error := [], tokens := terminated words behind, file } := by
  rcases Nat.exists_eq_add_of_lt enough with ⟨extra, rfl⟩
  have ended := load_append_null (words.map Slot.word) behind
  rw [List.length_map] at ended
  rw [terminated, Nat.add_assoc, scanRedirection_words absent]
  simp [scanRedirection, ended]

/-- The array ends where the symbol stood, whatever followed the file name. -/
theorem scanRedirection_found {before after : List Token} {name : Token}
    (absent : symbol ∉ before) {fuel : Nat} (enough : before.length < fuel) :
    ∃ middle, middle.length = after.length + 1 ∧ scanRedirection symbol error fuel 0
        (terminated (before ++ symbol :: name :: after) behind) file =
      some
        { status := 1, error := []
          tokens := terminated before (middle ++ .null :: behind)
          file := some name } := by
  rcases Nat.exists_eq_add_of_lt enough with ⟨extra, rfl⟩
  have split : terminated (before ++ symbol :: name :: after) behind =
      before.map Slot.word ++ .word symbol :: .word name :: terminated after behind := by
    simp [terminated]
  have found := load_append_word (before.map Slot.word)
    (.word name :: terminated after behind) symbol
  have follows := load_append_word (before.map Slot.word ++ [.word symbol])
    (terminated after behind) name
  have room : after.length <
      (before.map Slot.word ++ .word symbol :: .word name :: terminated after behind).length := by
    simp only [terminated, List.length_append, List.length_cons, List.length_map]
    omega
  rcases @exists_shift behind after (before.map Slot.word) (.word symbol) (.word name) _ room with
    ⟨slot, middle, size, shifted⟩
  have stored := store_append (before.map Slot.word) (middle ++ .null :: behind) slot .null
  rw [List.length_map] at found shifted stored
  simp only [List.length_append, List.length_map, List.length_singleton, List.append_assoc,
    List.cons_append, List.nil_append] at follows
  refine ⟨middle, size, ?_⟩
  rw [split, Nat.add_assoc, scanRedirection_words absent]
  simp only [scanRedirection, found, follows, shifted, stored, Option.bind_eq_bind,
    Option.bind_some, if_true]
  rfl

private theorem scanRedirection_missing {before : List Token} (absent : symbol ∉ before)
    {fuel : Nat} (enough : before.length < fuel) :
    scanRedirection symbol error fuel 0 (terminated (before ++ [symbol]) behind) file =
      some { status := -1, error, tokens := terminated (before ++ [symbol]) behind, file } := by
  rcases Nat.exists_eq_add_of_lt enough with ⟨extra, rfl⟩
  have split : terminated (before ++ [symbol]) behind =
      before.map Slot.word ++ .word symbol :: .null :: behind := by
    simp [terminated]
  have found := load_append_word (before.map Slot.word) (.null :: behind) symbol
  have ended := load_append_null (before.map Slot.word ++ [.word symbol]) behind
  simp only [List.length_append, List.length_map, List.length_singleton, List.append_assoc,
    List.cons_append, List.nil_append] at found ended
  rw [split, Nat.add_assoc, scanRedirection_words absent]
  simp [scanRedirection, found, ended]

/-- The words that the scan leaves: those in front of the symbol, if a file name follows it. -/
def cutAt (symbol : Token) (words : List Token) : List Token :=
  match words.dropWhile fun word => word ≠ symbol with
  | _ :: _ :: _ => words.takeWhile fun word => word ≠ symbol
  | _ => words

theorem dropWhile_symbol {before after : List Token} (absent : symbol ∉ before) :
    (before ++ symbol :: after).dropWhile (fun word => word ≠ symbol) = symbol :: after := by
  rw [List.dropWhile_append_of_pos]
  · simp
  · intro word member
    exact decide_eq_true fun same => absent (same ▸ member)

theorem takeWhile_symbol {before after : List Token} (absent : symbol ∉ before) :
    (before ++ symbol :: after).takeWhile (fun word => word ≠ symbol) = before := by
  rw [List.takeWhile_append_of_pos]
  · simp
  · intro word member
    exact decide_eq_true fun same => absent (same ▸ member)

theorem cutAt_absent {words : List Token} (absent : symbol ∉ words) :
    cutAt symbol words = words := by
  have nothing : words.dropWhile (fun word => word ≠ symbol) = [] := by
    rw [List.dropWhile_eq_nil_iff]
    intro word member
    exact decide_eq_true fun same => absent (same ▸ member)
  rw [cutAt, nothing]

theorem cutAt_found {before after : List Token} {name : Token} (absent : symbol ∉ before) :
    cutAt symbol (before ++ symbol :: name :: after) = before := by
  rw [cutAt, dropWhile_symbol absent, takeWhile_symbol absent]

private theorem cutAt_missing {before : List Token} (absent : symbol ∉ before) :
    cutAt symbol (before ++ [symbol]) = before ++ [symbol] := by
  rw [cutAt, dropWhile_symbol absent]

theorem cutAt_cons {word : Token} {words : List Token} (different : word ≠ symbol) :
    cutAt symbol (word :: words) = word :: cutAt symbol words := by
  have dropped : (word :: words).dropWhile (fun word => word ≠ symbol) =
      words.dropWhile fun word => word ≠ symbol := by
    rw [List.dropWhile_cons, if_pos (decide_eq_true different)]
  have taken : (word :: words).takeWhile (fun word => word ≠ symbol) =
      word :: words.takeWhile fun word => word ≠ symbol := by
    rw [List.takeWhile_cons, if_pos (decide_eq_true different)]
  rw [cutAt, cutAt, dropped, taken]
  split <;> rfl

theorem scanRedirection_length {tokens : Tokens} {fuel t : Nat} {redirection : Redirection}
    (scanned : scanRedirection symbol error fuel t tokens file = some redirection) :
    redirection.tokens.length = tokens.length := by
  induction fuel generalizing t with
  | zero => cases scanned
  | succ fuel induction =>
      simp only [scanRedirection, Option.bind_eq_bind, Option.bind_eq_some_iff] at scanned
      rcases scanned with ⟨entry, _, scanned⟩
      cases entry with
      | none =>
          cases scanned
          rfl
      | some token =>
          simp only at scanned
          split at scanned
          next =>
            rcases Option.bind_eq_some_iff.mp scanned with ⟨follows, _, scanned⟩
            cases follows with
            | none =>
                cases scanned
                rfl
            | some name =>
                rcases Option.bind_eq_some_iff.mp scanned with ⟨shifted, shifting, scanned⟩
                rcases Option.bind_eq_some_iff.mp scanned with ⟨ended, ending, scanned⟩
                cases scanned
                rw [(store_length ending).2, shift_length shifting]
          next => exact induction scanned

/-- Whatever the words are, the scan stays within them, and what it leaves ends with
`NULL` again. -/
theorem scanRedirection_terminated (words : List Token) {fuel : Nat}
    (enough : words.length < fuel) :
    ∃ redirection rest,
      scanRedirection symbol error fuel 0 (terminated words behind) file = some redirection ∧
      redirection.tokens = terminated (cutAt symbol words) rest ∧
      (cutAt symbol words).length ≤ words.length ∧
      rest.drop (words.length - (cutAt symbol words).length) = behind := by
  by_cases member : symbol ∈ words
  · rcases List.eq_append_cons_of_mem member with ⟨before, after, split, absent⟩
    subst split
    have fewer : before.length < fuel := by
      rw [List.length_append] at enough
      omega
    cases after with
    | nil =>
        rw [cutAt_missing absent]
        refine ⟨_, behind, scanRedirection_missing absent fewer, rfl, Nat.le_refl _, ?_⟩
        rw [Nat.sub_self, List.drop_zero]
    | cons name after =>
        rcases scanRedirection_found absent fewer with ⟨middle, size, scanned⟩
        rw [cutAt_found absent]
        refine ⟨_, middle ++ .null :: behind, scanned, rfl, by simp, ?_⟩
        have distance : (before ++ symbol :: name :: after).length - before.length =
            (middle ++ [Slot.null]).length := by
          simp [size]
        rw [distance, List.append_cons middle .null behind, List.drop_left]
  · rw [cutAt_absent member]
    refine ⟨_, behind, scanRedirection_absent member enough, rfl, Nat.le_refl _, ?_⟩
    rw [Nat.sub_self, List.drop_zero]

end Scan

end SystemsRepository.ToyShell
