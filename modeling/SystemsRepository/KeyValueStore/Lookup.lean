import SystemsRepository.KeyValueStore.Records

/-! # What GET finds

`handle_get` reads the store in pieces of at most 511 bytes and stops at the
first piece that has the key or no key at all.
-/

namespace SystemsRepository.KeyValueStore

open SystemsRepository.Foundation

/-- The piece stops the loop of `handle_get`. -/
def decisive (key : CString) (piece : List Char) : Bool :=
  match recordTokens (chomp piece) with
  | none => true
  | some (currentKey, _) => currentKey == key

inductive Lookup
  | found (value : CString)
  | notFound
  | undefined
  deriving DecidableEq, Repr

def outcomeAt (piece : List Char) : Lookup :=
  match recordTokens (chomp piece) with
  | some (_, some value) => .found value
  | _ => .undefined

theorem outcomeAt_ne_notFound (piece : List Char) : outcomeAt piece ≠ .notFound := by
  unfold outcomeAt
  rcases recordTokens (chomp piece) with _ | ⟨key, _ | value⟩ <;>
    exact fun impossible => by cases impossible

def lookupPieces (key : CString) (pieces : List (List Char)) : Lookup :=
  match pieces.find? (decisive key) with
  | none => .notFound
  | some piece => outcomeAt piece

def getPieces (files : Files) : List (List Char) :=
  match files.store with
  | none => []
  | some contents => Text.reads newline valueSize contents

def lookup (key : CString) (files : Files) : Lookup := lookupPieces key (getPieces files)

theorem lookupPieces_append (key : CString) (left right : List (List Char)) :
    lookupPieces key (left ++ right) =
      match left.find? (decisive key) with
      | none => lookupPieces key right
      | some piece => outcomeAt piece := by
  rw [lookupPieces, List.find?_append]
  cases left.find? (decisive key) <;> rfl

theorem lookupPieces_cons_of_tokens {key : CString} {piece : List Char}
    {pieces : List (List Char)} {currentKey : CString} {currentValue : Option CString}
    (tokens : recordTokens (chomp piece) = some (currentKey, currentValue)) :
    lookupPieces key (piece :: pieces) =
      if currentKey = key then currentValue.elim .undefined .found
      else lookupPieces key pieces := by
  by_cases same : currentKey = key
  · cases currentValue <;>
      simp [lookupPieces, List.find?, decisive, outcomeAt, tokens, same]
  · have skipped : decisive key piece = false := by simp [decisive, tokens, same]
    simp [lookupPieces, List.find?, skipped, same]

theorem getLoop_eq (key : CString) (valueOut : List Char) :
    ∀ pieces : List (List Char), getLoop key valueOut pieces =
      match lookupPieces key pieces with
      | .found value => (.found, copyValue value valueOut)
      | .notFound => (.notFound, valueOut)
      | .undefined => (.undefined, valueOut)
  | [] => rfl
  | piece :: pieces => by
      rcases tokens : recordTokens (chomp piece) with _ | ⟨currentKey, currentValue⟩
      · simp [getLoop, lookupPieces, List.find?, decisive, outcomeAt, tokens]
      · by_cases same : currentKey = key
        · cases currentValue <;>
            simp [getLoop, lookupPieces, List.find?, decisive, outcomeAt, tokens, same]
        · have skipped : decisive key piece = false := by simp [decisive, tokens, same]
          have rest := getLoop_eq key valueOut pieces
          simp only [getLoop, tokens, same, if_false, lookupPieces, List.find?, skipped]
          exact rest

/-! ## Tokens of a record -/

private theorem isEquals_iff (char : Char) : isEquals char = true ↔ char = '=' := by
  simp [isEquals]

private theorem isEquals_eq_false {text : CString} (free : '=' ∉ text) :
    ∀ char ∈ text, isEquals char = false := by
  intro char member
  cases equals : isEquals char with
  | false => rfl
  | true => exact absurd ((isEquals_iff char).mp equals ▸ member) free

private theorem equals_not_mem {text token rest : CString}
    (found : Text.strtok isEquals text = some (token, rest)) : '=' ∉ token :=
  fun member => absurd (Text.strtok_token_clean found '=' member) (by decide)

theorem recordTokens_clean {text key : CString} {value : Option CString}
    (tokens : recordTokens text = some (key, value)) :
    '=' ∉ key ∧ key ≠ [] ∧ ∀ found ∈ value, '=' ∉ found := by
  rcases Option.map_eq_some_iff.mp tokens with ⟨⟨token, rest⟩, first, equal⟩
  cases equal
  refine ⟨equals_not_mem first, Text.strtok_token_ne_nil first, ?_⟩
  intro found member
  rcases Option.map_eq_some_iff.mp member with ⟨⟨second, after⟩, secondFound, rfl⟩
  exact equals_not_mem secondFound

private theorem recordTokens_value_length {text key value : CString}
    (tokens : recordTokens text = some (key, some value)) :
    value.length ≤ text.length ∧ ∀ char ∈ value, char ∈ text := by
  rcases Option.map_eq_some_iff.mp tokens with ⟨⟨token, rest⟩, first, equal⟩
  simp only [Prod.mk.injEq, Option.map_eq_some_iff] at equal
  rcases equal.2 with ⟨⟨second, after⟩, secondFound, rfl⟩
  have outer := (Text.strtok_length first).1
  have inner := (Text.strtok_length secondFound).1
  exact ⟨by simp only; omega, fun char member =>
    Text.strtok_rest_subset first char (Text.strtok_token_subset secondFound char member)⟩

theorem recordTokens_append {key : CString} (nonempty : key ≠ []) (free : '=' ∉ key)
    (rest : CString) :
    recordTokens (key ++ '=' :: rest) =
      some (key, (Text.strtok isEquals rest).map Prod.fst) := by
  rw [recordTokens, Text.strtok_word_append nonempty (isEquals_eq_false free) rfl]
  rfl

theorem recordTokens_word {key : CString} (nonempty : key ≠ []) (free : '=' ∉ key) :
    recordTokens key = some (key, none) := by
  rw [recordTokens, Text.strtok_word nonempty (isEquals_eq_false free)]
  rfl

theorem recordTokens_record {key value : CString} (keyNonempty : key ≠ [])
    (keyFree : '=' ∉ key) (valueNonempty : value ≠ []) (valueFree : '=' ∉ value) :
    recordTokens (key ++ '=' :: value) = some (key, some value) := by
  rw [recordTokens_append keyNonempty keyFree,
    Text.strtok_word valueNonempty (isEquals_eq_false valueFree)]
  rfl

/-- What is found is a token, so neither key nor value contains `=`. -/
theorem lookupPieces_found {key value : CString} {pieces : List (List Char)}
    (found : lookupPieces key pieces = .found value) :
    ∃ piece ∈ pieces, pieces.find? (decisive key) = some piece ∧
      recordTokens (chomp piece) = some (key, some value) := by
  unfold lookupPieces at found
  cases stop : pieces.find? (decisive key) with
  | none => simp [stop] at found
  | some piece =>
      simp only [stop] at found
      have decides := List.find?_some stop
      refine ⟨piece, List.mem_of_find?_eq_some stop, rfl, ?_⟩
      unfold outcomeAt at found
      unfold decisive at decides
      rcases tokens : recordTokens (chomp piece) with _ | ⟨currentKey, _ | currentValue⟩
      · simp [tokens] at found
      · simp [tokens] at found
      · simp only [tokens, Lookup.found.injEq] at found
        simp only [tokens, beq_iff_eq] at decides
        rw [found, decides]

private theorem cString_copyValue {value : CString} {buffer : List Char}
    (clean : ∀ char ∈ value, char ≠ nul) (fits : value.length < buffer.length) :
    cString (copyValue value buffer) = value := by
  have whole : value.take (buffer.length - 1) = value :=
    List.take_of_length_le (by omega)
  unfold cString copyValue
  simp only [whole, List.append_assoc]
  rw [List.takeWhile_append_of_pos (by simpa using clean)]
  cases buffer.length - 1 - value.length <;> simp [List.replicate_succ]

private theorem getPieces_length_lt {files : Files} {piece : List Char}
    (member : piece ∈ getPieces files) : piece.length < valueSize := by
  unfold getPieces at member
  split at member
  · cases member
  · exact Text.reads_length_lt (by decide) member

/-- What GET tells its caller, who passes the buffer `valueOut`. -/
def getResult (key : CString) (valueOut : List Char) (files : Files) : Lookup :=
  match handleGet FileOps.allSucceed key valueOut files with
  | (.found, copied) => .found (cString copied)
  | (.undefined, _) => .undefined
  | _ => .notFound

theorem getResult_eq_lookup {key : CString} {valueOut : List Char} {files : Files}
    (size : valueOut.length = valueSize) :
    getResult key valueOut files = lookup key files := by
  have copied : ∀ value, lookup key files = .found value →
      cString (copyValue value valueOut) = value := by
    intro value isFound
    rcases lookupPieces_found isFound with ⟨piece, member, _, tokens⟩
    have bounds := recordTokens_value_length tokens
    have short := getPieces_length_lt member
    have cut := chomp_length_le piece
    apply cString_copyValue
    · exact fun char inValue => (chomp_clean char (bounds.2 char inValue)).2
    · rw [size]
      omega
  unfold lookup getPieces at copied ⊢
  unfold getResult handleGet openRead
  cases contents : files.store with
  | none => rfl
  | some text =>
      simp only [contents] at copied
      simp only [FileOps.allSucceed, if_true, getLoop_eq]
      cases outcome : lookupPieces key (Text.reads newline valueSize text) with
      | found value => exact congrArg Lookup.found (copied value outcome)
      | notFound => rfl
      | undefined => rfl

theorem handleGet_copies_iff {key value : CString} {valueOut : List Char} {files : Files}
    (size : valueOut.length = valueSize) :
    ((handleGet FileOps.allSucceed key valueOut files).1 = .found ∧
        cString (handleGet FileOps.allSucceed key valueOut files).2 = value) ↔
      lookup key files = .found value := by
  rw [← getResult_eq_lookup size, getResult]
  rcases handleGet FileOps.allSucceed key valueOut files with ⟨status, buffer⟩
  cases status <;> simp

/-! ## Pieces of a store of records -/

def recordPieces (record : CString) : List (List Char) :=
  Text.reads newline valueSize (record ++ [newline])

theorem getPieces_records {files : Files} {store : Store} (holds : Holds files store) :
    getPieces files = (store.getD []).flatMap recordPieces := by
  rw [getPieces, holds.contents]
  cases store with
  | none => rfl
  | some records =>
      exact Text.reads_unlines (by decide) fun record member =>
        (holds.records records rfl record member).newline_not_mem

def lookupRecords (key : CString) (records : List CString) : Lookup :=
  lookupPieces key (records.flatMap recordPieces)

theorem lookup_records {files : Files} {store : Store} (holds : Holds files store)
    (key : CString) : lookup key files = lookupRecords key (store.getD []) :=
  congrArg (lookupPieces key) (getPieces_records holds)

theorem recordPieces_ne_nil (record : CString) : recordPieces record ≠ [] := by
  rw [recordPieces, Text.reads_cons (by decide) (by simp)]
  exact List.cons_ne_nil _ _

theorem recordPieces_short {record : CString} (isRecord : IsRecord record)
    (short : record.length ≤ 510) : recordPieces record = [record ++ [newline]] :=
  Text.reads_line isRecord.newline_not_mem (by simp only [valueSize]; omega)

theorem recordPieces_long {record : CString} (isRecord : IsRecord record)
    (long : 511 ≤ record.length) :
    recordPieces record = [record.take 511, record.drop 511 ++ [newline]] := by
  have bound := isRecord.short
  rw [recordPieces, Text.reads_long_line (by decide) isRecord.newline_not_mem
      (by simpa [valueSize] using long),
    Text.reads_line (fun member => isRecord.newline_not_mem (List.mem_of_mem_drop member))
      (by simp only [List.length_drop, valueSize]; omega)]
  rfl

theorem chomp_take {record : CString} (isRecord : IsRecord record) (count : Nat) :
    chomp (record.take count) = record.take count := by
  have clean : ∀ char ∈ record.take count, char ≠ newline ∧ char ≠ nul :=
    fun char member => isRecord.clean char (List.mem_of_mem_take member)
  simpa using chomp_line clean [] (.inl rfl)

theorem chomp_drop {record : CString} (isRecord : IsRecord record) (count : Nat) :
    chomp (record.drop count ++ [newline]) = record.drop count :=
  chomp_line (fun char member => isRecord.clean char (List.mem_of_mem_drop member))
    [newline] (.inr rfl)

end SystemsRepository.KeyValueStore
