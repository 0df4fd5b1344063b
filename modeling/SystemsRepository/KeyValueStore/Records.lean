import SystemsRepository.KeyValueStore.CommandLoop

/-! # The store as a list of records

Every store the loop can produce is a sequence of short newline-terminated
records. On such files the handlers act as operations on the list of records.
-/

namespace SystemsRepository.KeyValueStore

open SystemsRepository.Foundation

/-! ## Words the loop admits -/

structure Word (text : CString) : Prop where
  nonempty : text ≠ []
  clean : ∀ char ∈ text, char ≠ ' ' ∧ char ≠ newline ∧ char ≠ nul

theorem chomp_clean {line : List Char} :
    ∀ char ∈ chomp line, char ≠ newline ∧ char ≠ nul := by
  intro char member
  have notNewline := List.all_eq_true.mp
    (List.all_takeWhile (p := fun char => char != newline) (l := cString line)) char member
  have inString := (List.takeWhile_sublist _).subset member
  have notNul := List.all_eq_true.mp
    (List.all_takeWhile (p := fun char => char != nul) (l := line)) char inString
  exact ⟨by simpa using notNewline, by simpa using notNul⟩

theorem chomp_length_le (line : List Char) : (chomp line).length ≤ line.length :=
  Nat.le_trans (List.takeWhile_sublist _).length_le (List.takeWhile_sublist _).length_le

theorem chomp_line {text : CString}
    (clean : ∀ char ∈ text, char ≠ newline ∧ char ≠ nul) (ending : List Char)
    (ends : ending = [] ∨ ending = [newline]) : chomp (text ++ ending) = text := by
  have endingString : cString ending = ending := by
    rcases ends with rfl | rfl <;> decide
  have whole : cString (text ++ ending) = text ++ ending := by
    unfold cString at endingString ⊢
    rw [List.takeWhile_append_of_pos (by simpa using fun char member => (clean char member).2),
      endingString]
  rw [chomp, whole, List.takeWhile_append_of_pos
    (by simpa using fun char member => (clean char member).1)]
  rcases ends with rfl | rfl <;> simp

private theorem word_of_strtok {text token rest : List Char}
    (clean : ∀ char ∈ text, char ≠ newline ∧ char ≠ nul)
    (found : Text.strtok isSpace text = some (token, rest)) : Word token where
  nonempty := Text.strtok_token_ne_nil found
  clean char member := by
    have notSpace := Text.strtok_token_clean found char member
    have others := clean char (Text.strtok_token_subset found char member)
    exact ⟨by simpa [isSpace] using notSpace, others⟩

private theorem clean_rest {text token rest : List Char}
    (clean : ∀ char ∈ text, char ≠ newline ∧ char ≠ nul)
    (found : Text.strtok isSpace text = some (token, rest)) :
    ∀ char ∈ rest, char ≠ newline ∧ char ≠ nul :=
  fun char member => clean char (Text.strtok_rest_subset found char member)

private theorem oneArgument_word {text key : CString}
    (clean : ∀ char ∈ text, char ≠ newline ∧ char ≠ nul)
    (parsed : oneArgument text = some key) : Word key ∧ key.length ≤ text.length := by
  unfold oneArgument at parsed
  split at parsed
  · cases parsed
  · rename_i found
    split at parsed
    · cases parsed
      have lengths := (Text.strtok_length found).1
      exact ⟨word_of_strtok clean found, by omega⟩
    · cases parsed

private theorem twoArguments_words {text key value : CString}
    (clean : ∀ char ∈ text, char ≠ newline ∧ char ≠ nul)
    (parsed : twoArguments text = some (key, value)) :
    Word key ∧ Word value ∧ key.length + 1 + value.length ≤ text.length := by
  unfold twoArguments at parsed
  split at parsed
  · cases parsed
  · rename_i token rest found
    rcases Option.map_eq_some_iff.mp parsed with ⟨second, secondParsed, equal⟩
    cases equal
    have argument := oneArgument_word (clean_rest clean found) secondParsed
    have restNonempty : rest ≠ [] := by
      intro empty
      rw [empty] at secondParsed
      cases secondParsed
    have lengths := (Text.strtok_length found).2 restNonempty
    exact ⟨word_of_strtok clean found, argument.1, by omega⟩

/-- What the loop guarantees about the words of a command it dispatches. A record
made of them is shorter than every line buffer of the rewriting handlers. -/
def Command.WellFormed : Command → Prop
  | .put key value => Word key ∧ Word value ∧ key.length + 1 + value.length ≤ 695
  | .get key => Word key
  | .delete key => Word key
  | .list => True
  | .update key value => Word key ∧ Word value ∧ key.length + 1 + value.length ≤ 695

private theorem dispatch_wellFormed {word rest : CString} {command : Command}
    (clean : ∀ char ∈ rest, char ≠ newline ∧ char ≠ nul)
    (short : 3 ≤ word.length → rest ≠ [] → rest.length ≤ 695)
    (dispatched : dispatch word rest = .command command) : command.WellFormed := by
  have pair : ∀ {key value : CString}, 3 ≤ word.length →
      twoArguments rest = some (key, value) →
      Word key ∧ Word value ∧ key.length + 1 + value.length ≤ 695 := by
    intro key value long parsed
    have restNonempty : rest ≠ [] := by
      intro empty
      rw [empty] at parsed
      cases parsed
    have words := twoArguments_words clean parsed
    have bounded := short long restNonempty
    exact ⟨words.1, words.2.1, by omega⟩
  unfold dispatch at dispatched
  split at dispatched
  · rename_i wordEq
    split at dispatched
    · rename_i parsed
      cases dispatched
      exact pair (by simp [wordEq]) parsed
    · cases dispatched
  · split at dispatched
    · split at dispatched
      · rename_i parsed
        cases dispatched
        exact (oneArgument_word clean parsed).1
      · cases dispatched
    · split at dispatched
      · split at dispatched
        · rename_i parsed
          cases dispatched
          exact (oneArgument_word clean parsed).1
        · cases dispatched
      · split at dispatched
        · cases dispatched
          trivial
        · split at dispatched
          · rename_i wordEq
            split at dispatched
            · rename_i parsed
              cases dispatched
              exact pair (by simp [wordEq]) parsed
            · cases dispatched
          · split at dispatched <;> cases dispatched

theorem Command.Admitted.wellFormed {command : Command} (admitted : command.Admitted) :
    command.WellFormed := by
  rcases admitted with ⟨input, fits, parsed⟩
  have short := chomp_length_le input
  simp only [parseLine] at parsed
  split at parsed
  · cases parsed
  · split at parsed
    · cases parsed
    · rename_i word rest found
      apply dispatch_wellFormed (clean_rest chomp_clean found) _ parsed
      intro long restNonempty
      have lengths := (Text.strtok_length found).2 restNonempty
      simp only [inputSize] at fits
      omega

/-! ## Records and their tokens -/

/-- A line of the store: `key=value` as PUT writes it. -/
structure IsRecord (line : CString) : Prop where
  clean : ∀ char ∈ line, char ≠ newline ∧ char ≠ nul
  short : line.length ≤ 695

theorem isRecord_of_words {key value : CString} (keyWord : Word key)
    (valueWord : Word value) (short : key.length + 1 + value.length ≤ 695) :
    IsRecord (key ++ '=' :: value) where
  clean char member := by
    rcases List.mem_append.mp member with inKey | member
    · exact (keyWord.clean char inKey).2
    · rcases List.mem_cons.mp member with equals | inValue
      · rw [equals]
        decide
      · exact (valueWord.clean char inValue).2
  short := by simp; omega

theorem IsRecord.newline_not_mem {line : CString} (record : IsRecord line) :
    newline ∉ line := fun member => (record.clean newline member).1 rfl

theorem IsRecord.chomp {line : CString} (record : IsRecord line) :
    chomp (line ++ [newline]) = line :=
  chomp_line record.clean [newline] (.inr rfl)

theorem formatRecord_eq {key value : CString}
    (short : key.length + 1 + value.length ≤ 695) :
    formatRecord key value = key ++ '=' :: value := by
  apply List.take_of_length_le
  simp only [List.length_append, List.length_cons]
  simp only [lineSize]
  omega

theorem reads_records {records : List CString} (areRecords : ∀ line ∈ records, IsRecord line) :
    Text.reads newline lineSize (Text.unlines newline records) =
      records.map fun line => line ++ [newline] := by
  apply Text.reads_lines (by decide) fun line member => (areRecords line member).newline_not_mem
  intro line member
  have short := (areRecords line member).short
  simp only [lineSize]
  omega

def recordHasKey (key record : CString) : Bool :=
  match recordTokens record with
  | none => false
  | some (currentKey, _) => currentKey == key

def recordRemoved (key record : CString) : Bool :=
  match recordTokens record with
  | some (currentKey, some _) => currentKey == key
  | _ => false

private theorem hasKey_line {line : CString} (record : IsRecord line) (key : CString) :
    hasKey key (line ++ [newline]) = recordHasKey key line := by
  rw [hasKey, record.chomp]
  rfl

private theorem removedValue_isNone {line : CString} (record : IsRecord line) (key : CString) :
    (removedValue key (line ++ [newline])).isNone = !recordRemoved key line := by
  rw [removedValue, record.chomp, recordRemoved]
  rcases recordTokens line with _ | ⟨currentKey, _ | currentValue⟩
  · rfl
  · rfl
  · by_cases same : currentKey = key <;> simp [same]

theorem keptLines_records {records : List CString}
    (areRecords : ∀ line ∈ records, IsRecord line) (key : CString) :
    keptLines key (records.map fun line => line ++ [newline]) =
      records.filter fun record => !recordRemoved key record := by
  induction records with
  | nil => rfl
  | cons line lines induction =>
      have rest := induction fun other member => areRecords other (by simp [member])
      have here := areRecords line (by simp)
      have isNone := removedValue_isNone here key
      simp only [keptLines] at rest ⊢
      cases removed : recordRemoved key line with
      | true => simp [isNone, removed, rest]
      | false => simp [isNone, removed, rest, here.chomp]

/-! ## The store of records -/

/-- `store.txt` as a list of records, `none` when it is absent. -/
abbrev Store := Option (List CString)

/-- The file holds these records. -/
structure Holds (files : Files) (store : Store) : Prop where
  contents : files.store = store.map (Text.unlines newline)
  records : ∀ records ∈ store, ∀ record ∈ records, IsRecord record

def Store.put (ops : FileOps) (key value : CString) (store : Store) : Store :=
  if !ops.openAppend then store
  else
    let records := store.getD []
    if records.any (recordHasKey key) || !ops.write then some records
    else some (records ++ [key ++ '=' :: value])

def Store.delete (ops : FileOps) (key : CString) (store : Store) : Store :=
  match store with
  | none => none
  | some records =>
      if ops.openFrom && ops.openTo && ops.remove then
        if ops.rename then some (records.filter fun record => !recordRemoved key record)
        else none
      else some records

def Store.run (ops : FileOps) (store : Store) : Command → Store
  | .put key value => store.put ops key value
  | .get _ => store
  | .delete key => store.delete ops key
  | .list => store
  | .update key value => (store.delete ops key).put ops key value

theorem unlines_getD (store : Store) :
    (store.map (Text.unlines newline)).getD [] = Text.unlines newline (store.getD []) := by
  cases store <;> rfl

theorem Holds.getD_records {files : Files} {store : Store} (holds : Holds files store) :
    ∀ record ∈ store.getD [], IsRecord record := by
  cases store with
  | none => simp
  | some records => exact holds.records records rfl

theorem any_hasKey {records : List CString}
    (areRecords : ∀ line ∈ records, IsRecord line) (key : CString) :
    (Text.reads newline lineSize (Text.unlines newline records)).any (hasKey key) =
      records.any (recordHasKey key) := by
  rw [reads_records areRecords, List.any_map]
  apply Bool.eq_iff_iff.mpr
  simp only [List.any_eq_true, Function.comp]
  constructor
  · rintro ⟨line, member, has⟩
    exact ⟨line, member, hasKey_line (areRecords line member) key ▸ has⟩
  · rintro ⟨line, member, has⟩
    exact ⟨line, member, (hasKey_line (areRecords line member) key).symm ▸ has⟩

def recordsOf (files : Files) : List CString :=
  (Text.reads newline lineSize (files.store.getD [])).map chomp

theorem recordsOf_eq {files : Files} {store : Store} (holds : Holds files store) :
    recordsOf files = store.getD [] := by
  have areRecords := holds.getD_records
  rw [recordsOf, holds.contents, unlines_getD, reads_records areRecords, List.map_map]
  have unchanged : (store.getD []).map (chomp ∘ fun line => line ++ [newline]) =
      (store.getD []).map id :=
    List.map_congr_left fun record member => (areRecords record member).chomp
  rw [unchanged, List.map_id]

def FileOps.removesStore (ops : FileOps) : Bool := ops.openFrom && ops.openTo && ops.remove

def FileOps.losesStore (ops : FileOps) : Bool := ops.removesStore && !ops.rename

def FileOps.appends (ops : FileOps) : Bool := ops.openAppend && ops.write

theorem delete_records (ops : FileOps) (key : CString) (store : Store) :
    (store.delete ops key).getD [] =
      if ops.removesStore then
        if ops.rename then (store.getD []).filter fun record => !recordRemoved key record
        else []
      else store.getD [] := by
  unfold Store.delete FileOps.removesStore
  cases store with
  | none => cases ops.rename <;> simp
  | some records =>
      cases ops.openFrom && ops.openTo && ops.remove <;> cases ops.rename <;> rfl

theorem put_records (ops : FileOps) (key value : CString) (store : Store) :
    (store.put ops key value).getD [] =
      if (store.getD []).any (recordHasKey key) || !ops.appends then store.getD []
      else store.getD [] ++ [key ++ '=' :: value] := by
  unfold Store.put FileOps.appends
  cases present : (store.getD []).any (recordHasKey key) <;>
    cases ops.openAppend <;> cases ops.write <;> simp [present]

theorem Store.delete_allSucceed (key : CString) (store : Store) :
    (store.delete FileOps.allSucceed key).getD [] =
      (store.getD []).filter fun record => !recordRemoved key record :=
  delete_records FileOps.allSucceed key store

theorem Store.put_allSucceed (key value : CString) (store : Store) :
    (store.put FileOps.allSucceed key value).getD [] =
      if (store.getD []).any (recordHasKey key) then store.getD []
      else store.getD [] ++ [key ++ '=' :: value] := by
  rw [put_records]
  simp [FileOps.appends, FileOps.allSucceed]

theorem putRecord_status (ops : FileOps) {files : Files} {store : Store}
    {key value : CString} (holds : Holds files store)
    (short : key.length + 1 + value.length ≤ 695) :
    (putRecord ops key value files).1.status =
      if !ops.openAppend then .openFailed
      else if (store.getD []).any (recordHasKey key) then .existing
      else if !ops.write then .writeFailed
      else .written (key ++ '=' :: value) := by
  have found := any_hasKey holds.getD_records key
  unfold putRecord
  simp only [holds.contents, unlines_getD, found, formatRecord_eq short]
  split
  · rfl
  · split
    · rfl
    · split <;> rfl

theorem putRecord_holds (ops : FileOps) {files : Files} {store : Store}
    {key value : CString} (holds : Holds files store)
    (keyWord : Word key) (valueWord : Word value)
    (short : key.length + 1 + value.length ≤ 695) :
    Holds (putRecord ops key value files).2 (store.put ops key value) := by
  have found := any_hasKey holds.getD_records key
  have kept : ∀ records ∈ (some (store.getD []) : Store),
      ∀ record ∈ records, IsRecord record := by
    intro records equal
    cases equal
    exact holds.getD_records
  unfold putRecord Store.put
  simp only [holds.contents, unlines_getD, found, formatRecord_eq short]
  cases opened : ops.openAppend with
  | false => simpa using holds
  | true =>
      cases present : (store.getD []).any (recordHasKey key) with
      | true => simpa using ⟨rfl, kept⟩
      | false =>
          cases written : ops.write with
          | false => simpa using ⟨rfl, kept⟩
          | true =>
              simp only [Bool.not_true, Bool.false_eq_true, if_false, Bool.or_self]
              refine ⟨by simp, ?_⟩
              intro records equal record member
              cases equal
              rcases List.mem_append.mp member with old | new
              · exact holds.getD_records record old
              · rw [List.mem_singleton.mp new]
                exact isRecord_of_words keyWord valueWord short

theorem handleDelete_holds (ops : FileOps) (key : CString) {files : Files}
    {store : Store} (holds : Holds files store) :
    Holds (handleDelete ops key files).2 (store.delete ops key) := by
  rcases files with ⟨contents, temp⟩
  have contentsEq : contents = store.map (Text.unlines newline) := holds.contents
  subst contentsEq
  have areRecords := holds.records
  cases store with
  | none =>
      simp only [handleDelete, openRead, Store.delete]
      cases ops.openFrom <;> cases ops.openTo <;> exact ⟨rfl, areRecords⟩
  | some records =>
      have kept : ∀ remaining ∈
          (some (records.filter fun record => !recordRemoved key record) : Store),
          ∀ record ∈ remaining, IsRecord record := by
        intro remaining equal record member
        cases equal
        exact areRecords records rfl record (List.mem_filter.mp member).1
      simp only [handleDelete, openRead, Store.delete]
      cases ops.openFrom with
      | false => cases ops.openTo <;> exact ⟨rfl, areRecords⟩
      | true =>
          cases ops.openTo with
          | false => exact ⟨rfl, areRecords⟩
          | true =>
              cases ops.remove with
              | false => exact ⟨rfl, areRecords⟩
              | true =>
                  cases ops.rename with
                  | false => exact ⟨rfl, by simp⟩
                  | true =>
                      refine ⟨?_, kept⟩
                      simp [reads_records (areRecords records rfl),
                        keptLines_records (areRecords records rfl)]

/-- Every command the loop dispatches acts on the records as `Store.run` says. -/
theorem runCommand_holds (ops : FileOps) {files : Files} {store : Store}
    {command : Command} (holds : Holds files store) (wellFormed : command.WellFormed) :
    Holds (runCommand ops files command) (store.run ops command) := by
  cases command with
  | put key value => exact putRecord_holds ops holds wellFormed.1 wellFormed.2.1 wellFormed.2.2
  | get key => exact holds
  | delete key => exact handleDelete_holds ops key holds
  | list => exact holds
  | update key value =>
      exact putRecord_holds ops (handleDelete_holds ops key holds) wellFormed.1 wellFormed.2.1
        wellFormed.2.2

/-- Stores the loop can produce, as lists of records. -/
inductive ReachableStore (permitted : FileOps → Command → Prop) : Store → Prop
  | absent : ReachableStore permitted none
  | run {store : Store} {ops : FileOps} {command : Command} :
      ReachableStore permitted store → command.Admitted → permitted ops command →
      ReachableStore permitted (store.run ops command)

theorem Reachable.holds {permitted : FileOps → Command → Prop} {files : Files}
    (reachable : Reachable permitted files) :
    ∃ store, ReachableStore permitted store ∧ Holds files store := by
  induction reachable with
  | absent temp => exact ⟨none, .absent, rfl, by simp⟩
  | run _ admitted allowed induction =>
      rcases induction with ⟨store, storeReachable, holds⟩
      exact ⟨_, .run storeReachable admitted allowed, runCommand_holds _ holds admitted.wellFormed⟩

end SystemsRepository.KeyValueStore
