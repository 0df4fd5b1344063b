import SystemsRepository.KeyValueStore.Lookup

/-! # Isolation of keys

When a command that changes one key leaves the result of GET for every other key
as it was.
-/

namespace SystemsRepository.KeyValueStore

open SystemsRepository.Foundation

def Command.changedKey : Command → Option CString
  | .put key _ => some key
  | .delete key => some key
  | .update key _ => some key
  | _ => none

/-- GET reads this key, and no other, out of every piece of the record. -/
def OwnedBy (key record : CString) : Prop :=
  ∀ piece ∈ recordPieces record, ∃ value, recordTokens (chomp piece) = some (key, value)

def Command.Owned : Command → Prop
  | .put key value => OwnedBy key (key ++ '=' :: value)
  | .update key value => OwnedBy key (key ++ '=' :: value)
  | _ => True

/-- The command is executed with success and stores only what belongs to its key. -/
def Isolating (ops : FileOps) (command : Command) : Prop :=
  ops = FileOps.allSucceed ∧ command.Owned

/-! ## Owned records -/

private theorem OwnedBy.key_clean {key record : CString} (owned : OwnedBy key record) :
    '=' ∉ key ∧ key ≠ [] := by
  rcases List.exists_mem_of_ne_nil _ (recordPieces_ne_nil record) with ⟨piece, member⟩
  rcases owned piece member with ⟨value, tokens⟩
  have clean := recordTokens_clean tokens
  exact ⟨clean.1, clean.2.1⟩

private theorem OwnedBy.not_decisive {key other record : CString} (owned : OwnedBy key record)
    (different : other ≠ key) :
    ∀ piece ∈ recordPieces record, decisive other piece = false := by
  intro piece member
  rcases owned piece member with ⟨value, tokens⟩
  simp [decisive, tokens, Ne.symm different]

private theorem ownedBy_of_short {key value : CString} (keyWord : Word key) (keyFree : '=' ∉ key)
    (valueWord : Word value) (short : key.length + 1 + value.length ≤ 510) :
    OwnedBy key (key ++ '=' :: value) := by
  have isRecord := isRecord_of_words keyWord valueWord (by omega)
  have length : (key ++ '=' :: value).length ≤ 510 := by
    simp
    omega
  intro piece member
  rw [recordPieces_short isRecord length, List.mem_singleton] at member
  rw [member, isRecord.chomp]
  exact ⟨_, recordTokens_append keyWord.nonempty keyFree value⟩

def RecordOwned (record : CString) : Prop :=
  ∃ key value, record = key ++ '=' :: value ∧ OwnedBy key record

private theorem RecordOwned.not_decisive_of_removed {record key other : CString}
    (owned : RecordOwned record) (removed : recordRemoved key record = true)
    (different : other ≠ key) :
    ∀ piece ∈ recordPieces record, decisive other piece = false := by
  rcases owned with ⟨owner, value, rfl, owned⟩
  have clean := owned.key_clean
  have same : owner = key := by
    rw [recordRemoved, recordTokens_append clean.2 clean.1] at removed
    cases rest : Text.strtok isEquals value with
    | none => simp [rest] at removed
    | some found => simpa [rest] using removed
  exact owned.not_decisive (same ▸ different)

/-! ## Pieces that do not stop the loop -/

private theorem find_eq_none_of_skipped {key : CString} {pieces : List (List Char)}
    (skipped : ∀ piece ∈ pieces, decisive key piece = false) :
    pieces.find? (decisive key) = none := by
  apply List.find?_eq_none.mpr
  intro piece member
  simp [skipped piece member]

private theorem lookupPieces_append_left {key : CString} {left : List (List Char)}
    (skipped : ∀ piece ∈ left, decisive key piece = false) (right : List (List Char)) :
    lookupPieces key (left ++ right) = lookupPieces key right := by
  rw [lookupPieces_append, find_eq_none_of_skipped skipped]

private theorem lookupPieces_append_right {key : CString} (left : List (List Char))
    {right : List (List Char)} (skipped : ∀ piece ∈ right, decisive key piece = false) :
    lookupPieces key (left ++ right) = lookupPieces key left := by
  rw [lookupPieces_append, lookupPieces, lookupPieces, find_eq_none_of_skipped skipped]

private theorem lookupPieces_append_congr {key : CString} (left : List (List Char))
    {first second : List (List Char)}
    (same : lookupPieces key first = lookupPieces key second) :
    lookupPieces key (left ++ first) = lookupPieces key (left ++ second) := by
  rw [lookupPieces_append, lookupPieces_append, same]

private theorem lookupRecords_filter {key : CString} {records : List CString}
    {keep : CString → Bool}
    (skipped : ∀ record ∈ records, keep record = false →
      ∀ piece ∈ recordPieces record, decisive key piece = false) :
    lookupRecords key (records.filter keep) = lookupRecords key records := by
  induction records with
  | nil => rfl
  | cons record records induction =>
      have rest := induction fun other member => skipped other (by simp [member])
      unfold lookupRecords at rest ⊢
      cases kept : keep record with
      | true =>
          rw [List.filter_cons_of_pos kept, List.flatMap_cons, List.flatMap_cons]
          exact lookupPieces_append_congr _ rest
      | false =>
          rw [List.filter_cons_of_neg (by simp [kept]), rest, List.flatMap_cons,
            lookupPieces_append_left (skipped record (by simp) kept)]

private theorem lookupRecords_concat {key record : CString} (records : List CString)
    (skipped : ∀ piece ∈ recordPieces record, decisive key piece = false) :
    lookupRecords key (records ++ [record]) = lookupRecords key records := by
  rw [lookupRecords, List.flatMap_append, List.flatMap_singleton]
  exact lookupPieces_append_right _ skipped

/-! ## One command -/

def StoreOwned (store : Store) : Prop := ∀ record ∈ store.getD [], RecordOwned record

theorem StoreOwned.delete {store : Store} (owned : StoreOwned store) (key : CString) :
    StoreOwned (store.delete FileOps.allSucceed key) := by
  intro record member
  rw [Store.delete_allSucceed] at member
  exact owned record (List.mem_filter.mp member).1

theorem StoreOwned.put {store : Store} (owned : StoreOwned store) {key value : CString}
    (new : OwnedBy key (key ++ '=' :: value)) :
    StoreOwned (store.put FileOps.allSucceed key value) := by
  intro record member
  rw [Store.put_allSucceed] at member
  split at member
  · exact owned record member
  · rcases List.mem_append.mp member with old | added
    · exact owned record old
    · rw [List.mem_singleton.mp added]
      exact ⟨key, value, rfl, new⟩

theorem StoreOwned.run {store : Store} (owned : StoreOwned store) {command : Command}
    (new : command.Owned) : StoreOwned (store.run FileOps.allSucceed command) := by
  cases command with
  | put key value => exact owned.put new
  | get key => exact owned
  | delete key => exact owned.delete key
  | list => exact owned
  | update key value => exact (owned.delete key).put new

private theorem ReachableStore.storeOwned {store : Store}
    (reachable : ReachableStore Isolating store) : StoreOwned store := by
  induction reachable with
  | absent =>
      intro record member
      cases member
  | run _ _ isolating induction =>
      rw [isolating.1]
      exact induction.run isolating.2

private theorem lookupRecords_delete {store : Store} (owned : StoreOwned store)
    {key other : CString} (different : other ≠ key) :
    lookupRecords other ((store.delete FileOps.allSucceed key).getD []) =
      lookupRecords other (store.getD []) := by
  rw [Store.delete_allSucceed]
  apply lookupRecords_filter
  intro record member dropped
  exact (owned record member).not_decisive_of_removed (by simpa using dropped) different

private theorem lookupRecords_put {store : Store} {key value other : CString}
    (new : OwnedBy key (key ++ '=' :: value)) (different : other ≠ key) :
    lookupRecords other ((store.put FileOps.allSucceed key value).getD []) =
      lookupRecords other (store.getD []) := by
  rw [Store.put_allSucceed]
  split
  · rfl
  · exact lookupRecords_concat _ (new.not_decisive different)

private theorem lookupRecords_run {store : Store} (owned : StoreOwned store) {command : Command}
    (new : command.Owned) {key other : CString} (changes : command.changedKey = some key)
    (different : other ≠ key) :
    lookupRecords other ((store.run FileOps.allSucceed command).getD []) =
      lookupRecords other (store.getD []) := by
  cases command with
  | put putKey value =>
      cases changes
      exact lookupRecords_put new different
  | get getKey => cases changes
  | delete deleteKey =>
      cases changes
      exact lookupRecords_delete owned different
  | list => cases changes
  | update updateKey value =>
      cases changes
      exact (lookupRecords_put new different).trans (lookupRecords_delete owned different)

/-! ## Commands that are not owned -/

private theorem get_admitted {key : CString} (word : Word key) (short : key.length ≤ 695) :
    (Command.get key).Admitted := by
  have getWord : ∀ char ∈ ['G', 'E', 'T'], isSpace char = false := by simp [isSpace]
  have keySpaceFree : ∀ char ∈ key, isSpace char = false := by
    intro char member
    simpa [isSpace] using (word.clean char member).1
  have clean : ∀ char ∈ ['G', 'E', 'T'] ++ ' ' :: key, char ≠ newline ∧ char ≠ nul := by
    intro char member
    simp only [List.cons_append, List.nil_append, List.mem_cons] at member
    rcases member with rfl | rfl | rfl | rfl | member
    · decide
    · decide
    · decide
    · decide
    · exact (word.clean char member).2
  have chomped : chomp (['G', 'E', 'T'] ++ ' ' :: key) = ['G', 'E', 'T'] ++ ' ' :: key := by
    simpa using chomp_line clean [] (.inl rfl)
  have argument : oneArgument key = some key := by
    rw [oneArgument, Text.strtok_word word.nonempty keySpaceFree]
    rfl
  refine ⟨['G', 'E', 'T'] ++ ' ' :: key, by simp [inputSize]; omega, ?_⟩
  unfold parseLine
  simp only [chomped]
  rw [if_neg (by simp), Text.strtok_word_append (by simp) getWord rfl]
  simp [dispatch, argument]

private theorem word_of_piece {key value token : CString} {rest : Option CString}
    {piece : List Char} (keyWord : Word key) (valueWord : Word value)
    (member : piece ∈ recordPieces (key ++ '=' :: value))
    (tokens : recordTokens (chomp piece) = some (token, rest)) :
    Word token ∧ token.length ≤ 695 := by
  have pieceShort := Text.reads_length_lt (by decide) member
  have cut := chomp_length_le piece
  rcases Option.map_eq_some_iff.mp tokens with ⟨⟨first, after⟩, found, equal⟩
  cases equal
  have shorter := (Text.strtok_length found).1
  have notSpace : ∀ char ∈ piece, char ≠ ' ' := by
    intro char inPiece
    have inRecord : char ∈ (key ++ '=' :: value) ++ [newline] := by
      have whole : (recordPieces (key ++ '=' :: value)).flatten = _ :=
        Text.reads_flatten (by decide) _
      exact whole ▸ List.mem_flatten.mpr ⟨piece, member, inPiece⟩
    simp only [List.mem_append, List.mem_cons, List.not_mem_nil, or_false] at inRecord
    rcases inRecord with (inKey | rfl | inValue) | rfl
    · exact (keyWord.clean char inKey).1
    · decide
    · exact (valueWord.clean char inValue).1
    · decide
  simp only [valueSize] at pieceShort
  refine ⟨⟨Text.strtok_token_ne_nil found, ?_⟩, by omega⟩
  intro char inToken
  have inChomped := Text.strtok_token_subset found char inToken
  have inPiece : char ∈ piece :=
    (List.takeWhile_sublist _).subset ((List.takeWhile_sublist _).subset inChomped)
  exact ⟨notSpace char inPiece, chomp_clean char inChomped⟩

theorem word_singleton {char : Char} (clean : char ≠ ' ' ∧ char ≠ newline ∧ char ≠ nul) :
    Word [char] where
  nonempty := List.cons_ne_nil char []
  clean _ member := List.mem_singleton.mp member ▸ clean

private theorem exists_other_word (key : CString) :
    ∃ other, Word other ∧ other.length ≤ 695 ∧ other ≠ key := by
  by_cases same : key = ['a']
  · refine ⟨['b'], word_singleton (by decide), by simp, ?_⟩
    rw [same]
    decide
  · exact ⟨['a'], word_singleton (by decide), by simp, fun equal => same equal.symm⟩

private theorem exists_disturbed {key value : CString} (keyWord : Word key) (valueWord : Word value)
    (notOwned : ¬OwnedBy key (key ++ '=' :: value)) :
    ∃ other, (Command.get other).Admitted ∧ other ≠ key ∧
      lookupRecords other [key ++ '=' :: value] ≠ .notFound := by
  unfold OwnedBy at notOwned
  simp only [Classical.not_forall, not_exists] at notOwned
  rcases notOwned with ⟨piece, member, foreign⟩
  have stops : ∃ other, (Command.get other).Admitted ∧ other ≠ key ∧
      decisive other piece = true := by
    rcases tokens : recordTokens (chomp piece) with _ | ⟨token, rest⟩
    · rcases exists_other_word key with ⟨other, word, short, different⟩
      exact ⟨other, get_admitted word short, different, by simp [decisive, tokens]⟩
    · have word := word_of_piece keyWord valueWord member tokens
      refine ⟨token, get_admitted word.1 word.2, ?_, by simp [decisive, tokens]⟩
      intro same
      exact foreign rest (same ▸ tokens)
  rcases stops with ⟨other, admitted, different, stopped⟩
  refine ⟨other, admitted, different, ?_⟩
  have pieces : [key ++ '=' :: value].flatMap recordPieces =
      recordPieces (key ++ '=' :: value) := by simp
  rw [lookupRecords, pieces, lookupPieces]
  cases found : (recordPieces (key ++ '=' :: value)).find? (decisive other) with
  | none => exact absurd stopped (List.find?_eq_none.mp found piece member)
  | some first => exact outcomeAt_ne_notFound first

/-! ## Isolation -/

/-- No admitted GET of another key is changed by the command. -/
def Isolated (files : Files) (command : Command) (key : CString) : Prop :=
  ∀ other valueOut, (Command.get other).Admitted → other ≠ key →
    valueOut.length = valueSize →
    getResult other valueOut (runCommand FileOps.allSucceed files command) =
      getResult other valueOut files

private theorem isolated_of_owned {files : Files} (reachable : Reachable Isolating files)
    {command : Command} (admitted : command.Admitted) (owned : command.Owned)
    {key : CString} (changes : command.changedKey = some key) :
    Isolated files command key := by
  rcases reachable.holds with ⟨store, storeReachable, holds⟩
  have after := runCommand_holds FileOps.allSucceed holds admitted.wellFormed
  intro other valueOut _ different size
  rw [getResult_eq_lookup size, getResult_eq_lookup size, lookup_records after,
    lookup_records holds]
  exact lookupRecords_run storeReachable.storeOwned owned changes different

private theorem not_isolated_of_not_owned {command : Command} (admitted : command.Admitted)
    (notOwned : ¬command.Owned) {key : CString} (changes : command.changedKey = some key) :
    ¬Isolated { store := none, temp := none } command key := by
  have holds : Holds { store := none, temp := none } none := ⟨rfl, by simp⟩
  have after := runCommand_holds FileOps.allSucceed holds admitted.wellFormed
  have stored : ∃ value, ¬OwnedBy key (key ++ '=' :: value) ∧ Word key ∧ Word value ∧
      (Store.run FileOps.allSucceed none command).getD [] = [key ++ '=' :: value] := by
    cases command with
    | put putKey value =>
        cases changes
        exact ⟨value, notOwned, admitted.wellFormed.1, admitted.wellFormed.2.1, rfl⟩
    | get getKey => cases changes
    | delete deleteKey => exact absurd trivial notOwned
    | list => cases changes
    | update updateKey value =>
        cases changes
        exact ⟨value, notOwned, admitted.wellFormed.1, admitted.wellFormed.2.1, rfl⟩
  rcases stored with ⟨value, foreign, keyWord, valueWord, records⟩
  rcases exists_disturbed keyWord valueWord foreign with ⟨other, getAdmitted, different, found⟩
  intro isolated
  have same := isolated other (List.replicate valueSize nul) getAdmitted different (by simp)
  rw [getResult_eq_lookup (by simp), getResult_eq_lookup (by simp), lookup_records after,
    lookup_records holds, records] at same
  exact found same

/-- In runs whose records all belong to their keys, a command changes no other
key exactly when its own record does. -/
theorem isolated_iff_owned {command : Command} (admitted : command.Admitted) {key : CString}
    (changes : command.changedKey = some key) :
    (∀ files, Reachable Isolating files → Isolated files command key) ↔ command.Owned := by
  constructor
  · intro isolated
    apply Classical.byContradiction
    intro notOwned
    exact not_isolated_of_not_owned admitted notOwned changes
      (isolated _ (.absent none))
  · intro owned files reachable
    exact isolated_of_owned reachable admitted owned changes

private theorem put_admitted_plain : (Command.put ['k'] ['v']).Admitted :=
  ⟨['P', 'U', 'T', ' ', 'k', ' ', 'v', '\n'], by decide, by decide⟩

private theorem put_owned_plain : (Command.put ['k'] ['v']).Owned :=
  ownedBy_of_short (word_singleton (by decide)) (by decide) (word_singleton (by decide))
    (by decide)

theorem isolated_iff_owned_of_plain :
    Isolated (runCommand FileOps.allSucceed { store := none, temp := none } (.put ['k'] ['v']))
      (.update ['k'] ['v']) ['k'] := by
  have admitted : (Command.update ['k'] ['v']).Admitted :=
    ⟨['U', 'P', 'D', 'A', 'T', 'E', ' ', 'k', ' ', 'v', '\n'], by decide, by decide⟩
  have owned : (Command.update ['k'] ['v']).Owned := put_owned_plain
  apply (isolated_iff_owned admitted rfl).mpr owned
  exact .run (.absent none) put_admitted_plain ⟨rfl, put_owned_plain⟩

/-- The record `a=b=c` of the key `a=b` is found under the key `a`. -/
theorem put_reaches_other_key :
    Reachable Succeeding { store := none, temp := none } ∧
      (Command.put ['a', '=', 'b'] ['c']).Admitted ∧ (Command.get ['a']).Admitted ∧
      getResult ['a'] (List.replicate valueSize nul) { store := none, temp := none } =
        .notFound ∧
      getResult ['a'] (List.replicate valueSize nul)
        (runCommand FileOps.allSucceed { store := none, temp := none }
          (.put ['a', '=', 'b'] ['c'])) = .found ['b'] :=
  ⟨.absent none, ⟨['P', 'U', 'T', ' ', 'a', '=', 'b', ' ', 'c'], by decide, by decide⟩,
    ⟨['G', 'E', 'T', ' ', 'a'], by decide, by decide⟩, by decide +kernel, by decide +kernel⟩

end SystemsRepository.KeyValueStore
