import SystemsRepository.Foundation.OrderedMap
import SystemsRepository.KeyValueStore.Lookup

/-! # The store as an insertion-ordered map

Without `=` in keys and values and with records that GET reads in one piece, the
store simulates a finite map that remembers the order of insertion.
-/

namespace SystemsRepository.KeyValueStore

open SystemsRepository.Foundation

abbrev KeyMap := OrderedMap CString CString

def Command.Plain : Command → Prop
  | .put key value => '=' ∉ key ∧ '=' ∉ value ∧ key.length + 1 + value.length ≤ 510
  | .get key => '=' ∉ key
  | .delete key => '=' ∉ key
  | .list => True
  | .update key value => '=' ∉ key ∧ '=' ∉ value ∧ key.length + 1 + value.length ≤ 510

def applyToMap (map : KeyMap) : Command → KeyMap
  | .put key value => map.insertNew key value
  | .get _ => map
  | .delete key => map.erase key
  | .list => map
  | .update key value => map.replace key value

def filesAfter (temp : Option (List Char)) (commands : List Command) : Files :=
  commands.foldl (runCommand FileOps.allSucceed) { store := none, temp }

def mapAfter (commands : List Command) : KeyMap :=
  commands.foldl applyToMap OrderedMap.empty

def entryRecord (entry : CString × CString) : CString := entry.1 ++ '=' :: entry.2

/-! ## Plain entries -/

structure PlainEntry (entry : CString × CString) : Prop where
  key : Word entry.1
  value : Word entry.2
  keyFree : '=' ∉ entry.1
  valueFree : '=' ∉ entry.2
  short : entry.1.length + 1 + entry.2.length ≤ 510

namespace PlainEntry

variable {entry : CString × CString}

theorem tokens (plain : PlainEntry entry) :
    recordTokens (entryRecord entry) = some (entry.1, some entry.2) :=
  recordTokens_record plain.key.nonempty plain.keyFree plain.value.nonempty plain.valueFree

theorem hasKey (plain : PlainEntry entry) (key : CString) :
    recordHasKey key (entryRecord entry) = (entry.1 == key) := by
  rw [recordHasKey, plain.tokens]

theorem removed (plain : PlainEntry entry) (key : CString) :
    recordRemoved key (entryRecord entry) = (entry.1 == key) := by
  rw [recordRemoved, plain.tokens]

theorem isRecord (plain : PlainEntry entry) : IsRecord (entryRecord entry) := by
  have short := plain.short
  exact isRecord_of_words plain.key plain.value (by omega)

theorem pieces (plain : PlainEntry entry) :
    recordPieces (entryRecord entry) = [entryRecord entry ++ [newline]] := by
  apply recordPieces_short plain.isRecord
  have short := plain.short
  simp [entryRecord]
  omega

theorem chomped (plain : PlainEntry entry) :
    recordTokens (chomp (entryRecord entry ++ [newline])) = some (entry.1, some entry.2) := by
  rw [plain.isRecord.chomp, plain.tokens]

theorem listEntry (plain : PlainEntry entry) :
    listEntry (entryRecord entry ++ [newline]) =
      printEntry entry.1 (entry.2 ++ [newline]) := by
  have noNul : ∀ char ∈ entryRecord entry ++ [newline], char ≠ nul := by
    intro char member
    rcases List.mem_append.mp member with inRecord | atEnd
    · exact (plain.isRecord.clean char inRecord).2
    · rw [List.mem_singleton.mp atEnd]
      decide
  have whole : cString (entryRecord entry ++ [newline]) =
      entry.1 ++ '=' :: (entry.2 ++ [newline]) := by
    have kept : ∀ char ∈ entryRecord entry ++ [newline], (char != nul) = true := by
      simpa using noNul
    have all := @List.takeWhile_append_of_pos _ _ _ [] kept
    rw [List.append_nil, List.takeWhile_nil, List.append_nil] at all
    rw [cString, all]
    simp [entryRecord]
  have valueFree : '=' ∉ entry.2 ++ [newline] := by
    intro member
    rcases List.mem_append.mp member with inValue | atEnd
    · exact plain.valueFree inValue
    · exact absurd (List.mem_singleton.mp atEnd) (by decide)
  rw [KeyValueStore.listEntry, whole,
    recordTokens_record plain.key.nonempty plain.keyFree (by simp) valueFree]

end PlainEntry

/-! ## The simulation relation -/

structure Represents (store : Store) (map : KeyMap) : Prop where
  records : store.getD [] = map.entries.map entryRecord
  plain : ∀ entry ∈ map.entries, PlainEntry entry

namespace Represents

variable {store : Store} {map : KeyMap}

theorem any_hasKey (represents : Represents store map) (key : CString) :
    (store.getD []).any (recordHasKey key) = true ↔ key ∈ map.keys := by
  rw [represents.records, List.any_map, List.any_eq_true, OrderedMap.keys, List.mem_map]
  constructor
  · rintro ⟨entry, member, has⟩
    rw [Function.comp, (represents.plain entry member).hasKey] at has
    exact ⟨entry, member, by simpa using has⟩
  · rintro ⟨entry, member, rfl⟩
    exact ⟨entry, member, by rw [Function.comp, (represents.plain entry member).hasKey]; simp⟩

theorem delete (represents : Represents store map) (key : CString) :
    Represents (store.delete FileOps.allSucceed key) (map.erase key) where
  records := by
    have kept : ∀ entry ∈ map.entries,
        (!recordRemoved key (entryRecord entry)) = decide (entry.1 ≠ key) := by
      intro entry member
      rw [(represents.plain entry member).removed]
      by_cases same : entry.1 = key <;> simp [same]
    rw [Store.delete_allSucceed, represents.records, List.filter_map, OrderedMap.erase]
    exact congrArg (List.map entryRecord) (List.filter_congr kept)
  plain entry member := represents.plain entry (List.mem_filter.mp member).1

theorem put (represents : Represents store map) {key value : CString}
    (plain : PlainEntry (key, value)) :
    Represents (store.put FileOps.allSucceed key value) (map.insertNew key value) := by
  by_cases present : key ∈ map.keys
  · have found := (represents.any_hasKey key).mpr present
    rw [OrderedMap.insertNew_of_mem present]
    refine ⟨?_, represents.plain⟩
    rw [Store.put_allSucceed, if_pos found, represents.records]
  · have missing : ¬(store.getD []).any (recordHasKey key) = true :=
      fun found => present ((represents.any_hasKey key).mp found)
    have entries := OrderedMap.entries_insertNew_of_not_mem present value
    refine ⟨?_, ?_⟩
    · rw [Store.put_allSucceed, if_neg missing, represents.records, entries, List.map_append]
      rfl
    · intro entry member
      rw [entries] at member
      rcases List.mem_append.mp member with old | new
      · exact represents.plain entry old
      · rw [List.mem_singleton.mp new]
        exact plain

theorem run (represents : Represents store map) {command : Command}
    (wellFormed : command.WellFormed) (plain : command.Plain) :
    Represents (store.run FileOps.allSucceed command) (applyToMap map command) := by
  cases command with
  | put key value =>
      exact represents.put ⟨wellFormed.1, wellFormed.2.1, plain.1, plain.2.1, plain.2.2⟩
  | get key => exact represents
  | delete key => exact represents.delete key
  | list => exact represents
  | update key value =>
      exact (represents.delete key).put
        ⟨wellFormed.1, wellFormed.2.1, plain.1, plain.2.1, plain.2.2⟩

theorem lookup (represents : Represents store map) {entry : CString × CString}
    (member : entry ∈ map.entries) :
    lookupRecords entry.1 (store.getD []) = .found entry.2 := by
  have first := OrderedMap.find_of_mem member
  have plainEntries := represents.plain
  rw [represents.records, lookupRecords]
  revert first plainEntries
  generalize map.entries = entries
  intro first plainEntries
  induction entries with
  | nil => cases first
  | cons head tail induction =>
      have plain := plainEntries head (by simp)
      rw [List.map_cons, List.flatMap_cons, plain.pieces, List.singleton_append,
        lookupPieces_cons_of_tokens plain.chomped]
      by_cases same : head.1 = entry.1
      · rw [List.find?_cons_of_pos (by simpa using same)] at first
        rw [if_pos same, Option.some.inj first]
        rfl
      · rw [List.find?_cons_of_neg (by simpa using same)] at first
        rw [if_neg same]
        exact induction first fun other member => plainEntries other (by simp [member])

end Represents

/-! ## Runs -/

private theorem filesAfter_represents (temp : Option (List Char)) {commands : List Command}
    (plain : ∀ command ∈ commands, command.Admitted ∧ command.Plain) :
    ∃ store, Holds (filesAfter temp commands) store ∧ Represents store (mapAfter commands) := by
  have preserved : ∀ (commands : List Command) (files : Files) (store : Store) (map : KeyMap),
      (∀ command ∈ commands, command.Admitted ∧ command.Plain) →
      Holds files store → Represents store map →
      ∃ after, Holds (commands.foldl (runCommand FileOps.allSucceed) files) after ∧
        Represents after (commands.foldl applyToMap map) := by
    intro commands
    induction commands with
    | nil =>
        intro files store map _ holds represents
        exact ⟨store, holds, represents⟩
    | cons command commands induction =>
        intro files store map plain holds represents
        rcases plain command (by simp) with ⟨admitted, here⟩
        exact induction _ _ _ (fun other member => plain other (by simp [member]))
          (runCommand_holds _ holds admitted.wellFormed)
          (represents.run admitted.wellFormed here)
  exact preserved commands _ none _ plain ⟨rfl, by simp⟩ ⟨rfl, by simp [OrderedMap.empty]⟩

/-- What the files show of the map. -/
structure Simulates (files : Files) (map : KeyMap) : Prop where
  contents : files.store.getD [] = Text.unlines newline (map.entries.map entryRecord)
  keysDistinct : ((recordsOf files).map fun record => (recordTokens record).map Prod.fst).Nodup
  putAbsent : ∀ key value, (Command.put key value).Admitted → key ∉ map.keys →
    (runCommand FileOps.allSucceed files (.put key value)).store =
      some (files.store.getD [] ++ (entryRecord (key, value) ++ [newline]))
  putPresent : ∀ key value, (Command.put key value).Admitted → key ∈ map.keys →
    (runCommand FileOps.allSucceed files (.put key value)).store = files.store
  getPresent : ∀ entry ∈ map.entries, ∀ valueOut, valueOut.length = valueSize →
    getResult entry.1 valueOut files = .found entry.2
  listed : files.store ≠ none → handleList FileOps.allSucceed files =
    some (map.entries.flatMap fun entry => printEntry entry.1 (entry.2 ++ [newline]))

private theorem Represents.keysDistinct {files : Files} {store : Store} {map : KeyMap}
    (holds : Holds files store) (represents : Represents store map) :
    ((recordsOf files).map fun record => (recordTokens record).map Prod.fst).Nodup := by
  have keys : (recordsOf files).map (fun record => (recordTokens record).map Prod.fst) =
      map.keys.map some := by
    rw [recordsOf_eq holds, represents.records, List.map_map, OrderedMap.keys, List.map_map]
    apply List.map_congr_left
    intro entry member
    simp [(represents.plain entry member).tokens]
  rw [keys]
  exact List.Pairwise.map some (fun _ _ different equal => different (Option.some.inj equal))
    map.nodup

theorem Represents.listed {files : Files} {store : Store} {map : KeyMap}
    (holds : Holds files store) (represents : Represents store map)
    (created : files.store ≠ none) :
    handleList FileOps.allSucceed files =
      some (map.entries.flatMap fun entry => printEntry entry.1 (entry.2 ++ [newline])) := by
  cases store with
  | none => exact absurd holds.contents created
  | some records =>
      have recordsEq : records = map.entries.map entryRecord := represents.records
      have lines := reads_records (holds.records records rfl)
      rw [handleList, openRead, holds.contents]
      simp only [FileOps.allSucceed, if_true, Option.map_some, lines]
      have printed : ∀ entry ∈ map.entries, listEntry (entryRecord entry ++ [newline]) =
          printEntry entry.1 (entry.2 ++ [newline]) :=
        fun entry member => (represents.plain entry member).listEntry
      rw [recordsEq, List.map_map, List.flatMap_def, List.flatMap_def, List.map_map]
      exact congrArg (fun texts => some (List.flatten texts)) (List.map_congr_left printed)

/-- Every run of plain commands from the absent store. -/
theorem store_simulates_map {temp : Option (List Char)} {commands : List Command}
    (plain : ∀ command ∈ commands, command.Admitted ∧ command.Plain) :
    Simulates (filesAfter temp commands) (mapAfter commands) := by
  rcases filesAfter_represents temp plain with ⟨store, holds, represents⟩
  have contents : (filesAfter temp commands).store.getD [] =
      Text.unlines newline ((mapAfter commands).entries.map entryRecord) := by
    rw [holds.contents, unlines_getD, represents.records]
  have putStore : ∀ key value, (Command.put key value).Admitted →
      (runCommand FileOps.allSucceed (filesAfter temp commands) (.put key value)).store =
        (store.put FileOps.allSucceed key value).map (Text.unlines newline) :=
    fun key value admitted =>
      (runCommand_holds FileOps.allSucceed holds admitted.wellFormed).contents
  refine
    { contents
      keysDistinct := represents.keysDistinct holds
      putAbsent := ?_
      putPresent := ?_
      getPresent := ?_
      listed := represents.listed holds }
  · intro key value admitted absent
    have missing : (store.getD []).any (recordHasKey key) = false := by
      cases found : (store.getD []).any (recordHasKey key) with
      | false => rfl
      | true => exact absurd ((represents.any_hasKey key).mp found) absent
    rw [putStore key value admitted, holds.contents, unlines_getD]
    simp [Store.put, FileOps.allSucceed, missing, entryRecord]
  · intro key value admitted present
    have found := (represents.any_hasKey key).mpr present
    rw [putStore key value admitted, holds.contents]
    cases store with
    | none => cases found
    | some records =>
        simp only [Option.getD_some] at found
        simp [Store.put, FileOps.allSucceed, found]
  · intro entry member valueOut size
    rw [getResult_eq_lookup size, lookup_records holds]
    exact represents.lookup member

def demoCommands : List Command :=
  [.put ['k'] ['v'], .put ['a'] ['1'], .update ['k'] ['w'], .list]

theorem store_simulates_map_of_demo :
    Simulates (filesAfter none demoCommands) (mapAfter demoCommands) ∧
      (mapAfter demoCommands).entries = [(['a'], ['1']), (['k'], ['w'])] := by
  refine ⟨store_simulates_map ?_, by decide⟩
  intro command member
  simp only [demoCommands, List.mem_cons, List.not_mem_nil, or_false] at member
  rcases member with rfl | rfl | rfl | rfl
  · exact ⟨⟨['P', 'U', 'T', ' ', 'k', ' ', 'v'], by decide, by decide⟩, by decide, by decide,
      by decide⟩
  · exact ⟨⟨['P', 'U', 'T', ' ', 'a', ' ', '1'], by decide, by decide⟩, by decide, by decide,
      by decide⟩
  · exact ⟨⟨['U', 'P', 'D', 'A', 'T', 'E', ' ', 'k', ' ', 'w'], by decide, by decide⟩,
      by decide, by decide, by decide⟩
  · exact ⟨⟨['L', 'I', 'S', 'T'], by decide, by decide⟩, trivial⟩

end SystemsRepository.KeyValueStore
