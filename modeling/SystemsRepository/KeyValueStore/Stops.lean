import SystemsRepository.Foundation.Interruption
import SystemsRepository.KeyValueStore.MapRefinement

/-! # Stopped commands

What is in `store.txt` and `temp.txt` when the process is stopped in the middle of a command, and
how much of the store can be recovered from them.
-/

namespace SystemsRepository.KeyValueStore

open SystemsRepository.Foundation

/-! ## What the handlers do to the files -/

/-- A stream is written out by `fclose` at the latest, so each file is written once. -/
inductive FileOperation
  | create
  | append (text : List Char)
  | createTemp
  | writeTemp (text : List Char)
  | remove
  | rename
  deriving DecidableEq, Repr

def FileOperation.perform : FileOperation → Files → Files
  | .create, files => { files with store := some (files.store.getD []) }
  | .append text, files => { files with store := some (files.store.getD [] ++ text) }
  | .createTemp, files => { files with temp := some [] }
  | .writeTemp text, files => { files with temp := some (files.temp.getD [] ++ text) }
  | .remove, files => { files with store := none }
  | .rename, files => { store := files.temp, temp := none }

def FileOperation.pieces : FileOperation → FileOperation → Prop
  | .append text, piece => ∃ part, part <+: text ∧ piece = .append part
  | .writeTemp text, piece => ∃ part, part <+: text ∧ piece = .writeTemp part
  | _, _ => False

def disk : Medium Files FileOperation where
  perform := FileOperation.perform
  pieces := FileOperation.pieces

def putOperations (key value : CString) (files : Files) : List FileOperation :=
  .create ::
    if (Text.reads newline lineSize (files.store.getD [])).any (hasKey key) then []
    else [.append (formatRecord key value ++ [newline])]

/-- `handle_delete`; `temp.txt` is opened before `store.txt` is found to be missing. -/
def deleteOperations (key : CString) (files : Files) : List FileOperation :=
  .createTemp ::
    match files.store with
    | none => []
    | some contents =>
        [.writeTemp (Text.unlines newline (keptLines key (Text.reads newline lineSize contents))),
          .remove, .rename]

/-- `handle_update` looks for the key again when it has deleted it. -/
def operations (files : Files) : Command → List FileOperation
  | .put key value => putOperations key value files
  | .get _ => []
  | .delete key => deleteOperations key files
  | .list => []
  | .update key value =>
      deleteOperations key files ++
        putOperations key value (handleDelete FileOps.allSucceed key files).2

private theorem performAll_put (key value : CString) (files : Files) :
    disk.performAll (putOperations key value files) files =
      (putRecord FileOps.allSucceed key value files).2 := by
  unfold putOperations putRecord
  simp only [FileOps.allSucceed, Bool.not_true, Bool.false_eq_true, if_false]
  split <;> rfl

private theorem performAll_delete (key : CString) (files : Files) :
    disk.performAll (deleteOperations key files) files =
      (handleDelete FileOps.allSucceed key files).2 := by
  rcases files with ⟨store, temp⟩
  cases store <;> rfl

theorem performAll_operations (files : Files) (command : Command) :
    disk.performAll (operations files command) files =
      runCommand FileOps.allSucceed files command := by
  cases command with
  | put key value => exact performAll_put key value files
  | get key => rfl
  | delete key => exact performAll_delete key files
  | list => rfl
  | update key value =>
      rw [operations, Medium.performAll_append, performAll_delete, performAll_put]
      rfl

/-! ## Where a command may be stopped -/

/-- The files hold the records, and where there is no store nothing is left of an older one. -/
structure Sound (files : Files) (store : Store) : Prop extends Holds files store where
  temp : files.store = none → files.temp.getD [] = []

section Stopped

variable {files after : Files} {store : Store} {key value : CString}

private theorem put_stopped (holds : Holds files store)
    (short : key.length + 1 + value.length ≤ 695)
    (stopped : disk.Stopped (putOperations key value files) files after) :
    after = files ∨
      after = { files with store := some (Text.unlines newline (store.getD [])) } ∨
      (store.getD []).any (recordHasKey key) = false ∧
        ∃ part, part <+: key ++ '=' :: value ++ [newline] ∧
          after = { files with store := some (Text.unlines newline (store.getD []) ++ part) } := by
  have contents : files.store.getD [] = Text.unlines newline (store.getD []) := by
    rw [holds.contents, unlines_getD]
  have found := any_hasKey holds.getD_records key
  rw [putOperations, Medium.stopped_atomic_iff (fun _ part => part), contents, found,
    formatRecord_eq short] at stopped
  rcases stopped with same | stopped
  · exact .inl same
  · right
    have created : disk.perform .create files =
        { files with store := some (Text.unlines newline (store.getD [])) } := by
      rw [← contents]
      rfl
    rw [created] at stopped
    split at stopped
    next => exact .inl (Medium.stopped_nil_iff.mp stopped)
    next missing =>
      rw [Medium.stopped_cons_iff, Medium.stopped_nil_iff] at stopped
      rcases stopped with same | ⟨piece, ⟨part, leads, rfl⟩, same⟩ | same
      · exact .inl same
      · exact .inr ⟨eq_false_of_ne_true missing, part, leads, same⟩
      · exact .inr ⟨eq_false_of_ne_true missing, _, List.prefix_rfl, same⟩

private def keptText (key : CString) (records : List CString) : List Char :=
  Text.unlines newline (records.filter fun record => !recordRemoved key record)

private theorem delete_stopped (sound : Sound files store)
    (stopped : disk.Stopped (deleteOperations key files) files after) :
    (after.store = files.store ∧ (files.store = none → after.temp.getD [] = [])) ∨
      ∃ records, store = some records ∧
        (after = { store := none, temp := some (keptText key records) } ∨
          after = { store := some (keptText key records), temp := none }) := by
  rw [deleteOperations, Medium.stopped_atomic_iff (fun _ part => part)] at stopped
  rcases stopped with rfl | stopped
  · exact .inl ⟨rfl, sound.temp⟩
  · cases store with
    | none =>
        rw [sound.contents, Option.map_none, Medium.stopped_nil_iff] at stopped
        rw [stopped]
        exact .inl ⟨rfl, fun _ => rfl⟩
    | some records =>
        have areRecords := sound.records records rfl
        rw [sound.contents, Option.map_some] at stopped
        dsimp only at stopped
        rw [reads_records areRecords, keptLines_records areRecords,
          Medium.stopped_cons_iff] at stopped
        have present : files.store ≠ none := by
          rw [sound.contents]
          exact Option.some_ne_none _
        rcases stopped with rfl | ⟨piece, ⟨part, _, rfl⟩, rfl⟩ | stopped
        · exact .inl ⟨rfl, fun missing => absurd missing present⟩
        · exact .inl ⟨rfl, fun missing => absurd missing present⟩
        · rw [Medium.stopped_atomic_iff (fun _ part => part)] at stopped
          rcases stopped with rfl | stopped
          · exact .inl ⟨rfl, fun missing => absurd missing present⟩
          · rw [Medium.stopped_atomic_iff (fun _ part => part), Medium.stopped_nil_iff] at stopped
            exact .inr ⟨records, rfl, stopped⟩

end Stopped

/-! ## What is left -/

/-- The records that the files still have: those of the store, behind which there may be a torn
one, or those of `temp.txt` where there is no store. -/
inductive Leaves (files : Files) : Store → Prop
  | nothing (missing : files.store = none) (empty : files.temp.getD [] = []) : Leaves files none
  | moved {records : List CString} (missing : files.store = none)
      (contents : files.temp = some (Text.unlines newline records)) : Leaves files (some records)
  | stored {records : List CString} {torn : List Char} (noEnd : newline ∉ torn)
      (contents : files.store = some (Text.unlines newline records ++ torn)) :
      Leaves files (some records)

/-- The records that a stopped command leaves are those before it or those after it; UPDATE may
also be stopped when it has deleted its key. -/
inductive Effect (store : Store) : Command → List CString → Prop
  | undone (command : Command) : Effect store command (store.getD [])
  | done (command : Command) : Effect store command ((store.run .allSucceed command).getD [])
  | erased (key value : CString) :
      Effect store (.update key value) ((store.delete .allSucceed key).getD [])

section Left

variable {files after : Files} {store : Store} {key value : CString}

theorem Sound.leaves (sound : Sound files store) : Leaves files store := by
  cases store with
  | none => exact .nothing sound.contents (sound.temp sound.contents)
  | some records =>
      have contents : files.store = some (Text.unlines newline records) := sound.contents
      exact .stored List.not_mem_nil (by rw [contents, List.append_nil])

private theorem put_leaves (sound : Sound files store) (keyWord : Word key) (valueWord : Word value)
    (short : key.length + 1 + value.length ≤ 695)
    (stopped : disk.Stopped (putOperations key value files) files after) :
    ∃ left, Leaves after left ∧ (left.getD [] = store.getD [] ∨
      left.getD [] = (store.put .allSucceed key value).getD []) := by
  rcases put_stopped sound.toHolds short stopped with rfl | rfl | ⟨missing, part, leads, rfl⟩
  · exact ⟨store, sound.leaves, .inl rfl⟩
  · refine ⟨some (store.getD []), .stored List.not_mem_nil ?_, .inl rfl⟩
    rw [List.append_nil]
  · have record := isRecord_of_words keyWord valueWord short
    rcases List.prefix_concat_iff.mp leads with whole | torn
    · refine ⟨some (store.getD [] ++ [key ++ '=' :: value]), .stored List.not_mem_nil ?_, .inr ?_⟩
      · rw [List.append_nil, whole, Text.unlines_append]
        simp [Text.unlines]
      · rw [Store.put_allSucceed, if_neg (by simp [missing])]
        rfl
    · have noEnd : newline ∉ part := fun member => record.newline_not_mem (torn.subset member)
      exact ⟨some (store.getD []), .stored noEnd rfl, .inl rfl⟩

private theorem delete_leaves (sound : Sound files store)
    (stopped : disk.Stopped (deleteOperations key files) files after) :
    ∃ left, Leaves after left ∧ (left.getD [] = store.getD [] ∨
      left.getD [] = (store.delete .allSucceed key).getD []) := by
  rcases delete_stopped sound stopped with ⟨same, temp⟩ | ⟨records, rfl, rfl | rfl⟩
  · refine ⟨store, ?_, .inl rfl⟩
    cases store with
    | none =>
        have missing : files.store = none := sound.contents
        exact .nothing (same.trans missing) (temp missing)
    | some records =>
        have contents : files.store = some (Text.unlines newline records) := sound.contents
        exact .stored List.not_mem_nil (by rw [same, contents, List.append_nil])
  · exact ⟨_, .moved rfl rfl, .inr (Store.delete_allSucceed key (some records)).symm⟩
  · refine ⟨some (records.filter fun record => !recordRemoved key record),
      .stored List.not_mem_nil ?_, .inr (Store.delete_allSucceed key (some records)).symm⟩
    rw [List.append_nil]
    rfl

theorem Sound.delete (sound : Sound files store) (key : CString) :
    Sound (handleDelete .allSucceed key files).2 (store.delete .allSucceed key) where
  toHolds := handleDelete_holds .allSucceed key sound.toHolds
  temp missing := by
    rcases files with ⟨_ | contents, temp⟩
    · rfl
    · cases missing

theorem Sound.run {command : Command} (sound : Sound files store)
    (wellFormed : command.WellFormed) :
    Sound (runCommand .allSucceed files command) (store.run .allSucceed command) where
  toHolds := runCommand_holds .allSucceed sound.toHolds wellFormed
  temp missing := by
    have created : ∀ (key value : CString) (files : Files),
        (putRecord .allSucceed key value files).2.store ≠ none := by
      intro key value files
      unfold putRecord
      simp only [FileOps.allSucceed, Bool.not_true, Bool.false_eq_true, if_false]
      split <;> exact Option.some_ne_none _
    cases command with
    | put key value => exact absurd missing (created key value files)
    | get key => exact sound.temp missing
    | delete key => exact (sound.delete key).temp missing
    | list => exact sound.temp missing
    | update key value => exact absurd missing (created key value _)

private theorem stopped_leaves {command : Command} (sound : Sound files store)
    (wellFormed : command.WellFormed)
    (stopped : disk.Stopped (operations files command) files after) :
    ∃ left, Leaves after left ∧ Effect store command (left.getD []) := by
  cases command with
  | put key value =>
      rcases put_leaves sound wellFormed.1 wellFormed.2.1 wellFormed.2.2 stopped with
        ⟨left, leaves, same | same⟩
      · exact ⟨left, leaves, same ▸ .undone _⟩
      · exact ⟨left, leaves, same ▸ .done (.put key value)⟩
  | get key =>
      rw [Medium.stopped_nil_iff.mp stopped]
      exact ⟨store, sound.leaves, .undone _⟩
  | delete key =>
      rcases delete_leaves sound stopped with ⟨left, leaves, same | same⟩
      · exact ⟨left, leaves, same ▸ .undone _⟩
      · exact ⟨left, leaves, same ▸ .done (.delete key)⟩
  | list =>
      rw [Medium.stopped_nil_iff.mp stopped]
      exact ⟨store, sound.leaves, .undone _⟩
  | update key value =>
      rw [operations, Medium.stopped_append_iff, performAll_delete] at stopped
      rcases stopped with stopped | stopped
      · rcases delete_leaves sound stopped with ⟨left, leaves, same | same⟩
        · exact ⟨left, leaves, same ▸ .undone _⟩
        · exact ⟨left, leaves, same ▸ .erased key value⟩
      · rcases put_leaves (sound.delete key) wellFormed.1 wellFormed.2.1 wellFormed.2.2 stopped with
          ⟨left, leaves, same | same⟩
        · exact ⟨left, leaves, same ▸ .erased key value⟩
        · exact ⟨left, leaves, same ▸ .done (.update key value)⟩

end Left

/-! ## On the map -/

inductive MapEffect (map : KeyMap) : Command → KeyMap → Prop
  | undone (command : Command) : MapEffect map command map
  | done (command : Command) : MapEffect map command (applyToMap map command)
  | erased (key value : CString) : MapEffect map (.update key value) (map.erase key)

section Map

variable {files after : Files} {store left : Store} {map : KeyMap} {command : Command}

theorem Represents.congr (represents : Represents store map)
    (same : left.getD [] = store.getD []) : Represents left map :=
  ⟨same.trans represents.records, represents.plain⟩

theorem Represents.areRecords (represents : Represents store map) :
    ∀ record ∈ store.getD [], IsRecord record := by
  intro record member
  rw [represents.records] at member
  rcases List.mem_map.mp member with ⟨entry, isEntry, rfl⟩
  exact (represents.plain entry isEntry).isRecord

theorem Effect.represents {records : List CString} (effect : Effect store command records)
    (represents : Represents store map) (wellFormed : command.WellFormed)
    (plain : command.Plain) :
    ∃ outcome, MapEffect map command outcome ∧ Represents (some records) outcome := by
  cases effect with
  | undone => exact ⟨map, .undone _, represents.congr rfl⟩
  | done => exact ⟨_, .done _, (represents.run wellFormed plain).congr rfl⟩
  | erased key value => exact ⟨_, .erased key value, (represents.delete key).congr rfl⟩

theorem Represents.lookup_eq (represents : Represents store map) (key : CString) :
    lookupRecords key (store.getD []) =
      match map.entries.find? fun entry => entry.1 = key with
      | some entry => .found entry.2
      | none => .notFound := by
  have plainEntries := represents.plain
  rw [represents.records, lookupRecords]
  revert plainEntries
  generalize map.entries = entries
  intro plainEntries
  induction entries with
  | nil => rfl
  | cons head tail induction =>
      have plain := plainEntries head (by simp)
      rw [List.map_cons, List.flatMap_cons, plain.pieces, List.singleton_append,
        lookupPieces_cons_of_tokens plain.chomped]
      by_cases same : head.1 = key
      · rw [List.find?_cons_of_pos (by simpa using same), if_pos same]
        rfl
      · rw [List.find?_cons_of_neg (by simpa using same), if_neg same]
        exact induction fun other member => plainEntries other (by simp [member])

end Map

/-! ## Repair -/

/-- What a restart could do: take `temp.txt` where there is no store, and cut off a record that
has no end. -/
def repair (files : Files) : Files :=
  match files.store with
  | none => { store := files.temp, temp := none }
  | some contents => { files with store := some (Text.endedLines newline contents) }

private theorem Leaves.repair {files : Files} {left : Store} (leaves : Leaves files left)
    (areRecords : ∀ record ∈ left.getD [], IsRecord record) :
    ∃ repaired, Sound (repair files) repaired ∧ repaired.getD [] = left.getD [] := by
  have whole : ∀ {records : List CString}, (∀ record ∈ records, IsRecord record) →
      ∀ others ∈ (some records : Store), ∀ record ∈ others, IsRecord record := by
    intro records each others same
    rw [← Option.some.inj same]
    exact each
  cases leaves with
  | nothing missing empty =>
      rw [KeyValueStore.repair, missing]
      rcases files with ⟨_, _ | text⟩
      · exact ⟨none, ⟨⟨rfl, fun _ none => by cases none⟩, fun _ => rfl⟩, rfl⟩
      · have blank : text = [] := empty
        rw [blank]
        exact ⟨some [], ⟨⟨rfl, whole areRecords⟩, fun missing => by cases missing⟩, rfl⟩
  | @moved records missing contents =>
      rw [KeyValueStore.repair, missing, contents]
      exact ⟨some records, ⟨⟨rfl, whole areRecords⟩, fun missing => by cases missing⟩, rfl⟩
  | @stored records torn noEnd contents =>
      rw [KeyValueStore.repair, contents]
      refine ⟨some records, ⟨⟨?_, whole areRecords⟩, fun missing => by cases missing⟩, rfl⟩
      exact congrArg some (Text.endedLines_append records noEnd)

/-- A command comes to its end, or it is stopped and the files are repaired. -/
inductive Attempt (files : Files) (command : Command) : Files → Prop
  | completed : Attempt files command (runCommand .allSucceed files command)
  | stopped {after : Files} (stopped : disk.Stopped (operations files command) files after) :
      Attempt files command (repair after)

inductive Attempts : Files → List Command → Files → Prop
  | nil (files : Files) : Attempts files [] files
  | cons {files middle final : Files} {command : Command} {commands : List Command}
      (first : Attempt files command middle) (rest : Attempts middle commands final) :
      Attempts files (command :: commands) final

inductive MapEffects : KeyMap → List Command → KeyMap → Prop
  | nil (map : KeyMap) : MapEffects map [] map
  | cons {map middle final : KeyMap} {command : Command} {commands : List Command}
      (first : MapEffect map command middle) (rest : MapEffects middle commands final) :
      MapEffects map (command :: commands) final

/-- The store has the entries of the map in their order, and GET finds these and no others. -/
structure Shows (files : Files) (map : KeyMap) : Prop where
  contents : files.store.getD [] = Text.unlines newline (map.entries.map entryRecord)
  found : ∀ key valueOut, valueOut.length = valueSize →
    getResult key valueOut files =
      match map.entries.find? fun entry => entry.1 = key with
      | some entry => .found entry.2
      | none => .notFound

private theorem attempt_represents {files after : Files} {store : Store} {map : KeyMap}
    {command : Command} (sound : Sound files store) (represents : Represents store map)
    (wellFormed : command.WellFormed) (plain : command.Plain)
    (attempt : Attempt files command after) :
    ∃ next outcome, Sound after next ∧ Represents next outcome ∧
      MapEffect map command outcome := by
  cases attempt with
  | completed =>
      exact ⟨_, _, sound.run wellFormed, represents.run wellFormed plain, .done command⟩
  | stopped stopped =>
      rcases stopped_leaves sound wellFormed stopped with ⟨left, leaves, effect⟩
      rcases effect.represents represents wellFormed plain with ⟨outcome, mapEffect, shown⟩
      have leftShown : Represents left outcome := shown.congr rfl
      rcases leaves.repair leftShown.areRecords with ⟨repaired, repairedSound, same⟩
      exact ⟨repaired, outcome, repairedSound, leftShown.congr same, mapEffect⟩

private theorem attempts_represent {files final : Files} {commands : List Command}
    (attempts : Attempts files commands final) : ∀ {store : Store} {map : KeyMap},
      Sound files store → Represents store map →
      (∀ command ∈ commands, command.Admitted ∧ command.Plain) →
      ∃ last outcome, Sound final last ∧ Represents last outcome ∧
        MapEffects map commands outcome := by
  induction attempts with
  | nil => exact fun sound represents _ => ⟨_, _, sound, represents, .nil _⟩
  | cons first _ induction =>
      intro store map sound represents plain
      rcases plain _ List.mem_cons_self with ⟨admitted, here⟩
      rcases attempt_represents sound represents admitted.wellFormed here first with
        ⟨next, middle, nextSound, nextShown, effect⟩
      rcases induction nextSound nextShown fun command member =>
        plain command (List.mem_cons_of_mem _ member) with
        ⟨last, outcome, lastSound, lastShown, effects⟩
      exact ⟨last, outcome, lastSound, lastShown, .cons effect effects⟩

/-- With repair at each restart, a run whose commands may be stopped at any moment shows a map
that each command has changed as a whole or not at all; only UPDATE may have done the first of
its two halves. -/
theorem stopped_run_shows_map {commands : List Command} {final : Files}
    (plain : ∀ command ∈ commands, command.Admitted ∧ command.Plain)
    (attempts : Attempts { store := none, temp := none } commands final) :
    ∃ map, MapEffects OrderedMap.empty commands map ∧ Shows final map := by
  have sound : Sound { store := none, temp := none } none :=
    ⟨⟨rfl, fun _ none => by cases none⟩, fun _ => rfl⟩
  have initial : Represents none OrderedMap.empty := ⟨rfl, by simp [OrderedMap.empty]⟩
  rcases attempts_represent attempts sound initial plain with
    ⟨last, map, lastSound, represents, effects⟩
  refine ⟨map, effects, ?_, ?_⟩
  · rw [lastSound.contents, unlines_getD, represents.records]
  · intro key valueOut size
    rw [getResult_eq_lookup size, lookup_records lastSound.toHolds]
    exact represents.lookup_eq key

def stoppedCommands : List Command := [.put ['a'] ['1'], .put ['k'] ['v']]

private theorem stoppedCommands_plain : ∀ command ∈ stoppedCommands ++ [.delete ['k']],
    command.Admitted ∧ command.Plain := by
  intro command member
  simp only [stoppedCommands, List.cons_append, List.nil_append, List.mem_cons, List.not_mem_nil,
    or_false] at member
  rcases member with rfl | rfl | rfl
  · exact ⟨⟨"PUT a 1".toList, by decide, by decide⟩, by decide, by decide, by decide⟩
  · exact ⟨⟨"PUT k v".toList, by decide, by decide⟩, by decide, by decide, by decide⟩
  · exact ⟨⟨"DELETE k".toList, by decide, by decide⟩, (by decide : '=' ∉ ['k'])⟩

def removedFiles : Files := { store := none, temp := some "a=1\n".toList }

private theorem removedFiles_stopped :
    disk.Stopped (operations (filesAfter none stoppedCommands) (.delete ['k']))
      (filesAfter none stoppedCommands) removedFiles := by
  have performed : operations (filesAfter none stoppedCommands) (.delete ['k']) =
      [.createTemp, .writeTemp "a=1\n".toList, .remove, .rename] := by decide
  rw [performed]
  exact .behind (.behind (.behind (.here _ _)))

theorem stopped_run_shows_map_of_removed : ∃ map,
    MapEffects OrderedMap.empty (stoppedCommands ++ [.delete ['k']]) map ∧
      Shows (repair removedFiles) map :=
  stopped_run_shows_map stoppedCommands_plain
    (.cons .completed (.cons .completed (.cons (.stopped removedFiles_stopped) (.nil _))))

/-! ## Without repair -/

def Command.changes : Command → Option CString
  | .put key _ => some key
  | .get _ => none
  | .delete key => some key
  | .list => none
  | .update key _ => some key

section Unrepaired

variable {files after : Files} {map outcome : KeyMap} {command : Command}
  {entry : CString × CString}

private theorem mem_insertNew (member : entry ∈ map.entries) (key value : CString) :
    entry ∈ (map.insertNew key value).entries := by
  by_cases present : key ∈ map.keys
  · rw [OrderedMap.insertNew_of_mem present]
    exact member
  · rw [OrderedMap.entries_insertNew_of_not_mem present]
    exact List.mem_append_left _ member

private theorem mem_erase (member : entry ∈ map.entries) {key : CString} (other : entry.1 ≠ key) :
    entry ∈ (map.erase key).entries :=
  List.mem_filter.mpr ⟨member, by simpa using other⟩

private theorem MapEffect.mem (effect : MapEffect map command outcome)
    (member : entry ∈ map.entries)
    (other : command.changes ≠ some entry.1) : entry ∈ outcome.entries := by
  have different : ∀ {key : CString}, some key ≠ some entry.1 → entry.1 ≠ key :=
    fun other same => other (congrArg some same.symm)
  cases effect with
  | undone => exact member
  | done =>
      cases command with
      | put key value => exact mem_insertNew member key value
      | get key => exact member
      | delete key => exact mem_erase member (different other)
      | list => exact member
      | update key value => exact mem_insertNew (mem_erase member (different other)) key value
  | erased key value => exact mem_erase member (different other)

private theorem lookup_stored {records : List CString} {torn : List Char} {value key : CString}
    (areRecords : ∀ record ∈ records, IsRecord record)
    (contents : after.store = some (Text.unlines newline records ++ torn))
    (found : lookupRecords key records = .found value) : lookup key after = .found value := by
  have pieces : getPieces after =
      records.flatMap recordPieces ++ Text.reads newline valueSize torn := by
    rw [getPieces, contents]
    exact Text.reads_unlines_append (by decide)
      (fun record member => (areRecords record member).newline_not_mem) torn
  rw [lookup, pieces, lookupPieces_append]
  rcases lookupPieces_found found with ⟨piece, _, stops, _⟩
  rw [lookupRecords, lookupPieces, stops] at found
  rw [stops]
  exact found

private theorem lookup_missing (missing : after.store = none) (key : CString) :
    lookup key after = .notFound := by
  rw [lookup, getPieces, missing]
  rfl

private theorem runCommand_store {other : Files} (same : files.store = other.store)
    (command : Command) : (runCommand .allSucceed files command).store =
      (runCommand .allSucceed other command).store := by
  rcases files with ⟨contents, temp⟩
  rcases other with ⟨contents', temp'⟩
  cases same
  have put : ∀ (key value : CString) (contents temp temp' : Option (List Char)),
      (putRecord .allSucceed key value { store := contents, temp }).2.store =
        (putRecord .allSucceed key value { store := contents, temp := temp' }).2.store := by
    intro key value contents temp temp'
    unfold putRecord
    simp only [FileOps.allSucceed, Bool.not_true, Bool.false_eq_true, if_false]
    split <;> rfl
  cases command with
  | put key value => exact put key value contents temp temp'
  | get key => rfl
  | delete key => cases contents <;> rfl
  | list => rfl
  | update key value =>
      cases contents with
      | none => exact put key value none (some []) (some [])
      | some contents => exact put key value _ none none

private theorem run_store (commands : List Command) : ∀ {files other : Files},
    files.store = other.store →
      (commands.foldl (runCommand .allSucceed) files).store =
        (commands.foldl (runCommand .allSucceed) other).store := by
  induction commands with
  | nil => exact fun same => same
  | cons command commands induction => exact fun same => induction (runCommand_store same command)

end Unrepaired

private theorem filesAfter_sound {commands : List Command}
    (plain : ∀ command ∈ commands, command.Admitted ∧ command.Plain) :
    ∃ store, Sound (filesAfter none commands) store ∧ Represents store (mapAfter commands) := by
  have preserved : ∀ (commands : List Command) (files : Files) (store : Store) (map : KeyMap),
      (∀ command ∈ commands, command.Admitted ∧ command.Plain) →
      Sound files store → Represents store map →
      ∃ last, Sound (commands.foldl (runCommand .allSucceed) files) last ∧
        Represents last (commands.foldl applyToMap map) := by
    intro commands
    induction commands with
    | nil => exact fun files store map _ sound represents => ⟨store, sound, represents⟩
    | cons command commands induction =>
        intro files store map plain sound represents
        rcases plain command List.mem_cons_self with ⟨admitted, here⟩
        exact induction _ _ _ (fun other member => plain other (List.mem_cons_of_mem _ member))
          (sound.run admitted.wellFormed) (represents.run admitted.wellFormed here)
  exact preserved commands _ none _ plain ⟨⟨rfl, by simp⟩, fun _ => rfl⟩
    ⟨rfl, by simp [OrderedMap.empty]⟩

/-- Without repair, the entries of other keys are still found when a command has been stopped,
unless it was stopped between `remove` and `rename`. Then the store is lost for good: whatever is
done later, the store is as if it had never been there. -/
theorem stopped_finds_iff {commands : List Command} {command : Command} {after : Files}
    (plain : ∀ command ∈ commands, command.Admitted ∧ command.Plain)
    (here : command.Admitted ∧ command.Plain)
    (stopped : disk.Stopped (operations (filesAfter none commands) command)
      (filesAfter none commands) after) :
    ((∀ entry ∈ (mapAfter commands).entries, command.changes ≠ some entry.1 →
        ∀ valueOut, valueOut.length = valueSize →
          getResult entry.1 valueOut after = .found entry.2) ↔
      (after.store = none →
        ∀ entry ∈ (mapAfter commands).entries, command.changes = some entry.1)) ∧
    (after.store = none → ∀ later,
      (later.foldl (runCommand .allSucceed) after).store = (filesAfter none later).store) := by
  rcases filesAfter_sound plain with ⟨store, sound, represents⟩
  rcases stopped_leaves sound here.1.wellFormed stopped with ⟨left, leaves, effect⟩
  rcases effect.represents represents here.1.wellFormed here.2 with ⟨outcome, mapEffect, shown⟩
  refine ⟨⟨?_, ?_⟩, ?_⟩
  · intro finds missing entry member
    by_cases same : command.changes = some entry.1
    · exact same
    · have found := finds entry member same (List.replicate valueSize nul) (by simp)
      rw [getResult_eq_lookup (by simp), lookup_missing missing] at found
      cases found
  · intro kept entry member other valueOut size
    have present : after.store ≠ none := fun missing => other (kept missing entry member)
    rw [getResult_eq_lookup size]
    have same : Represents left outcome := shown.congr rfl
    have found := same.lookup (mapEffect.mem member other)
    cases leaves with
    | nothing missing => exact absurd missing present
    | moved missing => exact absurd missing present
    | stored _ contents => exact lookup_stored shown.areRecords contents found
  · intro missing later
    exact run_store later missing

theorem stopped_finds_iff_of_removed :
    removedFiles.store = none ∧
      ¬∀ entry ∈ (mapAfter stoppedCommands).entries,
        (Command.delete ['k']).changes ≠ some entry.1 →
          ∀ valueOut, valueOut.length = valueSize →
            getResult entry.1 valueOut removedFiles = .found entry.2 := by
  have both := stopped_finds_iff
    (fun command member => stoppedCommands_plain command (List.mem_append_left _ member))
    (stoppedCommands_plain (.delete ['k']) (List.mem_append_right _ (List.mem_singleton.mpr rfl)))
    removedFiles_stopped
  refine ⟨rfl, fun finds => ?_⟩
  have changed := both.1.mp finds rfl (['a'], ['1']) (by decide)
  exact absurd changed (by decide)

end SystemsRepository.KeyValueStore
