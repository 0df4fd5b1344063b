import SystemsRepository.KeyValueStore.Lookup

/-! # Failing file operations

What DELETE and UPDATE leave in the store when some of their file operations
fail.
-/

namespace SystemsRepository.KeyValueStore

open SystemsRepository.Foundation

/-! ## Keeping the records -/

def KeepsOthers (key : CString) (before after : List CString) : Prop :=
  ∀ record ∈ before, recordHasKey key record = false → record ∈ after

def KeepsValue (key value : CString) (before after : List CString) : Prop :=
  (∃ record ∈ before, recordHasKey key record = true) →
    ∃ record ∈ after, (record ∈ before ∧ recordHasKey key record = true) ∨
      record = key ++ '=' :: value

def UpdateFailed (report : UpdateReport) : Prop :=
  report.delete.status ≠ .deleted ∨ ∀ record, report.put.status ≠ .written record

/-- The records of other keys stay; a failed UPDATE of an existing key leaves
its old or its new record. -/
def KeepsStore (ops : FileOps) (files : Files) : Command → Prop
  | .delete key =>
      KeepsOthers key (recordsOf files) (recordsOf (handleDelete ops key files).2)
  | .update key value =>
      KeepsOthers key (recordsOf files) (recordsOf (handleUpdate ops key value files).2) ∧
        (UpdateFailed (handleUpdate ops key value files).1 →
          KeepsValue key value (recordsOf files)
            (recordsOf (handleUpdate ops key value files).2))
  | _ => True

/-- `rename` fails after `remove` only when every other record is written again;
UPDATE fails to append after `remove` only when a record of its key survives the
removal. -/
def SafeFailures (ops : FileOps) (files : Files) : Command → Prop
  | .delete key =>
      ops.losesStore = true → ∀ record ∈ recordsOf files, recordHasKey key record = true
  | .update key value =>
      (ops.losesStore = true → ∀ record ∈ recordsOf files,
        recordHasKey key record = true ∨ ops.appends = true ∧ record = key ++ '=' :: value) ∧
      (ops.removesStore = true → ops.appends = false →
        (∃ record ∈ recordsOf files, recordHasKey key record = true) →
        ops.rename = true ∧ ∃ record ∈ recordsOf files,
          recordHasKey key record = true ∧ recordRemoved key record = false)
  | _ => True

/-! ## The records after DELETE and PUT -/

private theorem recordHasKey_of_removed {key record : CString}
    (removed : recordRemoved key record = true) : recordHasKey key record = true := by
  unfold recordRemoved at removed
  unfold recordHasKey
  rcases tokens : recordTokens record with _ | ⟨currentKey, _ | value⟩
  · simp [tokens] at removed
  · simp [tokens] at removed
  · simpa [tokens] using removed

private theorem equals_not_mem_of_hasKey {key record : CString}
    (has : recordHasKey key record = true) : '=' ∉ key := by
  unfold recordHasKey at has
  rcases tokens : recordTokens record with _ | ⟨currentKey, value⟩
  · simp [tokens] at has
  · have same : currentKey = key := by simpa [tokens] using has
    exact same ▸ (recordTokens_clean tokens).1

private theorem recordHasKey_new {key : CString} (nonempty : key ≠ []) (free : '=' ∉ key)
    (value : CString) : recordHasKey key (key ++ '=' :: value) = true := by
  simp [recordHasKey, recordTokens_append nonempty free]

private theorem mem_put_records {ops : FileOps} {key value record : CString} {store : Store} :
    record ∈ (store.put ops key value).getD [] ↔
      record ∈ store.getD [] ∨
        ((store.getD []).any (recordHasKey key) = false ∧ ops.appends = true ∧
          record = key ++ '=' :: value) := by
  rw [put_records]
  cases (store.getD []).any (recordHasKey key) <;> cases ops.appends <;> simp

private theorem mem_delete_of_other {ops : FileOps} {key record : CString} {store : Store}
    (kept : ops.losesStore = false) (member : record ∈ store.getD [])
    (other : recordHasKey key record = false) :
    record ∈ (store.delete ops key).getD [] := by
  have notRemoved : recordRemoved key record = false := by
    cases removed : recordRemoved key record with
    | false => rfl
    | true => rw [recordHasKey_of_removed removed] at other; cases other
  rw [delete_records]
  unfold FileOps.losesStore at kept
  cases removes : ops.removesStore with
  | false => simpa using member
  | true =>
      have renamed : ops.rename = true := by simpa [removes] using kept
      simpa [renamed, notRemoved] using member

private theorem delete_of_lost {ops : FileOps} {store : Store} (lost : ops.losesStore = true)
    (key : CString) : (store.delete ops key).getD [] = [] := by
  unfold FileOps.losesStore at lost
  simp only [Bool.and_eq_true, Bool.not_eq_true'] at lost
  rw [delete_records, lost.1, lost.2]
  rfl

private theorem delete_subset {ops : FileOps} {key record : CString} {store : Store}
    (member : record ∈ (store.delete ops key).getD []) : record ∈ store.getD [] := by
  rw [delete_records] at member
  split at member
  · split at member
    · exact (List.mem_filter.mp member).1
    · cases member
  · exact member

/-! ## Each half of the property -/

private theorem keepsOthers_delete_iff {ops : FileOps} {key : CString} {store : Store} :
    KeepsOthers key (store.getD []) ((store.delete ops key).getD []) ↔
      (ops.losesStore = true → ∀ record ∈ store.getD [], recordHasKey key record = true) := by
  constructor
  · intro keeps lost record member
    cases has : recordHasKey key record with
    | true => rfl
    | false =>
        have remains := keeps record member has
        rw [delete_of_lost lost] at remains
        cases remains
  · intro condition record member other
    cases lost : ops.losesStore with
    | false => exact mem_delete_of_other lost member other
    | true => rw [condition lost record member] at other; cases other

private theorem keepsOthers_update_iff {ops : FileOps} {key value : CString} {store : Store} :
    KeepsOthers key (store.getD []) (((store.delete ops key).put ops key value).getD []) ↔
      (ops.losesStore = true → ∀ record ∈ store.getD [],
        recordHasKey key record = true ∨
          ops.appends = true ∧ record = key ++ '=' :: value) := by
  constructor
  · intro keeps lost record member
    cases has : recordHasKey key record with
    | true => exact .inl rfl
    | false =>
        rcases mem_put_records.mp (keeps record member has) with remains | added
        · rw [delete_of_lost lost] at remains
          cases remains
        · exact .inr added.2
  · intro condition record member other
    apply mem_put_records.mpr
    cases lost : ops.losesStore with
    | false => exact .inl (mem_delete_of_other lost member other)
    | true =>
        rcases condition lost record member with same | added
        · rw [same] at other
          cases other
        · exact .inr ⟨by rw [delete_of_lost lost]; rfl, added⟩

private theorem keepsValue_of_kept {ops : FileOps} {key value : CString} {store : Store}
    (record : CString) (remains : record ∈ (store.delete ops key).getD [])
    (has : recordHasKey key record = true) :
    KeepsValue key value (store.getD [])
      (((store.delete ops key).put ops key value).getD []) := fun _ =>
  ⟨record, mem_put_records.mpr (.inl remains), .inl ⟨delete_subset remains, has⟩⟩

private theorem keepsValue_update {ops : FileOps} {key value : CString} {store : Store}
    (condition : ops.removesStore = true → ops.appends = false →
      (∃ record ∈ store.getD [], recordHasKey key record = true) →
      ops.rename = true ∧ ∃ record ∈ store.getD [],
        recordHasKey key record = true ∧ recordRemoved key record = false) :
    KeepsValue key value (store.getD [])
      (((store.delete ops key).put ops key value).getD []) := by
  intro existing
  cases removes : ops.removesStore with
  | false =>
      rcases existing with ⟨record, member, has⟩
      apply keepsValue_of_kept record _ has ⟨record, member, has⟩
      rw [delete_records, removes]
      exact member
  | true =>
      cases appends : ops.appends with
      | false =>
          rcases condition removes appends existing with ⟨renamed, record, member, has, kept⟩
          apply keepsValue_of_kept record _ has existing
          rw [delete_records, removes, renamed]
          exact List.mem_filter.mpr ⟨member, by simp [kept]⟩
      | true =>
          cases found : ((store.delete ops key).getD []).any (recordHasKey key) with
          | true =>
              rcases List.any_eq_true.mp found with ⟨record, remains, has⟩
              exact keepsValue_of_kept record remains has existing
          | false =>
              exact ⟨_, mem_put_records.mpr (.inr ⟨found, appends, rfl⟩), .inr rfl⟩

private theorem survivor_of_keepsValue {ops : FileOps} {key value : CString} {store : Store}
    (nonempty : key ≠ []) (removes : ops.removesStore = true) (appends : ops.appends = false)
    (existing : ∃ record ∈ store.getD [], recordHasKey key record = true)
    (keeps : KeepsValue key value (store.getD [])
      (((store.delete ops key).put ops key value).getD [])) :
    ops.rename = true ∧ ∃ record ∈ store.getD [],
      recordHasKey key record = true ∧ recordRemoved key record = false := by
  rcases keeps existing with ⟨record, after, old⟩
  have remains : record ∈ (store.delete ops key).getD [] := by
    rcases mem_put_records.mp after with remains | added
    · exact remains
    · rw [appends] at added
      cases added.2.1
  have has : recordHasKey key record = true := by
    rcases old with old | rfl
    · exact old.2
    · rcases existing with ⟨_, _, other⟩
      exact recordHasKey_new nonempty (equals_not_mem_of_hasKey other) value
  rw [delete_records, removes] at remains
  cases renamed : ops.rename with
  | false =>
      rw [renamed] at remains
      cases remains
  | true =>
      rw [renamed] at remains
      rcases List.mem_filter.mp remains with ⟨member, kept⟩
      exact ⟨rfl, record, member, has, by simpa using kept⟩

private theorem updateFailed_of_not_appends {ops : FileOps} {files : Files} {store : Store}
    {key value : CString} (holds : Holds files store) (appends : ops.appends = false)
    (short : key.length + 1 + value.length ≤ 695) :
    UpdateFailed (handleUpdate ops key value files).1 := by
  refine .inr ?_
  intro record
  have status := putRecord_status ops (handleDelete_holds ops key holds) short
  change (putRecord ops key value (handleDelete ops key files).2).1.status ≠ .written record
  rw [status]
  unfold FileOps.appends at appends
  cases opened : ops.openAppend with
  | false => exact fun impossible => by cases impossible
  | true =>
      have notWritten : ops.write = false := by simpa [opened] using appends
      rw [notWritten]
      cases ((store.delete ops key).getD []).any (recordHasKey key) <;>
        exact fun impossible => by cases impossible

/-! ## The exact condition -/

/-- On every store the loop can produce, however its operations failed. -/
theorem keepsStore_iff {permitted : FileOps → Command → Prop} {files : Files}
    (reachable : Reachable permitted files) {command : Command}
    (admitted : command.Admitted) (ops : FileOps) :
    KeepsStore ops files command ↔ SafeFailures ops files command := by
  rcases reachable.holds with ⟨store, _, holds⟩
  have before := recordsOf_eq holds
  have after := recordsOf_eq (runCommand_holds ops holds admitted.wellFormed)
  cases command with
  | put key value => exact Iff.rfl
  | get key => exact Iff.rfl
  | list => exact Iff.rfl
  | delete key =>
      change KeepsOthers key _ (recordsOf (runCommand ops files (.delete key))) ↔ _
      rw [SafeFailures, before, after]
      exact keepsOthers_delete_iff
  | update key value =>
      rcases admitted.wellFormed with ⟨keyWord, _, short⟩
      change recordsOf (handleUpdate ops key value files).2 = _ at after
      rw [KeepsStore, SafeFailures, before, after]
      refine and_congr keepsOthers_update_iff ⟨?_, ?_⟩
      · intro keeps removes appends existing
        exact survivor_of_keepsValue keyWord.nonempty removes appends existing
          (keeps (updateFailed_of_not_appends holds appends short))
      · intro condition _
        exact keepsValue_update condition

def twoRecords : Files :=
  runCommand FileOps.allSucceed
    (runCommand FileOps.allSucceed { store := none, temp := none } (.put ['a'] ['1']))
    (.put ['b'] ['2'])

private theorem twoRecords_reachable : Reachable Succeeding twoRecords :=
  .run (.run (.absent none)
    ⟨['P', 'U', 'T', ' ', 'a', ' ', '1'], by decide, by decide⟩ rfl)
    ⟨['P', 'U', 'T', ' ', 'b', ' ', '2'], by decide, by decide⟩ rfl

def FileOps.renameFails : FileOps := { allSucceed with rename := false }

def FileOps.openAppendFails : FileOps := { allSucceed with openAppend := false }

theorem keepsStore_iff_of_twoRecords :
    KeepsStore { FileOps.renameFails with openTo := false } twoRecords (.delete ['a']) :=
  (keepsStore_iff twoRecords_reachable
    ⟨['D', 'E', 'L', 'E', 'T', 'E', ' ', 'a'], by decide, by decide⟩ _).mpr
    (fun impossible => by cases impossible)

/-- When `rename` fails, DELETE loses the other record; when UPDATE cannot open the
store for appending, the old value is gone. -/
theorem failures_lose_records :
    Reachable Succeeding twoRecords ∧
      (Command.delete ['a']).Admitted ∧ (Command.update ['a'] ['3']).Admitted ∧
      recordsOf twoRecords = [['a', '=', '1'], ['b', '=', '2']] ∧
      recordsOf (handleDelete FileOps.renameFails ['a'] twoRecords).2 = [] ∧
      ¬KeepsStore FileOps.renameFails twoRecords (.delete ['a']) ∧
      recordsOf (handleUpdate FileOps.openAppendFails ['a'] ['3'] twoRecords).2 =
        [['b', '=', '2']] ∧
      ¬KeepsStore FileOps.openAppendFails twoRecords (.update ['a'] ['3']) := by
  have records : recordsOf twoRecords = [['a', '=', '1'], ['b', '=', '2']] := by decide +kernel
  have lost : recordsOf (handleDelete FileOps.renameFails ['a'] twoRecords).2 = [] := by
    decide +kernel
  have updated : recordsOf (handleUpdate FileOps.openAppendFails ['a'] ['3'] twoRecords).2 =
      [['b', '=', '2']] := by
    decide +kernel
  have failed : UpdateFailed (handleUpdate FileOps.openAppendFails ['a'] ['3'] twoRecords).1 :=
    .inr fun record impossible => by cases impossible
  refine ⟨twoRecords_reachable, ⟨['D', 'E', 'L', 'E', 'T', 'E', ' ', 'a'], by decide, by decide⟩,
    ⟨['U', 'P', 'D', 'A', 'T', 'E', ' ', 'a', ' ', '3'], by decide, by decide⟩, records, lost,
    ?_, updated, ?_⟩
  · intro keeps
    have others : KeepsOthers ['a'] (recordsOf twoRecords)
        (recordsOf (handleDelete FileOps.renameFails ['a'] twoRecords).2) := keeps
    rw [records, lost] at others
    have remains := others ['b', '=', '2'] (by decide) (by decide +kernel)
    cases remains
  · intro keeps
    have value : KeepsValue ['a'] ['3'] (recordsOf twoRecords)
        (recordsOf (handleUpdate FileOps.openAppendFails ['a'] ['3'] twoRecords).2) :=
      keeps.2 failed
    rw [records, updated] at value
    rcases value ⟨['a', '=', '1'], by decide, by decide +kernel⟩ with ⟨record, member, old⟩
    rw [List.mem_singleton.mp member] at old
    revert old
    decide +kernel

end SystemsRepository.KeyValueStore
