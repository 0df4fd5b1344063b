import SystemsRepository.KeyValueStore.Lookup

/-! # What the scanning loops read

The four loops that read `store.txt` line by line, and which lines DELETE leaves
of those it has read.
-/

namespace SystemsRepository.KeyValueStore

open SystemsRepository.Foundation

/-- The handlers with a loop `while(fgets(...) != NULL)` over `store.txt`. -/
inductive Scanner
  | put
  | get
  | delete
  | list
  deriving DecidableEq, Repr

def Scanner.bufferSize : Scanner → Nat
  | .put => lineSize
  | .get => valueSize
  | .delete => lineSize
  | .list => lineSize

def Scanner.pieces (scanner : Scanner) (files : Files) : List (List Char) :=
  Text.reads newline scanner.bufferSize (files.store.getD [])

/-! ## The handlers and their loops -/

section Loops

variable {ops : FileOps} {files : Files}

theorem putRecord_existing_iff (key value : CString) :
    (putRecord ops key value files).1.status = .existing ↔
      ops.openAppend = true ∧ (Scanner.put.pieces files).any (hasKey key) = true := by
  unfold putRecord Scanner.pieces Scanner.bufferSize
  cases ops.openAppend with
  | false => simp
  | true =>
      cases found : (Text.reads newline lineSize (files.store.getD [])).any (hasKey key) with
      | true => simp [found]
      | false => cases ops.write <;> simp [found]

theorem handleGet_eq (opened : ops.openGet = true) {contents : List Char}
    (store : files.store = some contents) (key : CString) (valueOut : List Char) :
    handleGet ops key valueOut files = getLoop key valueOut (Scanner.get.pieces files) := by
  simp [handleGet, openRead, opened, store, Scanner.pieces, Scanner.bufferSize]

theorem handleDelete_value (opened : ops.openFrom = true) (written : ops.openTo = true)
    (key : CString) :
    (handleDelete ops key files).1.value =
      ((Scanner.delete.pieces files).filterMap (removedValue key)).getLast? := by
  unfold handleDelete Scanner.pieces Scanner.bufferSize openRead
  cases files.store with
  | none => simp [opened]
  | some contents => cases ops.remove <;> cases ops.rename <;> simp [opened, written]

theorem handleList_eq (opened : ops.openList = true) {contents : List Char}
    (store : files.store = some contents) :
    handleList ops files = some ((Scanner.list.pieces files).flatMap listEntry) := by
  simp [handleList, openRead, opened, store, Scanner.pieces, Scanner.bufferSize]

end Loops

/-! ## Agreement of the scanners -/

def Scanner.ReadsLines (scanner : Scanner) (files : Files) : Prop :=
  ∃ lines : List CString, (∀ line ∈ lines, newline ∉ line) ∧
    files.store.getD [] = Text.unlines newline lines ∧
    scanner.pieces files = lines.map fun line => line ++ [newline]

structure ScannersAgree (files : Files) : Prop where
  lines : ∀ scanner : Scanner, scanner.ReadsLines files
  same : ∀ first second : Scanner, first.pieces files = second.pieces files

def Command.newRecord : Command → Option CString
  | .put key value => some (key ++ '=' :: value)
  | .update key value => some (key ++ '=' :: value)
  | _ => none

/-- With its newline and the terminator the record fits the smallest of the
buffers. -/
def Command.FitsReaders (command : Command) : Prop :=
  ∀ record ∈ command.newRecord, record.length ≤ 510

private theorem Store.mem_run {store : Store} {ops : FileOps} {command : Command} {record : CString}
    (member : record ∈ (store.run ops command).getD []) :
    record ∈ store.getD [] ∨ command.newRecord = some record := by
  have deleted : ∀ key, record ∈ (store.delete ops key).getD [] → record ∈ store.getD [] := by
    intro key member
    rw [delete_records] at member
    split at member
    · split at member
      · exact (List.mem_filter.mp member).1
      · cases member
    · exact member
  have stored : ∀ (before : Store) key value,
      record ∈ (before.put ops key value).getD [] →
      record ∈ before.getD [] ∨ some (key ++ '=' :: value) = some record := by
    intro before key value member
    rw [put_records] at member
    split at member
    · exact .inl member
    · rcases List.mem_append.mp member with old | new
      · exact .inl old
      · exact .inr (by rw [List.mem_singleton.mp new])
  cases command with
  | put key value => exact stored store key value member
  | get key => exact .inl member
  | delete key => exact .inl (deleted key member)
  | list => exact .inl member
  | update key value =>
      rcases stored _ key value member with old | new
      · exact .inl (deleted key old)
      · exact .inr new

/-- What holds of every record that the commands may store holds of every record
of the store. -/
theorem ReachableStore.records {permitted : FileOps → Command → Prop} {store : Store}
    {Good : CString → Prop} (reachable : ReachableStore permitted store)
    (new : ∀ ops command, command.Admitted → permitted ops command →
      ∀ record ∈ command.newRecord, Good record) :
    ∀ record ∈ store.getD [], Good record := by
  induction reachable with
  | absent =>
      intro record member
      cases member
  | run _ admitted allowed induction =>
      intro record member
      rcases Store.mem_run member with old | added
      · exact induction record old
      · exact new _ _ admitted allowed record added

private theorem Scanner.pieces_records {files : Files} {store : Store} (holds : Holds files store)
    (short : ∀ record ∈ store.getD [], record.length ≤ 510) (scanner : Scanner) :
    scanner.pieces files = (store.getD []).map fun record => record ++ [newline] := by
  have large : 512 ≤ scanner.bufferSize := by
    cases scanner <;> decide
  rw [Scanner.pieces, holds.contents, unlines_getD]
  apply Text.reads_lines (by omega) fun record member =>
    (holds.getD_records record member).newline_not_mem
  intro record member
  have bound := short record member
  omega

private theorem scannersAgree_of_short {files : Files} {store : Store} (holds : Holds files store)
    (short : ∀ record ∈ store.getD [], record.length ≤ 510) : ScannersAgree files where
  lines scanner := ⟨store.getD [],
    fun record member => (holds.getD_records record member).newline_not_mem,
    by rw [holds.contents, unlines_getD], scanner.pieces_records holds short⟩
  same first second := by
    rw [first.pieces_records holds short, second.pieces_records holds short]

private theorem Store.run_absent {command : Command} {record : CString}
    (stores : command.newRecord = some record) :
    (Store.run FileOps.allSucceed none command).getD [] = [record] := by
  cases command with
  | put key value =>
      cases stores
      rfl
  | update key value =>
      cases stores
      rfl
  | get key => cases stores
  | delete key => cases stores
  | list => cases stores

private theorem not_readsLines_of_long {files : Files} {store : Store} {record : CString}
    (holds : Holds files store) (only : store.getD [] = [record])
    (long : 510 < record.length) : ¬Scanner.get.ReadsLines files := by
  have isRecord := holds.getD_records record (by simp [only])
  have pieces : Scanner.get.pieces files = recordPieces record := by
    rw [Scanner.pieces, holds.contents, unlines_getD, only]
    simp [Text.unlines, recordPieces, Scanner.bufferSize]
  rw [recordPieces_long isRecord long] at pieces
  intro readsLines
  rcases readsLines with ⟨lines, _, _, read⟩
  rw [pieces] at read
  cases lines with
  | nil => cases read
  | cons line lines =>
      have newlineCut : newline ∈ record.take 511 := by
        rw [(List.cons.inj read).1]
        simp
      exact isRecord.newline_not_mem (List.mem_of_mem_take newlineCut)

/-- The scanners agree on every store that a set of commands can produce exactly
when no command of the set stores a record of more than 510 bytes. -/
theorem scannersAgree_iff_fitsReaders (allowed : Command → Prop) :
    (∀ files, Reachable (fun _ command => allowed command) files → ScannersAgree files) ↔
      ∀ command : Command, command.Admitted → allowed command → command.FitsReaders := by
  constructor
  · intro agree command admitted permitted record stores
    apply Classical.byContradiction
    intro long
    have start : Holds { store := none, temp := none } none := ⟨rfl, by simp⟩
    have after := runCommand_holds FileOps.allSucceed start admitted.wellFormed
    have reachable : Reachable (fun _ command => allowed command)
        (runCommand FileOps.allSucceed { store := none, temp := none } command) :=
      .run (.absent none) admitted permitted
    exact not_readsLines_of_long after (Store.run_absent stores) (Nat.lt_of_not_le long)
      ((agree _ reachable).lines .get)
  · intro fits files reachable
    rcases reachable.holds with ⟨store, storeReachable, holds⟩
    apply scannersAgree_of_short holds
    exact storeReachable.records fun _ command admitted permitted =>
      fits command admitted permitted

/-- GET reads the record of a value of 600 bytes in two pieces. -/
theorem scanners_disagree_on_long_record :
    (Command.put ['k'] (List.replicate 600 'v')).Admitted ∧
      Reachable Succeeding (runCommand FileOps.allSucceed { store := none, temp := none }
        (.put ['k'] (List.replicate 600 'v'))) ∧
      ¬ScannersAgree (runCommand FileOps.allSucceed { store := none, temp := none }
        (.put ['k'] (List.replicate 600 'v'))) := by
  have admitted : (Command.put ['k'] (List.replicate 600 'v')).Admitted :=
    ⟨['P', 'U', 'T', ' ', 'k', ' '] ++ List.replicate 600 'v' ++ ['\n'], by decide +kernel,
      by decide +kernel⟩
  refine ⟨admitted, .run (.absent none) admitted rfl, ?_⟩
  intro agree
  have start : Holds { store := none, temp := none } none := ⟨rfl, by simp⟩
  exact not_readsLines_of_long (runCommand_holds FileOps.allSucceed start admitted.wellFormed)
    (Store.run_absent rfl) (by decide +kernel) (agree.lines .get)

/-! ## The lines DELETE keeps -/

/-- Every reachable file is a sequence of lines, and each way to see it so is made of
records. -/
theorem Holds.lines_eq {files : Files} {records lines : List CString}
    (holds : Holds files (some records)) (clean : ∀ line ∈ lines, newline ∉ line)
    (contents : files.store = some (Text.unlines newline lines)) : lines = records := by
  apply Text.unlines_injective clean fun record member =>
    (holds.records records rfl record member).newline_not_mem
  exact Option.some.inj (contents.symm.trans holds.contents)

private theorem handleDelete_store {files : Files} {records : List CString}
    (holds : Holds files (some records)) (key : CString) :
    (handleDelete FileOps.allSucceed key files).2.store =
      some (Text.unlines newline (records.filter fun record => !recordRemoved key record)) :=
  (handleDelete_holds FileOps.allSucceed key holds).contents

/-- DELETE leaves exactly the lines that are not records of the key. -/
theorem handleDelete_keeps_other_lines {permitted : FileOps → Command → Prop} {files : Files}
    (reachable : Reachable permitted files) (key : CString) :
    (files.store = none → (handleDelete FileOps.allSucceed key files).2.store = none) ∧
      ∀ contents, files.store = some contents →
        (∃ lines, (∀ line ∈ lines, newline ∉ line) ∧ contents = Text.unlines newline lines) ∧
        ∀ lines, (∀ line ∈ lines, newline ∉ line) → contents = Text.unlines newline lines →
          (handleDelete FileOps.allSucceed key files).2.store =
              some (Text.unlines newline (lines.filter fun line => !recordRemoved key line)) ∧
            ((∀ line ∈ lines, recordRemoved key line = false) →
              (handleDelete FileOps.allSucceed key files).2.store = some contents) := by
  rcases reachable.holds with ⟨store, _, holds⟩
  constructor
  · intro absent
    cases store with
    | none => exact (handleDelete_holds FileOps.allSucceed key holds).contents
    | some records =>
        rw [holds.contents] at absent
        cases absent
  · intro contents present
    cases store with
    | none =>
        rw [holds.contents] at present
        cases present
    | some records =>
        have whole : contents = Text.unlines newline records :=
          Option.some.inj (present.symm.trans holds.contents)
        refine ⟨⟨records, fun record member =>
          (holds.records records rfl record member).newline_not_mem, whole⟩, ?_⟩
        intro lines clean isLines
        have same := holds.lines_eq clean (isLines ▸ present)
        have remaining := handleDelete_store holds key
        rw [same]
        refine ⟨remaining, ?_⟩
        intro others
        have all : records.filter (fun record => !recordRemoved key record) = records := by
          apply List.filter_eq_self.mpr
          intro record member
          rw [others record member]
          rfl
        rw [remaining, all, whole]

theorem handleDelete_keeps_other_lines_of_two :
    (handleDelete FileOps.allSucceed ['a']
        (runCommand FileOps.allSucceed
          (runCommand FileOps.allSucceed { store := none, temp := none } (.put ['a'] ['=']))
          (.put ['a', '=', 'b'] ['c']))).2.store =
      some ['a', '=', '=', '\n'] := by
  have first : (Command.put ['a'] ['=']).Admitted :=
    ⟨['P', 'U', 'T', ' ', 'a', ' ', '='], by decide, by decide⟩
  have second : (Command.put ['a', '=', 'b'] ['c']).Admitted :=
    ⟨['P', 'U', 'T', ' ', 'a', '=', 'b', ' ', 'c'], by decide, by decide⟩
  have reachable : Reachable Succeeding _ := .run (.run (.absent none) first rfl) second rfl
  exact (((handleDelete_keeps_other_lines reachable ['a']).2
    ['a', '=', '=', '\n', 'a', '=', 'b', '=', 'c', '\n'] (by decide +kernel)).2
    [['a', '=', '='], ['a', '=', 'b', '=', 'c']] (by decide) (by decide)).1

end SystemsRepository.KeyValueStore
