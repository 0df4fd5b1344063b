import SystemsRepository.Foundation.Execution
import SystemsRepository.KeyValueStore.Scanners

/-! # Pointers that may be `NULL`

The library calls of the handlers to which a result of `strtok` or `fopen` is
passed, and when none of these results is `NULL`.
-/

namespace SystemsRepository.KeyValueStore

open SystemsRepository.Foundation

inductive LibraryFunction
  | strcmp
  | strncpy
  | fgets
  | fclose
  deriving DecidableEq, Repr

/-- A call, and whether one of its pointers is `NULL`. -/
structure LibraryCall where
  function : LibraryFunction
  null : Bool
  deriving DecidableEq, Repr

def LibraryCall.valid (function : LibraryFunction) : LibraryCall where
  function
  null := false

def LibraryCall.withNull (function : LibraryFunction) : LibraryCall where
  function
  null := true

/-! ## The calls of each handler

Nothing is said about what comes after a call with `NULL`.
-/

def putLoopCalls (key : CString) : List (List Char) → List LibraryCall
  | [] => [.valid .fgets]
  | line :: lines =>
      .valid .fgets ::
        match recordTokens (chomp line) with
        -- `if(current_key && ...)`
        | none => putLoopCalls key lines
        | some (currentKey, _) =>
            .valid .strcmp :: if currentKey = key then [] else putLoopCalls key lines

def putCalls (ops : FileOps) (key : CString) (files : Files) : List LibraryCall :=
  if !ops.openAppend then []
  else putLoopCalls key (Scanner.put.pieces files) ++ [.valid .fclose]

def getLoopCalls (key : CString) : List (List Char) → List LibraryCall
  | [] => [.valid .fgets, .valid .fclose]
  | line :: lines =>
      .valid .fgets ::
        match recordTokens (chomp line) with
        | none => [.withNull .strcmp]
        | some (currentKey, currentValue) =>
            .valid .strcmp ::
              if currentKey = key then
                match currentValue with
                | none => [.withNull .strncpy]
                | some _ => [.valid .strncpy, .valid .fclose]
              else getLoopCalls key lines

def getCalls (ops : FileOps) (key : CString) (files : Files) : List LibraryCall :=
  match openRead ops.openGet files.store with
  | none => []
  | some _ => getLoopCalls key (Scanner.get.pieces files)

def deleteLoopCalls : List (List Char) → List LibraryCall
  | [] => [.valid .fgets]
  | line :: lines =>
      .valid .fgets :: .valid .strncpy ::
        match recordTokens (chomp line) with
        -- `if (current_key && current_value && ...)`
        | some (_, some _) => .valid .strcmp :: deleteLoopCalls lines
        | _ => deleteLoopCalls lines

def deleteCalls (ops : FileOps) (files : Files) : List LibraryCall :=
  match openRead ops.openFrom files.store with
  | none => []
  | some _ =>
      if !ops.openTo then []
      else deleteLoopCalls (Scanner.delete.pieces files) ++ [.valid .fclose, .valid .fclose]

/-- The result of `fopen` is not checked. -/
def listCalls (ops : FileOps) (files : Files) : List LibraryCall :=
  match openRead ops.openList files.store with
  | none => [.withNull .fgets]
  | some _ =>
      (Scanner.list.pieces files).map (fun _ => .valid .fgets) ++ [.valid .fgets, .valid .fclose]

def commandCalls (ops : FileOps) (files : Files) : Command → List LibraryCall
  | .put key _ => putCalls ops key files
  | .get key => getCalls ops key files
  | .delete _ => deleteCalls ops files
  | .list => listCalls ops files
  | .update key _ => deleteCalls ops files ++ putCalls ops key (handleDelete ops key files).2

def NullFree (calls : List LibraryCall) : Prop := ∀ call ∈ calls, call.null = false

instance (calls : List LibraryCall) : Decidable (NullFree calls) :=
  inferInstanceAs (Decidable (∀ call ∈ calls, call.null = false))

section NullFree

variable {calls others : List LibraryCall}

@[simp] theorem nullFree_nil : NullFree [] := by
  intro call member
  cases member

@[simp] theorem nullFree_valid (function : LibraryFunction) :
    NullFree (.valid function :: calls) ↔ NullFree calls := by
  simp [NullFree, LibraryCall.valid]

@[simp] theorem not_nullFree_withNull (function : LibraryFunction) :
    ¬NullFree (.withNull function :: calls) := by
  simp [NullFree, LibraryCall.withNull]

@[simp] theorem nullFree_append :
    NullFree (calls ++ others) ↔ NullFree calls ∧ NullFree others := by
  simp [NullFree, or_imp, forall_and]

@[simp] theorem nullFree_map_valid (function : LibraryFunction) (pieces : List (List Char)) :
    NullFree (pieces.map fun _ => .valid function) := by
  induction pieces with
  | nil => exact nullFree_nil
  | cons piece pieces induction => exact (nullFree_valid function).mpr induction

end NullFree

/-! ## The guarded handlers -/

private theorem putLoopCalls_nullFree (key : CString) (lines : List (List Char)) :
    NullFree (putLoopCalls key lines) := by
  induction lines with
  | nil => simp [putLoopCalls]
  | cons line lines induction =>
      unfold putLoopCalls
      rcases recordTokens (chomp line) with _ | ⟨currentKey, currentValue⟩
      · simpa using induction
      · by_cases same : currentKey = key
        · simp [same]
        · simpa [same] using induction

private theorem putCalls_nullFree (ops : FileOps) (key : CString) (files : Files) :
    NullFree (putCalls ops key files) := by
  unfold putCalls
  cases ops.openAppend with
  | false => simp
  | true => simpa using putLoopCalls_nullFree key _

private theorem deleteLoopCalls_nullFree (lines : List (List Char)) :
    NullFree (deleteLoopCalls lines) := by
  induction lines with
  | nil => simp [deleteLoopCalls]
  | cons line lines induction =>
      unfold deleteLoopCalls
      rcases recordTokens (chomp line) with _ | ⟨currentKey, _ | currentValue⟩ <;>
        simpa using induction

private theorem deleteCalls_nullFree (ops : FileOps) (files : Files) :
    NullFree (deleteCalls ops files) := by
  unfold deleteCalls
  cases openRead ops.openFrom files.store with
  | none => simp
  | some contents =>
      cases ops.openTo with
      | false => simp
      | true => simpa using deleteLoopCalls_nullFree _

/-! ## The unguarded handlers -/

def HasTokens (piece : List Char) : Prop :=
  ∃ key value, recordTokens (chomp piece) = some (key, some value)

/-- What the handlers rely on without a check. LIST: the store can be opened. GET: the
first piece that has the key or no token at all, if there is one, has two tokens. -/
def Command.Guarded (ops : FileOps) (files : Files) : Command → Prop
  | .get key =>
      (openRead ops.openGet files.store).isSome = true →
        ∀ piece ∈ (Scanner.get.pieces files).find? (decisive key), HasTokens piece
  | .list => (openRead ops.openList files.store).isSome = true
  | _ => True

private theorem getLoopCalls_nullFree_iff (key : CString) (pieces : List (List Char)) :
    NullFree (getLoopCalls key pieces) ↔
      ∀ piece ∈ pieces.find? (decisive key), HasTokens piece := by
  induction pieces with
  | nil => simp [getLoopCalls]
  | cons piece pieces induction =>
      unfold getLoopCalls
      rcases tokens : recordTokens (chomp piece) with _ | ⟨currentKey, currentValue⟩
      · have stops : decisive key piece = true := by simp [decisive, tokens]
        simp [List.find?, stops, HasTokens, tokens]
      · by_cases same : currentKey = key
        · have stops : decisive key piece = true := by simp [decisive, tokens, same]
          cases currentValue <;> simp [List.find?, stops, HasTokens, tokens, same]
        · have skipped : decisive key piece = false := by simp [decisive, tokens, same]
          simpa [List.find?, skipped, same] using induction

private theorem getCalls_nullFree_iff (ops : FileOps) (key : CString) (files : Files) :
    NullFree (getCalls ops key files) ↔ (Command.get key).Guarded ops files := by
  unfold getCalls Command.Guarded
  cases openRead ops.openGet files.store with
  | none => simp
  | some contents => simpa using getLoopCalls_nullFree_iff key _

theorem listCalls_nullFree_iff (ops : FileOps) (files : Files) :
    NullFree (listCalls ops files) ↔ Command.list.Guarded ops files := by
  unfold listCalls Command.Guarded
  cases openRead ops.openList files.store with
  | none => simp
  | some contents =>
      exact iff_of_true (nullFree_append.mpr ⟨nullFree_map_valid .fgets _, by simp⟩) rfl

private theorem commandCalls_nullFree_iff (ops : FileOps) (files : Files) (command : Command) :
    NullFree (commandCalls ops files command) ↔ command.Guarded ops files := by
  cases command with
  | put key value => exact iff_of_true (putCalls_nullFree ops key files) trivial
  | get key => exact getCalls_nullFree_iff ops key files
  | delete key => exact iff_of_true (deleteCalls_nullFree ops files) trivial
  | list => exact listCalls_nullFree_iff ops files
  | update key value =>
      apply iff_of_true _ trivial
      exact nullFree_append.mpr ⟨deleteCalls_nullFree ops files, putCalls_nullFree ops key _⟩

/-! ## The handlers and their calls -/

private theorem getLoop_undefined_iff (key : CString) (valueOut : List Char)
    (pieces : List (List Char)) :
    (getLoop key valueOut pieces).1 = .undefined ↔ ¬NullFree (getLoopCalls key pieces) := by
  induction pieces with
  | nil => simp [getLoop, getLoopCalls]
  | cons piece pieces induction =>
      unfold getLoop getLoopCalls
      rcases recordTokens (chomp piece) with _ | ⟨currentKey, currentValue⟩
      · simp
      · by_cases same : currentKey = key
        · cases currentValue <;> simp [same]
        · simpa [same] using induction

theorem handleGet_undefined_iff (ops : FileOps) (key : CString) (valueOut : List Char)
    (files : Files) :
    (handleGet ops key valueOut files).1 = .undefined ↔ ¬NullFree (getCalls ops key files) := by
  unfold handleGet getCalls Scanner.pieces Scanner.bufferSize openRead
  cases ops.openGet with
  | false => simp
  | true =>
      cases files.store with
      | none => simp
      | some contents => simpa using getLoop_undefined_iff key valueOut _

theorem handleList_none_iff (ops : FileOps) (files : Files) :
    handleList ops files = none ↔ ¬NullFree (listCalls ops files) := by
  rw [listCalls_nullFree_iff]
  unfold handleList Command.Guarded
  cases openRead ops.openList files.store <;> simp

/-! ## Runs -/

/-- The commands of the loop, where a command that passes `NULL` faults. -/
def storeMachine : Machine Files (FileOps × Command) where
  execute := fun (ops, command) files =>
    if NullFree (commandCalls ops files command) then some (runCommand ops files command)
    else none

/-- The loop's runs from an absent store pass no `NULL` exactly when each command is
executed on a file that has what its handler relies on. -/
theorem nullFree_run_iff_guarded (temp : Option (List Char)) (calls : List (FileOps × Command)) :
    (storeMachine.run calls { store := none, temp }).isSome = true ↔
      storeMachine.Permits (fun files call => call.2.Guarded call.1 files)
        { store := none, temp } calls := by
  apply storeMachine.run_isSome_iff_permits
  intro files call
  rw [← commandCalls_nullFree_iff]
  unfold storeMachine
  by_cases free : NullFree (commandCalls call.1 files call.2) <;> simp [free]

/-- LIST without a store, GET after `PUT = =` and GET of a key stored without a value. -/
theorem null_passed_to_library :
    Reachable Succeeding { store := none, temp := none } ∧ Command.list.Admitted ∧
      LibraryCall.withNull .fgets ∈
        commandCalls FileOps.allSucceed { store := none, temp := none } .list ∧
      (Command.put ['='] ['=']).Admitted ∧ (Command.get ['k']).Admitted ∧
      LibraryCall.withNull .strcmp ∈ commandCalls FileOps.allSucceed
        (runCommand FileOps.allSucceed { store := none, temp := none } (.put ['='] ['=']))
        (.get ['k']) ∧
      (Command.put ['a'] ['=']).Admitted ∧ (Command.get ['a']).Admitted ∧
      LibraryCall.withNull .strncpy ∈ commandCalls FileOps.allSucceed
        (runCommand FileOps.allSucceed { store := none, temp := none } (.put ['a'] ['=']))
        (.get ['a']) :=
  ⟨.absent none, ⟨['L', 'I', 'S', 'T'], by decide, by decide⟩, by decide,
    ⟨['P', 'U', 'T', ' ', '=', ' ', '='], by decide, by decide⟩,
    ⟨['G', 'E', 'T', ' ', 'k'], by decide, by decide⟩, by decide +kernel,
    ⟨['P', 'U', 'T', ' ', 'a', ' ', '='], by decide, by decide⟩,
    ⟨['G', 'E', 'T', ' ', 'a'], by decide, by decide⟩, by decide +kernel⟩

end SystemsRepository.KeyValueStore
