import SystemsRepository.Foundation.Execution
import SystemsRepository.KeyValueStore.InputLines
import SystemsRepository.KeyValueStore.Reports
import SystemsRepository.KeyValueStore.Stops

/-! # The session of `main`

The loop of `main` with all that it prints. It is written for any handlers of the commands, and run
with those of the files and with those of a map.
-/

namespace SystemsRepository.KeyValueStore

open SystemsRepository.Foundation

/-! ## The program -/

/-- What the program does not determine: the outcomes of the file operations, and what `value` of
`handle_delete` and `value` of `main` hold before something is stored there. -/
structure Chance where
  ops : FileOps
  removed : CString
  valueOut : List Char
  size : valueOut.length = valueSize

/-- What a command prints and leaves; `none` where the program is undefined. -/
abbrev Handlers (Store : Type u) := Chance → Command → Store → Option (List Output × Store)

def prompt : Output := .stdout "Store $> ".toList

def helpText : List Char :=
  ("=========================================\n" ++
    "           SIMPLE KEY VALUE STORE        \n" ++
    "=========================================\n" ++
    "Description:\n" ++
    "  A simple, persistent key-value store written in C.\n\n" ++
    "Usage:\n" ++
    "  Type commands at the prompt as shown below.\n\n" ++
    "Command List:\n" ++
    "  HELP                       : Show this help message\n" ++
    "  PUT <key> <value>          : Assign <value> to <key> and store it\n" ++
    "  UPDATE <key> <value>       : Update <key> with a new <value>\n" ++
    "  GET <key>                  : Fetch the value associated with <key>\n" ++
    "  DELETE <key>               : Delete the key-value pair from storage\n" ++
    "  LIST                       : List all key-value pairs in the store\n" ++
    "\nTips:\n" ++
    "  - Keys and values are stored line-by-line in a file.\n" ++
    "  - Data is persistent between runs.\n" ++
    "=========================================\n").toList

def Input.outputs : Input → List Output
  | .exit => [.stdout "Bye!\n".toList]
  | .blank => []
  | .command _ => []
  | .invalid error => [.stderr (error ++ ['\n'])]
  | .help => [.stdout helpText]
  | .unknown word =>
      [.stdout ("Unknown Command: ".toList ++ word ++
        "  | use 'help' to know working commands\n".toList)]

/-- `printed` is everything on both streams. -/
structure Session (Store : Type u) where
  stdin : List Char
  store : Store
  printed : List Output
  exited : Bool

namespace Session

variable {Store : Type u}

def start (arguments : List CString) (store : Store) (stdin : List Char) : Session Store where
  stdin
  store
  printed := if arguments.head? = some "--help".toList then [.stdout helpText] else []
  exited := arguments.head? = some "--help".toList

def respond (handlers : Handlers Store) (chance : Chance) (store : Store) :
    Input → Option (List Output × Store)
  | .command command => handlers chance command store
  | input => some (input.outputs, store)

/-- One round of the loop; at the end of the input it prompts again. -/
def round (handlers : Handlers Store) (chance : Chance) (session : Session Store) :
    Option (Session Store) :=
  if session.exited then none
  else
    match Text.fgets newline inputSize session.stdin with
    | none => some { session with printed := session.printed ++ [prompt] }
    | some (input, rest) =>
        (respond handlers chance session.store (parseLine input)).map fun answer =>
          { stdin := rest
            store := answer.2
            printed := session.printed ++ prompt :: answer.1
            exited := isExit input }

def machine (handlers : Handlers Store) : Machine (Session Store) Chance where
  execute chance session := session.round handlers chance

end Session

def commandOutputs (chance : Chance) (files : Files) : Command → Option (List Output)
  | .put key value => some (handlePut chance.ops (some key) (some value) files).1.outputs
  | .get key => getReport chance.ops key chance.valueOut files
  | .delete key => some ((handleDelete chance.ops key files).1.outputs key chance.removed)
  | .list => (handleList chance.ops files).map fun text => [.stdout text]
  | .update key value =>
      some ((handleUpdate chance.ops key value files).1.outputs key value chance.removed)

def fileHandlers : Handlers Files := fun chance command files =>
  (commandOutputs chance files command).map fun outputs =>
    (outputs, runCommand chance.ops files command)

/-! ## The map -/

/-- The map, or nothing as long as no key has been put. -/
abbrev MapStore := Option KeyMap

namespace MapStore

def map (store : MapStore) : KeyMap := store.getD OrderedMap.empty

def value (key : CString) (store : MapStore) : Option CString :=
  (store.map.entries.find? fun entry => entry.1 = key).map Prod.snd

theorem value_eq_none_iff {key : CString} {store : MapStore} :
    store.value key = none ↔ key ∉ store.map.keys := by
  rw [value, Option.map_eq_none_iff, List.find?_eq_none, OrderedMap.keys, List.mem_map, not_exists]
  simp only [decide_eq_true_eq, not_and]

def put (key value : CString) (store : MapStore) : PutReport × MapStore :=
  ({ tooLong := false
     status :=
       match store.value key with
       | some _ => .existing
       | none => .written (entryRecord (key, value)) },
    some (store.map.insertNew key value))

def get (chance : Chance) (key : CString) (store : MapStore) : Option (List Output) :=
  match store.value key with
  | some value => some [.stdout (printEntry key value)]
  | none =>
      let status : GetStatus := if store.isSome then .notFound else .openFailed
      if nul ∈ chance.valueOut then
        some (status.outputs key chance.valueOut ++
          [.stdout (printEntry key (cString chance.valueOut))])
      else none

def delete (key : CString) (store : MapStore) : DeleteReport × MapStore :=
  ({ value := store.value key, status := if store.isSome then .deleted else .openFromFailed },
    Option.map (OrderedMap.erase key) store)

def list (store : MapStore) : Option (List Output) :=
  Option.map (fun map : KeyMap => [.stdout (map.entries.flatMap fun entry =>
    printEntry entry.1 (entry.2 ++ [newline]))]) store

def update (key value : CString) (store : MapStore) : UpdateReport × MapStore :=
  let erased := store.delete key
  let stored := erased.2.put key value
  ({ delete := erased.1, put := stored.1 }, stored.2)

end MapStore

def mapHandlers : Handlers MapStore := fun chance command store =>
  match command with
  | .put key value => some ((store.put key value).1.outputs, (store.put key value).2)
  | .get key => (store.get chance key).map fun outputs => (outputs, store)
  | .delete key => some ((store.delete key).1.outputs key chance.removed, (store.delete key).2)
  | .list => store.list.map fun outputs => (outputs, store)
  | .update key value =>
      some ((store.update key value).1.outputs key value chance.removed,
        (store.update key value).2)

/-! ## Commands -/

/-- The files hold the entries of the map, and there is a file once a key has been put. -/
structure Mirrors (files : Files) (records : Store) (model : MapStore) : Prop where
  holds : Holds files records
  represents : Represents records model.map
  created : records.isSome = model.isSome

section Commands

variable {files : Files} {records : Store} {model : MapStore} {key value : CString}

theorem Mirrors.start (temp : Option (List Char)) :
    Mirrors { store := none, temp } none none where
  holds := ⟨rfl, fun _ none => by cases none⟩
  represents := ⟨rfl, fun _ member => by cases member⟩
  created := rfl

private theorem Mirrors.store_isSome (mirrors : Mirrors files records model) :
    files.store.isSome = model.isSome := by
  rw [mirrors.holds.contents, Option.isSome_map, mirrors.created]

theorem PlainEntry.removedValue {entry : CString × CString} (plain : PlainEntry entry)
    (key : CString) : KeyValueStore.removedValue key (entryRecord entry ++ [newline]) =
      if entry.1 = key then some entry.2 else none := by
  have size := plain.short
  have short : entry.2.take (valueSize - 1) = entry.2 :=
    List.take_of_length_le (by simp only [valueSize]; omega)
  rw [KeyValueStore.removedValue, plain.chomped]
  simp only [truncated, short]

theorem Represents.removedValue {map : KeyMap} (represents : Represents records map)
    (key : CString) :
    (((records.getD []).map fun record => record ++ [newline]).filterMap
        (KeyValueStore.removedValue key)).getLast? =
      (map.entries.find? fun entry => entry.1 = key).map Prod.snd := by
  rw [represents.records, List.map_map, List.filterMap_map]
  have plainEntries := represents.plain
  have unique := map.nodup
  revert plainEntries unique
  generalize map.entries = entries
  intro plainEntries unique
  induction entries with
  | nil => rfl
  | cons head tail induction =>
      rw [List.map_cons, List.nodup_cons] at unique
      have others : ∀ entry ∈ tail, PlainEntry entry :=
        fun entry member => plainEntries entry (.tail _ member)
      rw [List.filterMap_cons, Function.comp, Function.comp,
        (plainEntries head (.head _)).removedValue key]
      by_cases same : head.1 = key
      · -- The key has no other entry.
        have rest : tail.filterMap (KeyValueStore.removedValue key ∘
            (fun record => record ++ [newline]) ∘ entryRecord) = [] := by
          rw [List.filterMap_eq_nil_iff]
          intro entry member
          rw [Function.comp, Function.comp, (others entry member).removedValue key, if_neg]
          intro also
          exact unique.1 (List.mem_map.mpr ⟨entry, member, also.trans same.symm⟩)
        rw [if_pos same, rest, List.find?_cons_of_pos (by simpa using same)]
        rfl
      · rw [if_neg same, List.find?_cons_of_neg (by simpa using same)]
        exact induction others unique.2

theorem Mirrors.put (mirrors : Mirrors files records model) (plain : PlainEntry (key, value)) :
    (putRecord .allSucceed key value files).1 = (model.put key value).1 ∧
      ∃ after, Mirrors (putRecord .allSucceed key value files).2 after (model.put key value).2 := by
  have size := plain.short
  have short : key.length + 1 + value.length ≤ 695 := by
    simp only at size
    omega
  have status := putRecord_status .allSucceed mirrors.holds short
  constructor
  · have tooLong : (putRecord .allSucceed key value files).1.tooLong = false := by
      have fits : ¬lineSize ≤ (key ++ '=' :: value).length := by
        simp only [lineSize, List.length_append, List.length_cons]
        omega
      simp only [putRecord, FileOps.allSucceed, fits]
      split
      · rfl
      · split <;> rfl
    have same : (putRecord .allSucceed key value files).1.status =
        (model.put key value).1.status := by
      rw [status]
      simp only [FileOps.allSucceed, Bool.not_true, Bool.false_eq_true, if_false, MapStore.put,
        mirrors.represents.any_hasKey key]
      cases found : model.value key with
      | none => exact if_neg (MapStore.value_eq_none_iff.mp found)
      | some other =>
          refine if_pos (Decidable.not_not.mp fun missing => ?_)
          rw [MapStore.value_eq_none_iff.mpr missing] at found
          cases found
    cases report : (putRecord .allSucceed key value files).1 with
    | mk long outcome =>
        rw [report] at tooLong same
        simp only at tooLong same
        rw [tooLong, same]
        rfl
  · refine ⟨_, putRecord_holds .allSucceed mirrors.holds plain.key plain.value short,
      mirrors.represents.put plain, ?_⟩
    simp only [Store.put, FileOps.allSucceed, Bool.not_true, Bool.false_eq_true, if_false]
    split <;> rfl

theorem Mirrors.delete (mirrors : Mirrors files records model) (key : CString) :
    (handleDelete .allSucceed key files).1 = (model.delete key).1 ∧
      ∃ after, Mirrors (handleDelete .allSucceed key files).2 after (model.delete key).2 := by
  constructor
  · have removed := mirrors.represents.removedValue key
    have created := mirrors.created
    simp only [handleDelete, openRead, FileOps.allSucceed, mirrors.holds.contents, if_true,
      MapStore.delete, MapStore.value, ← created]
    cases records with
    | none => 
        rw [← removed]
        rfl
    | some records =>
        simp only [Option.getD_some] at removed
        simp only [Option.map_some, reads_records (mirrors.holds.records records rfl), ← removed]
        rfl
  · refine ⟨_, handleDelete_holds .allSucceed key mirrors.holds, ?_, ?_⟩
    · have same : MapStore.map (model.delete key).2 = model.map.erase key := by
        cases model <;> rfl
      rw [same]
      exact mirrors.represents.delete key
    · have created := mirrors.created
      cases records <;> cases model <;> first | rfl | cases created

theorem Mirrors.get (mirrors : Mirrors files records model) {chance : Chance}
    (succeed : chance.ops = .allSucceed) :
    getReport chance.ops key chance.valueOut files = model.get chance key := by
  rw [succeed]
  have found := (lookup_records mirrors.holds key).trans (mirrors.represents.lookup_eq key)
  rw [MapStore.get, MapStore.value]
  cases entry : model.map.entries.find? fun entry => entry.1 = key with
  | some entry =>
      rw [entry] at found
      exact getReport_of_found chance.size found
  | none =>
      rw [entry] at found
      have outcome : handleGet .allSucceed key chance.valueOut files =
          (if model.isSome then .notFound else .openFailed, chance.valueOut) := by
        rw [← mirrors.store_isSome, handleGet]
        rw [lookup, getPieces] at found
        cases contents : files.store with
        | none => rfl
        | some text =>
            rw [contents] at found
            simp only [openRead, FileOps.allSucceed, if_true, getLoop_eq, found]
            rfl
      rw [getReport, outcome]
      cases model <;> rfl

theorem Mirrors.list (mirrors : Mirrors files records model) :
    (handleList .allSucceed files).map (fun text => [Output.stdout text]) = model.list := by
  have created := mirrors.store_isSome
  cases model with
  | none =>
      have missing : files.store = none := by simpa using created
      rw [handleList, openRead, missing]
      rfl
  | some map =>
      have present : files.store ≠ none := by
        intro missing
        rw [missing] at created
        cases created
      rw [mirrors.represents.listed mirrors.holds present]
      rfl

/-- Whatever the command, the files and the map answer with the same texts. -/
theorem Mirrors.command (mirrors : Mirrors files records model) {chance : Chance}
    (succeed : chance.ops = .allSucceed) {command : Command} (wellFormed : command.WellFormed)
    (plain : command.Plain) :
    Option.Rel (fun left right : List Output × _ => left.1 = right.1 ∧
        ∃ after, Mirrors left.2 after right.2)
      (fileHandlers chance command files) (mapHandlers chance command model) := by
  cases command with
  | put key value =>
      have entry : PlainEntry (key, value) :=
        ⟨wellFormed.1, wellFormed.2.1, plain.1, plain.2.1, plain.2.2⟩
      rcases mirrors.put entry with ⟨report, after⟩
      simp only [fileHandlers, commandOutputs, runCommand, mapHandlers, handlePut, succeed,
        Option.map_some, report]
      exact .some ⟨rfl, after⟩
  | get key =>
      simp only [fileHandlers, commandOutputs, runCommand, mapHandlers, mirrors.get succeed]
      cases model.get chance key with
      | none => exact .none
      | some outputs => exact .some ⟨rfl, records, mirrors⟩
  | delete key =>
      rcases mirrors.delete key with ⟨report, after⟩
      simp only [fileHandlers, commandOutputs, runCommand, mapHandlers, succeed,
        Option.map_some, report]
      exact .some ⟨rfl, after⟩
  | list =>
      simp only [fileHandlers, commandOutputs, runCommand, mapHandlers, succeed, mirrors.list]
      cases model.list with
      | none => exact .none
      | some outputs => exact .some ⟨rfl, records, mirrors⟩
  | update key value =>
      have entry : PlainEntry (key, value) :=
        ⟨wellFormed.1, wellFormed.2.1, plain.1, plain.2.1, plain.2.2⟩
      rcases mirrors.delete key with ⟨deleted, middle, between⟩
      rcases between.put entry with ⟨stored, after⟩
      simp only [fileHandlers, commandOutputs, runCommand, mapHandlers, handleUpdate, handlePut,
        MapStore.update, succeed, Option.map_some, deleted, stored]
      exact .some ⟨rfl, after⟩

end Commands

/-! ## Sessions -/

/-- Each command that the loop can find in this input is one for which the store is a map. -/
def PlainInput (stdin : List Char) : Prop :=
  ∀ input ∈ Text.reads newline inputSize stdin, ∀ command,
    parseLine input = .command command → command.Plain

structure Agree (session : Session Files) (model : Session MapStore) : Prop where
  stdin : session.stdin = model.stdin
  printed : session.printed = model.printed
  exited : session.exited = model.exited
  store : ∃ records, Mirrors session.store records model.store
  plain : PlainInput session.stdin

theorem Agree.round {session : Session Files} {model : Session MapStore}
    (agree : Agree session model) {chance : Chance} (succeed : chance.ops = .allSucceed) :
    Option.Rel Agree (session.round fileHandlers chance) (model.round mapHandlers chance) := by
  rcases agree.store with ⟨records, mirrors⟩
  rw [Session.round, Session.round, ← agree.stdin, ← agree.printed, ← agree.exited]
  split
  next => exact .none
  next running =>
    cases gets : Text.fgets newline inputSize session.stdin with
    | none => exact .some ⟨rfl, rfl, rfl, agree.store, agree.plain⟩
    | some piece =>
        rcases piece with ⟨input, rest⟩
        have pieces := Text.reads_of_fgets (by decide) gets
        have first : input ∈ Text.reads newline inputSize session.stdin := by
          rw [pieces]
          exact List.mem_cons_self
        have later : PlainInput rest := by
          intro other member
          refine agree.plain other ?_
          rw [pieces]
          exact .tail _ member
        have answers : Option.Rel (fun left right : List Output × _ => left.1 = right.1 ∧
            ∃ after, Mirrors left.2 after right.2)
            (Session.respond fileHandlers chance session.store (parseLine input))
            (Session.respond mapHandlers chance model.store (parseLine input)) := by
          cases parsed : parseLine input with
          | command command =>
              have admitted : command.Admitted :=
                ⟨input, Text.reads_length_lt (by decide) first, parsed⟩
              exact mirrors.command succeed admitted.wellFormed (agree.plain input first _ parsed)
          | _ => exact .some ⟨rfl, records, mirrors⟩
        dsimp only
        generalize Session.respond fileHandlers chance session.store (parseLine input) = left,
          Session.respond mapHandlers chance model.store (parseLine input) = right at answers
        cases answers with
        | none => exact .none
        | some answer =>
            have printed := congrArg (fun outputs => session.printed ++ prompt :: outputs) answer.1
            exact .some ⟨rfl, printed, rfl, answer.2, later⟩

end SystemsRepository.KeyValueStore
