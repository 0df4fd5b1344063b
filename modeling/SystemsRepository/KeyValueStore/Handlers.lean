import SystemsRepository.Foundation.Text

/-! # The `spkvs` command handlers

`store.txt` and `temp.txt`, and the handlers that scan and rewrite them. A
string is the list of its bytes without the terminator; a `char` buffer is the
list of all its bytes. Where a handler passes `NULL` to the library its status
is `undefined`.
-/

namespace SystemsRepository.KeyValueStore

open SystemsRepository.Foundation

abbrev CString := List Char

def nul : Char := '\x00'

def newline : Char := '\n'

def isEquals (char : Char) : Bool := char == '='

def cString (buffer : List Char) : CString :=
  buffer.takeWhile fun char => char != nul

def chomp (line : List Char) : CString :=
  (cString line).takeWhile fun char => char != newline

/-- `snprintf(buf, size, "%s", text)` or `strncpy` into a large enough buffer. -/
def truncated (size : Nat) (text : CString) : CString := text.take (size - 1)

/-- The line buffers of `handle_put`, `handle_delete` and `handle_list`. -/
abbrev lineSize : Nat := 700

/-- The buffers for values, among them the line buffer of `handle_get`. -/
abbrev valueSize : Nat := 512

structure Files where
  store : Option (List Char)
  temp : Option (List Char)
  deriving DecidableEq, Repr

/-- Which of the file operations succeed. -/
structure FileOps where
  openAppend : Bool
  write : Bool
  openGet : Bool
  openFrom : Bool
  openTo : Bool
  remove : Bool
  rename : Bool
  openList : Bool
  deriving DecidableEq, Repr

def FileOps.allSucceed : FileOps where
  openAppend := true
  write := true
  openGet := true
  openFrom := true
  openTo := true
  remove := true
  rename := true
  openList := true

/-- What a handler prints; `perror` appends the text of `errno`. -/
inductive Output
  | stdout (text : List Char)
  | stderr (text : List Char)
  | perror (text : List Char)
  deriving DecidableEq, Repr

def openRead (succeeds : Bool) (file : Option (List Char)) : Option (List Char) :=
  if succeeds then file else none

def recordTokens (text : CString) : Option (CString × Option CString) :=
  (Text.strtok isEquals text).map fun (key, rest) =>
    (key, (Text.strtok isEquals rest).map Prod.fst)

/-! ## PUT -/

inductive PutStatus
  | nullArgument
  | openFailed
  | existing
  | writeFailed
  | written (record : CString)
  deriving DecidableEq, Repr

structure PutReport where
  tooLong : Bool
  status : PutStatus
  deriving DecidableEq, Repr

def PutReport.outputs (report : PutReport) : List Output :=
  (if report.tooLong then
    [.stderr "Key-value pair too long, truncating.\n".toList] else []) ++
  match report.status with
  | .nullArgument => [.stderr "Null argument passed to handle_put\n".toList]
  | .openFailed => [.perror "Failed to open File".toList]
  | .existing =>
      [.stderr "EXISITING key error!\n".toList,
        .stdout "!! Use UPDATE to change value\n".toList]
  | .writeFailed => [.perror "Write failed".toList]
  | .written record =>
      [.stdout ("Succesfully written to file: [".toList ++ record ++ "]\n".toList)]

/-- `snprintf(kv, sizeof(kv), "%s=%s", key, value)` -/
def formatRecord (key value : CString) : CString :=
  truncated lineSize (key ++ '=' :: value)

def hasKey (key : CString) (line : List Char) : Bool :=
  match recordTokens (chomp line) with
  | none => false
  | some (currentKey, _) => currentKey == key

def putRecord (ops : FileOps) (key value : CString) (files : Files) : PutReport × Files :=
  if !ops.openAppend then ({ tooLong := false, status := .openFailed }, files)
  else
    -- Mode "a+" creates the file.
    let contents := files.store.getD []
    let files := { files with store := some contents }
    let record := formatRecord key value
    let tooLong := decide (lineSize ≤ (key ++ '=' :: value).length)
    if (Text.reads newline lineSize contents).any (hasKey key) then
      ({ tooLong, status := .existing }, files)
    else if !ops.write then ({ tooLong, status := .writeFailed }, files)
    else
      ({ tooLong, status := .written record },
        { files with store := some (contents ++ (record ++ [newline])) })

def handlePut (ops : FileOps) (key value : Option CString) (files : Files) :
    PutReport × Files :=
  match key, value with
  | some key, some value => putRecord ops key value files
  | _, _ => ({ tooLong := false, status := .nullArgument }, files)

/-! ## GET -/

inductive GetStatus
  | openFailed
  | found
  | notFound
  | undefined
  deriving DecidableEq, Repr

/-- `strncpy(value_out, value, size - 1); value_out[size - 1] = '\0'` for a
buffer of `size` bytes. -/
def copyValue (value : CString) (buffer : List Char) : List Char :=
  let limit := buffer.length - 1
  value.take limit ++ List.replicate (limit - value.length) nul ++ [nul]

def getLoop (key : CString) (valueOut : List Char) :
    List (List Char) → GetStatus × List Char
  | [] => (.notFound, valueOut)
  | line :: lines =>
      match recordTokens (chomp line) with
      | none => (.undefined, valueOut)
      | some (currentKey, currentValue) =>
          if currentKey = key then
            match currentValue with
            | none => (.undefined, valueOut)
            | some value => (.found, copyValue value valueOut)
          else getLoop key valueOut lines

def handleGet (ops : FileOps) (key : CString) (valueOut : List Char) (files : Files) :
    GetStatus × List Char :=
  match openRead ops.openGet files.store with
  | none => (.openFailed, valueOut)
  | some contents => getLoop key valueOut (Text.reads newline valueSize contents)

/-- The message is printed only when the caller's buffer happens to start with
a terminator. -/
def GetStatus.outputs (key : CString) (valueOut : List Char) : GetStatus → List Output
  | .openFailed => [.perror "Failed to open file".toList]
  | .notFound =>
      if valueOut.head? = some nul then
        [.stderr ("VALUE for key: ".toList ++ key ++ " NOT FOUND".toList)]
      else []
  | _ => []

/-! ## DELETE -/

inductive DeleteStatus
  | openFromFailed
  | openToFailed
  | removeFailed
  | renameFailed
  | deleted
  deriving DecidableEq, Repr

/-- `value` holds the last removed value, if any record was removed. -/
structure DeleteReport where
  value : Option CString
  status : DeleteStatus
  deriving DecidableEq, Repr

def removedValue (key : CString) (line : List Char) : Option CString :=
  match recordTokens (chomp line) with
  | some (currentKey, some currentValue) =>
      if currentKey = key then some (truncated valueSize currentValue) else none
  | _ => none

def keptLines (key : CString) (lines : List (List Char)) : List CString :=
  (lines.filter fun line => (removedValue key line).isNone).map chomp

def handleDelete (ops : FileOps) (key : CString) (files : Files) : DeleteReport × Files :=
  let source := openRead ops.openFrom files.store
  -- Opening "temp.txt" for writing empties it.
  let files := if ops.openTo then { files with temp := some [] } else files
  match source with
  | none => ({ value := none, status := .openFromFailed }, files)
  | some contents =>
      if !ops.openTo then ({ value := none, status := .openToFailed }, files)
      else
        let lines := Text.reads newline lineSize contents
        let files := { files with temp := some (Text.unlines newline (keptLines key lines)) }
        let value := (lines.filterMap (removedValue key)).getLast?
        if !ops.remove then ({ value, status := .removeFailed }, files)
        else
          let files := { files with store := none }
          if !ops.rename then ({ value, status := .renameFailed }, files)
          else ({ value, status := .deleted }, { store := files.temp, temp := none })

/-- The printed value is indeterminate when no record was removed. -/
def DeleteReport.outputs (key indeterminate : CString) (report : DeleteReport) :
    List Output :=
  let absent :=
    if report.value.isNone then
      [Output.stdout ("KEY ".toList ++ key ++ " doesn't EXIST!".toList)] else []
  match report.status with
  | .openFromFailed | .openToFailed => [.perror "Failed to open file".toList]
  | .removeFailed | .renameFailed =>
      absent ++ [.stderr "Error in delete operation!\n".toList]
  | .deleted =>
      absent ++ [.stdout ("Successfully DELETED [KEY: ".toList ++ key ++ ", VALUE: ".toList ++
        report.value.getD indeterminate ++ "]\n".toList)]

/-! ## LIST and UPDATE -/

/-- `printf("KEY: %s, VALUE: %s\n", key, value)` -/
def printEntry (key value : CString) : List Char :=
  "KEY: ".toList ++ key ++ ", VALUE: ".toList ++ value ++ "\n".toList

/-- What LIST prints for a line. The newline has not been removed, so it is part
of the last token. -/
def listEntry (line : List Char) : List Char :=
  match recordTokens (cString line) with
  | some (key, some value) => printEntry key value
  | _ => []

/-- `none` when `fgets` is called on the `NULL` stream of a missing file. -/
def handleList (ops : FileOps) (files : Files) : Option (List Char) :=
  (openRead ops.openList files.store).map fun contents =>
    (Text.reads newline lineSize contents).flatMap listEntry

structure UpdateReport where
  delete : DeleteReport
  put : PutReport
  deriving DecidableEq, Repr

def handleUpdate (ops : FileOps) (key value : CString) (files : Files) :
    UpdateReport × Files :=
  let (delete, files) := handleDelete ops key files
  let (put, files) := handlePut ops (some key) (some value) files
  ({ delete, put }, files)

/-- The success message is printed whatever the two halves report. -/
def UpdateReport.outputs (key value indeterminate : CString) (report : UpdateReport) :
    List Output :=
  report.delete.outputs key indeterminate ++ report.put.outputs ++
    [.stdout ("Successfully Updated KEY: ".toList ++ key ++ ", with VALUE: ".toList ++ value)]

end SystemsRepository.KeyValueStore
