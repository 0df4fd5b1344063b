import SystemsRepository.KeyValueStore.NullPointers

/-! # What a GET command reports

`main` passes GET a buffer that it does not initialise, and prints the string in
it whatever the handler found.
-/

namespace SystemsRepository.KeyValueStore

open SystemsRepository.Foundation

/-- What the command prints when its buffer starts as `valueOut`; `none` where the
program is undefined. -/
def getReport (ops : FileOps) (key : CString) (valueOut : List Char) (files : Files) :
    Option (List Output) :=
  match handleGet ops key valueOut files with
  | (.undefined, _) => none
  | (status, buffer) =>
      -- Without a terminator `printf` reads past the buffer.
      if nul ∈ buffer then
        some (status.outputs key buffer ++ [.stdout (printEntry key (cString buffer))])
      else none

def notFoundMessage (key : CString) : Output :=
  .stderr ("VALUE for key: ".toList ++ key ++ " NOT FOUND".toList)

/-- The report is a function of the store, and for a key without a record it says
that nothing was found. -/
structure ReportsStore (files : Files) (key : CString) : Prop where
  same : ∀ first second : List Char, first.length = valueSize → second.length = valueSize →
    (getReport FileOps.allSucceed key first files).isSome = true ∧
      getReport FileOps.allSucceed key first files = getReport FileOps.allSucceed key second files
  absent : (∀ record ∈ recordsOf files, recordHasKey key record = false) →
    ∀ valueOut : List Char, valueOut.length = valueSize →
      ∀ outputs ∈ getReport FileOps.allSucceed key valueOut files,
        notFoundMessage key ∈ outputs ∧
          ∀ value, Output.stdout (printEntry key value) ∈ outputs → value = []

/-- The key has a record, and the first piece with the key or without any token has a
key and a value. -/
structure Retrieves (files : Files) (key : CString) : Prop where
  stored : ∃ record ∈ recordsOf files, recordHasKey key record = true
  found : ∃ piece, (Scanner.get.pieces files).find? (decisive key) = some piece ∧ HasTokens piece

/-! ## The report -/

private theorem getPieces_eq (files : Files) : getPieces files = Scanner.get.pieces files := by
  unfold getPieces Scanner.pieces
  cases files.store <;> rfl

theorem lookup_found_iff (files : Files) (key : CString) :
    (∃ value, lookup key files = .found value) ↔
      ∃ piece, (Scanner.get.pieces files).find? (decisive key) = some piece ∧
        HasTokens piece := by
  unfold lookup lookupPieces
  rw [getPieces_eq]
  cases (Scanner.get.pieces files).find? (decisive key) with
  | none => simp
  | some piece =>
      simp only [outcomeAt, HasTokens, Option.some.injEq, exists_eq_left']
      rcases recordTokens (chomp piece) with _ | ⟨currentKey, _ | value⟩ <;> simp

private theorem nul_mem_copyValue (value : CString) (buffer : List Char) :
    nul ∈ copyValue value buffer := by
  simp [copyValue]

theorem getReport_of_found {files : Files} {key value : CString} {valueOut : List Char}
    (size : valueOut.length = valueSize) (found : lookup key files = .found value) :
    getReport FileOps.allSucceed key valueOut files =
      some [.stdout (printEntry key value)] := by
  rcases (handleGet_copies_iff size).mpr found with ⟨status, copied⟩
  have terminated : nul ∈ (handleGet FileOps.allSucceed key valueOut files).2 := by
    unfold handleGet at status ⊢
    split at status
    · cases status
    · rw [getLoop_eq] at status ⊢
      split at status
      · exact nul_mem_copyValue _ _
      · cases status
      · cases status
  unfold getReport
  rcases result : handleGet FileOps.allSucceed key valueOut files with ⟨outcome, buffer⟩
  rw [result] at status copied terminated
  simp only at status copied terminated
  simp [status, copied, terminated, GetStatus.outputs]

private theorem getReport_of_not_found {files : Files} {key : CString} {valueOut : List Char}
    (missed : ∀ value, lookup key files ≠ .found value) (unterminated : nul ∉ valueOut) :
    getReport FileOps.allSucceed key valueOut files = none := by
  have kept : (handleGet FileOps.allSucceed key valueOut files).2 = valueOut := by
    unfold lookup getPieces at missed
    unfold handleGet openRead
    cases contents : files.store with
    | none => rfl
    | some text =>
        simp only [contents] at missed
        simp only [FileOps.allSucceed, if_true, getLoop_eq]
        cases outcome : lookupPieces key (Text.reads newline valueSize text) with
        | found value => exact absurd outcome (missed value)
        | notFound => rfl
        | undefined => rfl
  unfold getReport
  rcases result : handleGet FileOps.allSucceed key valueOut files with ⟨outcome, buffer⟩
  rw [result] at kept
  simp only at kept
  cases outcome <;> simp [kept, unterminated]

private theorem lookup_found_of_same {files : Files} {key : CString}
    (reports : ReportsStore files key) : ∃ value, lookup key files = .found value := by
  apply Classical.byContradiction
  intro missed
  have unterminated : nul ∉ List.replicate valueSize 'x' := by
    rw [List.mem_replicate]
    exact fun member => absurd member.2 (by decide)
  have defined := (reports.same (List.replicate valueSize 'x') (List.replicate valueSize 'x')
    List.length_replicate List.length_replicate).1
  rw [getReport_of_not_found (fun value found => missed ⟨value, found⟩) unterminated] at defined
  cases defined

private theorem stored_of_absent {files : Files} {key value : CString}
    (reports : ReportsStore files key) (found : lookup key files = .found value) :
    ∃ record ∈ recordsOf files, recordHasKey key record = true := by
  apply Classical.byContradiction
  intro missing
  have absent : ∀ record ∈ recordsOf files, recordHasKey key record = false := by
    intro record member
    cases has : recordHasKey key record with
    | false => rfl
    | true => exact absurd ⟨record, member, has⟩ missing
  have report := @getReport_of_found files key value (List.replicate valueSize nul)
    List.length_replicate found
  have message := (reports.absent absent _ List.length_replicate _ report).1
  cases List.mem_singleton.mp message

/-- The report of GET depends on the store alone exactly for the keys that it
retrieves. -/
theorem reportsStore_iff_retrieves (files : Files) (key : CString) :
    ReportsStore files key ↔ Retrieves files key := by
  constructor
  · intro reports
    have found := lookup_found_of_same reports
    rcases found with ⟨value, isFound⟩
    exact ⟨stored_of_absent reports isFound, (lookup_found_iff files key).mp ⟨value, isFound⟩⟩
  · intro retrieves
    rcases (lookup_found_iff files key).mpr retrieves.found with ⟨value, found⟩
    constructor
    · intro first second firstSize secondSize
      rw [getReport_of_found firstSize found, getReport_of_found secondSize found]
      exact ⟨rfl, rfl⟩
    · intro absent
      rcases retrieves.stored with ⟨record, member, has⟩
      rw [absent record member] at has
      cases has

/-- After a GET of `k` its value is reported for the absent key `z`. -/
theorem stale_value_reported :
    let files : Files := { store := some ['k', '=', 'v', '\n'], temp := none }
    let before := List.replicate valueSize nul
    let after := 'v' :: List.replicate 511 nul
    Reachable Succeeding files ∧
      handleGet FileOps.allSucceed ['k'] before files = (.found, after) ∧
      getReport FileOps.allSucceed ['z'] before files =
        some [notFoundMessage ['z'], .stdout (printEntry ['z'] [])] ∧
      getReport FileOps.allSucceed ['z'] after files =
        some [.stdout (printEntry ['z'] ['v'])] ∧
      ¬ReportsStore files ['z'] := by
  intro files before after
  have admitted : (Command.put ['k'] ['v']).Admitted :=
    ⟨['P', 'U', 'T', ' ', 'k', ' ', 'v'], by decide, by decide⟩
  have stored : runCommand FileOps.allSucceed { store := none, temp := none }
      (.put ['k'] ['v']) = files := by
    decide +kernel
  have fresh : getReport FileOps.allSucceed ['z'] before files =
      some [notFoundMessage ['z'], .stdout (printEntry ['z'] [])] := by
    decide +kernel
  have stale : getReport FileOps.allSucceed ['z'] after files =
      some [.stdout (printEntry ['z'] ['v'])] := by
    decide +kernel
  refine ⟨stored ▸ .run (.absent none) admitted rfl, by decide +kernel, fresh, stale, ?_⟩
  intro reports
  have size : after.length = valueSize := by
    rw [List.length_cons, List.length_replicate]
  have same := (reports.same before after List.length_replicate size).2
  rw [fresh, stale] at same
  exact absurd same (by decide)

end SystemsRepository.KeyValueStore
