import SystemsRepository.KeyValueStore.Lookup

/-! # PUT followed by GET

When the value of a key just stored is read back.
-/

namespace SystemsRepository.KeyValueStore

open SystemsRepository.Foundation

private theorem outcomeAt_found_iff {key value : CString} {piece : List Char}
    (stops : decisive key piece = true) :
    outcomeAt piece = .found value ↔
      recordTokens (chomp piece) = some (key, some value) := by
  unfold outcomeAt
  unfold decisive at stops
  rcases tokens : recordTokens (chomp piece) with _ | ⟨currentKey, _ | currentValue⟩
  · simp
  · simp
  · simp only [tokens, beq_iff_eq] at stops
    simp [stops]

/-! ## The pieces of the new record -/

section NewRecord

variable {key value : CString}

private theorem lookupPieces_fitting (keyWord : Word key) (valueWord : Word value)
    (isRecord : IsRecord (key ++ '=' :: value)) (keyFree : '=' ∉ key)
    (valueFree : '=' ∉ value) (fits : key.length + 1 + value.length ≤ 511) :
    lookupPieces key (recordPieces (key ++ '=' :: value)) = .found value := by
  have tokens := recordTokens_record keyWord.nonempty keyFree valueWord.nonempty valueFree
  have length : (key ++ '=' :: value).length = key.length + 1 + value.length := by
    simp
    omega
  by_cases short : (key ++ '=' :: value).length ≤ 510
  · rw [recordPieces_short isRecord short, lookupPieces_cons_of_tokens (isRecord.chomp ▸ tokens),
      if_pos rfl]
    rfl
  · have whole : (key ++ '=' :: value).take 511 = key ++ '=' :: value :=
      List.take_of_length_le (by omega)
    have chomped : chomp ((key ++ '=' :: value).take 511) = key ++ '=' :: value :=
      (chomp_take isRecord 511).trans whole
    rw [recordPieces_long isRecord (by omega),
      lookupPieces_cons_of_tokens (chomped.symm ▸ tokens), if_pos rfl]
    rfl

private theorem lookupPieces_cut_value (keyWord : Word key)
    (isRecord : IsRecord (key ++ '=' :: value)) (keyFree : '=' ∉ key) (valueFree : '=' ∉ value)
    (keyShort : key.length < 511) (long : 511 < key.length + 1 + value.length)
    (pieces : List CString) :
    lookupPieces key ((key ++ '=' :: value).take 511 :: pieces) ≠ .found value := by
  have firstChomped := chomp_take isRecord 511
  have first : (key ++ '=' :: value).take 511 = key ++ '=' :: value.take (510 - key.length) := by
    have offset : 511 - key.length = (510 - key.length) + 1 := by omega
    rw [List.take_append, List.take_of_length_le (by omega), offset, List.take_succ_cons]
  have cutFree : '=' ∉ value.take (510 - key.length) :=
    fun member => valueFree (List.mem_of_mem_take member)
  cases cut : value.take (510 - key.length) with
  | nil =>
      have tokens : recordTokens (chomp ((key ++ '=' :: value).take 511)) =
          some (key, none) := by
        rw [firstChomped, first, cut, recordTokens_append keyWord.nonempty keyFree]
        rfl
      rw [lookupPieces_cons_of_tokens tokens, if_pos rfl]
      exact fun impossible => by cases impossible
  | cons head tail =>
      have tokens : recordTokens (chomp ((key ++ '=' :: value).take 511)) =
          some (key, some (value.take (510 - key.length))) := by
        rw [firstChomped, first]
        exact recordTokens_record keyWord.nonempty keyFree (by simp [cut]) cutFree
      rw [lookupPieces_cons_of_tokens tokens, if_pos rfl]
      intro found
      have shorter := congrArg List.length (Lookup.found.inj found)
      rw [List.length_take] at shorter
      omega

/-- When the first piece is cut out of the key, the second has the rest of the key as
its key. -/
theorem lookupPieces_cut_key (isRecord : IsRecord (key ++ '=' :: value)) (keyFree : '=' ∉ key)
    (keyLong : 511 ≤ key.length) :
    lookupPieces key [(key ++ '=' :: value).take 511,
      (key ++ '=' :: value).drop 511 ++ [newline]] ≠ .found value := by
  have firstChomped := chomp_take isRecord 511
  have first : (key ++ '=' :: value).take 511 = key.take 511 := by
    rw [List.take_append_of_le_length keyLong]
  have cutNonempty : key.take 511 ≠ [] := by
    apply List.ne_nil_of_length_pos
    rw [List.length_take]
    omega
  have tokens : recordTokens (chomp ((key ++ '=' :: value).take 511)) =
      some (key.take 511, none) := by
    rw [firstChomped, first]
    exact recordTokens_word cutNonempty fun member => keyFree (List.mem_of_mem_take member)
  rw [lookupPieces_cons_of_tokens tokens]
  by_cases exact : key.take 511 = key
  · rw [if_pos exact]
    exact fun impossible => by cases impossible
  · rw [if_neg exact]
    have longer : 511 < key.length := by
      rcases Nat.lt_or_ge 511 key.length with longer | short
      · exact longer
      · exact absurd (List.take_of_length_le short) exact
    have second : (key ++ '=' :: value).drop 511 = key.drop 511 ++ '=' :: value := by
      rw [List.drop_append_of_le_length keyLong]
    have restNonempty : key.drop 511 ≠ [] := by
      apply List.ne_nil_of_length_pos
      rw [List.length_drop]
      omega
    have restTokens : recordTokens (chomp ((key ++ '=' :: value).drop 511 ++ [newline])) =
        some (key.drop 511, (Text.strtok isEquals value).map Prod.fst) := by
      rw [chomp_drop isRecord, second]
      exact recordTokens_append restNonempty
        (fun member => keyFree (List.mem_of_mem_drop member)) value
    have differs : key.drop 511 ≠ key := by
      intro same
      have lengths := congrArg List.length same
      simp only [List.length_drop] at lengths
      omega
    rw [lookupPieces_cons_of_tokens restTokens, if_neg differs]
    exact fun impossible => by cases impossible

private theorem lookupPieces_overlong (keyWord : Word key)
    (isRecord : IsRecord (key ++ '=' :: value)) (keyFree : '=' ∉ key) (valueFree : '=' ∉ value)
    (long : 511 < key.length + 1 + value.length) :
    lookupPieces key (recordPieces (key ++ '=' :: value)) ≠ .found value := by
  have length : (key ++ '=' :: value).length = key.length + 1 + value.length := by
    simp
    omega
  rw [recordPieces_long isRecord (by omega)]
  rcases Nat.lt_or_ge key.length 511 with keyShort | keyLong
  · exact lookupPieces_cut_value keyWord isRecord keyFree valueFree keyShort long _
  · exact lookupPieces_cut_key isRecord keyFree keyLong

private theorem lookupPieces_newRecord_iff (keyWord : Word key) (valueWord : Word value)
    (short : key.length + 1 + value.length ≤ 695) :
    lookupPieces key (recordPieces (key ++ '=' :: value)) = .found value ↔
      '=' ∉ key ∧ '=' ∉ value ∧ key.length + 1 + value.length ≤ 511 := by
  have isRecord := isRecord_of_words keyWord valueWord short
  constructor
  · intro found
    rcases lookupPieces_found found with ⟨piece, _, _, tokens⟩
    have clean := recordTokens_clean tokens
    have valueFree := clean.2.2 value rfl
    refine ⟨clean.1, valueFree, ?_⟩
    rcases Nat.lt_or_ge 511 (key.length + 1 + value.length) with long | fits
    · exact absurd found (lookupPieces_overlong keyWord isRecord clean.1 valueFree long)
    · exact fits
  · rintro ⟨keyFree, valueFree, fits⟩
    exact lookupPieces_fitting keyWord valueWord isRecord keyFree valueFree fits

end NewRecord

/-! ## The round trip -/

/-- If PUT reports success, the GET that follows finds the key and copies out
exactly the value. -/
def RoundTrips (files : Files) (key value : CString) (valueOut : List Char) : Prop :=
  ∀ record, (handlePut FileOps.allSucceed (some key) (some value) files).1.status =
      .written record →
    let after := (handlePut FileOps.allSucceed (some key) (some value) files).2
    (handleGet FileOps.allSucceed key valueOut after).1 = .found ∧
      cString (handleGet FileOps.allSucceed key valueOut after).2 = value

/-- PUT finds the key in the store; or key and value contain no `=` and either
no 511-byte piece of the store stops GET and the record fits such a piece, or
the first piece that stops GET already holds this key and this value. -/
def RoundTripCondition (files : Files) (key value : CString) : Prop :=
  (∃ line ∈ Text.reads newline lineSize (files.store.getD []), hasKey key line = true) ∨
    ('=' ∉ key ∧ '=' ∉ value ∧
      match (getPieces files).find? (decisive key) with
      | none => key.length + 1 + value.length ≤ 511
      | some piece => recordTokens (chomp piece) = some (key, some value))

private theorem lookup_after_put {files : Files} {store : Store} {key value : CString}
    (holds : Holds files store) (keyWord : Word key) (valueWord : Word value)
    (short : key.length + 1 + value.length ≤ 695)
    (absent : (store.getD []).any (recordHasKey key) = false) (other : CString) :
    lookup other (putRecord FileOps.allSucceed key value files).2 =
      lookupPieces other (getPieces files ++ recordPieces (key ++ '=' :: value)) := by
  have after := putRecord_holds FileOps.allSucceed holds keyWord valueWord short
  rw [lookup, getPieces_records after, getPieces_records holds]
  simp [Store.put, FileOps.allSucceed, absent]

private theorem stored_iff {files : Files} {store : Store} (holds : Holds files store)
    (key : CString) :
    (∃ line ∈ Text.reads newline lineSize (files.store.getD []), hasKey key line = true) ↔
      (store.getD []).any (recordHasKey key) = true := by
  rw [← any_hasKey holds.getD_records key, ← unlines_getD, ← holds.contents]
  exact List.any_eq_true.symm

private theorem put_status {files : Files} {store : Store} {key value : CString}
    (holds : Holds files store) (short : key.length + 1 + value.length ≤ 695) :
    (handlePut FileOps.allSucceed (some key) (some value) files).1.status =
      if (store.getD []).any (recordHasKey key) then .existing
      else .written (key ++ '=' :: value) := by
  have status := putRecord_status FileOps.allSucceed holds short
  simp only [FileOps.allSucceed, Bool.not_true, Bool.false_eq_true, if_false] at status
  exact status

private theorem roundTrips_iff_lookup {files : Files} {store : Store} {key value : CString}
    {valueOut : List Char} (holds : Holds files store)
    (short : key.length + 1 + value.length ≤ 695)
    (absent : (store.getD []).any (recordHasKey key) = false)
    (size : valueOut.length = valueSize) :
    RoundTrips files key value valueOut ↔
      lookup key (putRecord FileOps.allSucceed key value files).2 = .found value := by
  rw [← handleGet_copies_iff size]
  constructor
  · intro trips
    apply trips (key ++ '=' :: value)
    rw [put_status holds short, absent]
    rfl
  · intro copied _ _
    exact copied

/-- On every store the loop can produce, the round trip succeeds under exactly
this condition. -/
theorem put_get_iff {permitted : FileOps → Command → Prop} {files : Files}
    (reachable : Reachable permitted files) {key value : CString}
    (admitted : (Command.put key value).Admitted) {valueOut : List Char}
    (size : valueOut.length = valueSize) :
    RoundTrips files key value valueOut ↔ RoundTripCondition files key value := by
  rcases reachable.holds with ⟨store, _, holds⟩
  rcases admitted.wellFormed with ⟨keyWord, valueWord, short⟩
  have stored := stored_iff holds key
  cases present : (store.getD []).any (recordHasKey key) with
  | true =>
      constructor
      · intro _
        exact .inl (stored.mpr present)
      · intro _ record reported
        rw [put_status holds short, present, if_pos rfl] at reported
        cases reported
  | false =>
      have notStored := mt stored.mp (by rw [present]; exact Bool.false_ne_true)
      rw [roundTrips_iff_lookup holds short present size,
        lookup_after_put holds keyWord valueWord short present key, lookupPieces_append,
        RoundTripCondition, or_iff_right notStored]
      cases stop : (getPieces files).find? (decisive key) with
      | none => exact lookupPieces_newRecord_iff keyWord valueWord short
      | some piece =>
          rw [outcomeAt_found_iff (List.find?_some stop)]
          constructor
          · intro tokens
            have clean := recordTokens_clean tokens
            exact ⟨clean.1, clean.2.2 value rfl, tokens⟩
          · exact fun condition => condition.2.2

theorem put_get_iff_of_plain :
    RoundTrips { store := none, temp := none } ['k'] ['v'] (List.replicate valueSize nul) :=
  (put_get_iff (.absent none : Reachable Succeeding _)
    ⟨['P', 'U', 'T', ' ', 'k', ' ', 'v', '\n'], by decide, by decide⟩
    (by simp)).mpr (.inr ⟨by decide, by decide, by simp [getPieces]⟩)

/-- A value that contains the separator is cut at it. -/
theorem put_get_loses_value :
    Reachable Succeeding { store := none, temp := none } ∧
      (Command.put ['a'] ['b', '=', 'c']).Admitted ∧
      (handlePut FileOps.allSucceed (some ['a']) (some ['b', '=', 'c'])
        { store := none, temp := none }).1.status = .written ['a', '=', 'b', '=', 'c'] ∧
      cString (handleGet FileOps.allSucceed ['a'] (List.replicate valueSize nul)
        (handlePut FileOps.allSucceed (some ['a']) (some ['b', '=', 'c'])
          { store := none, temp := none }).2).2 = ['b'] ∧
      ¬RoundTrips { store := none, temp := none } ['a'] ['b', '=', 'c']
        (List.replicate valueSize nul) := by
  have copied : cString (handleGet FileOps.allSucceed ['a'] (List.replicate valueSize nul)
      (handlePut FileOps.allSucceed (some ['a']) (some ['b', '=', 'c'])
        { store := none, temp := none }).2).2 = ['b'] := by
    decide +kernel
  refine ⟨.absent none,
    ⟨['P', 'U', 'T', ' ', 'a', ' ', 'b', '=', 'c', '\n'], by decide, by decide⟩,
    by decide +kernel, copied, ?_⟩
  intro trips
  have same := (trips ['a', '=', 'b', '=', 'c'] (by decide +kernel)).2
  rw [copied] at same
  cases same

end SystemsRepository.KeyValueStore
