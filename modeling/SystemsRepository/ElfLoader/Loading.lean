import SystemsRepository.ElfLoader.Headers

/-! # The branches of the loading loop

The loop of a run as the list of its iterations, and when the branches stay within
the memory they allocate.
-/

namespace SystemsRepository.ElfLoader

open SystemsRepository.Foundation

variable {env : Environment} {header : Phdr} {system : System}

/-! ## Results of the branches -/

def seekPosition (offset : XWord) (system : System) : Nat :=
  if offset.toNat < 2 ^ 63 then offset.toNat else system.position

theorem lseekSet_eq (offset : XWord) (system : System) :
    lseekSet offset system =
      .ok ((), { system with position := seekPosition offset system }) := by
  unfold lseekSet seekPosition
  split <;> rfl

def Environment.segmentData (env : Environment) (header : Phdr) (system : System) :
    Option (List Byte) :=
  env.read system.reads (seekPosition header.offset system) header.filesz

def Environment.block (env : Environment) (size : XWord) (system : System) : Option Buffer :=
  (env.address system.mallocs).map fun address =>
    { address, size := size.toNat, bytes := env.contents system.mallocs }

theorem malloc_eq (size : XWord) (system : System) :
    malloc env size system =
      .ok (env.block size system, { system with mallocs := system.mallocs + 1 }) := rfl

theorem block_size {size : XWord} {buffer : Buffer} (block : env.block size system = some buffer) :
    buffer.size = size.toNat := by
  rcases Option.map_eq_some_iff.mp block with ⟨_, _, rfl⟩
  rfl

def fillSegment (header : Phdr) (segment : Buffer) (data : List Byte) : Loader LoadedSegment := do
  let segment ← segment.store 0 data
  let segment ← zeroFill header segment
  pure
    { host := segment
      virtAddr := header.vaddr
      size := header.memsz
      flags := header.flags }

theorem loadSegment_eq :
    loadSegment env header system =
      match env.block header.memsz system with
      | none => .error (.exit .malloc)
      | some segment =>
          match env.segmentData header system with
          | none => .error (.exit .readSegment)
          | some data => fillSegment header segment data
              { position := seekPosition header.offset system + data.length
                reads := system.reads + 1
                mallocs := system.mallocs + 1 } := by
  unfold loadSegment
  rw [Program.bind_of_ok (malloc_eq header.memsz system)]
  cases env.block header.memsz system with
  | none => rfl
  | some segment =>
      dsimp only
      rw [Program.bind_of_ok (lseekSet_eq _ _), Program.bind_of_ok rfl]
      simp only [Environment.segmentData, seekPosition]
      generalize env.read system.reads _ header.filesz = result
      cases result <;> rfl

private theorem zeroFill_ne_undefined {segment : Buffer}
    (size : segment.size = header.memsz.toNat) :
    zeroFill header segment system ≠ .error .undefined := by
  unfold zeroFill
  split
  next smaller =>
    have ordered : header.filesz.toNat < header.memsz.toNat := smaller
    rw [Buffer.clear, if_pos (by omega)]
    exact Program.pure_ne_error
  next => exact Program.pure_ne_error

/-- The stores of the branch leave the segment exactly when the file has delivered more
than its size: what is cleared lies within. -/
theorem fillSegment_undefined_iff {segment : Buffer} {data : List Byte}
    (size : segment.size = header.memsz.toNat) :
    fillSegment header segment data system = .error .undefined ↔
      header.memsz.toNat < data.length := by
  unfold fillSegment
  rw [Program.bind_eq_error, Buffer.store, Nat.zero_add]
  by_cases fits : data.length ≤ segment.size
  · rw [if_pos fits]
    constructor
    · intro either
      rcases either with stored | ⟨stored, middle, storing, filling⟩
      · exact absurd stored Program.pure_ne_error
      · rcases Program.pure_eq_ok.mp storing with ⟨rfl, rfl⟩
        rcases Program.bind_eq_error.mp filling with clearing | ⟨_, _, _, returned⟩
        · exact absurd clearing (zeroFill_ne_undefined size)
        · exact absurd returned Program.pure_ne_error
    · omega
  · rw [if_neg fits]
    exact iff_of_true (.inl rfl) (by omega)

theorem segmentData_eq_some_iff {data : List Byte} :
    env.segmentData header system = some data ↔
      header.filesz.toNat < 2 ^ 63 ∧ ∃ limit, env.readLimit system.reads = some limit ∧
        data = (env.file.bytes.drop (seekPosition header.offset system)).take
          (min limit header.filesz.toNat) := by
  unfold Environment.segmentData Environment.read
  by_cases signed : header.filesz.toNat < 2 ^ 63
  · rw [if_pos signed, Option.map_eq_some_iff]
    simp only [eq_comm (b := data), and_iff_right signed]
  · rw [if_neg signed]
    exact iff_of_false nofun fun both => signed both.1

/-- The `PT_LOAD` branch is given memory, and its read delivers more bytes than the
segment has. -/
def Overruns (env : Environment) (header : Phdr) (system : System) : Prop :=
  (env.address system.mallocs).isSome ∧ header.filesz.toNat < 2 ^ 63 ∧
    ∃ limit, env.readLimit system.reads = some limit ∧
      header.memsz.toNat < min (min limit header.filesz.toNat)
        (env.file.bytes.length - seekPosition header.offset system)

theorem loadSegment_undefined_iff :
    loadSegment env header system = .error .undefined ↔ Overruns env header system := by
  rw [loadSegment_eq]
  unfold Environment.block Overruns
  cases env.address system.mallocs with
  | none => exact iff_of_false nofun fun overruns => absurd overruns.1 nofun
  | some address =>
      dsimp only [Option.map_some]
      cases data : env.segmentData header system with
      | none =>
          refine iff_of_false nofun ?_
          intro overruns
          rcases overruns with ⟨_, signed, limit, limited, _⟩
          rw [segmentData_eq_some_iff.mpr ⟨signed, limit, limited, rfl⟩] at data
          cases data
      | some data =>
          rcases segmentData_eq_some_iff.mp data with ⟨signed, limit, limited, rfl⟩
          dsimp only
          rw [fillSegment_undefined_iff rfl, List.length_take, List.length_drop]
          simp only [Option.isSome_some, signed, limited, Option.some.injEq, exists_eq_left',
            true_and]

/-! ## The branch for the interpreter -/

/-- The `PT_INTERP` branch up to the comparison before the terminator. -/
def readInterp (env : Environment) (header : Phdr) :
    Loader (Buffer × XWord × Option (List Byte)) := do
  match ← malloc env (header.filesz + 1) with
  | none => throw (.exit .mallocInterp)
  | some interp =>
      let cur ← lseekCurrent
      lseekSet header.offset
      let result ← read env header.filesz
      let interp ← interp.store 0 (result.getD [])
      if readCount result ≠ header.filesz then throw (.exit .readInterp)
      else pure (interp, cur, result)

def terminateInterp (header : Phdr) (interp : Buffer) (cur : XWord) : Loader Buffer := do
  let interp ← interp.store header.filesz.toNat [0]
  lseekSet cur
  pure interp

theorem loadInterp_eq :
    loadInterp env header =
      readInterp env header >>= fun outcome => terminateInterp header outcome.1 outcome.2.1 := by
  unfold loadInterp readInterp terminateInterp
  rw [bind_assoc]
  apply bind_congr
  intro block
  cases block with
  | none => rfl
  | some interp =>
      simp only [bind_assoc]
      repeat (apply bind_congr; intro _)
      split
      · rfl
      · rfl

private theorem readInterp_finished {interp : Buffer} {cur : XWord} {result : Option (List Byte)}
    {after : System} (reached : readInterp env header system = .ok ((interp, cur, result), after)) :
    interp.size = (header.filesz + 1).toNat ∧ result = env.segmentData header system ∧
      readCount result = header.filesz ∧
      ∀ index byte, (result.getD [])[index]? = some byte → interp.bytes index = byte := by
  unfold readInterp at reached
  rcases Program.bind_eq_ok.mp reached with ⟨block, allocated, allocation, reached⟩
  cases block with
  | none => exact absurd reached Program.throw_ne_ok
  | some block =>
      rcases malloc_finished allocation with ⟨rfl, size, _⟩
      rcases Program.bind_eq_ok.mp reached with ⟨_, _, current, reached⟩
      cases current
      rcases Program.bind_eq_ok.mp reached with ⟨_, _, seek, reached⟩
      rw [lseekSet_eq] at seek
      cases seek
      rcases Program.bind_eq_ok.mp reached with ⟨data, afterRead, reading, reached⟩
      rcases read_finished reading with ⟨dataEq, rfl⟩
      rcases Program.bind_eq_ok.mp reached with ⟨stored, afterStore, storing, reached⟩
      rcases store_finished storing with ⟨_, rfl, rfl⟩
      split at reached
      · exact absurd reached Program.throw_ne_ok
      next compared =>
        rcases Program.pure_eq_ok.mp reached with ⟨same, _⟩
        cases same
        refine ⟨size, dataEq, not_not.mp compared, ?_⟩
        intro index byte here
        simp only [Nat.zero_le, if_true, Nat.sub_zero, here, Option.getD_some]

structure PathRead (file : File) (header : Phdr) (interp : Buffer) : Prop where
  room : header.filesz.toNat + 1 ≤ interp.size
  bytes : ∀ index < header.filesz.toNat,
    file.bytes[header.offset.toNat + index]? = some (interp.bytes index)

/-- What the comparison before the terminator cannot tell: -1 from the size, and a seek
that has failed. -/
theorem pathRead_iff {interp : Buffer} {cur : XWord} {result : Option (List Byte)}
    {after : System} (reached : readInterp env header system = .ok ((interp, cur, result), after)) :
    PathRead env.file header interp ↔
      header.filesz ≠ -1 ∧ (header.filesz = 0 ∨ header.offset.toNat < 2 ^ 63) := by
  rcases readInterp_finished reached with ⟨size, delivered, compared, stored⟩
  constructor
  · intro read
    have room := read.room
    rw [size] at room
    refine ⟨?_, ?_⟩
    · intro top
      rw [top] at room
      exact absurd room (by decide)
    · rcases Nat.eq_zero_or_pos header.filesz.toNat with empty | positive
      · exact .inl (BitVec.eq_of_toNat_eq empty)
      · have first := (List.getElem?_eq_some_iff.mp (read.bytes 0 positive)).1
        have bounded := env.file.bounded
        exact .inr (by omega)
  · intro condition
    rcases condition with ⟨notTop, sought⟩
    cases result with
    | none => exact absurd compared.symm notTop
    | some data =>
        rcases segmentData_eq_some_iff.mp delivered.symm with ⟨signed, limit, _, dataEq⟩
        have taken : data.length ≤ min limit header.filesz.toNat := by
          rw [dataEq]
          exact List.length_take_le _ _
        have whole : data.length = header.filesz.toNat := by
          have count : data.length % 2 ^ 64 = header.filesz.toNat :=
            congrArg BitVec.toNat compared
          omega
        constructor
        · rw [size, BitVec.toNat_add, Nat.mod_eq_of_lt (by simp; omega)]
          exact Nat.le_refl _
        · intro index inside
          have nonzero : header.filesz ≠ 0 := by
            intro zero
            rw [zero] at inside
            exact absurd inside (Nat.not_lt_zero _)
          have position : seekPosition header.offset system = header.offset.toNat :=
            if_pos (sought.resolve_left nonzero)
          have here : index < data.length := by omega
          rw [stored index data[index] (List.getElem?_eq_getElem here),
            ← List.getElem?_eq_getElem here, dataEq, position, getElem_taken (by omega)]

/-! ## The loop -/

def loadHeader (env : Environment) (header : Phdr) : Loader Unit :=
  if header.isLoad then do
    let _ ← loadSegment env header
    pure ()
  else if header.isInterp then do
    let _ ← loadInterp env header
    pure ()
  else pure ()

private theorem loadSegments_error_iff {hasLoad : Nat} {headers : List Phdr}
    {segments : List LoadedSegment} {stop : Stop}
    (room : segments.length + headers.countP Phdr.isLoad ≤ hasLoad) :
    loadSegments env hasLoad headers segments system = .error stop ↔
      Program.loop (loadHeader env) headers system = .error stop := by
  induction headers generalizing segments system with
  | nil => exact iff_of_false Program.pure_ne_error Program.pure_ne_error
  | cons header headers induction =>
      unfold loadSegments Program.loop loadHeader
      split
      next isLoad =>
        rw [List.countP_cons_of_pos isLoad] at room
        cases ran : loadSegment env header system with
        | error other =>
            rw [Program.bind_of_error ran, Program.bind_of_error (Program.bind_of_error ran)]
            simp only [Except.error.injEq]
        | ok outcome =>
            have stored : storeSegment hasLoad segments outcome.1 outcome.2 =
                .ok (segments ++ [outcome.1], outcome.2) := by
              rw [storeSegment, if_pos (by omega)]
              rfl
            rw [Program.bind_of_ok ran, Program.bind_of_ok stored,
              Program.bind_of_ok (Program.bind_of_ok ran)]
            apply induction
            rw [List.length_append, List.length_singleton]
            omega
      next notLoad =>
        rw [List.countP_cons_of_neg notLoad] at room
        split
        · cases ran : loadInterp env header system with
          | error other =>
              rw [Program.bind_of_error ran, Program.bind_of_error (Program.bind_of_error ran)]
              simp only [Except.error.injEq]
          | ok outcome =>
              rw [Program.bind_of_ok ran, Program.bind_of_ok (Program.bind_of_ok ran)]
              exact induction room
        · rw [Program.bind_of_ok rfl]
          exact induction room

/-! ## Stopped runs -/

private theorem readObject_avoids (size : Nat) : (readObject env size).Avoids .undefined := by
  unfold readObject
  refine .bind (fun _ => nofun) ?_
  intro result
  cases result with
  | none => exact .throw nofun
  | some bytes =>
      dsimp only
      split
      · exact .pure _
      · exact .throw nofun

private theorem readHeader_avoids : (readHeader env).Avoids .undefined := by
  unfold readHeader
  refine .bind (fun _ => nofun) fun _ => .bind (readObject_avoids _) fun raw => ?_
  dsimp only
  split
  · exact .throw nofun
  split
  · exact .throw nofun
  split
  · exact .throw nofun
  split
  · exact .throw nofun
  · exact .pure _

private theorem listHeaders_avoids (count : Nat) : (listHeaders env count).Avoids .undefined := by
  induction count with
  | zero => exact .pure _
  | succ count induction =>
      exact .bind (readObject_avoids _) fun raw => .bind induction fun rest => .pure _

private theorem readTable_avoids (header : Ehdr) : (readTable env header).Avoids .undefined := by
  unfold readTable
  refine .bind (fun _ => nofun) ?_
  intro block
  cases block with
  | none => exact .throw nofun
  | some block =>
      exact .bind (fun _ => nofun) fun _ => .bind (readObject_avoids _) fun raw => .pure _

theorem readHeaders_avoids : (readHeaders env).Avoids .undefined := by
  have ident : (readIdent env).Avoids .undefined := by
    refine .bind (readObject_avoids _) ?_
    intro ident
    split
    · exact .pure _
    · exact .throw nofun
  exact .bind ident fun _ => .bind readHeader_avoids fun header => .bind (fun _ => nofun) fun _ =>
    .bind (listHeaders_avoids _) fun listed => .bind (readTable_avoids header) fun phdrs => .pure _

def opened : System := { position := 0, reads := 0, mallocs := 0 }

theorem Loaded.length {reads mallocs : Nat} {headers : List Phdr} {segments : List LoadedSegment}
    (loaded : Loaded env reads mallocs headers segments) :
    segments.length = headers.countP Phdr.isLoad := by
  induction loaded with
  | nil => rfl
  | load isLoad _ _ induction =>
      rw [List.length_cons, induction, List.countP_cons_of_pos isLoad]
  | interp notLoad _ _ induction =>
      rw [induction, List.countP_cons_of_neg (by simp [notLoad])]
  | other notLoad _ _ induction =>
      rw [induction, List.countP_cons_of_neg (by simp [notLoad])]

theorem loadImage_error_iff {headers : Headers} {stop : Stop} :
    loadImage env headers system = .error stop ↔
      headers.phdrs.countP Phdr.isLoad = 0 ∧ stop = .exit .noLoadableSegments ∨
        headers.phdrs.countP Phdr.isLoad ≠ 0 ∧
          Program.loop (loadHeader env) headers.phdrs system = .error stop := by
  unfold loadImage
  by_cases none : headers.phdrs.countP Phdr.isLoad = 0
  · rw [if_pos none]
    simp only [none, true_and, ne_eq, not_true_eq_false, false_and, or_false]
    exact Program.throw_eq_error.trans eq_comm
  · rw [if_neg none]
    have room : ([] : List LoadedSegment).length + headers.phdrs.countP Phdr.isLoad ≤
        headers.phdrs.countP Phdr.isLoad := by simp
    simp only [none, false_and, false_or, ne_eq, not_false_eq_true, true_and]
    rw [← loadSegments_error_iff room, Program.bind_eq_error]
    refine or_iff_left ?_
    intro rest
    rcases rest with ⟨segments, middle, loading, stopped⟩
    rcases loadSegments_finished loading with ⟨loaded, same, run⟩
    -- There is a first segment, for there was a `PT_LOAD` header.
    have some := run.length
    cases segments with
    | nil =>
        cases loaded with
        | nil => exact none some.symm
        | cons => cases same
    | cons => exact Program.pure_ne_error stopped

def loaderIterations (env : Environment) : List (Phdr × System) :=
  match readHeaders env opened with
  | .error _ => []
  | .ok (headers, system) =>
      if headers.phdrs.countP Phdr.isLoad = 0 then []
      else Program.iterations (loadHeader env) headers.phdrs system

theorem loaderMain_eq_error {stop : Stop} :
    loaderMain (.binary env) = .error stop ↔ loadBinary env opened = .error stop := by
  change (loadBinary env opened).map Prod.fst = _ ↔ _
  cases loadBinary env opened with
  | error other => simp only [Except.map, Except.error.injEq]
  | ok outcome => exact iff_of_false nofun nofun

theorem loaderMain_undefined_iff :
    loaderMain (.binary env) = .error .undefined ↔
      ∃ iteration ∈ loaderIterations env,
        loadHeader env iteration.1 iteration.2 = .error .undefined := by
  rw [loaderMain_eq_error, loadBinary_eq, loaderIterations]
  cases ran : readHeaders env opened with
  | error stop =>
      rw [Program.bind_of_error ran]
      refine iff_of_false ?_ (by simp)
      intro undefined
      cases undefined
      exact readHeaders_avoids opened ran
  | ok outcome =>
      rw [Program.bind_of_ok ran, loadImage_error_iff]
      dsimp only
      by_cases none : outcome.1.phdrs.countP Phdr.isLoad = 0
      · rw [if_pos none]
        simp [none]
      · rw [if_neg none, ← Program.loop_eq_error_iff]
        simp only [none, false_and, false_or, ne_eq, not_false_eq_true, true_and]

/-! ## Segments -/

/-- In every run the bytes read and cleared in the `PT_LOAD` branch stay within the memory of
the segment exactly when no read of a segment delivers more than that memory holds. -/
theorem segments_inside_iff (env : Environment) :
    (∀ iteration ∈ loaderIterations env, iteration.1.isLoad = true →
      loadSegment env iteration.1 iteration.2 ≠ .error .undefined) ↔
    ∀ iteration ∈ loaderIterations env, iteration.1.isLoad = true →
      ¬Overruns env iteration.1 iteration.2 := by
  simp only [ne_eq, loadSegment_undefined_iff]

def overrunningSegment : Phdr := { sampleSegment with filesz := 16, memsz := 8 }

def overrunningFile : File :=
  { bytes := encodeHeaders sampleHeader [overrunningSegment], bounded := by decide +kernel }

/-- The 16 bytes are read into the 8 bytes allocated. -/
theorem segment_overrun :
    let env := sampleEnvironment overrunningFile
    (∃ iteration ∈ loaderIterations env, iteration.1 = overrunningSegment ∧
      loadSegment env iteration.1 iteration.2 = .error .undefined) ∧
      loaderMain (.binary env) = .error .undefined := by
  intro env
  have iterations : loaderIterations env =
      [(overrunningSegment, { position := 120, reads := 4, mallocs := 1 })] := by
    decide +kernel
  have overrun : loadSegment env overrunningSegment
      { position := 120, reads := 4, mallocs := 1 } = .error .undefined := by
    rw [loadSegment_undefined_iff]
    exact ⟨rfl, by decide, 2 ^ 63, rfl, by decide +kernel⟩
  constructor
  · rw [iterations]
    exact ⟨_, List.mem_singleton_self _, rfl, overrun⟩
  · rw [loaderMain_undefined_iff, iterations]
    refine ⟨_, List.mem_singleton_self _, ?_⟩
    rw [loadHeader, if_pos (by decide), Program.bind_of_error overrun]

/-! ## The interpreter path -/

/-- In every run that comes to the terminator of an interpreter path, the buffer has room for
it and holds the path from the file exactly when the size is not 2^64 - 1 and the offset of a
path with any bytes is no negative `off_t`. -/
theorem interp_path_iff (env : Environment) :
    ∀ iteration ∈ loaderIterations env, iteration.1.isInterp = true →
      ∀ interp cur result after,
        readInterp env iteration.1 iteration.2 = .ok ((interp, cur, result), after) →
        (PathRead env.file iteration.1 interp ↔
          iteration.1.filesz ≠ -1 ∧
            (iteration.1.filesz = 0 ∨ iteration.1.offset.toNat < 2 ^ 63)) :=
  fun _ _ _ _ _ _ _ reached => pathRead_iff reached

def shortPath : Phdr := { sampleSegment with type := ptInterp, filesz := 4 }

theorem short_path_read :
    let env := sampleEnvironment
      ⟨encodeHeaders { sampleHeader with phnum := 2 } [shortPath, sampleSegment],
        by decide +kernel⟩
    ∃ iteration ∈ loaderIterations env, ∃ interp cur result after,
      readInterp env iteration.1 iteration.2 = .ok ((interp, cur, result), after) ∧
        (PathRead env.file iteration.1 interp ↔
          iteration.1.filesz ≠ -1 ∧
            (iteration.1.filesz = 0 ∨ iteration.1.offset.toNat < 2 ^ 63)) := by
  intro env
  have member : (shortPath, { position := 176, reads := 5, mallocs := 1 }) ∈
      loaderIterations env := by
    decide +kernel
  have reached : (readInterp env shortPath
      { position := 176, reads := 5, mallocs := 1 }).isOk = true := by
    decide +kernel
  cases ran : readInterp env shortPath { position := 176, reads := 5, mallocs := 1 } with
  | error stop =>
      rw [ran] at reached
      cases reached
  | ok outcome =>
      exact ⟨_, member, _, _, _, _, ran, interp_path_iff env _ member rfl _ _ _ _ ran⟩

/-- The size plus one is 0, and -1 is the size. -/
def endlessPath : Phdr := { sampleSegment with type := ptInterp, filesz := -1 }

def endlessFile : File :=
  { bytes := encodeHeaders { sampleHeader with phnum := 2 } [endlessPath, sampleSegment]
    bounded := by decide +kernel }

/-- A failed read passes for the whole path, and the terminator is stored outside a buffer of
no bytes. -/
theorem endless_path_terminated :
    let env := sampleEnvironment endlessFile
    (∃ iteration ∈ loaderIterations env, iteration.1 = endlessPath ∧
      ∃ interp cur after,
        readInterp env iteration.1 iteration.2 = .ok ((interp, cur, none), after) ∧
          interp.size = 0 ∧ ¬PathRead env.file iteration.1 interp) ∧
      loaderMain (.binary env) = .error .undefined := by
  intro env
  have member : (endlessPath, { position := 176, reads := 5, mallocs := 1 }) ∈
      loaderIterations env := by
    decide +kernel
  have unread : env.segmentData endlessPath { position := 176, reads := 5, mallocs := 1 } =
      none := by
    decide +kernel
  have reached : (readInterp env endlessPath
      { position := 176, reads := 5, mallocs := 1 }).isOk = true := by
    decide +kernel
  cases ran : readInterp env endlessPath { position := 176, reads := 5, mallocs := 1 } with
  | error stop =>
      rw [ran] at reached
      cases reached
  | ok outcome =>
      rcases outcome with ⟨⟨interp, cur, result⟩, after⟩
      rcases readInterp_finished ran with ⟨size, delivered, _, _⟩
      rw [unread] at delivered
      subst delivered
      have empty : interp.size = 0 := size
      constructor
      · refine ⟨_, member, rfl, interp, cur, after, ran, empty, ?_⟩
        intro read
        exact absurd read.room (by rw [empty]; exact Nat.not_succ_le_zero _)
      · rw [loaderMain_undefined_iff]
        refine ⟨_, member, ?_⟩
        rw [loadHeader, if_neg (by decide), if_pos (by decide), loadInterp_eq]
        have outside : terminateInterp endlessPath interp cur after = .error .undefined := by
          rw [terminateInterp, Buffer.store, if_neg (by rw [empty]; decide)]
          rfl
        exact Program.bind_of_error ((Program.bind_of_ok ran).trans outside)

end SystemsRepository.ElfLoader
