import SystemsRepository.ElfLoader.Segments

/-! # The header table is read twice

What the loader knows of a file before it loads the segments, and when the headers
of its two passes are those of the table.
-/

namespace SystemsRepository.ElfLoader

open SystemsRepository.Foundation

def File.header (file : File) : Ehdr := decodeEhdr (file.bytes.take sizeofEhdr)

structure File.Checked (file : File) : Prop where
  magic : file.bytes.take 4 = magic
  size : sizeofEhdr ≤ file.bytes.length
  machine : file.header.machine = machineX8664
  version : file.header.version = versionCurrent
  phnum : file.header.phnum ≠ 0
  phentsize : file.header.phentsize.toNat = sizeofPhdr

theorem File.Checked.phnum_pos {file : File} (checked : file.Checked) :
    0 < file.header.phnum.toNat :=
  Nat.pos_of_ne_zero fun zero => checked.phnum (BitVec.eq_of_toNat_eq zero)

def File.Tabulates (file : File) (headers : List Phdr) : Prop :=
  headers.length = file.header.phnum.toNat ∧
    ∀ index < file.header.phnum.toNat,
      file.header.phoff.toNat + sizeofPhdr * index + sizeofPhdr ≤ file.bytes.length ∧
        headers[index]? = some (decodePhdr
          ((file.bytes.drop (file.header.phoff.toNat + sizeofPhdr * index)).take sizeofPhdr))

/-- Where the first pass begins. If the seek fails, that is behind the header. -/
def listPosition (header : Ehdr) : Nat :=
  if header.phoff.toNat < 2 ^ 63 then header.phoff.toNat else sizeofEhdr

/-! ## The part before loading -/

structure Headers where
  header : Ehdr
  listed : List Phdr
  phdrs : List Phdr

def readHeaders (env : Environment) : Loader Headers := do
  readIdent env
  let header ← readHeader env
  lseekSet header.phoff
  let listed ← listHeaders env header.phnum.toNat
  let phdrs ← readTable env header
  pure { header, listed, phdrs }

def loadImage (env : Environment) (headers : Headers) : Loader Image :=
  let hasLoad := headers.phdrs.countP Phdr.isLoad
  if hasLoad = 0 then throw (.exit .noLoadableSegments)
  else do
    let segments ← loadSegments env hasLoad headers.phdrs []
    match segments with
    | [] => throw .undefined
    | seg :: _ =>
        pure
          { header := headers.header
            listed := headers.listed
            phdrs := headers.phdrs
            segments
            entryHost := vaddrToHost headers.header.entry segments
            tests := (testAddresses seg).map fun vaddr =>
              (vaddr, vaddrToHost vaddr segments) }

theorem loadBinary_eq (env : Environment) :
    loadBinary env = readHeaders env >>= loadImage env := by
  unfold loadBinary readHeaders
  simp only [bind_assoc, pure_bind]
  rfl

/-! ## Finished reading -/

private theorem readObject_length {env : Environment} {size : Nat} {bytes : List Byte}
    {system final : System} (finished : readObject env size system = .ok (bytes, final)) :
    bytes.length = size := by
  unfold readObject at finished
  rcases Program.bind_eq_ok.mp finished with ⟨result, afterRead, reading, finished⟩
  cases result with
  | none => exact absurd finished Program.throw_ne_ok
  | some data =>
      dsimp only at finished
      split at finished
      · rename_i whole
        rcases Program.pure_eq_ok.mp finished with ⟨rfl, _⟩
        exact whole
      · exact absurd finished Program.throw_ne_ok

private theorem readObject_inside {env : Environment} {size : Nat} {bytes : List Byte}
    {system final : System} (finished : readObject env size system = .ok (bytes, final))
    (nonempty : 0 < size) : system.position + size ≤ env.file.bytes.length := by
  have length := readObject_length finished
  rw [(readObject_finished finished).bytes, List.length_take, List.length_drop] at length
  omega

private theorem readIdent_magic {env : Environment} {result : Unit} {system final : System}
    (finished : readIdent env system = .ok (result, final)) (start : system.position = 0) :
    env.file.bytes.take 4 = magic := by
  unfold readIdent at finished
  rcases Program.bind_eq_ok.mp finished with ⟨ident, afterRead, reading, finished⟩
  split at finished
  · rename_i isMagic
    rw [(readObject_finished reading).bytes, start, List.drop_zero, List.take_take] at isMagic
    exact isMagic
  · exact absurd finished Program.throw_ne_ok

private theorem readHeader_checked {env : Environment} {header : Ehdr} {system final : System}
    (finished : readHeader env system = .ok (header, final))
    (magic : env.file.bytes.take 4 = magic) : env.file.Checked := by
  have headerEq : header = env.file.header := (readHeader_finished finished).1
  unfold readHeader at finished
  rcases Program.bind_eq_ok.mp finished with ⟨_, sought, seek, finished⟩
  rcases Program.bind_eq_ok.mp finished with ⟨raw, afterRead, reading, finished⟩
  have start : sought.position = 0 := (lseekSet_finished seek).1
  have inside := readObject_inside reading (by decide)
  rw [start, Nat.zero_add] at inside
  have decoded : decodeEhdr raw = env.file.header := by
    rw [(readObject_finished reading).bytes, start, List.drop_zero]
    rfl
  rw [decoded] at finished
  split at finished
  · exact absurd finished Program.throw_ne_ok
  next machine =>
    split at finished
    · exact absurd finished Program.throw_ne_ok
    next version =>
      split at finished
      · exact absurd finished Program.throw_ne_ok
      next phnum =>
        split at finished
        · exact absurd finished Program.throw_ne_ok
        next phentsize =>
          exact ⟨magic, inside, not_not.mp machine, not_not.mp version, phnum,
            not_not.mp phentsize⟩

private theorem listHeaders_contents {env : Environment} {count : Nat} {listed : List Phdr}
    {system final : System} (finished : listHeaders env count system = .ok (listed, final)) :
    listed = decodePhdrs count (env.file.bytes.drop system.position) ∧
      (0 < count → system.position + sizeofPhdr * count ≤ env.file.bytes.length) := by
  induction count generalizing listed system with
  | zero =>
      rcases Program.pure_eq_ok.mp finished with ⟨rfl, _⟩
      exact ⟨rfl, fun positive => absurd positive (Nat.lt_irrefl 0)⟩
  | succ count induction =>
      unfold listHeaders at finished
      rcases Program.bind_eq_ok.mp finished with ⟨raw, afterRead, reading, finished⟩
      rcases Program.bind_eq_ok.mp finished with ⟨rest, afterRest, listing, finished⟩
      rcases Program.pure_eq_ok.mp finished with ⟨rfl, rfl⟩
      have whole := readObject_finished reading
      have inside := readObject_inside reading (by decide)
      rcases induction listing with ⟨restEq, restInside⟩
      rw [whole.position] at restEq restInside
      constructor
      · rw [whole.bytes, restEq, decodePhdrs_succ, List.drop_drop]
      · intro _
        rcases Nat.eq_zero_or_pos count with rfl | positive
        · exact inside
        · have behind := restInside positive
          rw [Nat.mul_succ]
          omega

private theorem readTable_inside {env : Environment} {header : Ehdr} {phdrs : List Phdr}
    {system final : System} (finished : readTable env header system = .ok (phdrs, final))
    (positive : 0 < header.phnum.toNat) :
    final.position = (if header.phoff.toNat < 2 ^ 63 then header.phoff.toNat
        else system.position) + sizeofPhdr * header.phnum.toNat ∧
      final.position ≤ env.file.bytes.length := by
  unfold readTable at finished
  rcases Program.bind_eq_ok.mp finished with ⟨block, allocated, allocation, finished⟩
  cases block with
  | none => exact absurd finished Program.throw_ne_ok
  | some block =>
      rcases malloc_finished allocation with ⟨rfl, _, _⟩
      rcases Program.bind_eq_ok.mp finished with ⟨_, sought, seek, finished⟩
      rcases Program.bind_eq_ok.mp finished with ⟨raw, afterRead, reading, finished⟩
      rcases Program.pure_eq_ok.mp finished with ⟨rfl, rfl⟩
      have inside := readObject_inside reading (Nat.mul_pos (by decide) positive)
      have whole := readObject_finished reading
      constructor
      · rw [whole.position, (lseekSet_finished seek).1]
      · rw [whole.position]
        exact inside

/-- What is known when the headers have been read. -/
structure HeadersRead (env : Environment) (headers : Headers) (final : System) : Prop where
  checked : env.file.Checked
  header : headers.header = env.file.header
  listed : headers.listed = decodePhdrs env.file.header.phnum.toNat
    (env.file.bytes.drop (listPosition env.file.header))
  listedInside : listPosition env.file.header + sizeofPhdr * env.file.header.phnum.toNat ≤
    env.file.bytes.length
  phdrs : headers.phdrs = env.file.phdrs
  position : final.position =
    tablePosition env.file.header + sizeofPhdr * env.file.header.phnum.toNat
  inside : final.position ≤ env.file.bytes.length
  reads : final.reads = readsBeforeLoading env.file.phdrs

theorem readHeaders_finished {env : Environment} {headers : Headers} {final : System}
    (finished : readHeaders env { position := 0, reads := 0, mallocs := 0 } =
      .ok (headers, final)) : HeadersRead env headers final := by
  unfold readHeaders at finished
  rcases Program.bind_eq_ok.mp finished with ⟨_, s1, identified, finished⟩
  rcases Program.bind_eq_ok.mp finished with ⟨header, s2, headerRead, finished⟩
  rcases Program.bind_eq_ok.mp finished with ⟨_, s3, seek, finished⟩
  rcases Program.bind_eq_ok.mp finished with ⟨listed, s4, listing, finished⟩
  rcases Program.bind_eq_ok.mp finished with ⟨phdrs, s5, tableRead, finished⟩
  rcases Program.pure_eq_ok.mp finished with ⟨rfl, rfl⟩
  have checked := readHeader_checked headerRead (readIdent_magic identified rfl)
  rcases readHeader_finished headerRead with ⟨headerEq, afterHeader, headerReads⟩
  change header = env.file.header at headerEq
  subst headerEq
  have positive : 0 < env.file.header.phnum.toNat := checked.phnum_pos
  have seekPosition : s3.position = listPosition env.file.header := by
    rw [(lseekSet_finished seek).1, afterHeader]
    rfl
  have contents := listHeaders_contents listing
  rw [seekPosition] at contents
  have listingEnds := listHeaders_finished listing
  rw [seekPosition] at listingEnds
  have table := readTable_finished tableRead
  have tableEnds := readTable_inside tableRead positive
  have start : (if env.file.header.phoff.toNat < 2 ^ 63 then env.file.header.phoff.toNat
      else s4.position) = tablePosition env.file.header := by
    rw [listingEnds.1, listPosition, tablePosition]
    split <;> rfl
  rw [start] at table tableEnds
  have readsEq : s5.reads = readsBeforeLoading env.file.phdrs := by
    have identReads : s1.reads = 0 + 1 := readIdent_finished identified
    have seekReads := (lseekSet_finished seek).2.1
    have count : env.file.phdrs.length = env.file.header.phnum.toNat := decodePhdrs_length _ _
    unfold readsBeforeLoading
    omega
  exact
    { checked
      header := rfl
      listed := contents.1
      listedInside := contents.2 positive
      phdrs := table.2
      position := tableEnds.1
      inside := tableEnds.2
      reads := readsEq }

theorem loadImage_finished {env : Environment} {headers : Headers} {image : Image}
    {system final : System} (finished : loadImage env headers system = .ok (image, final)) :
    image.header = headers.header ∧ image.listed = headers.listed ∧
      image.phdrs = headers.phdrs ∧ headers.phdrs.countP Phdr.isLoad ≠ 0 ∧
      loadSegments env (headers.phdrs.countP Phdr.isLoad) headers.phdrs [] system =
        .ok (image.segments, final) ∧
      image.entryHost = vaddrToHost headers.header.entry image.segments ∧
      ∃ seg rest, image.segments = seg :: rest ∧
        image.tests = (testAddresses seg).map fun vaddr =>
          (vaddr, vaddrToHost vaddr image.segments) := by
  unfold loadImage at finished
  split at finished
  · exact absurd finished Program.throw_ne_ok
  next some =>
    rcases Program.bind_eq_ok.mp finished with ⟨segments, loaded, loading, finished⟩
    cases segments with
    | nil => exact absurd finished Program.throw_ne_ok
    | cons seg rest =>
        rcases Program.pure_eq_ok.mp finished with ⟨rfl, rfl⟩
        exact ⟨rfl, rfl, rfl, some, loading, rfl, seg, rest, rfl, rfl⟩

/-- A run that returns 0 reads the headers and loads what they ask for. -/
theorem loaderMain_finished {env : Environment} {image : Image}
    (returned : loaderMain (.binary env) = .ok image) :
    ∃ headers middle final, HeadersRead env headers middle ∧
      loadImage env headers middle = .ok (image, final) := by
  rcases loaderMain_eq_ok.mp returned with ⟨final, ran⟩
  rw [loadBinary_eq] at ran
  rcases Program.bind_eq_ok.mp ran with ⟨headers, middle, reading, loading⟩
  exact ⟨headers, middle, final, readHeaders_finished reading, loading⟩

/-! ## Agreement -/

private theorem tabulates_decodePhdrs {file : File}
    (inside : file.header.phoff.toNat + sizeofPhdr * file.header.phnum.toNat ≤
      file.bytes.length) :
    file.Tabulates
      (decodePhdrs file.header.phnum.toNat (file.bytes.drop file.header.phoff.toNat)) := by
  refine ⟨decodePhdrs_length _ _, ?_⟩
  intro index below
  constructor
  · simp only [sizeofPhdr] at inside ⊢
    omega
  · rw [decodePhdrs, List.getElem?_map, List.getElem?_range below, Option.map_some,
      List.drop_drop]

private theorem not_tabulates {file : File} {headers : List Phdr} (checked : file.Checked)
    (negative : ¬file.header.phoff.toNat < 2 ^ 63) : ¬file.Tabulates headers := by
  intro tabulates
  have first := (tabulates.2 0 checked.phnum_pos).1
  have bounded := file.bounded
  omega

/-- In a run that returns 0, both passes read the headers of the table exactly when its
offset is no negative `off_t`. -/
theorem headers_agree_iff {env : Environment} {image : Image}
    (returned : loaderMain (.binary env) = .ok image) :
    env.file.Tabulates image.listed ∧ env.file.Tabulates image.phdrs ↔
      env.file.header.phoff.toNat < 2 ^ 63 := by
  rcases loaderMain_finished returned with ⟨headers, middle, final, read, loading⟩
  rcases loadImage_finished loading with ⟨_, listed, phdrs, _⟩
  constructor
  · intro agree
    by_contra negative
    exact not_tabulates read.checked negative agree.1
  · intro nonnegative
    have listStart : listPosition env.file.header = env.file.header.phoff.toNat :=
      if_pos nonnegative
    have tableStart : tablePosition env.file.header = env.file.header.phoff.toNat :=
      if_pos nonnegative
    have inside := read.listedInside
    rw [listStart] at inside
    have table := tabulates_decodePhdrs inside
    rw [listed, phdrs, read.listed, read.phdrs, listStart]
    refine ⟨table, ?_⟩
    change env.file.Tabulates (decodePhdrs env.file.header.phnum.toNat
      (env.file.bytes.drop (tablePosition env.file.header)))
    rw [tableStart]
    exact table

/-! ## Files of headers -/

def littleEndianBytes : Nat → Nat → List Byte
  | 0, _ => []
  | width + 1, value => .ofNat 8 value :: littleEndianBytes width (value / 256)

/-- The fields that the loader does not read are zero, but for the size of the header. -/
def encodeEhdr (header : Ehdr) : List Byte :=
  header.ident ++ (littleEndianBytes 2 header.type.toNat ++
    (littleEndianBytes 2 header.machine.toNat ++ (littleEndianBytes 4 header.version.toNat ++
      (littleEndianBytes 8 header.entry.toNat ++ (littleEndianBytes 8 header.phoff.toNat ++
        (littleEndianBytes 8 header.shoff.toNat ++ (littleEndianBytes 4 0 ++
          (littleEndianBytes 2 sizeofEhdr ++ (littleEndianBytes 2 header.phentsize.toNat ++
            (littleEndianBytes 2 header.phnum.toNat ++ littleEndianBytes 6 0))))))))))

def encodePhdr (header : Phdr) : List Byte :=
  littleEndianBytes 4 header.type.toNat ++ (littleEndianBytes 4 header.flags.toNat ++
    (littleEndianBytes 8 header.offset.toNat ++ (littleEndianBytes 8 header.vaddr.toNat ++
      (littleEndianBytes 8 header.paddr.toNat ++ (littleEndianBytes 8 header.filesz.toNat ++
        (littleEndianBytes 8 header.memsz.toNat ++ littleEndianBytes 8 header.align.toNat))))))

def encodeHeaders (header : Ehdr) (phdrs : List Phdr) : List Byte :=
  encodeEhdr header ++ phdrs.flatMap encodePhdr

def sampleHeader : Ehdr where
  ident := magic ++ [2, 1, 1] ++ List.replicate 9 0
  type := 3
  machine := machineX8664
  version := versionCurrent
  entry := 0
  phoff := 64
  shoff := 0
  phentsize := 56
  phnum := 1

def sampleSegment : Phdr where
  type := ptLoad
  flags := 4
  offset := 0
  vaddr := 0x400000
  paddr := 0
  filesz := 0
  memsz := 16
  align := 0

def otherSegment : Phdr := { sampleSegment with vaddr := 0x500000 }

def sampleEnvironment (file : File) : Environment where
  file
  readLimit _ := some (2 ^ 63)
  address call := some (.ofNat 64 (0x1000 * (call + 1)))
  contents _ _ := 0

theorem returns_of_toOption {invocation : Invocation} {view : Image → α} {value : α}
    (ran : (loaderMain invocation).toOption.map view = some value) :
    ∃ image, loaderMain invocation = .ok image ∧ view image = value := by
  cases result : loaderMain invocation with
  | error stop =>
      rw [result] at ran
      cases ran
  | ok image =>
      rw [result] at ran
      exact ⟨image, rfl, Option.some.inj ran⟩

theorem headers_agree_sample :
    let file : File :=
      { bytes := encodeHeaders sampleHeader [sampleSegment], bounded := by decide +kernel }
    ∃ image, loaderMain (.binary (sampleEnvironment file)) = .ok image ∧
      (file.Tabulates image.listed ∧ file.Tabulates image.phdrs ↔
        file.header.phoff.toNat < 2 ^ 63) := by
  intro file
  have ran : (loaderMain (.binary (sampleEnvironment file))).toOption.map Image.phdrs =
      some [sampleSegment] := by
    decide +kernel
  rcases returns_of_toOption ran with ⟨image, returned, _⟩
  exact ⟨image, returned, headers_agree_iff returned⟩

/-- Neither seek succeeds: the second pass goes on where the first one ended. -/
theorem headers_disagree :
    let file : File :=
      { bytes := encodeHeaders { sampleHeader with phoff := -1 } [sampleSegment, otherSegment]
        bounded := by decide +kernel }
    ∃ image, loaderMain (.binary (sampleEnvironment file)) = .ok image ∧
      image.listed = [sampleSegment] ∧ image.phdrs = [otherSegment] ∧
      ¬(file.Tabulates image.listed ∧ file.Tabulates image.phdrs) := by
  intro file
  have ran : (loaderMain (.binary (sampleEnvironment file))).toOption.map
      (fun image => (image.listed, image.phdrs)) = some ([sampleSegment], [otherSegment]) := by
    decide +kernel
  rcases returns_of_toOption ran with ⟨image, returned, passes⟩
  rcases Prod.mk.inj passes with ⟨listed, phdrs⟩
  refine ⟨image, returned, listed, phdrs, ?_⟩
  intro agree
  have first := (agree.1.2 0 (by decide +kernel)).1
  have bounded := file.bounded
  have top : file.header.phoff.toNat = 2 ^ 64 - 1 := by decide +kernel
  omega

end SystemsRepository.ElfLoader
