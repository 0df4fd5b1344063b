import SystemsRepository.ElfLoader.Loading

/-! # Which files are loaded

The files that the loader supports, the files that it says to support, and the files that pass
the checks it makes.
-/

namespace SystemsRepository.ElfLoader

open SystemsRepository.Foundation

/-- What a file has to be. -/
structure File.Supported (file : File) : Prop where
  size : sizeofEhdr ≤ file.bytes.length
  magic : file.bytes.take 4 = magic
  class64 : file.bytes[4]? = some 2
  littleEndian : file.bytes[5]? = some 1
  machine : file.header.machine = machineX8664
  version : file.header.version = versionCurrent
  phentsize : file.header.phentsize.toNat = sizeofPhdr
  table : file.header.phoff.toNat + sizeofPhdr * file.header.phnum.toNat ≤ file.bytes.length
  load : ∃ index < file.header.phnum.toNat,
    (decodePhdr ((file.bytes.drop
      (file.header.phoff.toNat + sizeofPhdr * index)).take sizeofPhdr)).isLoad = true

/-- What the loader does not check: the class and the byte order in `e_ident`, and the sign
of the offset it seeks to. -/
structure File.Declared (file : File) : Prop where
  class64 : file.bytes[4]? = some 2
  littleEndian : file.bytes[5]? = some 1
  offset : file.header.phoff.toNat < 2 ^ 63

/-- With some answers of the system, the loading loop comes through these headers without an
error exit: it may also leave its objects on the way. -/
def File.Loadable (file : File) : Nat → List Phdr → Prop
  | _, [] => True
  | position, header :: headers =>
      let start := if header.offset.toNat < 2 ^ 63 then header.offset.toNat else position
      if header.isLoad then
        header.filesz.toNat < 2 ^ 63 ∧
          (header.memsz.toNat < min header.filesz.toNat (file.bytes.length - start) ∨
            file.Loadable start headers)
      else if header.isInterp then
        header.filesz = -1 ∨
          header.filesz.toNat < 2 ^ 63 ∧
            (header.filesz.toNat = 0 ∨
              start + header.filesz.toNat ≤ file.bytes.length) ∧
            file.Loadable position headers
      else file.Loadable position headers

structure File.Passes (file : File) : Prop where
  checked : file.Checked
  listed : listPosition file.header + sizeofPhdr * file.header.phnum.toNat ≤ file.bytes.length
  table : tablePosition file.header + sizeofPhdr * file.header.phnum.toNat ≤ file.bytes.length
  load : file.phdrs.countP Phdr.isLoad ≠ 0
  loadable : file.Loadable
    (tablePosition file.header + sizeofPhdr * file.header.phnum.toNat) file.phdrs

def Exits (outcome : Except Stop α) : Prop := ∃ failure, outcome = .error (.exit failure)

variable {env : Environment} {header : Phdr} {system : System}

/-! ## Results of the branches -/

def afterSegment (header : Phdr) (system : System) (data : List Byte) : System :=
  { position := seekPosition header.offset system + data.length
    reads := system.reads + 1
    mallocs := system.mallocs + 1 }

private theorem fillSegment_finishes {segment : Buffer} {data : List Byte}
    (size : segment.size = header.memsz.toNat) (fits : data.length ≤ header.memsz.toNat) :
    ∃ loaded, fillSegment header segment data system = .ok (loaded, system) := by
  have stored : 0 + data.length ≤ segment.size := by omega
  rw [fillSegment, Buffer.store, if_pos stored, Program.bind_of_ok rfl, zeroFill]
  split
  next smaller =>
    have ordered : header.filesz.toNat < header.memsz.toNat := smaller
    have cleared : header.filesz.toNat + (header.memsz.toNat - header.filesz.toNat) ≤
        segment.size := by
      omega
    rw [Buffer.clear, if_pos cleared]
    exact ⟨_, rfl⟩
  next => exact ⟨_, rfl⟩

private theorem loadSegment_exits
    (refused : env.block header.memsz system = none ∨ env.segmentData header system = none) :
    Exits (loadSegment env header system) := by
  rw [loadSegment_eq]
  cases block : env.block header.memsz system with
  | none => exact ⟨_, rfl⟩
  | some segment =>
      rcases refused with refused | unread
      · rw [block] at refused
        cases refused
      · rw [unread]
        exact ⟨_, rfl⟩

private theorem loadSegment_finishes {segment : Buffer} {data : List Byte}
    (block : env.block header.memsz system = some segment)
    (delivered : env.segmentData header system = some data)
    (fits : data.length ≤ header.memsz.toNat) :
    ∃ loaded, loadSegment env header system = .ok (loaded, afterSegment header system data) := by
  rw [loadSegment_eq, block, delivered]
  exact fillSegment_finishes (block_size block) fits

private def PathAccepted (env : Environment) (header : Phdr) (system : System) : Prop :=
  (env.block (header.filesz + 1) system).isSome ∧
    readCount (env.segmentData header system) = header.filesz

theorem readInterp_eq :
    readInterp env header system =
      match env.block (header.filesz + 1) system with
      | none => .error (.exit .mallocInterp)
      | some interp => (do
          let interp ← interp.store 0 ((env.segmentData header system).getD [])
          if readCount (env.segmentData header system) ≠ header.filesz then
            throw (.exit .readInterp)
          else
            pure (interp, .ofNat 64 system.position, env.segmentData header system) :
          Loader (Buffer × XWord × Option (List Byte)))
          (afterSegment header system ((env.segmentData header system).getD [])) := by
  unfold readInterp
  rw [Program.bind_of_ok (malloc_eq _ system)]
  cases env.block (header.filesz + 1) system with
  | none => rfl
  | some interp =>
      dsimp only
      rw [Program.bind_of_ok rfl, Program.bind_of_ok (lseekSet_eq _ _), Program.bind_of_ok rfl]
      rfl

private theorem pathSize {size : XWord} (notTop : size ≠ -1) :
    (size + 1).toNat = size.toNat + 1 := by
  have bound := size.isLt
  have different : size.toNat ≠ 2 ^ 64 - 1 := fun same => notTop (BitVec.eq_of_toNat_eq same)
  rw [BitVec.toNat_add]
  exact Nat.mod_eq_of_lt (by change size.toNat + 1 < 2 ^ 64; omega)

private theorem path_fits :
    ((env.segmentData header system).getD []).length ≤ (header.filesz + 1).toNat := by
  cases delivered : env.segmentData header system with
  | none => exact Nat.zero_le _
  | some data =>
      rcases segmentData_eq_some_iff.mp delivered with ⟨signed, limit, _, rfl⟩
      have notTop : header.filesz ≠ -1 := by
        intro top
        rw [top] at signed
        exact absurd signed (by decide)
      have taken := List.length_take_le (min limit header.filesz.toNat)
        (env.file.bytes.drop (seekPosition header.offset system))
      rw [Option.getD_some, pathSize notTop]
      omega

private theorem readInterp_stored {interp : Buffer}
    (block : env.block (header.filesz + 1) system = some interp) :
    ∃ stored : Buffer, stored.size = (header.filesz + 1).toNat ∧ readInterp env header system =
      if readCount (env.segmentData header system) ≠ header.filesz then
        .error (.exit .readInterp)
      else .ok ((stored, .ofNat 64 system.position, env.segmentData header system),
        afterSegment header system ((env.segmentData header system).getD [])) := by
  have size := block_size block
  have fits : 0 + ((env.segmentData header system).getD []).length ≤ interp.size := by
    rw [size, Nat.zero_add]
    exact path_fits
  rw [readInterp_eq, block]
  dsimp only
  rw [Buffer.store, if_pos fits, Program.bind_of_ok rfl]
  by_cases different : readCount (env.segmentData header system) ≠ header.filesz
  · rw [if_pos different]
    exact ⟨interp, size, (if_pos different).symm⟩
  · rw [if_neg different]
    exact ⟨_, by exact size, (if_neg different).symm⟩

private theorem readInterp_finishes (accepted : PathAccepted env header system) :
    ∃ interp, interp.size = (header.filesz + 1).toNat ∧ readInterp env header system =
      .ok ((interp, .ofNat 64 system.position, env.segmentData header system),
        afterSegment header system ((env.segmentData header system).getD [])) := by
  rcases Option.isSome_iff_exists.mp accepted.1 with ⟨interp, block⟩
  rcases readInterp_stored block with ⟨stored, size, reading⟩
  exact ⟨stored, size, by rw [reading, if_neg (not_not.mpr accepted.2)]⟩

private theorem loadInterp_exits (refused : ¬PathAccepted env header system) :
    Exits (loadInterp env header system) := by
  rw [loadInterp_eq]
  cases block : env.block (header.filesz + 1) system with
  | none =>
      refine ⟨.mallocInterp, Program.bind_of_error ?_⟩
      rw [readInterp_eq, block]
  | some interp =>
      refine ⟨.readInterp, Program.bind_of_error ?_⟩
      rcases readInterp_stored block with ⟨_, _, reading⟩
      have different : readCount (env.segmentData header system) ≠ header.filesz :=
        fun same => refused ⟨by rw [block]; rfl, same⟩
      rw [reading, if_pos different]

private theorem loadInterp_undefined (accepted : PathAccepted env header system)
    (top : header.filesz = -1) : loadInterp env header system = .error .undefined := by
  rcases readInterp_finishes accepted with ⟨interp, size, read⟩
  rw [loadInterp_eq, Program.bind_of_ok read]
  apply Program.bind_of_error
  rw [Buffer.store, if_neg (by rw [size, top]; decide)]
  rfl

private theorem loadInterp_finishes (accepted : PathAccepted env header system)
    (notTop : header.filesz ≠ -1) (positive : system.position < 2 ^ 63) :
    ∃ interp, loadInterp env header system =
      .ok (interp, { system with
        reads := system.reads + 1
        mallocs := system.mallocs + 1 }) := by
  rcases readInterp_finishes accepted with ⟨interp, size, read⟩
  have room : header.filesz.toNat + [(0 : Byte)].length ≤ interp.size := by
    rw [size, pathSize notTop]
    exact Nat.le_refl _
  have back : (BitVec.ofNat 64 system.position).toNat = system.position :=
    Nat.mod_eq_of_lt (by omega)
  rw [loadInterp_eq, Program.bind_of_ok read, terminateInterp, Buffer.store, if_pos room,
    Program.bind_of_ok rfl, Program.bind_of_ok (lseekSet_eq _ _), seekPosition,
    if_pos (by rw [back]; exact positive), back]
  exact ⟨_, rfl⟩

/-! ## The loop -/

theorem Exits.bind {first : Loader α} {rest : α → Loader β} (exits : Exits (first system)) :
    Exits ((first >>= rest) system) := by
  rcases exits with ⟨failure, stopped⟩
  exact ⟨failure, Program.bind_of_error stopped⟩

private theorem loop_load {headers : List Phdr} (isLoad : header.isLoad = true) :
    Program.loop (loadHeader env) (header :: headers) =
      (loadSegment env header >>= fun _ => Program.loop (loadHeader env) headers) := by
  rw [Program.loop, loadHeader, if_pos isLoad, bind_assoc]
  rfl

private theorem loop_interp {headers : List Phdr} (notLoad : ¬header.isLoad = true)
    (isInterp : header.isInterp = true) :
    Program.loop (loadHeader env) (header :: headers) =
      (loadInterp env header >>= fun _ => Program.loop (loadHeader env) headers) := by
  rw [Program.loop, loadHeader, if_neg notLoad, if_pos isInterp, bind_assoc]
  rfl

private theorem loop_other {headers : List Phdr} (notLoad : ¬header.isLoad = true)
    (notInterp : ¬header.isInterp = true) :
    Program.loop (loadHeader env) (header :: headers) =
      Program.loop (loadHeader env) headers := by
  rw [Program.loop, loadHeader, if_neg notLoad, if_neg notInterp]
  rfl

theorem segmentData_length {data : List Byte}
    (delivered : env.segmentData header system = some data) :
    header.filesz.toNat < 2 ^ 63 ∧
      data.length ≤ min header.filesz.toNat
        (env.file.bytes.length - seekPosition header.offset system) := by
  rcases segmentData_eq_some_iff.mp delivered with ⟨signed, limit, _, rfl⟩
  rw [List.length_take, List.length_drop]
  omega

private theorem afterSegment_position {data : List Byte} (positive : system.position < 2 ^ 63)
    (delivered : env.segmentData header system = some data) :
    (afterSegment header system data).position < 2 ^ 63 := by
  have length := (segmentData_length delivered).2
  have bounded := env.file.bounded
  have start : seekPosition header.offset system < 2 ^ 63 := by
    unfold seekPosition
    split <;> assumption
  change seekPosition header.offset system + data.length < 2 ^ 63
  omega

private theorem segment_survives {rest : Loader PUnit} (positive : system.position < 2 ^ 63)
    (survives : ¬Exits ((loadSegment env header >>= fun _ => rest) system)) :
    header.filesz.toNat < 2 ^ 63 ∧
      (header.memsz.toNat < min header.filesz.toNat
          (env.file.bytes.length - seekPosition header.offset system) ∨
        ∃ after : System, after.position < 2 ^ 63 ∧
          seekPosition header.offset system ≤ after.position ∧ ¬Exits (rest after)) := by
  cases block : env.block header.memsz system with
  | none => exact absurd (loadSegment_exits (.inl block)).bind survives
  | some segment =>
      cases delivered : env.segmentData header system with
      | none => exact absurd (loadSegment_exits (.inr delivered)).bind survives
      | some data =>
          rcases segmentData_length delivered with ⟨signed, length⟩
          refine ⟨signed, ?_⟩
          by_cases fits : data.length ≤ header.memsz.toNat
          · rcases loadSegment_finishes block delivered fits with ⟨loaded, finished⟩
            rw [Program.bind_of_ok finished] at survives
            exact .inr ⟨_, afterSegment_position positive delivered, Nat.le_add_right _ _,
              survives⟩
          · exact .inl (by omega)

/-- An interpreter path that does not lead to an error exit has the one size that cannot be
terminated, or is read in full. -/
theorem interp_survives {rest : Loader PUnit} (positive : system.position < 2 ^ 63)
    (survives : ¬Exits ((loadInterp env header >>= fun _ => rest) system)) :
    header.filesz = -1 ∨
      header.filesz.toNat < 2 ^ 63 ∧
        (header.filesz.toNat = 0 ∨ seekPosition header.offset system + header.filesz.toNat ≤
          env.file.bytes.length) ∧
        ∃ after : System, after.position = system.position ∧ ¬Exits (rest after) := by
  by_cases accepted : PathAccepted env header system
  · by_cases top : header.filesz = -1
    · exact .inl top
    · have count := accepted.2
      cases delivered : env.segmentData header system with
      | none =>
          rw [delivered] at count
          exact absurd count.symm top
      | some data =>
          rcases segmentData_length delivered with ⟨signed, length⟩
          have whole : data.length % 2 ^ 64 = header.filesz.toNat := by
            rw [delivered] at count
            exact congrArg BitVec.toNat count
          rcases loadInterp_finishes accepted top positive with ⟨interp, finished⟩
          rw [Program.bind_of_ok finished] at survives
          exact .inr ⟨signed, by omega, _, by rfl, survives⟩
  · exact absurd (loadInterp_exits accepted).bind survives

private theorem loadable_of_loop {headers : List Phdr} {position : Nat}
    (positive : system.position < 2 ^ 63) (behind : position ≤ system.position)
    (survives : ¬Exits (Program.loop (loadHeader env) headers system)) :
    env.file.Loadable position headers := by
  induction headers generalizing system position with
  | nil => trivial
  | cons header headers induction =>
      have start : (if header.offset.toNat < 2 ^ 63 then header.offset.toNat else position) ≤
          seekPosition header.offset system := by
        unfold seekPosition
        split
        · exact Nat.le_refl _
        · exact behind
      rw [File.Loadable]
      split
      next isLoad =>
        rw [loop_load isLoad] at survives
        rcases segment_survives positive survives with
          ⟨signed, overruns | ⟨after, later, further, rest⟩⟩
        · exact ⟨signed, .inl (by omega)⟩
        · exact ⟨signed, .inr (induction later (Nat.le_trans start further) rest)⟩
      next notLoad =>
        split
        next isInterp =>
          rw [loop_interp notLoad isInterp] at survives
          rcases interp_survives positive survives with
            top | ⟨signed, readable, after, same, rest⟩
          · exact .inl top
          · exact .inr ⟨signed, by omega,
              induction (same ▸ positive) (same ▸ behind) rest⟩
        next notInterp =>
          rw [loop_other notLoad notInterp] at survives
          exact induction positive behind survives

def Answers (env : Environment) (reads : Nat) (limits : Nat → Nat) : Prop :=
  (∀ call, (env.address call).isSome) ∧
    ∀ call, reads ≤ call → env.readLimit call = some (limits call)

theorem Answers.block {reads : Nat} {limits : Nat → Nat} (answers : Answers env reads limits)
    (size : XWord) (system : System) : ∃ buffer, env.block size system = some buffer := by
  rcases Option.isSome_iff_exists.mp (answers.1 system.mallocs) with ⟨address, placed⟩
  exact ⟨_, by rw [Environment.block, placed, Option.map_some]⟩

def answerFirst (reads limit : Nat) (limits : Nat → Nat) : Nat → Nat :=
  fun call => if call = reads then limit else limits call

theorem Answers.first {reads limit : Nat} {limits : Nat → Nat}
    (answers : Answers env reads (answerFirst reads limit limits)) :
    env.readLimit reads = some limit ∧ Answers env (reads + 1) limits := by
  refine ⟨?_, answers.1, ?_⟩
  · rw [answers.2 reads (Nat.le_refl _), answerFirst, if_pos rfl]
  · intro call later
    rw [answers.2 call (by omega), answerFirst, if_neg (by omega)]

private theorem not_exits_undefined : ¬Exits (.error .undefined : Except Stop α) := by
  intro exits
  rcases exits with ⟨_, stopped⟩
  cases stopped

private def ComesThrough (file : File) (headers : List Phdr) (position reads : Nat)
    (limits : Nat → Nat) : Prop :=
  ∀ env system, env.file = file → Answers env reads limits → system.position = position →
    system.reads = reads → ¬Exits (Program.loop (loadHeader env) headers system)

section ComesThrough

variable {file : File} {headers : List Phdr} {position reads : Nat} {limits : Nat → Nat}

private theorem comesThrough_overrun (isLoad : header.isLoad = true)
    (signed : header.filesz.toNat < 2 ^ 63)
    (overruns : header.memsz.toNat < min header.filesz.toNat (file.bytes.length -
      if header.offset.toNat < 2 ^ 63 then header.offset.toNat else position)) :
    ComesThrough file (header :: headers) position reads fun _ => 2 ^ 63 := by
  intro env system same answers here count
  have overrun : loadSegment env header system = .error .undefined := by
    rw [loadSegment_undefined_iff, Overruns, seekPosition, here, count, same]
    refine ⟨answers.1 _, signed, 2 ^ 63, answers.2 reads (Nat.le_refl _), ?_⟩
    rw [Nat.min_eq_right (Nat.le_of_lt signed)]
    exact overruns
  rw [loop_load isLoad, Program.bind_of_error overrun]
  exact not_exits_undefined

private theorem comesThrough_segment (isLoad : header.isLoad = true)
    (signed : header.filesz.toNat < 2 ^ 63)
    (rest : ComesThrough file headers
      (if header.offset.toNat < 2 ^ 63 then header.offset.toNat else position) (reads + 1)
      limits) :
    ComesThrough file (header :: headers) position reads (answerFirst reads 0 limits) := by
  intro env system same answers here count
  rcases answers.block header.memsz system with ⟨segment, block⟩
  have nothing : env.segmentData header system = some [] := by
    rw [segmentData_eq_some_iff, count]
    exact ⟨signed, 0, answers.first.1, by rw [Nat.zero_min, List.take_zero]⟩
  rcases loadSegment_finishes block nothing (Nat.zero_le _) with ⟨loaded, finished⟩
  rw [loop_load isLoad, Program.bind_of_ok finished]
  apply rest env _ same answers.first.2
  · rw [← here]
    rfl
  · exact congrArg (· + 1) count

private theorem comesThrough_top (notLoad : ¬header.isLoad = true)
    (isInterp : header.isInterp = true)
    (top : header.filesz = -1) : ComesThrough file (header :: headers) position reads limits := by
  intro env system same answers here count
  have unread : env.segmentData header system = none := by
    rw [Environment.segmentData, Environment.read, if_neg (by rw [top]; decide)]
  have accepted : PathAccepted env header system := by
    rcases answers.block (header.filesz + 1) system with ⟨interp, block⟩
    exact ⟨by rw [block]; rfl, by rw [unread, top]; rfl⟩
  rw [loop_interp notLoad isInterp, Program.bind_of_error (loadInterp_undefined accepted top)]
  exact not_exits_undefined

private theorem comesThrough_interp (notLoad : ¬header.isLoad = true)
    (isInterp : header.isInterp = true) (positive : position < 2 ^ 63)
    (signed : header.filesz.toNat < 2 ^ 63)
    (readable : header.filesz.toNat = 0 ∨
      (if header.offset.toNat < 2 ^ 63 then header.offset.toNat else position) +
        header.filesz.toNat ≤ file.bytes.length)
    (rest : ComesThrough file headers position (reads + 1) limits) :
    ComesThrough file (header :: headers) position reads
      (answerFirst reads (2 ^ 63) limits) := by
  intro env system same answers here count
  have notTop : header.filesz ≠ -1 := by
    intro top
    rw [top] at signed
    exact absurd signed (by decide)
  have delivered := segmentData_eq_some_iff.mpr
    ⟨signed, 2 ^ 63, by rw [count]; exact answers.first.1, rfl⟩
  have accepted : PathAccepted env header system := by
    rcases answers.block (header.filesz + 1) system with ⟨interp, block⟩
    refine ⟨by rw [block]; rfl, ?_⟩
    rw [delivered, readCount]
    apply BitVec.eq_of_toNat_eq
    rw [← here, ← same] at readable
    change _ ∨ seekPosition header.offset system + _ ≤ _ at readable
    rw [BitVec.toNat_ofNat, List.length_take, List.length_drop,
      Nat.min_eq_right (Nat.le_of_lt signed), Nat.mod_eq_of_lt (by omega)]
    omega
  rcases loadInterp_finishes accepted notTop (here ▸ positive) with ⟨interp, finished⟩
  rw [loop_interp notLoad isInterp, Program.bind_of_ok finished]
  exact rest env _ same answers.first.2 here (congrArg (· + 1) count)

private theorem loop_of_loadable (positive : position < 2 ^ 63)
    (loadable : file.Loadable position headers) :
    ∃ limits, ComesThrough file headers position reads limits := by
  induction headers generalizing position reads with
  | nil =>
      refine ⟨fun _ => 0, ?_⟩
      intro env system _ _ _ _ exits
      rcases exits with ⟨failure, stopped⟩
      exact Program.pure_ne_error stopped
  | cons header headers induction =>
      rw [File.Loadable] at loadable
      split at loadable
      next isLoad =>
        rcases loadable with ⟨signed, overruns | loadable⟩
        · exact ⟨_, comesThrough_overrun isLoad signed overruns⟩
        · have start : (if header.offset.toNat < 2 ^ 63 then header.offset.toNat
              else position) < 2 ^ 63 := by
            split <;> assumption
          rcases @induction _ (reads + 1) start loadable with ⟨limits, rest⟩
          exact ⟨_, comesThrough_segment isLoad signed rest⟩
      next notLoad =>
        split at loadable
        next isInterp =>
          rcases loadable with top | ⟨signed, readable, loadable⟩
          · exact ⟨fun _ => 0, comesThrough_top notLoad isInterp top⟩
          · rcases @induction _ (reads + 1) positive loadable with ⟨limits, rest⟩
            exact ⟨_, comesThrough_interp notLoad isInterp positive signed readable rest⟩
        next notInterp =>
          rcases @induction _ reads positive loadable with ⟨limits, rest⟩
          refine ⟨limits, ?_⟩
          intro env system same answers here count
          rw [loop_other notLoad notInterp]
          exact rest env system same answers here count

end ComesThrough

/-! ## Reading the headers -/

/-- The reads of the headers deliver what they are asked for. -/
private def Generous (env : Environment) : Prop :=
  ∀ call < readsBeforeLoading env.file.phdrs, env.readLimit call = some (2 ^ 63)

private theorem readObject_finishes {size : Nat}
    (limit : env.readLimit system.reads = some (2 ^ 63))
    (small : size < 2 ^ 63) (inside : system.position + size ≤ env.file.bytes.length) :
    readObject env size system =
      .ok ((env.file.bytes.drop system.position).take size,
        { system with
          position := system.position + size
          reads := system.reads + 1 }) := by
  have count : (BitVec.ofNat 64 size).toNat = size := Nat.mod_eq_of_lt (by omega)
  have whole : ((env.file.bytes.drop system.position).take size).length = size := by
    rw [List.length_take, List.length_drop]
    omega
  have delivered : env.read system.reads system.position (.ofNat 64 size) =
      some ((env.file.bytes.drop system.position).take size) := by
    rw [Environment.read, count, if_pos small, limit, Option.map_some,
      Nat.min_eq_right (Nat.le_of_lt small)]
  have reading : read env (.ofNat 64 size) system =
      .ok (some ((env.file.bytes.drop system.position).take size),
        { system with
          position := system.position + size
          reads := system.reads + 1 }) := by
    rw [read, delivered, Option.getD_some, whole]
  rw [readObject, Program.bind_of_ok reading]
  dsimp only
  rw [if_pos whole]
  rfl

private theorem readIdent_finishes (checked : env.file.Checked)
    (limit : env.readLimit 0 = some (2 ^ 63)) :
    readIdent env opened = .ok ((), { position := 16, reads := 1, mallocs := 0 }) := by
  have inside : opened.position + 16 ≤ env.file.bytes.length :=
    Nat.le_trans (by decide) checked.size
  rw [readIdent, Program.bind_of_ok (readObject_finishes limit (by decide) inside), opened,
    List.drop_zero, List.take_take, Nat.min_eq_left (by decide : 4 ≤ 16), if_pos checked.magic]
  rfl

private theorem readHeader_finishes (checked : env.file.Checked)
    (limit : env.readLimit system.reads = some (2 ^ 63)) :
    readHeader env system = .ok (env.file.header, { system with
      position := sizeofEhdr
      reads := system.reads + 1 }) := by
  have inside : 0 + sizeofEhdr ≤ env.file.bytes.length := by
    rw [Nat.zero_add]
    exact checked.size
  have raw := @readObject_finishes env { system with position := 0 } sizeofEhdr limit
    (by decide) inside
  rw [readHeader, Program.bind_of_ok (lseekSet_eq 0 system)]
  change (readObject env sizeofEhdr >>= _) { system with position := 0 } = _
  rw [Program.bind_of_ok raw, List.drop_zero]
  have decoded : decodeEhdr (env.file.bytes.take sizeofEhdr) = env.file.header := rfl
  dsimp only
  rw [decoded, if_neg (not_not.mpr checked.machine), if_neg (not_not.mpr checked.version),
    if_neg checked.phnum, if_neg (not_not.mpr checked.phentsize), Nat.zero_add]
  rfl

private theorem listHeaders_finishes {count : Nat}
    (limits : ∀ call, system.reads ≤ call → call < system.reads + count →
      env.readLimit call = some (2 ^ 63))
    (inside : system.position + sizeofPhdr * count ≤ env.file.bytes.length) :
    ∃ listed, listHeaders env count system = .ok (listed, { system with
      position := system.position + sizeofPhdr * count
      reads := system.reads + count }) := by
  induction count generalizing system with
  | zero => exact ⟨[], rfl⟩
  | succ count induction =>
      rw [Nat.mul_succ] at inside
      have first := readObject_finishes (limits _ (Nat.le_refl _) (by omega))
        (by decide : sizeofPhdr < 2 ^ 63) (by omega)
      have later : ∀ call, system.reads + 1 ≤ call → call < system.reads + 1 + count →
          env.readLimit call = some (2 ^ 63) :=
        fun call reached below => limits call (by omega) (by omega)
      have behind : system.position + sizeofPhdr + sizeofPhdr * count ≤
          env.file.bytes.length := by
        omega
      rcases @induction { system with
        position := system.position + sizeofPhdr
        reads := system.reads + 1 } later behind with ⟨rest, others⟩
      refine ⟨decodePhdr ((env.file.bytes.drop system.position).take sizeofPhdr) :: rest, ?_⟩
      have position : system.position + sizeofPhdr * (count + 1) =
          system.position + sizeofPhdr + sizeofPhdr * count := by
        rw [Nat.mul_succ]
        omega
      have reads : system.reads + (count + 1) = system.reads + 1 + count := by omega
      rw [listHeaders, Program.bind_of_ok first, Program.bind_of_ok others, position, reads]
      rfl

private theorem readTable_finishes {table : Ehdr}
    (limit : env.readLimit system.reads = some (2 ^ 63))
    (allocated : (env.address system.mallocs).isSome)
    (inside : seekPosition table.phoff system + sizeofPhdr * table.phnum.toNat ≤
      env.file.bytes.length) :
    ∃ phdrs, readTable env table system = .ok (phdrs,
      { position := seekPosition table.phoff system + sizeofPhdr * table.phnum.toNat
        reads := system.reads + 1
        mallocs := system.mallocs + 1 }) := by
  rcases Option.isSome_iff_exists.mp allocated with ⟨address, placed⟩
  have bounded := env.file.bounded
  rw [readTable, Program.bind_of_ok (malloc_eq _ system), Environment.block, placed]
  change ∃ phdrs, (lseekSet table.phoff >>= _) _ = _
  rw [Program.bind_of_ok (lseekSet_eq _ _)]
  have raw := @readObject_finishes env
    { position := seekPosition table.phoff system
      reads := system.reads
      mallocs := system.mallocs + 1 }
    (sizeofPhdr * table.phnum.toNat) limit (by omega) inside
  exact ⟨_, Program.bind_of_ok raw⟩

private theorem readHeaders_finishes (passes : env.file.Passes) (generous : Generous env)
    (allocated : ∀ call, (env.address call).isSome) :
    ∃ headers final, readHeaders env opened = .ok (headers, final) := by
  have count : env.file.phdrs.length = env.file.header.phnum.toNat := decodePhdrs_length _ _
  have limits : ∀ call < 3 + env.file.header.phnum.toNat, env.readLimit call = some (2 ^ 63) := by
    intro call below
    apply generous
    rw [readsBeforeLoading, count]
    exact below
  have ident := readIdent_finishes passes.checked (limits 0 (by omega))
  have header := @readHeader_finishes env { position := 16, reads := 1, mallocs := 0 }
    passes.checked (limits 1 (by omega))
  rcases @listHeaders_finishes env
    { position := listPosition env.file.header, reads := 2, mallocs := 0 }
    env.file.header.phnum.toNat
    (fun call _ (below : call < 2 + env.file.header.phnum.toNat) => limits call (by omega))
    passes.listed with ⟨listed, listing⟩
  have start : seekPosition env.file.header.phoff
      { position := listPosition env.file.header + sizeofPhdr * env.file.header.phnum.toNat
        reads := 2 + env.file.header.phnum.toNat
        mallocs := 0 } = tablePosition env.file.header := by
    unfold seekPosition tablePosition listPosition
    split <;> rfl
  rcases @readTable_finishes env
    { position := listPosition env.file.header + sizeofPhdr * env.file.header.phnum.toNat
      reads := 2 + env.file.header.phnum.toNat
      mallocs := 0 }
    env.file.header (limits (2 + env.file.header.phnum.toNat) (by omega)) (allocated 0)
    (by rw [start]; exact passes.table) with ⟨phdrs, table⟩
  rw [readHeaders, Program.bind_of_ok ident, Program.bind_of_ok header,
    Program.bind_of_ok (lseekSet_eq _ _)]
  change ∃ headers final, (listHeaders env env.file.header.phnum.toNat >>= _)
    { position := listPosition env.file.header, reads := 2, mallocs := 0 } = _
  rw [Program.bind_of_ok listing, Program.bind_of_ok table]
  exact ⟨_, _, rfl⟩

/-! ## The files that are loaded -/

/-- The program returns 0 for a supported file only, and with an error for every other. -/
def OnlySupported (file : File) : Prop :=
  ∀ env, env.file = file →
    (∀ image, loaderMain (.binary env) = .ok image → file.Supported) ∧
      (¬file.Supported → Exits (loaderMain (.binary env)))

/-- A run without an error exit has read the headers, has found a segment to load and comes
through the loop. -/
theorem loop_of_survives (survives : ¬Exits (loaderMain (.binary env))) :
    ∃ headers middle, HeadersRead env headers middle ∧
      headers.phdrs.countP Phdr.isLoad ≠ 0 ∧
      ¬Exits (Program.loop (loadHeader env) headers.phdrs middle) := by
  cases ran : readHeaders env opened with
  | error stop =>
      have stopped : loaderMain (.binary env) = .error stop := by
        rw [loaderMain_eq_error, loadBinary_eq, Program.bind_of_error ran]
      cases stop with
      | exit failure => exact absurd ⟨failure, stopped⟩ survives
      | undefined => exact absurd ran (readHeaders_avoids opened)
  | ok outcome =>
      have imageStops : ∀ failure, loadImage env outcome.1 outcome.2 ≠
          .error (.exit failure) := by
        intro failure stopped
        apply survives
        refine ⟨failure, ?_⟩
        rw [loaderMain_eq_error, loadBinary_eq, Program.bind_of_ok ran, stopped]
      refine ⟨outcome.1, outcome.2, readHeaders_finished ran, ?_, ?_⟩
      · intro none
        exact imageStops .noLoadableSegments (loadImage_error_iff.mpr (.inl ⟨none, rfl⟩))
      · intro exits
        rcases exits with ⟨failure, stopped⟩
        by_cases none : outcome.1.phdrs.countP Phdr.isLoad = 0
        · exact imageStops .noLoadableSegments (loadImage_error_iff.mpr (.inl ⟨none, rfl⟩))
        · exact imageStops failure (loadImage_error_iff.mpr (.inr ⟨none, stopped⟩))

private theorem supported_of_read {headers : Headers} {middle : System}
    (declared : env.file.Declared)
    (read : HeadersRead env headers middle) (load : headers.phdrs.countP Phdr.isLoad ≠ 0) :
    env.file.Supported := by
  have listStart : listPosition env.file.header = env.file.header.phoff.toNat :=
    if_pos declared.offset
  have tableStart : tablePosition env.file.header = env.file.header.phoff.toNat :=
    if_pos declared.offset
  have inside := read.listedInside
  rw [listStart] at inside
  rcases List.countP_pos_iff.mp (Nat.pos_of_ne_zero load) with ⟨entry, member, isLoad⟩
  rw [read.phdrs] at member
  change entry ∈ decodePhdrs env.file.header.phnum.toNat
    (env.file.bytes.drop (tablePosition env.file.header)) at member
  rw [tableStart] at member
  rcases List.mem_map.mp member with ⟨index, below, rfl⟩
  rw [List.drop_drop] at isLoad
  exact
    { size := read.checked.size
      magic := read.checked.magic
      class64 := declared.class64
      littleEndian := declared.littleEndian
      machine := read.checked.machine
      version := read.checked.version
      phentsize := read.checked.phentsize
      table := inside
      load := ⟨index, List.mem_range.mp below, isLoad⟩ }

private theorem passes_of_survives (survives : ¬Exits (loaderMain (.binary env))) :
    env.file.Passes := by
  rcases loop_of_survives survives with ⟨headers, middle, read, load, comesThrough⟩
  have bounded := env.file.bounded
  have inside := read.inside
  have position := read.position
  have loadable := loadable_of_loop (by omega) (Nat.le_of_eq position.symm) comesThrough
  rw [read.phdrs] at load loadable
  rw [position] at inside
  exact
    { checked := read.checked
      listed := read.listedInside
      table := inside
      load
      loadable }

private theorem survives_of_passes {file : File} (passes : file.Passes) :
    ∃ env, env.file = file ∧ ¬Exits (loaderMain (.binary env)) := by
  have bounded := file.bounded
  have inside := passes.table
  rcases @loop_of_loadable file file.phdrs _ (readsBeforeLoading file.phdrs) (by omega)
    passes.loadable with ⟨limits, comesThrough⟩
  let env : Environment :=
    { file
      readLimit := fun call =>
        some (if call < readsBeforeLoading file.phdrs then 2 ^ 63 else limits call)
      address := fun _ => some 0x1000
      contents := fun _ _ => 0 }
  have generous : Generous env := fun call below => congrArg some (if_pos below)
  have answers : Answers env (readsBeforeLoading file.phdrs) limits :=
    ⟨fun _ => rfl, fun call reached => congrArg some (if_neg (Nat.not_lt.mpr reached))⟩
  rcases @readHeaders_finishes env passes generous (fun _ => rfl) with ⟨headers, final, ran⟩
  have read := readHeaders_finished ran
  refine ⟨env, rfl, ?_⟩
  intro exits
  rcases exits with ⟨failure, stopped⟩
  rw [loaderMain_eq_error, loadBinary_eq, Program.bind_of_ok ran, loadImage_error_iff,
    read.phdrs] at stopped
  rcases stopped with ⟨none, _⟩ | ⟨_, stopped⟩
  · exact passes.load none
  · exact comesThrough env final rfl answers read.position read.reads ⟨failure, stopped⟩

private theorem File.Supported.declared {file : File} (supported : file.Supported)
    (positive : 0 < file.header.phnum.toNat) : file.Declared := by
  have table := supported.table
  have bounded := file.bounded
  simp only [sizeofPhdr] at table
  exact ⟨supported.class64, supported.littleEndian, by omega⟩

/-- A file that is not supported is refused exactly when it fails a check that the loader
makes, or has all that the loader does not check. -/
theorem only_supported_iff (file : File) :
    OnlySupported file ↔ file.Declared ∨ ¬file.Passes := by
  constructor
  · intro only
    by_contra neither
    rcases not_or.mp neither with ⟨undeclared, passes⟩
    rcases survives_of_passes (not_not.mp passes) with ⟨env, same, survives⟩
    apply survives
    apply (only env same).2
    intro supported
    exact undeclared (supported.declared (not_not.mp passes).checked.phnum_pos)
  · intro condition env same
    subst same
    by_cases exits : Exits (loaderMain (.binary env))
    · refine ⟨?_, fun _ => exits⟩
      intro image returned
      rcases exits with ⟨failure, stopped⟩
      rw [returned] at stopped
      cases stopped
    · have passes := passes_of_survives exits
      have declared := condition.resolve_right (not_not.mpr passes)
      rcases loop_of_survives exits with ⟨headers, middle, read, load, _⟩
      have supported := supported_of_read declared read load
      exact ⟨fun _ _ => supported, fun unsupported => absurd supported unsupported⟩

def foreignHeader : Ehdr :=
  { sampleHeader with ident := magic ++ [1, 2, 1] ++ List.replicate 9 0 }

def foreignFile : File :=
  { bytes := encodeHeaders foreignHeader [sampleSegment], bounded := by decide +kernel }

/-- The file is loaded, and the program returns 0. -/
theorem foreign_file_loaded :
    (∃ image, loaderMain (.binary (sampleEnvironment foreignFile)) = .ok image) ∧
      ¬foreignFile.Supported ∧ ¬OnlySupported foreignFile := by
  have ran : (loaderMain (.binary (sampleEnvironment foreignFile))).toOption.map Image.phdrs =
      some [sampleSegment] := by
    decide +kernel
  rcases returns_of_toOption ran with ⟨image, returned, _⟩
  have unsupported : ¬foreignFile.Supported := by
    intro supported
    exact absurd supported.class64 (by decide +kernel)
  exact ⟨⟨image, returned⟩, unsupported,
    fun only => unsupported ((only _ rfl).1 image returned)⟩

end SystemsRepository.ElfLoader
