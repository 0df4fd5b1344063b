import SystemsRepository.Foundation.Custody
import SystemsRepository.ElfLoader.SegmentTable

/-! # What the loader holds

`main` with the file, the blocks that it allocates, and its calls of `free` and `close`. Each error
exit has its own list of these.
-/

namespace SystemsRepository.ElfLoader

open SystemsRepository.Foundation

/-- The file, or what the call of `malloc` with this number has returned. -/
inductive Resource
  | file
  | block (call : Nat)
  deriving DecidableEq, Repr

abbrev Owner := Custodian System Stop Resource

open Custodian

section Environment

variable (env : Environment)

def allocate (size : XWord) : Owner (Option (Nat × Buffer)) := do
  let system ← get
  match ← lift (malloc env size) with
  | none => pure none
  | some buffer => do
      acquire (.block system.mallocs)
      pure (some (system.mallocs, buffer))

def ownTable (header : Ehdr) : Owner (Nat × List Phdr) := do
  match ← allocate env (.ofNat 64 (sizeofPhdr * header.phnum.toNat)) with
  | none => stopAfter [.file] (.exit .malloc)
  | some (phdrs, _) => do
      lift (lseekSet header.phoff)
      let raw ← orRelease [.block phdrs, .file]
        (readObject env (sizeofPhdr * header.phnum.toNat))
      pure (phdrs, decodePhdrs header.phnum.toNat raw)

def ownSegment (phdrs : Nat) (header : Phdr) : Owner (Nat × LoadedSegment) := do
  match ← allocate env header.memsz with
  | none => stopAfter [.block phdrs, .file] (.exit .malloc)
  | some (call, segment) => do
      lift (lseekSet header.offset)
      match ← lift (read env header.filesz) with
      | none => stopAfter [.block call, .block phdrs, .file] (.exit .readSegment)
      | some data => do
          let segment ← lift (segment.store 0 data)
          let segment ← lift (zeroFill header segment)
          pure (call,
            { host := segment
              virtAddr := header.vaddr
              size := header.memsz
              flags := header.flags })

def ownInterp (phdrs : Nat) (header : Phdr) : Owner Buffer := do
  match ← allocate env (header.filesz + 1) with
  | none => stopAfter [.block phdrs, .file] (.exit .mallocInterp)
  | some (call, interp) => do
      let cur ← lift lseekCurrent
      lift (lseekSet header.offset)
      let result ← lift (read env header.filesz)
      let interp ← lift (interp.store 0 (result.getD []))
      if readCount result ≠ header.filesz then
        stopAfter [.block call, .block phdrs, .file] (.exit .readInterp)
      else do
        let interp ← lift (interp.store header.filesz.toNat [0])
        releaseAll [.block call]
        lift (lseekSet cur)
        pure interp

def ownStore (hasLoad : Nat) (segments : List (Nat × LoadedSegment))
    (segment : Nat × LoadedSegment) : Owner (List (Nat × LoadedSegment)) :=
  if segments.length < hasLoad then pure (segments ++ [segment]) else throw .undefined

def ownHeader (phdrs hasLoad : Nat) (header : Phdr) (segments : List (Nat × LoadedSegment)) :
    Owner (List (Nat × LoadedSegment)) :=
  if header.isLoad then do
    let segment ← ownSegment env phdrs header
    ownStore hasLoad segments segment
  else if header.isInterp then do
    let _ ← ownInterp env phdrs header
    pure segments
  else pure segments

def ownSegments (phdrs hasLoad : Nat) :
    List Phdr → List (Nat × LoadedSegment) → Owner (List (Nat × LoadedSegment))
  | [], segments => pure segments
  | header :: headers, segments => do
      let segments ← ownHeader env phdrs hasLoad header segments
      ownSegments phdrs hasLoad headers segments

def blocks (segments : List (Nat × LoadedSegment)) : List Resource :=
  segments.map fun segment => .block segment.1

def ownHeaders : Owner (Nat × Headers) := do
  acquire .file
  orRelease [.file] (readIdent env)
  let header ← orRelease [.file] (readHeader env)
  lift (lseekSet header.phoff)
  let listed ← orRelease [.file] (listHeaders env header.phnum.toNat)
  let (table, phdrs) ← ownTable env header
  pure (table, { header, listed, phdrs })

def ownImage (table : Nat) (headers : Headers) : Owner Image :=
  let hasLoad := headers.phdrs.countP Phdr.isLoad
  if hasLoad = 0 then stopAfter [.block table, .file] (.exit .noLoadableSegments)
  else do
    let owned ← ownSegments env table hasLoad headers.phdrs []
    match owned.map Prod.snd with
    | [] => throw .undefined
    | seg :: rest => do
        releaseAll (blocks owned ++ [.block table, .file])
        pure
          { header := headers.header
            listed := headers.listed
            phdrs := headers.phdrs
            segments := seg :: rest
            entryHost := vaddrToHost headers.header.entry (seg :: rest)
            tests := (testAddresses seg).map fun vaddr =>
              (vaddr, vaddrToHost vaddr (seg :: rest)) }

def ownBinary : Owner Image := do
  let (table, headers) ← ownHeaders env
  ownImage env table headers

end Environment

/-! ## The loader without its resources -/

section Erasing

variable {env : Environment}

private theorem allocate_erases (size : XWord) :
    Erases (Option.map Prod.snd) (allocate env size) (malloc env size) := by
  intro system custody
  unfold allocate
  rw [bind_eq]
  change Except.map _ (((lift (malloc env size) : Owner _) >>= _) system custody).1 = _
  rw [bind_eq]
  cases allocated : env.address system.mallocs with
  | none => simp [lift, malloc, allocated]; rfl
  | some address => simp [lift, malloc, allocated]; rfl

private theorem ownTable_erases (header : Ehdr) :
    Erases Prod.snd (ownTable env header) (readTable env header) := by
  refine (allocate_erases _).bind fun block => ?_
  cases block with
  | none => exact .stopAfter _ _
  | some block =>
      refine (Erases.lift _).bind fun _ => ?_
      exact (Erases.orRelease _ _).bind fun raw => .pure rfl

private theorem ownSegment_erases (phdrs : Nat) (header : Phdr) :
    Erases Prod.snd (ownSegment env phdrs header) (loadSegment env header) := by
  refine (allocate_erases _).bind fun block => ?_
  cases block with
  | none => exact .stopAfter _ _
  | some block =>
      refine (Erases.lift _).bind fun _ => (Erases.lift _).bind fun data => ?_
      cases data with
      | none => exact .stopAfter _ _
      | some data =>
          exact (Erases.lift _).bind fun _ => (Erases.lift _).bind fun _ => .pure rfl

private theorem ownInterp_erases (phdrs : Nat) (header : Phdr) :
    Erases id (ownInterp env phdrs header) (loadInterp env header) := by
  refine (allocate_erases _).bind fun block => ?_
  cases block with
  | none => exact .stopAfter _ _
  | some block =>
      refine (Erases.lift _).bind fun cur => (Erases.lift _).bind fun _ =>
        (Erases.lift _).bind fun result => (Erases.lift _).bind fun interp => ?_
      dsimp only [id]
      split
      next => exact .stopAfter _ _
      next =>
        refine (Erases.lift _).bind fun interp => Erases.silent ?_ ?_
        · exact fun _ _ => rfl
        · exact (Erases.lift _).bind fun _ => .pure rfl

private theorem ownStore_erases (hasLoad : Nat) (segments : List (Nat × LoadedSegment))
    (segment : Nat × LoadedSegment) : Erases (List.map Prod.snd)
      (ownStore hasLoad segments segment)
      (storeSegment hasLoad (segments.map Prod.snd) segment.2) := by
  rw [ownStore, storeSegment, List.length_map]
  split
  next => exact .pure (by simp)
  next => exact fun _ _ => rfl

private theorem ownHeader_erases (phdrs hasLoad : Nat) (header : Phdr)
    (segments : List (Nat × LoadedSegment)) : Erases (List.map Prod.snd)
      (ownHeader env phdrs hasLoad header segments)
      (loadSegments env hasLoad [header] (segments.map Prod.snd)) := by
  rw [ownHeader, loadSegments]
  split
  next =>
    refine (ownSegment_erases phdrs header).bind fun segment => ?_
    simpa only [loadSegments, bind_pure] using ownStore_erases hasLoad segments segment
  next =>
    split
    next => exact (ownInterp_erases phdrs header).bind fun _ => .pure rfl
    next => exact .pure rfl

private theorem ownSegments_erases (phdrs hasLoad : Nat) (headers : List Phdr) :
    ∀ segments, Erases (List.map Prod.snd) (ownSegments env phdrs hasLoad headers segments)
      (loadSegments env hasLoad headers (segments.map Prod.snd)) := by
  induction headers with
  | nil => exact fun segments => .pure rfl
  | cons header headers induction =>
      intro segments
      rw [ownSegments, ← List.singleton_append, loadSegments_append]
      exact (ownHeader_erases phdrs hasLoad header segments).bind induction

private theorem ownHeaders_erases : Erases Prod.snd (ownHeaders env) (readHeaders env) := by
  refine Erases.silent (fun _ _ => rfl) ?_
  exact (Erases.orRelease _ _).bind fun _ => (Erases.orRelease _ _).bind fun header =>
    (Erases.lift _).bind fun _ => (Erases.orRelease _ _).bind fun listed =>
      (ownTable_erases header).bind fun table => .pure rfl

private theorem ownImage_erases (table : Nat) (headers : Headers) :
    Erases id (ownImage env table headers) (loadImage env headers) := by
  unfold ownImage loadImage
  dsimp only
  split
  next => exact .stopAfter _ _
  next =>
    refine (ownSegments_erases table _ headers.phdrs []).bind fun owned => ?_
    cases owned.map Prod.snd with
    | nil => exact fun _ _ => rfl
    | cons seg rest => exact Erases.silent (fun _ _ => rfl) (.pure rfl)

private theorem ownBinary_erases : Erases id (ownBinary env) (loadBinary env) := by
  rw [loadBinary_eq]
  exact ownHeaders_erases.bind fun outcome => ownImage_erases outcome.1 outcome.2

end Erasing

/-! ## What is held -/

def custodyOf (table : Nat) (segments : List (Nat × LoadedSegment)) : Custody Resource where
  held := .file :: .block table :: blocks segments
  fault := false

def Leaves (segments : List (Nat × LoadedSegment)) (stop : Stop) (left : Custody Resource) : Prop :=
  stop = .undefined ∨ left = { held := blocks segments, fault := false }

structure Allocated (table : Nat) (segments : List (Nat × LoadedSegment)) (mallocs : Nat) :
    Prop where
  first : table < mallocs
  later : ∀ segment ∈ segments, table < segment.1 ∧ segment.1 < mallocs

section Holding

variable {env : Environment} {table : Nat} {segments : List (Nat × LoadedSegment)}
  {system : System}

private theorem release_exit : (custodyOf table segments).releaseAll [.block table, .file] =
    { held := blocks segments, fault := false } := by
  have first : (custodyOf table segments).release (.block table) =
      { held := .file :: blocks segments, fault := false } :=
    @Custody.release_behind _ _ [Resource.file] _ _ _ (by simp)
  have second : ({ held := .file :: blocks segments, fault := false } : Custody Resource).release
      .file = { held := blocks segments, fault := false } :=
    @Custody.release_behind _ _ [] _ _ _ (by simp)
  rw [Custody.releaseAll, List.foldl_cons, first, List.foldl_cons, second]
  rfl

private def custodyWith (table : Nat) (segments : List (Nat × LoadedSegment)) (call : Nat) :
    Custody Resource where
  held := (custodyOf table segments).held ++ [.block call]
  fault := false

private theorem release_last (allocated : Allocated table segments system.mallocs) :
    (custodyWith table segments system.mallocs).release (.block system.mallocs) =
      custodyOf table segments := by
  have outside : Resource.block system.mallocs ∉ (custodyOf table segments).held := by
    have before := allocated.first
    simp only [custodyOf, List.mem_cons, reduceCtorEq, Resource.block.injEq, false_or, blocks,
      List.mem_map, Prod.exists, not_or, not_exists, not_and]
    refine ⟨by omega, fun call segment member same => ?_⟩
    have less := (allocated.later _ member).2
    simp only at less
    omega
  have released := @Custody.release_behind _ _ _ [] _ false outside
  rwa [List.append_nil] at released

private theorem allocate_ensures {size : XWord} {custody : Custody Resource}
    {finished : Option (Nat × Buffer) → System → Custody Resource → Prop}
    {stopped : Stop → Custody Resource → Prop}
    (refused : finished none { system with mallocs := system.mallocs + 1 } custody)
    (granted : ∀ buffer, finished (some (system.mallocs, buffer))
      { system with mallocs := system.mallocs + 1 }
      { custody with held := custody.held ++ [.block system.mallocs] }) :
    Ensures (allocate env size) system custody finished stopped := by
  refine Ensures.bind ?_
  change Ensures (lift (malloc env size) >>= _) system custody finished stopped
  refine Ensures.bind (Ensures.lift (fun block next ran => ?_) fun stop ran => ?_)
  · rw [malloc_eq] at ran
    cases ran
    cases env.block size system with
    | none => exact refused
    | some buffer => exact granted buffer
  · cases ran

private theorem readObject_mallocs {size : Nat} {bytes : List Byte} {final : System}
    (finished : readObject env size system = .ok (bytes, final)) :
    final.mallocs = system.mallocs := by
  unfold readObject at finished
  rcases Program.bind_eq_ok.mp finished with ⟨result, middle, reading, finished⟩
  have same := congrArg System.mallocs (read_finished reading).2
  cases result with
  | none => exact absurd finished Program.throw_ne_ok
  | some data =>
      dsimp only at finished
      split at finished
      next =>
        rw [← (Program.pure_eq_ok.mp finished).2]
        exact same
      next => exact absurd finished Program.throw_ne_ok

private theorem ownTable_ensures {header : Ehdr} :
    Ensures (ownTable env header) system { held := [.file], fault := false }
      (fun table next left => left = custodyOf table.1 [] ∧ Allocated table.1 [] next.mallocs)
      (fun _ left => left = .empty) := by
  refine Ensures.bind (allocate_ensures rfl fun buffer => ?_)
  refine Ensures.bind (Ensures.lift (fun _ middle ran => ?_) fun stop ran => ?_)
  · have seeking := (lseekSet_finished ran).2.2
    refine Ensures.bind (Ensures.orRelease (fun raw next read => ?_) fun _ _ => ?_)
    · refine ⟨rfl, ?_, fun _ member => absurd member List.not_mem_nil⟩
      rw [readObject_mallocs read, seeking]
      exact Nat.lt_succ_self _
    · exact @release_exit system.mallocs []
  · cases ran

private theorem ownHeaders_ensures :
    Ensures (ownHeaders env) opened .empty
      (fun outcome next left =>
        left = custodyOf outcome.1 [] ∧ Allocated outcome.1 [] next.mallocs)
      (fun _ left => left = .empty) := by
  have closed : ({ held := [Resource.file], fault := false } : Custody Resource).releaseAll
      [.file] = .empty := rfl
  refine Ensures.bind (Ensures.acquire ?_)
  refine Ensures.bind (Ensures.orRelease (fun _ _ _ => ?_) fun _ _ => closed)
  refine Ensures.bind (Ensures.orRelease (fun header _ _ => ?_) fun _ _ => closed)
  refine Ensures.bind (Ensures.lift (fun _ _ _ => ?_) fun stop ran => by cases ran)
  refine Ensures.bind (Ensures.orRelease (fun listed _ _ => ?_) fun _ _ => closed)
  exact Ensures.bind (ownTable_ensures.mono (fun _ _ _ built => Ensures.pure built)
    fun _ _ stops => stops)

/-! ### The branches of the loop -/

private theorem store_stops {buffer : Buffer} {offset : Nat} {data : List Byte} {stop : Stop}
    (stopped : buffer.store offset data system = .error stop) : stop = .undefined := by
  unfold Buffer.store at stopped
  split at stopped
  next => exact absurd stopped Program.pure_ne_error
  next => exact (Program.throw_eq_error.mp stopped).symm

private theorem zeroFill_stops {header : Phdr} {segment : Buffer} {stop : Stop}
    (stopped : zeroFill header segment system = .error stop) : stop = .undefined := by
  unfold zeroFill Buffer.clear at stopped
  split at stopped
  next =>
    split at stopped
    next => exact absurd stopped Program.pure_ne_error
    next => exact (Program.throw_eq_error.mp stopped).symm
  next => exact absurd stopped Program.pure_ne_error

private theorem release_exit_with (allocated : Allocated table segments system.mallocs) :
    (custodyWith table segments system.mallocs).releaseAll
        [.block system.mallocs, .block table, .file] =
      { held := blocks segments, fault := false } := by
  rw [Custody.releaseAll, List.foldl_cons, release_last allocated]
  exact release_exit

private theorem ownSegment_ensures {header : Phdr}
    (allocated : Allocated table segments system.mallocs) :
    Ensures (ownSegment env table header) system (custodyOf table segments)
      (fun segment _ left =>
        segment.1 = system.mallocs ∧ left = custodyWith table segments system.mallocs)
      (Leaves segments) := by
  refine Ensures.bind (allocate_ensures (.inr release_exit) fun buffer => ?_)
  refine Ensures.bind (Ensures.lift (fun _ _ _ => ?_) fun stop ran => by cases ran)
  refine Ensures.bind (Ensures.lift (fun data next _ => ?_) fun stop ran => by cases ran)
  cases data with
  | none => exact .inr (release_exit_with allocated)
  | some data =>
      refine Ensures.bind (Ensures.lift (fun _ _ _ => ?_) fun _ ran => .inl (store_stops ran))
      refine Ensures.bind (Ensures.lift (fun _ _ _ => ?_) fun _ ran => .inl (zeroFill_stops ran))
      exact Ensures.pure ⟨rfl, rfl⟩

private theorem ownInterp_ensures {header : Phdr}
    (allocated : Allocated table segments system.mallocs) :
    Ensures (ownInterp env table header) system (custodyOf table segments)
      (fun _ _ left => left = custodyOf table segments) (Leaves segments) := by
  refine Ensures.bind (allocate_ensures (.inr release_exit) fun buffer => ?_)
  refine Ensures.bind (Ensures.lift (fun cur _ _ => ?_) fun stop ran => by cases ran)
  refine Ensures.bind (Ensures.lift (fun _ _ _ => ?_) fun stop ran => by cases ran)
  refine Ensures.bind (Ensures.lift (fun result _ _ => ?_) fun stop ran => by cases ran)
  refine Ensures.bind (Ensures.lift (fun interp _ _ => ?_) fun _ ran => .inl (store_stops ran))
  split
  next => exact .inr (release_exit_with allocated)
  next =>
    refine Ensures.bind (Ensures.lift (fun _ _ _ => ?_) fun _ ran => .inl (store_stops ran))
    refine Ensures.bind (Ensures.releaseAll ?_)
    refine Ensures.bind (Ensures.lift (fun _ _ _ => ?_) fun stop ran => by cases ran)
    exact Ensures.pure (release_last allocated)

def keptBy (header : Phdr) (system : System) : List Resource :=
  if header.isLoad then [.block system.mallocs] else []

structure Kept (table : Nat) (segments : List (Nat × LoadedSegment)) (header : Phdr)
    (system : System) (after : List (Nat × LoadedSegment)) (next : System) : Prop where
  blocks : blocks after = blocks segments ++ keptBy header system
  allocated : Allocated table after next.mallocs

private theorem Allocated.later_on {mallocs : Nat}
    (allocated : Allocated table segments system.mallocs)
    (order : system.mallocs ≤ mallocs) : Allocated table segments mallocs where
  first := Nat.lt_of_lt_of_le allocated.first order
  later segment member :=
    ⟨(allocated.later segment member).1, Nat.lt_of_lt_of_le (allocated.later segment member).2 order⟩

theorem Allocated.append {segment : LoadedSegment}
    (allocated : Allocated table segments system.mallocs) :
    Allocated table (segments ++ [(system.mallocs, segment)]) (system.mallocs + 1) where
  first := Nat.lt_succ_of_lt allocated.first
  later := by
    intro other member
    rcases List.mem_append.mp member with before | last
    · have range := allocated.later other before
      exact ⟨range.1, Nat.lt_succ_of_lt range.2⟩
    · rw [List.mem_singleton.mp last]
      exact ⟨allocated.first, Nat.lt_succ_self _⟩

private theorem ownHeader_ensures {hasLoad : Nat} {header : Phdr}
    (allocated : Allocated table segments system.mallocs) :
    Ensures (ownHeader env table hasLoad header segments) system (custodyOf table segments)
      (fun after next left =>
        left = custodyOf table after ∧ Kept table segments header system after next)
      (Leaves segments) := by
  unfold ownHeader
  split
  next isLoad =>
    refine Ensures.bind ?_
    refine ((ownSegment_ensures allocated).erased (ownSegment_erases table header)).mono ?_
      fun _ _ stops => stops.1
    rintro ⟨call, segment⟩ next left ⟨⟨same, holds⟩, loading⟩
    dsimp only at same
    subst same
    rw [holds, ownStore]
    split
    next =>
      refine Ensures.pure ⟨by simp [custodyWith, custodyOf, blocks], ?_⟩
      constructor
      · simp [blocks, keptBy, isLoad]
      · rw [(loadSegment_finished loading).2.1]
        exact allocated.append
    next => exact .inl rfl
  next notLoad =>
    have nothing : blocks segments = blocks segments ++ keptBy header system := by
      rw [keptBy, if_neg notLoad, List.append_nil]
    split
    next =>
      refine Ensures.bind ?_
      refine ((ownInterp_ensures allocated).erased (ownInterp_erases table header)).mono ?_
        fun _ _ stops => stops.1
      rintro _ next left ⟨holds, loading⟩
      refine Ensures.pure ⟨holds, nothing, allocated.later_on ?_⟩
      rw [(loadInterp_finished loading).2]
      exact Nat.le_succ _
    next => exact Ensures.pure ⟨rfl, nothing, allocated⟩

/-! ### The loop -/

def keptBefore (iterations : List (Phdr × System)) : List Resource :=
  iterations.dropLast.flatMap fun iteration => keptBy iteration.1 iteration.2

private theorem keptBefore_cons {header : Phdr} {iterations : List (Phdr × System)}
    (more : iterations ≠ []) :
    keptBefore ((header, system) :: iterations) =
      keptBy header system ++ keptBefore iterations := by
  rw [keptBefore, List.dropLast_cons_of_ne_nil more, List.flatMap_cons, keptBefore]

private theorem loadHeader_of_one {hasLoad : Nat} {header : Phdr}
    {before after : List LoadedSegment} {next : System}
    (finished : loadSegments env hasLoad [header] before system = .ok (after, next)) :
    loadHeader env header system = .ok ((), next) := by
  unfold loadHeader
  rcases loadSegments_cons_eq_ok.mp finished with
    ⟨isLoad, _, segment, middle, loading, rest⟩ |
    ⟨notLoad, isInterp, interp, middle, loading, rest⟩ | ⟨notLoad, notInterp, rest⟩
  · cases rest
    rw [if_pos isLoad, Program.bind_of_ok loading]
    rfl
  · cases rest
    rw [if_neg (by simp [notLoad]), if_pos isInterp, Program.bind_of_ok loading]
    rfl
  · cases rest
    rw [if_neg (by simp [notLoad]), if_neg (by simp [notInterp])]
    rfl

private theorem loadHeader_stops {hasLoad : Nat} {header : Phdr} {before : List LoadedSegment}
    {stop : Stop} (stopped : loadSegments env hasLoad [header] before system = .error stop) :
    stop = .undefined ∨ loadHeader env header system = .error stop := by
  unfold loadSegments at stopped
  unfold loadHeader
  split at stopped
  next isLoad =>
    rw [if_pos isLoad]
    rcases Program.bind_eq_error.mp stopped with loading | ⟨segment, middle, _, storing⟩
    · exact .inr (Program.bind_of_error loading)
    · rcases Program.bind_eq_error.mp storing with full | ⟨_, _, _, rest⟩
      · unfold storeSegment at full
        split at full
        next => exact absurd full Program.pure_ne_error
        next => exact .inl (Program.throw_eq_error.mp full).symm
      · exact absurd rest Program.pure_ne_error
  next notLoad =>
    rw [if_neg notLoad]
    split at stopped
    next isInterp =>
      rw [if_pos isInterp]
      rcases Program.bind_eq_error.mp stopped with loading | ⟨_, _, _, rest⟩
      · exact .inr (Program.bind_of_error loading)
      · exact absurd rest Program.pure_ne_error
    next => exact absurd stopped Program.pure_ne_error

private theorem ownSegments_ensures {hasLoad : Nat} {headers : List Phdr}
    (allocated : Allocated table segments system.mallocs) :
    Ensures (ownSegments env table hasLoad headers segments) system (custodyOf table segments)
      (fun owned next left => left = custodyOf table owned ∧ Allocated table owned next.mallocs)
      (fun stop left => stop = .undefined ∨ left =
        { held := blocks segments ++
            keptBefore (Program.iterations (loadHeader env) headers system)
          fault := false }) := by
  induction headers generalizing segments system with
  | nil => exact Ensures.pure ⟨rfl, allocated⟩
  | cons header headers induction =>
      refine Ensures.bind ?_
      refine ((ownHeader_ensures allocated).erased
        (ownHeader_erases table hasLoad header segments)).mono ?_ ?_
      · rintro after next left ⟨⟨rfl, kept⟩, finished⟩
        cases headers with
        | nil => exact Ensures.pure ⟨rfl, kept.allocated⟩
        | cons second headers =>
            refine (induction kept.allocated).mono (fun _ _ _ holds => holds) ?_
            rintro stop left (undefined | holds)
            · exact .inl undefined
            · have more : Program.iterations (loadHeader env) (second :: headers) next ≠ [] :=
                List.cons_ne_nil _ _
              rw [Program.iterations, loadHeader_of_one finished]
              dsimp only
              rw [keptBefore_cons more, ← List.append_assoc, ← kept.blocks]
              exact .inr holds
      · rintro stop left ⟨undefined | holds, stopped⟩
        · exact .inl undefined
        · rcases loadHeader_stops stopped with undefined | ended
          · exact .inl undefined
          · rw [Program.iterations, ended]
            rw [holds, keptBefore, List.dropLast_singleton, List.flatMap_nil, List.append_nil]
            exact .inr rfl

private theorem release_all (allocated : Allocated table segments system.mallocs) :
    (custodyOf table segments).releaseAll (blocks segments ++ [.block table, .file]) =
      .empty := by
  have outside : ∀ resource ∈ blocks segments, resource ∉ [Resource.file, .block table] := by
    intro resource member
    rcases List.mem_map.mp member with ⟨segment, loaded, rfl⟩
    have range := (allocated.later segment loaded).1
    simp only [List.mem_cons, reduceCtorEq, Resource.block.injEq, List.not_mem_nil, or_false,
      false_or]
    omega
  have freed := @Custody.releaseAll_behind _ _ _ [] (blocks segments) false outside
  rw [List.append_nil] at freed
  rw [Custody.releaseAll_append]
  change ((custodyOf table segments).releaseAll (blocks segments)).releaseAll _ = _
  have same : custodyOf table segments =
      { held := [.file, .block table] ++ blocks segments, fault := false } := rfl
  rw [same, freed]
  exact @release_exit table []

private theorem ownImage_ensures {headers : Headers}
    (allocated : Allocated table [] system.mallocs) :
    Ensures (ownImage env table headers) system (custodyOf table [])
      (fun _ _ left => left = .empty)
      (fun stop left => stop = .undefined ∨ left =
        { held := if headers.phdrs.countP Phdr.isLoad = 0 then []
            else keptBefore (Program.iterations (loadHeader env) headers.phdrs system)
          fault := false }) := by
  unfold ownImage
  dsimp only
  split
  next => exact .inr release_exit
  next =>
    refine Ensures.bind ((ownSegments_ensures allocated).mono ?_ fun _ _ stops => stops)
    rintro owned next left ⟨rfl, allocated⟩
    cases owned.map Prod.snd with
    | nil => exact .inl rfl
    | cons seg rest => exact Ensures.bind (Ensures.releaseAll (Ensures.pure (release_all allocated)))

end Holding

/-! ## Whole runs -/

def ownMain (env : Environment) : Except Stop Image × Custody Resource :=
  ((ownBinary env opened .empty).1.map Prod.fst, (ownBinary env opened .empty).2)

/-- The blocks that no exit of `main` frees: the ones of the segments loaded before an error. -/
def stranded (env : Environment) : List Resource :=
  match loaderMain (.binary env) with
  | .ok _ => []
  | .error _ => keptBefore (loaderIterations env)

private theorem ownMain_fst (env : Environment) : (ownMain env).1 = loaderMain (.binary env) := by
  have erased := @ownBinary_erases env opened .empty
  change _ = (loadBinary env opened).map Prod.fst
  rw [← erased, ownMain]
  cases (ownBinary env opened .empty).1 <;> rfl

private theorem ownBinary_ensures (env : Environment) :
    Ensures (ownBinary env) opened .empty (fun _ _ left => left = .empty)
      (fun stop left => stop = .undefined ∨
        left = { held := keptBefore (loaderIterations env), fault := false }) := by
  refine Ensures.bind ((ownHeaders_ensures.erased ownHeaders_erases).mono ?_ ?_)
  · rintro outcome next left ⟨⟨rfl, allocated⟩, finished⟩
    refine (ownImage_ensures allocated).mono (fun _ _ _ holds => holds) ?_
    rintro stop left (undefined | rfl)
    · exact .inl undefined
    · rw [loaderIterations, finished]
      dsimp only
      split
      next => exact .inr rfl
      next => exact .inr rfl
  · rintro stop left ⟨rfl, stopped⟩
    rw [loaderIterations, stopped]
    exact .inr rfl

/-- A run that stays within its objects closes the file and frees the table and the path, each of
them once, whichever way it leaves. What it never frees are the segments before an error. -/
theorem loader_releases (env : Environment)
    (defined : loaderMain (.binary env) ≠ .error .undefined) :
    ownMain env = (loaderMain (.binary env), { held := stranded env, fault := false }) := by
  refine Prod.ext (ownMain_fst env) ?_
  have same := ownMain_fst env
  have holds := ownBinary_ensures env
  unfold Ensures at holds
  unfold ownMain at same ⊢
  unfold stranded
  split at holds
  next ran =>
    rw [ran] at same ⊢
    rw [← same]
    exact holds
  next stop left ran =>
    rw [ran] at same ⊢
    rw [← same]
    rcases holds with undefined | holds
    · rw [undefined] at same
      exact absurd same.symm defined
    · exact holds

def twoSegments : File :=
  { bytes := encodeHeaders { sampleHeader with phnum := 2 } [sampleSegment, otherSegment]
    bounded := by decide +kernel }

def scarceEnvironment : Environment :=
  { sampleEnvironment twoSegments with
    address := fun call => if call < 2 then some (.ofNat 64 (0x1000 * (call + 1))) else none }

theorem loader_releases_of_scarce :
    ownMain scarceEnvironment =
        (loaderMain (.binary scarceEnvironment),
          { held := stranded scarceEnvironment, fault := false }) ∧
      stranded scarceEnvironment = [.block 1] := by
  have stops : (loaderMain (.binary scarceEnvironment)).map (fun _ => ()) =
      .error (.exit .malloc) := by
    decide +kernel
  refine ⟨loader_releases scarceEnvironment ?_, ?_⟩
  · intro undefined
    rw [undefined] at stops
    cases stops
  · decide +kernel

end SystemsRepository.ElfLoader
