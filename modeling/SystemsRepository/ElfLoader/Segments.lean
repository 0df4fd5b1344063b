import Mathlib.Data.List.Forall2
import SystemsRepository.ElfLoader.Loader

/-! # Contents of the loaded segments

When the memory of every segment holds the bytes of the file that its program
header names, followed by zeros.
-/

namespace SystemsRepository.ElfLoader

open SystemsRepository.Foundation

def Environment.withContents (env : Environment) (contents : Nat → Nat → Byte) : Environment :=
  { env with contents }

/-- The memory of the segment is what its header asks for. -/
def SegmentCorrect (file : File) (header : Phdr) (segment : LoadedSegment) : Prop :=
  ∀ index < header.memsz.toNat,
    if index < header.filesz.toNat then
      file.bytes[header.offset.toNat + index]? = some (segment.host.bytes index)
    else segment.host.bytes index = 0

/-- The segments recorded are those of the `PT_LOAD` headers, all correct. -/
def ImageCorrect (file : File) (image : Image) : Prop :=
  List.Forall₂ (SegmentCorrect file) (image.phdrs.filter Phdr.isLoad) image.segments

/-- The `PT_LOAD` headers, each with the number of the `read` made for it. -/
def loadReads : Nat → List Phdr → List (Phdr × Nat)
  | _, [] => []
  | reads, header :: headers =>
      if header.isLoad then (header, reads) :: loadReads (reads + 1) headers
      else if header.isInterp then loadReads (reads + 1) headers
      else loadReads reads headers

/-- Where the second pass finds the table of program headers. If the seek to it fails,
that is behind the headers of the first pass. -/
def tablePosition (header : Ehdr) : Nat :=
  if header.phoff.toNat < 2 ^ 63 then header.phoff.toNat
  else sizeofEhdr + sizeofPhdr * header.phnum.toNat

def File.phdrs (file : File) : List Phdr :=
  let header := decodeEhdr (file.bytes.take sizeofEhdr)
  decodePhdrs header.phnum.toNat (file.bytes.drop (tablePosition header))

/-- The reads before the loading loop: the identification, the header, the table
header by header and the table as a whole. -/
def readsBeforeLoading (phdrs : List Phdr) : Nat := 3 + phdrs.length

/-- The part of the segment that comes from the file lies within the file, and the
`read` delivers it. -/
def Delivered (env : Environment) (header : Phdr) (read : Nat) : Prop :=
  min header.filesz.toNat header.memsz.toNat = 0 ∨
    header.offset.toNat + min header.filesz.toNat header.memsz.toNat ≤ env.file.bytes.length ∧
      ∀ limit ∈ env.readLimit read, min header.filesz.toNat header.memsz.toNat ≤ limit

def AllDelivered (env : Environment) (phdrs : List Phdr) : Prop :=
  ∀ load ∈ loadReads (readsBeforeLoading phdrs) phdrs, Delivered env load.1 load.2

/-! ## One segment -/

/-- What a finished `PT_LOAD` branch leaves in memory, after the given numbers of
calls. A seek to a negative offset leaves the position where it was. -/
def LoadedFrom (env : Environment) (header : Phdr) (reads mallocs : Nat)
    (segment : LoadedSegment) : Prop :=
  ∃ position limit, (header.offset.toNat < 2 ^ 63 → position = header.offset.toNat) ∧
    env.readLimit reads = some limit ∧
    ∀ index < header.memsz.toNat, segment.host.bytes index =
      if header.filesz.toNat ≤ index then 0
      else ((env.file.bytes.drop position).take (min limit header.filesz.toNat))[index]?.getD
        (env.contents mallocs index)

theorem store_finished {buffer after : Buffer} {offset : Nat} {data : List Byte}
    {system final : System} (finished : buffer.store offset data system = .ok (after, final)) :
    offset + data.length ≤ buffer.size ∧ final = system ∧
      after = { buffer with
        bytes := fun index =>
          if offset ≤ index then data[index - offset]?.getD (buffer.bytes index)
          else buffer.bytes index } := by
  unfold Buffer.store at finished
  split at finished
  · rename_i inside
    rcases Program.pure_eq_ok.mp finished with ⟨same, sameSystem⟩
    exact ⟨inside, sameSystem.symm, same.symm⟩
  · exact absurd finished Program.throw_ne_ok

theorem clear_finished {buffer after : Buffer} {offset count : Nat} {system final : System}
    (finished : buffer.clear offset count system = .ok (after, final)) :
    final = system ∧ after = { buffer with
      bytes := fun index =>
        if offset ≤ index ∧ index < offset + count then 0 else buffer.bytes index } := by
  unfold Buffer.clear at finished
  split at finished
  · rcases Program.pure_eq_ok.mp finished with ⟨same, sameSystem⟩
    exact ⟨sameSystem.symm, same.symm⟩
  · exact absurd finished Program.throw_ne_ok

theorem malloc_finished {env : Environment} {size : XWord} {buffer : Buffer}
    {system final : System} (finished : malloc env size system = .ok (some buffer, final)) :
    final = { system with mallocs := system.mallocs + 1 } ∧ buffer.size = size.toNat ∧
      buffer.bytes = env.contents system.mallocs := by
  unfold malloc at finished
  cases placed : env.address system.mallocs with
  | none =>
      rw [placed] at finished
      cases finished
  | some address =>
      rw [placed] at finished
      cases finished
      exact ⟨rfl, rfl, rfl⟩

theorem read_finished {env : Environment} {count : XWord} {result : Option (List Byte)}
    {system final : System} (finished : read env count system = .ok (result, final)) :
    result = env.read system.reads system.position count ∧
      final = { system with
        position := system.position + (result.getD []).length
        reads := system.reads + 1 } := by
  cases finished
  exact ⟨rfl, rfl⟩

theorem lseekSet_finished {offset : XWord} {result : Unit} {system final : System}
    (finished : lseekSet offset system = .ok (result, final)) :
    final.position = (if offset.toNat < 2 ^ 63 then offset.toNat else system.position) ∧
      final.reads = system.reads ∧ final.mallocs = system.mallocs := by
  cases finished
  split <;> exact ⟨rfl, rfl, rfl⟩

private theorem zeroFill_finished {header : Phdr} {segment after : Buffer} {system final : System}
    (finished : zeroFill header segment system = .ok (after, final)) :
    final = system ∧ ∀ index < header.memsz.toNat, after.bytes index =
      if header.filesz.toNat ≤ index then 0 else segment.bytes index := by
  unfold zeroFill at finished
  split at finished
  · rename_i smaller
    rcases clear_finished finished with ⟨same, rfl⟩
    refine ⟨same, ?_⟩
    intro index inside
    have ordered : header.filesz.toNat < header.memsz.toNat := smaller
    by_cases cleared : header.filesz.toNat ≤ index
    · have within : header.filesz.toNat ≤ index ∧
          index < header.filesz.toNat + (header.memsz.toNat - header.filesz.toNat) := by omega
      simp only [if_pos within, if_pos cleared]
    · have outside : ¬(header.filesz.toNat ≤ index ∧
          index < header.filesz.toNat + (header.memsz.toNat - header.filesz.toNat)) := by omega
      simp only [if_neg outside, if_neg cleared]
  · rename_i notSmaller
    rcases Program.pure_eq_ok.mp finished with ⟨rfl, rfl⟩
    refine ⟨rfl, ?_⟩
    intro index inside
    have ordered : ¬header.filesz.toNat < header.memsz.toNat := notSmaller
    rw [if_neg (by omega)]

theorem loadSegment_finished {env : Environment} {header : Phdr} {segment : LoadedSegment}
    {system final : System} (finished : loadSegment env header system = .ok (segment, final)) :
    final.reads = system.reads + 1 ∧ final.mallocs = system.mallocs + 1 ∧
      LoadedFrom env header system.reads system.mallocs segment := by
  unfold loadSegment at finished
  rcases Program.bind_eq_ok.mp finished with ⟨block, allocated, allocation, finished⟩
  cases block with
  | none => exact absurd finished Program.throw_ne_ok
  | some block =>
      rcases malloc_finished allocation with ⟨rfl, _, fresh⟩
      rcases Program.bind_eq_ok.mp finished with ⟨_, sought, seek, finished⟩
      rcases lseekSet_finished seek with ⟨position, reads, mallocs⟩
      rcases Program.bind_eq_ok.mp finished with ⟨result, afterRead, reading, finished⟩
      rcases read_finished reading with ⟨resultEq, rfl⟩
      rw [position, reads] at resultEq
      cases result with
      | none => exact absurd finished Program.throw_ne_ok
      | some data =>
          rcases Program.bind_eq_ok.mp finished with ⟨stored, afterStore, storing, finished⟩
          rcases store_finished storing with ⟨_, rfl, rfl⟩
          rcases Program.bind_eq_ok.mp finished with ⟨filled, afterFill, filling, assembled⟩
          rcases zeroFill_finished filling with ⟨rfl, zeros⟩
          rcases Program.pure_eq_ok.mp assembled with ⟨rfl, rfl⟩
          refine ⟨congrArg (· + 1) reads, mallocs, ?_⟩
          unfold Environment.read at resultEq
          split at resultEq
          · rcases Option.map_eq_some_iff.mp resultEq.symm with ⟨limit, limited, dataEq⟩
            refine ⟨if header.offset.toNat < 2 ^ 63 then header.offset.toNat else system.position,
              limit, fun below => if_pos below, limited, ?_⟩
            intro index inside
            rw [zeros index inside, dataEq]
            simp only [Nat.zero_le, if_true, Nat.sub_zero, fresh]
          · cases resultEq

/-! ## Exactness for one segment -/

theorem getElem_taken {bytes : List Byte} {position limit index : Nat} (taken : index < limit) :
    ((bytes.drop position).take limit)[index]? = bytes[position + index]? := by
  rw [List.getElem?_take_of_lt taken, List.getElem?_drop]

private theorem segmentCorrect_of_delivered {env : Environment} {header : Phdr}
    {reads mallocs : Nat}
    {segment : LoadedSegment} (loaded : LoadedFrom env header reads mallocs segment)
    (delivered : Delivered env header reads) : SegmentCorrect env.file header segment := by
  rcases loaded with ⟨position, limit, sought, limited, bytes⟩
  intro index inside
  rw [bytes index inside]
  by_cases fromFile : index < header.filesz.toNat
  · rw [if_pos fromFile, if_neg (by omega)]
    rcases delivered with nothing | ⟨within, enough⟩
    · omega
    · have bounded := env.file.bounded
      have enoughHere := enough limit limited
      have positionEq := sought (by omega)
      have present : header.offset.toNat + index < env.file.bytes.length := by omega
      rw [positionEq, getElem_taken (by omega), List.getElem?_eq_getElem present]
      rfl
  · rw [if_neg fromFile, if_pos (by omega)]

private def otherContents (file : File) (header : Phdr) : Nat → Nat → Byte :=
  fun _ index => (file.bytes[header.offset.toNat + index]?).getD 0 + 1

private theorem add_one_ne (byte : Byte) : byte + 1 ≠ byte := by
  revert byte
  decide

private theorem delivered_of_segmentCorrect {env : Environment} {header : Phdr}
    {reads mallocs : Nat} {segment : LoadedSegment}
    (loaded : LoadedFrom (env.withContents (otherContents env.file header)) header reads mallocs
      segment)
    (correct : SegmentCorrect env.file header segment) : Delivered env header reads := by
  rcases loaded with ⟨position, limit, sought, limited, bytes⟩
  change ∀ index < header.memsz.toNat, segment.host.bytes index =
    if header.filesz.toNat ≤ index then 0
    else ((env.file.bytes.drop position).take (min limit header.filesz.toNat))[index]?.getD
      (otherContents env.file header mallocs index) at bytes
  rcases Nat.eq_zero_or_pos (min header.filesz.toNat header.memsz.toNat) with nothing | some
  · exact .inl nothing
  · refine .inr ?_
    have first := correct 0 (by omega)
    rw [if_pos (by omega), Nat.add_zero] at first
    have starts : header.offset.toNat < env.file.bytes.length :=
      (List.getElem?_eq_some_iff.mp first).1
    have bounded := env.file.bounded
    have positionEq : position = header.offset.toNat := sought (by omega)
    -- The first byte that is not delivered keeps what fresh memory holds.
    have full : min header.filesz.toNat header.memsz.toNat ≤
        min (min limit header.filesz.toNat) (env.file.bytes.length - header.offset.toNat) := by
      apply Nat.le_of_not_lt
      intro short
      generalize stopEq : min (min limit header.filesz.toNat)
        (env.file.bytes.length - header.offset.toNat) = stop at short
      have here := correct stop (by omega)
      have missing : ((env.file.bytes.drop position).take
          (min limit header.filesz.toNat))[stop]? = none := by
        rw [positionEq]
        apply List.getElem?_eq_none
        rw [List.length_take, List.length_drop]
        omega
      rw [if_pos (by omega), bytes stop (by omega), if_neg (by omega), missing,
        Option.getD_none, otherContents] at here
      cases found : env.file.bytes[header.offset.toNat + stop]? with
      | none =>
          rw [found] at here
          cases here
      | some byte =>
          rw [found, Option.getD_some] at here
          exact add_one_ne byte (Option.some.inj here).symm
    refine ⟨by omega, ?_⟩
    intro other otherLimited
    have same : other = limit := Option.some.inj (otherLimited.symm.trans limited)
    omega

/-! ## The loading loop -/

/-- The segments that a finished loading loop adds for these headers, after the
given numbers of calls. -/
inductive Loaded (env : Environment) : Nat → Nat → List Phdr → List LoadedSegment → Prop
  | nil {reads mallocs : Nat} : Loaded env reads mallocs [] []
  | load {reads mallocs : Nat} {header : Phdr} {headers : List Phdr}
      {segment : LoadedSegment} {segments : List LoadedSegment}
      (isLoad : header.isLoad = true) (here : LoadedFrom env header reads mallocs segment)
      (rest : Loaded env (reads + 1) (mallocs + 1) headers segments) :
      Loaded env reads mallocs (header :: headers) (segment :: segments)
  | interp {reads mallocs : Nat} {header : Phdr} {headers : List Phdr}
      {segments : List LoadedSegment} (notLoad : header.isLoad = false)
      (isInterp : header.isInterp = true)
      (rest : Loaded env (reads + 1) (mallocs + 1) headers segments) :
      Loaded env reads mallocs (header :: headers) segments
  | other {reads mallocs : Nat} {header : Phdr} {headers : List Phdr}
      {segments : List LoadedSegment} (notLoad : header.isLoad = false)
      (notInterp : header.isInterp = false)
      (rest : Loaded env reads mallocs headers segments) :
      Loaded env reads mallocs (header :: headers) segments

private theorem storeSegment_eq_ok {hasLoad : Nat} {segments after : List LoadedSegment}
    {segment : LoadedSegment} {system final : System} :
    storeSegment hasLoad segments segment system = .ok (after, final) ↔
      segments.length < hasLoad ∧ segments ++ [segment] = after ∧ system = final := by
  unfold storeSegment
  split
  next room => rw [Program.pure_eq_ok, and_iff_right room]
  next full => exact iff_of_false Program.throw_ne_ok fun stored => full stored.1

theorem loadSegments_cons_eq_ok {env : Environment} {hasLoad : Nat} {header : Phdr}
    {headers : List Phdr} {segments after : List LoadedSegment} {system final : System} :
    loadSegments env hasLoad (header :: headers) segments system = .ok (after, final) ↔
      (header.isLoad = true ∧ segments.length < hasLoad ∧ ∃ segment middle,
        loadSegment env header system = .ok (segment, middle) ∧
          loadSegments env hasLoad headers (segments ++ [segment]) middle = .ok (after, final)) ∨
      (header.isLoad = false ∧ header.isInterp = true ∧ ∃ interp middle,
        loadInterp env header system = .ok (interp, middle) ∧
          loadSegments env hasLoad headers segments middle = .ok (after, final)) ∨
      (header.isLoad = false ∧ header.isInterp = false ∧
        loadSegments env hasLoad headers segments system = .ok (after, final)) := by
  rw [loadSegments]
  cases isLoad : header.isLoad with
  | true =>
      simp only [if_true, Program.bind_eq_ok, storeSegment_eq_ok, true_and, Bool.true_eq_false,
        false_and, or_false]
      constructor
      · rintro ⟨segment, middle, loading, _, _, ⟨room, rfl, rfl⟩, rest⟩
        exact ⟨room, segment, middle, loading, rest⟩
      · rintro ⟨room, segment, middle, loading, rest⟩
        exact ⟨segment, middle, loading, _, _, ⟨room, rfl, rfl⟩, rest⟩
  | false =>
      cases isInterp : header.isInterp with
      | true =>
          simp only [Bool.false_eq_true, if_false, if_true, Program.bind_eq_ok, false_and,
            true_and, Bool.true_eq_false, or_false, false_or]
      | false =>
          simp only [Bool.false_eq_true, if_false, false_and, true_and, and_false, false_or]

theorem loadInterp_finished {env : Environment} {header : Phdr} {interp : Buffer}
    {system final : System} (finished : loadInterp env header system = .ok (interp, final)) :
    final.reads = system.reads + 1 ∧ final.mallocs = system.mallocs + 1 := by
  unfold loadInterp at finished
  rcases Program.bind_eq_ok.mp finished with ⟨block, allocated, allocation, finished⟩
  cases block with
  | none => exact absurd finished Program.throw_ne_ok
  | some block =>
      rcases malloc_finished allocation with ⟨rfl, _, _⟩
      rcases Program.bind_eq_ok.mp finished with ⟨cur, _, current, finished⟩
      cases current
      rcases Program.bind_eq_ok.mp finished with ⟨_, sought, seek, finished⟩
      rcases lseekSet_finished seek with ⟨_, reads, mallocs⟩
      rcases Program.bind_eq_ok.mp finished with ⟨result, afterRead, reading, finished⟩
      rcases read_finished reading with ⟨_, rfl⟩
      rcases Program.bind_eq_ok.mp finished with ⟨stored, afterStore, storing, finished⟩
      rcases store_finished storing with ⟨_, rfl, rfl⟩
      split at finished
      · exact absurd finished Program.throw_ne_ok
      · rcases Program.bind_eq_ok.mp finished with ⟨_, _, terminating, restoring⟩
        rcases store_finished terminating with ⟨_, rfl, rfl⟩
        rcases Program.bind_eq_ok.mp restoring with ⟨_, _, restore, returned⟩
        rcases lseekSet_finished restore with ⟨_, sameReads, sameMallocs⟩
        rcases Program.pure_eq_ok.mp returned with ⟨rfl, rfl⟩
        exact ⟨sameReads.trans (congrArg (· + 1) reads), sameMallocs.trans mallocs⟩

theorem loadSegments_finished {env : Environment} {hasLoad : Nat} {headers : List Phdr}
    {segments after : List LoadedSegment} {system final : System}
    (finished : loadSegments env hasLoad headers segments system = .ok (after, final)) :
    ∃ loaded, after = segments ++ loaded ∧
      Loaded env system.reads system.mallocs headers loaded := by
  induction headers generalizing segments system with
  | nil =>
      rcases Program.pure_eq_ok.mp finished with ⟨rfl, rfl⟩
      exact ⟨[], by simp, .nil⟩
  | cons header headers induction =>
      rcases loadSegments_cons_eq_ok.mp finished with
        ⟨isLoad, _, segment, middle, loading, finished⟩ |
        ⟨notLoad, isInterp, _, middle, loading, finished⟩ | ⟨notLoad, notInterp, finished⟩
      · rcases loadSegment_finished loading with ⟨reads, mallocs, here⟩
        rcases induction finished with ⟨loaded, rfl, rest⟩
        rw [reads, mallocs] at rest
        exact ⟨segment :: loaded, by simp, .load isLoad here rest⟩
      · rcases loadInterp_finished loading with ⟨reads, mallocs⟩
        rcases induction finished with ⟨loaded, rfl, rest⟩
        rw [reads, mallocs] at rest
        exact ⟨loaded, rfl, .interp notLoad isInterp rest⟩
      · rcases induction finished with ⟨loaded, rfl, rest⟩
        exact ⟨loaded, rfl, .other notLoad notInterp rest⟩

theorem correct_of_delivered {env : Environment} {reads mallocs : Nat} {headers : List Phdr}
    {segments : List LoadedSegment} (loaded : Loaded env reads mallocs headers segments)
    (delivered : ∀ load ∈ loadReads reads headers, Delivered env load.1 load.2) :
    List.Forall₂ (SegmentCorrect env.file) (headers.filter Phdr.isLoad) segments := by
  induction loaded with
  | nil => exact .nil
  | load isLoad here _ induction =>
      rw [loadReads, if_pos isLoad] at delivered
      rw [List.filter_cons_of_pos isLoad]
      apply List.Forall₂.cons
      · exact segmentCorrect_of_delivered here (delivered _ List.mem_cons_self)
      · exact induction fun load member => delivered load (List.mem_cons_of_mem _ member)
  | interp notLoad isInterp _ induction =>
      rw [loadReads, if_neg (by simp [notLoad]), if_pos isInterp] at delivered
      rw [List.filter_cons_of_neg (by simp [notLoad])]
      exact induction delivered
  | other notLoad notInterp _ induction =>
      rw [loadReads, if_neg (by simp [notLoad]), if_neg (by simp [notInterp])] at delivered
      rw [List.filter_cons_of_neg (by simp [notLoad])]
      exact induction delivered

/-- A correct run after the given number of reads, whatever fresh memory holds. -/
def AlwaysCorrect (env : Environment) (reads : Nat) (headers : List Phdr) : Prop :=
  ∀ contents, ∃ mallocs segments,
    Loaded (env.withContents contents) reads mallocs headers segments ∧
      List.Forall₂ (SegmentCorrect env.file) (headers.filter Phdr.isLoad) segments

theorem AlwaysCorrect.load {env : Environment} {reads : Nat} {header : Phdr}
    {headers : List Phdr} (correct : AlwaysCorrect env reads (header :: headers))
    (isLoad : header.isLoad = true) :
    Delivered env header reads ∧ AlwaysCorrect env (reads + 1) headers := by
  have parts : ∀ contents, ∃ mallocs segment segments,
      LoadedFrom (env.withContents contents) header reads mallocs segment ∧
      SegmentCorrect env.file header segment ∧
      Loaded (env.withContents contents) (reads + 1) (mallocs + 1) headers segments ∧
      List.Forall₂ (SegmentCorrect env.file) (headers.filter Phdr.isLoad) segments := by
    intro contents
    rcases correct contents with ⟨mallocs, _, loaded, right⟩
    rw [List.filter_cons_of_pos isLoad] at right
    cases loaded with
    | load _ here rest =>
        cases right with
        | cons first others => exact ⟨mallocs, _, _, here, first, rest, others⟩
    | interp notLoad _ _ => exact absurd isLoad (by simp [notLoad])
    | other notLoad _ _ => exact absurd isLoad (by simp [notLoad])
  constructor
  · rcases parts (otherContents env.file header) with ⟨_, _, _, here, first, _⟩
    exact delivered_of_segmentCorrect here first
  · intro contents
    rcases parts contents with ⟨mallocs, _, segments, _, _, rest, others⟩
    exact ⟨mallocs + 1, segments, rest, others⟩

theorem AlwaysCorrect.skip {env : Environment} {reads : Nat} {header : Phdr}
    {headers : List Phdr} (correct : AlwaysCorrect env reads (header :: headers))
    (notLoad : header.isLoad = false) :
    AlwaysCorrect env (if header.isInterp then reads + 1 else reads) headers := by
  intro contents
  rcases correct contents with ⟨mallocs, segments, loaded, right⟩
  rw [List.filter_cons_of_neg (by simp [notLoad])] at right
  cases loaded with
  | load isLoad _ _ => exact absurd isLoad (by simp [notLoad])
  | interp _ isInterp rest => exact ⟨mallocs + 1, segments, by rwa [if_pos isInterp], right⟩
  | other _ notInterp rest =>
      exact ⟨mallocs, segments, by rwa [if_neg (by simp [notInterp])], right⟩

/-- When the segments are correct whatever fresh memory holds, every read
delivered what it had to. -/
theorem delivered_of_correct {env : Environment} {headers : List Phdr} :
    ∀ {reads : Nat}, AlwaysCorrect env reads headers →
      ∀ load ∈ loadReads reads headers, Delivered env load.1 load.2 := by
  induction headers with
  | nil =>
      intro reads _ load member
      cases member
  | cons header headers induction =>
      intro reads correct load member
      cases isLoad : header.isLoad with
      | true =>
          rcases correct.load isLoad with ⟨here, rest⟩
          rw [loadReads, if_pos isLoad] at member
          rcases List.mem_cons.mp member with rfl | later
          · exact here
          · exact induction rest load later
      | false =>
          have rest := correct.skip isLoad
          rw [loadReads, if_neg (by simp [isLoad])] at member
          cases isInterp : header.isInterp with
          | true =>
              rw [if_pos isInterp] at member rest
              exact induction rest load member
          | false =>
              rw [if_neg (by simp [isInterp])] at member rest
              exact induction rest load member

/-! ## Whole runs -/

structure ReadFully (env : Environment) (size : Nat) (system : System) (bytes : List Byte)
    (final : System) : Prop where
  bytes : bytes = (env.file.bytes.drop system.position).take size
  position : final.position = system.position + size
  reads : final.reads = system.reads + 1

theorem readObject_finished {env : Environment} {size : Nat} {bytes : List Byte}
    {system final : System} (finished : readObject env size system = .ok (bytes, final)) :
    ReadFully env size system bytes final := by
  unfold readObject at finished
  rcases Program.bind_eq_ok.mp finished with ⟨result, afterRead, reading, finished⟩
  cases result with
  | none => exact absurd finished Program.throw_ne_ok
  | some data =>
      dsimp only at finished
      split at finished
      · rename_i whole
        rcases Program.pure_eq_ok.mp finished with ⟨rfl, rfl⟩
        rcases read_finished reading with ⟨result, rfl⟩
        unfold Environment.read at result
        split at result
        · rcases Option.map_eq_some_iff.mp result.symm with ⟨limit, _, rfl⟩
          have bound := List.length_take_le (min limit (BitVec.ofNat 64 size).toNat)
            (env.file.bytes.drop system.position)
          have wrapped : (BitVec.ofNat 64 size).toNat ≤ size := Nat.mod_le _ _
          have same : min limit (BitVec.ofNat 64 size).toNat = size := by omega
          exact ⟨by rw [same], congrArg (system.position + ·) whole, rfl⟩
        · cases result
      · exact absurd finished Program.throw_ne_ok

theorem readIdent_finished {env : Environment} {result : Unit} {system final : System}
    (finished : readIdent env system = .ok (result, final)) :
    final.reads = system.reads + 1 := by
  unfold readIdent at finished
  rcases Program.bind_eq_ok.mp finished with ⟨ident, afterRead, reading, finished⟩
  split at finished
  · rcases Program.pure_eq_ok.mp finished with ⟨_, rfl⟩
    exact (readObject_finished reading).reads
  · exact absurd finished Program.throw_ne_ok

theorem readHeader_finished {env : Environment} {header : Ehdr} {system final : System}
    (finished : readHeader env system = .ok (header, final)) :
    header = decodeEhdr (env.file.bytes.take sizeofEhdr) ∧ final.position = sizeofEhdr ∧
      final.reads = system.reads + 1 := by
  unfold readHeader at finished
  rcases Program.bind_eq_ok.mp finished with ⟨_, sought, seek, finished⟩
  rcases Program.bind_eq_ok.mp finished with ⟨raw, afterRead, reading, finished⟩
  have start : sought.position = 0 := (lseekSet_finished seek).1
  have whole := readObject_finished reading
  have decoded := whole.bytes
  have position := whole.position
  rw [start, List.drop_zero] at decoded
  rw [start, Nat.zero_add] at position
  split at finished
  · exact absurd finished Program.throw_ne_ok
  · split at finished
    · exact absurd finished Program.throw_ne_ok
    · split at finished
      · exact absurd finished Program.throw_ne_ok
      · split at finished
        · exact absurd finished Program.throw_ne_ok
        · rcases Program.pure_eq_ok.mp finished with ⟨rfl, rfl⟩
          exact ⟨by rw [decoded], position, by rw [whole.reads, (lseekSet_finished seek).2.1]⟩

theorem listHeaders_finished {env : Environment} {count : Nat} {listed : List Phdr}
    {system final : System} (finished : listHeaders env count system = .ok (listed, final)) :
    final.position = system.position + sizeofPhdr * count ∧
      final.reads = system.reads + count := by
  induction count generalizing listed system with
  | zero =>
      rcases Program.pure_eq_ok.mp finished with ⟨_, rfl⟩
      exact ⟨rfl, rfl⟩
  | succ count induction =>
      unfold listHeaders at finished
      rcases Program.bind_eq_ok.mp finished with ⟨raw, afterRead, reading, finished⟩
      rcases Program.bind_eq_ok.mp finished with ⟨rest, afterRest, listing, finished⟩
      rcases Program.pure_eq_ok.mp finished with ⟨_, rfl⟩
      have first := readObject_finished reading
      have others := induction listing
      rw [first.position, first.reads] at others
      rw [Nat.mul_succ]
      omega

private theorem decodePhdrs_take (count : Nat) (raw : List Byte) :
    decodePhdrs count (raw.take (sizeofPhdr * count)) = decodePhdrs count raw := by
  apply List.map_congr_left
  intro index inside
  have room : sizeofPhdr ≤ sizeofPhdr * count - sizeofPhdr * index := by
    rw [List.mem_range] at inside
    simp only [sizeofPhdr]
    omega
  rw [List.drop_take, List.take_take, Nat.min_eq_left room]

theorem readTable_finished {env : Environment} {header : Ehdr} {phdrs : List Phdr}
    {system final : System} (finished : readTable env header system = .ok (phdrs, final)) :
    final.reads = system.reads + 1 ∧ phdrs = decodePhdrs header.phnum.toNat
      (env.file.bytes.drop
        (if header.phoff.toNat < 2 ^ 63 then header.phoff.toNat else system.position)) := by
  unfold readTable at finished
  rcases Program.bind_eq_ok.mp finished with ⟨block, allocated, allocation, finished⟩
  cases block with
  | none => exact absurd finished Program.throw_ne_ok
  | some block =>
      rcases malloc_finished allocation with ⟨rfl, _, _⟩
      rcases Program.bind_eq_ok.mp finished with ⟨_, sought, seek, finished⟩
      rcases Program.bind_eq_ok.mp finished with ⟨raw, afterRead, reading, finished⟩
      rcases Program.pure_eq_ok.mp finished with ⟨rfl, rfl⟩
      have before := lseekSet_finished seek
      have whole := readObject_finished reading
      refine ⟨by rw [whole.reads, before.2.1], ?_⟩
      rw [whole.bytes, before.1, decodePhdrs_take]

/-- A finished run has loaded the segments of the headers in the file. -/
theorem loadBinary_finished {env : Environment} {image : Image} {final : System}
    (finished : loadBinary env { position := 0, reads := 0, mallocs := 0 } = .ok (image, final)) :
    image.phdrs = env.file.phdrs ∧
      ∃ mallocs, Loaded env (readsBeforeLoading env.file.phdrs) mallocs env.file.phdrs
        image.segments := by
  unfold loadBinary at finished
  rcases Program.bind_eq_ok.mp finished with ⟨_, s1, identified, finished⟩
  rcases Program.bind_eq_ok.mp finished with ⟨header, s2, headerRead, finished⟩
  rcases Program.bind_eq_ok.mp finished with ⟨_, s3, seek, finished⟩
  rcases Program.bind_eq_ok.mp finished with ⟨listed, s4, listing, finished⟩
  rcases Program.bind_eq_ok.mp finished with ⟨phdrs, s5, tableRead, finished⟩
  have c1 : s1.reads = 0 + 1 := readIdent_finished identified
  rcases readHeader_finished headerRead with ⟨headerEq, p2, c2⟩
  rcases lseekSet_finished seek with ⟨p3, c3, _⟩
  rcases listHeaders_finished listing with ⟨p4, c4⟩
  rcases readTable_finished tableRead with ⟨c5, table⟩
  have position : (if header.phoff.toNat < 2 ^ 63 then header.phoff.toNat else s4.position) =
      tablePosition header := by
    unfold tablePosition
    split
    · rfl
    · rename_i negative
      rw [p4, p3, if_neg negative, p2]
  have fromFile : phdrs = env.file.phdrs := by
    rw [table, position, headerEq]
    rfl
  have count : phdrs.length = header.phnum.toNat := by
    rw [table]
    simp [decodePhdrs]
  split at finished
  · exact absurd finished Program.throw_ne_ok
  · rcases Program.bind_eq_ok.mp finished with ⟨segments, s6, loading, finished⟩
    rcases loadSegments_finished loading with ⟨loaded, same, run⟩
    rw [← same.trans (List.nil_append loaded)] at run
    cases segments with
    | nil => exact absurd finished Program.throw_ne_ok
    | cons segment segments =>
        rcases Program.pure_eq_ok.mp finished with ⟨rfl, rfl⟩
        have reads : s5.reads = readsBeforeLoading phdrs := by
          unfold readsBeforeLoading
          omega
        rw [reads] at run
        rw [← fromFile]
        exact ⟨rfl, s5.mallocs, run⟩

/-! ## Runs with other contents of fresh memory

What a fresh block holds decides nothing: the loader never looks at it.
-/

section Contents

variable (env : Environment) (contents : Nat → Nat → Byte)

def SameSize (first second : Buffer) : Prop := first.size = second.size

private def SameCount (first second : List LoadedSegment) : Prop := first.length = second.length

def SameAllocation (first second : Option Buffer) : Prop :=
  first.map Buffer.size = second.map Buffer.size

private theorem malloc_matches (size : XWord) :
    Program.Matches SameAllocation (malloc env size)
      (malloc (env.withContents contents) size) := by
  intro system block final finished
  cases finished
  refine ⟨_, rfl, ?_⟩
  change Option.map _ (Option.map _ (env.address system.mallocs)) =
    Option.map _ (Option.map _ (env.address system.mallocs))
  cases env.address system.mallocs <;> rfl

private theorem store_matches {first second : Buffer} (same : SameSize first second) (offset : Nat)
    (data : List Byte) :
    Program.Matches SameSize (first.store offset data) (second.store offset data) := by
  unfold Buffer.store
  rw [same]
  split
  · exact .pure rfl
  · exact .throw _ _

private theorem zeroFill_matches {first second : Buffer} (same : SameSize first second)
    (header : Phdr) :
    Program.Matches SameSize (zeroFill header first) (zeroFill header second) := by
  unfold zeroFill
  split
  · unfold Buffer.clear
    rw [same]
    split
    · exact .pure rfl
    · exact .throw _ _
  · exact .pure same

theorem SameAllocation.cases {motive : Option Buffer → Option Buffer → Prop}
    (failed : motive none none)
    (allocated : ∀ first second, SameSize first second → motive (some first) (some second)) :
    ∀ first second, SameAllocation first second → motive first second := by
  intro first second same
  cases first with
  | none =>
      cases second with
      | none => exact failed
      | some second => cases same
  | some first =>
      cases second with
      | none => cases same
      | some second => exact allocated first second (Option.some.inj same)

private theorem loadSegment_matches (header : Phdr) :
    Program.Matches (fun _ _ => True) (loadSegment env header)
      (loadSegment (env.withContents contents) header) := by
  apply (malloc_matches env contents header.memsz).bind
  apply SameAllocation.cases
  · exact .throw _ _
  · intro first second same
    apply (Program.Matches.refl (lseekSet header.offset)).bind
    rintro _ _ rfl
    apply (Program.Matches.refl (read env header.filesz)).bind
    rintro result _ rfl
    cases result with
    | none => exact .throw _ _
    | some data =>
        apply (store_matches same 0 data).bind
        intro _ _ stored
        apply (zeroFill_matches stored header).bind
        intro _ _ _
        exact .pure trivial

private theorem loadInterp_matches (header : Phdr) :
    Program.Matches (fun _ _ => True) (loadInterp env header)
      (loadInterp (env.withContents contents) header) := by
  apply (malloc_matches env contents (header.filesz + 1)).bind
  apply SameAllocation.cases
  · exact .throw _ _
  · intro first second same
    apply (Program.Matches.refl lseekCurrent).bind
    rintro cur _ rfl
    apply (Program.Matches.refl (lseekSet header.offset)).bind
    rintro _ _ rfl
    apply (Program.Matches.refl (read env header.filesz)).bind
    rintro result _ rfl
    apply (store_matches same 0 (result.getD [])).bind
    intro _ _ stored
    split
    · exact .throw _ _
    · apply (store_matches stored header.filesz.toNat [0]).bind
      intro _ _ _
      apply (Program.Matches.refl (lseekSet cur)).bind
      intro _ _ _
      exact .pure trivial

private theorem storeSegment_matches {first second : List LoadedSegment}
    (same : SameCount first second) (hasLoad : Nat) (left right : LoadedSegment) :
    Program.Matches SameCount (storeSegment hasLoad first left)
      (storeSegment hasLoad second right) := by
  unfold storeSegment
  rw [same]
  split
  · apply Program.Matches.pure
    simpa [SameCount] using same
  · exact .throw _ _

private theorem loadSegments_matches (hasLoad : Nat) (headers : List Phdr) :
    ∀ first second, SameCount first second →
      Program.Matches SameCount (loadSegments env hasLoad headers first)
        (loadSegments (env.withContents contents) hasLoad headers second) := by
  induction headers with
  | nil => exact fun _ _ same => .pure same
  | cons header headers induction =>
      intro first second same
      unfold loadSegments
      split
      · apply (loadSegment_matches env contents header).bind
        intro left right _
        apply (storeSegment_matches same hasLoad left right).bind
        exact induction
      · split
        · apply (loadInterp_matches env contents header).bind
          intro _ _ _
          exact induction first second same
        · exact induction first second same

private theorem readTable_matches (header : Ehdr) :
    Program.Matches Eq (readTable env header)
      (readTable (env.withContents contents) header) := by
  apply (malloc_matches env contents _).bind
  apply SameAllocation.cases
  · exact .throw _ _
  · intro _ _ _
    exact .refl _

private theorem listHeaders_matches (count : Nat) :
    Program.Matches Eq (listHeaders env count)
      (listHeaders (env.withContents contents) count) := by
  induction count with
  | zero => exact .refl _
  | succ count induction =>
      apply (Program.Matches.refl (readObject env sizeofPhdr)).bind
      rintro raw _ rfl
      apply induction.bind
      rintro rest _ rfl
      exact .pure rfl

private theorem loadBinary_matches :
    Program.Matches (fun _ _ => True) (loadBinary env)
      (loadBinary (env.withContents contents)) := by
  apply (Program.Matches.refl (readIdent env)).bind
  intro _ _ _
  apply (Program.Matches.refl (readHeader env)).bind
  rintro header _ rfl
  apply (Program.Matches.refl (lseekSet header.phoff)).bind
  intro _ _ _
  apply (listHeaders_matches env contents header.phnum.toNat).bind
  rintro listed _ rfl
  apply (readTable_matches env contents header).bind
  rintro phdrs _ rfl
  dsimp only
  split
  · exact .throw _ _
  · apply (loadSegments_matches env contents _ phdrs [] [] rfl).bind
    intro first second same
    cases first with
    | nil => exact .throw _ _
    | cons =>
        cases second with
        | nil => cases same
        | cons => exact .pure trivial

end Contents

/-! ## The exact condition -/

theorem loaderMain_eq_ok {env : Environment} {image : Image} :
    loaderMain (.binary env) = .ok image ↔
      ∃ final, loadBinary env { position := 0, reads := 0, mallocs := 0 } = .ok (image, final) := by
  change (loadBinary env { position := 0, reads := 0, mallocs := 0 }).map Prod.fst = _ ↔ _
  cases loadBinary env { position := 0, reads := 0, mallocs := 0 } with
  | error stop =>
      constructor
      · intro ran
        cases ran
      · rintro ⟨_, ran⟩
        cases ran
  | ok outcome =>
      rcases outcome with ⟨result, final⟩
      constructor
      · intro ran
        cases ran
        exact ⟨final, rfl⟩
      · rintro ⟨_, ran⟩
        cases ran
        rfl

/-- Whatever fresh memory holds, a run that returns 0 loads the right bytes exactly
when it has them delivered. -/
theorem image_correct_iff (env : Environment) :
    (∀ contents image, loaderMain (.binary (env.withContents contents)) = .ok image →
      ImageCorrect env.file image) ↔
    ∀ image, loaderMain (.binary env) = .ok image → AllDelivered env env.file.phdrs := by
  constructor
  · intro correct image returned load member
    rcases loaderMain_eq_ok.mp returned with ⟨final, ran⟩
    refine delivered_of_correct ?_ load member
    intro contents
    rcases loadBinary_matches env contents _ image final ran with ⟨other, otherRan, _⟩
    rcases loadBinary_finished otherRan with ⟨phdrs, mallocs, loaded⟩
    have right := correct contents other (loaderMain_eq_ok.mpr ⟨final, otherRan⟩)
    rw [ImageCorrect, phdrs] at right
    exact ⟨mallocs, other.segments, loaded, right⟩
  · intro delivered contents image returned
    rcases loaderMain_eq_ok.mp returned with ⟨final, ran⟩
    rcases loadBinary_finished ran with ⟨phdrs, mallocs, loaded⟩
    rcases loadBinary_matches _ env.contents _ image final ran with ⟨original, originalRan, _⟩
    have right := correct_of_delivered loaded
      (delivered original (loaderMain_eq_ok.mpr ⟨final, originalRan⟩))
    rw [ImageCorrect, phdrs]
    exact right

def shortFile : File where
  bytes :=
    magic ++ [2, 1, 1] ++ List.replicate 9 0 ++ [3, 0, 62, 0, 1, 0, 0, 0] ++
      List.replicate 8 0 ++ [64] ++ List.replicate 19 0 ++ [64, 0, 56, 0, 1, 0] ++
      List.replicate 6 0 ++ [1, 0, 0, 0, 4, 0, 0, 0] ++ List.replicate 24 0 ++ [200] ++
      List.replicate 7 0 ++ [200] ++ List.replicate 15 0
  bounded := by decide

def shortEnvironment : Environment where
  file := shortFile
  readLimit _ := some (2 ^ 63)
  address call := some (.ofNat 64 (0x1000 * (call + 1)))
  contents _ _ := 0

def shortHeader : Phdr where
  type := ptLoad
  flags := 4
  offset := 0
  vaddr := 0
  paddr := 0
  filesz := 200
  memsz := 200
  align := 0

/-- The file ends before the segment does, and the loader returns 0. -/
theorem short_segment_accepted :
    ∃ image, loaderMain (.binary shortEnvironment) = .ok image ∧
      image.phdrs = [shortHeader] ∧ ¬ImageCorrect shortFile image := by
  have phdrs : (loaderMain (.binary shortEnvironment)).toOption.map Image.phdrs =
      some [shortHeader] := by
    decide +kernel
  cases ran : loaderMain (.binary shortEnvironment) with
  | error stop =>
      rw [ran] at phdrs
      cases phdrs
  | ok image =>
      rw [ran] at phdrs
      have headers : image.phdrs = [shortHeader] := Option.some.inj phdrs
      refine ⟨image, rfl, headers, ?_⟩
      intro correct
      have onlyLoad : [shortHeader].filter Phdr.isLoad = [shortHeader] := by decide
      rw [ImageCorrect, headers, onlyLoad] at correct
      rcases List.forall₂_cons_left_iff.mp correct with ⟨segment, _, here, _⟩
      have past := here 150 (by decide)
      rw [if_pos (by decide)] at past
      have ended : shortFile.bytes[shortHeader.offset.toNat + 150]? = none :=
        List.getElem?_eq_none (by decide +kernel)
      rw [ended] at past
      cases past

end SystemsRepository.ElfLoader
