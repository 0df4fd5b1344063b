import SystemsRepository.ElfLoader.SegmentTable
import SystemsRepository.ElfLoader.Translation

/-! # The process image

What is found at an address of the program when it is translated and looked up in the memory of
the loader, and what the program headers of the file say is there.
-/

namespace SystemsRepository.ElfLoader

open SystemsRepository.Foundation

/-! ## The memory that a file describes -/

def Phdr.region (header : Phdr) : Region where
  start := header.vaddr.toNat
  size := header.memsz.toNat
  target := header.offset.toNat

def Phdr.byteAt (file : File) (header : Phdr) (address : Nat) : Option Byte :=
  if address - header.vaddr.toNat < header.filesz.toNat then
    file.bytes[header.region.placeOf address]?
  else some 0

def File.memory (file : File) (headers : List Phdr) (vaddr : XWord) : Option Byte :=
  ((headers.filter Phdr.isLoad).find? fun header => header.region.Covers vaddr.toNat).bind
    fun header => header.byteAt file vaddr.toNat

/-! ## The memory of the loader -/

/-- What the memory of the loader has at an address of the host. -/
def hostByte (segments : List LoadedSegment) (host : XWord) : Option Byte :=
  (segments.find? fun segment => segment.region.Holds host.toNat).map fun segment =>
    segment.host.bytes (host.toNat - segment.host.address.toNat)

/-- What is found at an address of the program. -/
def Image.read (image : Image) (vaddr : XWord) : Option Byte :=
  (vaddrToHost vaddr image.segments).bind (hostByte image.segments)

/-- `malloc` gives blocks that do not wrap around and share nothing with those in use. -/
structure Placed (segments : List LoadedSegment) : Prop where
  hosts : ∀ segment ∈ segments, segment.HostBelowTop
  apart : segments.Pairwise fun segment other => segment.region.Apart other.region

structure LoadedSegment.Renders (file : File) (header : Phdr) (segment : LoadedSegment) :
    Prop where
  virtAddr : segment.virtAddr = header.vaddr
  size : segment.size = header.memsz
  correct : SegmentCorrect file header segment

section Renders

variable {file : File} {header : Phdr} {segment : LoadedSegment} {headers : List Phdr}
  {segments : List LoadedSegment} {vaddr : XWord}

theorem covers_iff (renders : segment.Renders file header) (address : Nat) :
    segment.region.Covers address ↔ header.region.Covers address := by
  unfold Region.Covers LoadedSegment.region Phdr.region
  rw [renders.virtAddr, renders.size]

theorem byteAt_eq (renders : segment.Renders file header)
    (covers : header.region.Covers vaddr.toNat) :
    header.byteAt file vaddr.toNat =
      some (segment.host.bytes (vaddr.toNat - header.vaddr.toNat)) := by
  rcases covers with ⟨reached, inside⟩
  change header.vaddr.toNat ≤ vaddr.toNat at reached
  change vaddr.toNat < header.vaddr.toNat + header.memsz.toNat at inside
  have here := renders.correct (vaddr.toNat - header.vaddr.toNat) (by omega)
  unfold Phdr.byteAt
  split at here
  next fromFile => rw [if_pos fromFile, ← here]; rfl
  next behind => rw [if_neg behind, here]

private theorem find?_renders
    (rendered : List.Forall₂ (LoadedSegment.Renders file) headers segments) (address : Nat) :
    (headers.find? (fun header => header.region.Covers address) = none ∧
      segments.find? (fun segment => segment.region.Covers address) = none) ∨
    ∃ header segment, headers.find? (fun header => header.region.Covers address) = some header ∧
      segments.find? (fun segment => segment.region.Covers address) = some segment ∧
      segment.Renders file header := by
  induction rendered with
  | nil => exact .inl ⟨rfl, rfl⟩
  | @cons header segment _ _ renders _ induction =>
      have same := covers_iff renders address
      rw [List.find?_cons, List.find?_cons]
      by_cases covers : header.region.Covers address
      · rw [decide_eq_true covers, decide_eq_true (same.mpr covers)]
        exact .inr ⟨header, segment, rfl, rfl, renders⟩
      · rw [decide_eq_false covers, decide_eq_false fun there => covers (same.mp there)]
        exact induction

private theorem belowTop_iff
    (rendered : List.Forall₂ (LoadedSegment.Renders file) headers segments) :
    (∀ segment ∈ segments, segment.BelowTop) ↔
      ∀ header ∈ headers, header.vaddr.toNat + header.memsz.toNat < 2 ^ 64 := by
  induction rendered with
  | nil => simp
  | @cons header segment _ _ renders _ induction =>
      rw [List.forall_mem_cons, List.forall_mem_cons, induction, LoadedSegment.BelowTop,
        renders.virtAddr, renders.size]

end Renders

/-! ## Runs -/

section Runs

variable {env : Environment} {image : Image}

private theorem image_rendered (returned : loaderMain (.binary env) = .ok image)
    (delivered : AllDelivered env image.phdrs) :
    List.Forall₂ (LoadedSegment.Renders env.file) (image.phdrs.filter Phdr.isLoad)
      image.segments := by
  rcases loaderMain_eq_ok.mp returned with ⟨final, ran⟩
  rcases loadBinary_finished ran with ⟨phdrs, mallocs, loaded⟩
  rw [← phdrs] at loaded
  have correct := correct_of_delivered loaded delivered
  rcases image_tables returned with ⟨_, loads, listed, _, _, described⟩
  rw [← listed] at correct ⊢
  rw [List.forall₂_map_left_iff] at correct ⊢
  exact List.Forall₂.mp (fun _ _ describes correct =>
    ⟨describes.virtAddr, describes.size, correct⟩) described correct

private theorem hostByte_of_covers {segments : List LoadedSegment} {segment : LoadedSegment}
    {vaddr : XWord} (placed : Placed segments) (member : segment ∈ segments)
    (matched : segment.Matched vaddr) :
    hostByte segments (segment.host.address + (vaddr - segment.virtAddr)) =
      some (segment.host.bytes (vaddr.toNat - segment.virtAddr.toNat)) := by
  have covers := (matched_iff.mp matched).2
  have place := toNat_host matched (placed.hosts segment member)
  rw [hostByte, place, Region.find?_holds placed.apart member covers.holds_placeOf]
  have offset : segment.region.placeOf vaddr.toNat - segment.host.address.toNat =
      vaddr.toNat - segment.virtAddr.toNat := Nat.add_sub_cancel_left _ _
  rw [Option.map_some, offset]

private theorem read_eq_memory (returned : loaderMain (.binary env) = .ok image)
    (delivered : AllDelivered env image.phdrs) (placed : Placed image.segments)
    (below : ∀ segment ∈ image.segments, segment.BelowTop) (vaddr : XWord) :
    image.read vaddr = env.file.memory image.phdrs vaddr := by
  have translated := translationComplete_of_belowTop below vaddr
  rw [Image.read, translated, coveredHost, File.memory]
  rcases find?_renders (image_rendered returned delivered) vaddr.toNat with
    ⟨noHeader, noSegment⟩ | ⟨header, segment, found, foundSegment, renders⟩
  · rw [noHeader, noSegment]
    rfl
  · have member := List.mem_of_find?_eq_some foundSegment
    have first := List.find?_some foundSegment
    have covers : segment.region.Covers vaddr.toNat := of_decide_eq_true first
    have matched : segment.Matched vaddr := matched_iff.mpr ⟨below segment member, covers⟩
    rw [found, foundSegment, Option.map_some, Option.bind_some, Option.bind_some,
      hostByte_of_covers placed member matched,
      byteAt_eq renders ((covers_iff renders _).mp covers), renders.virtAddr]

private theorem memory_last (returned : loaderMain (.binary env) = .ok image)
    (delivered : AllDelivered env image.phdrs) {segment : LoadedSegment}
    (member : segment ∈ image.segments) (reaches : ¬segment.BelowTop) :
    env.file.memory image.phdrs (-1) ≠ none := by
  rw [File.memory]
  rcases find?_renders (image_rendered returned delivered) (-1 : XWord).toNat with
    ⟨_, noSegment⟩ | ⟨header, other, found, foundSegment, renders⟩
  · have covers := covers_last reaches
    rw [List.find?_eq_none] at noSegment
    exact absurd (decide_eq_true covers) (noSegment segment member)
  · have first := List.find?_some foundSegment
    have covers : other.region.Covers (-1 : XWord).toNat := of_decide_eq_true first
    rw [found, Option.bind_some, byteAt_eq renders ((covers_iff renders _).mp covers)]
    exact Option.some_ne_none _

/-- Where the reads deliver the segments, the program finds at each of its addresses what the file
describes, through the loader's translation and wherever `malloc` has put the segments, exactly if
no segment reaches the top of the address space. -/
theorem image_read_iff (returned : loaderMain (.binary env) = .ok image)
    (delivered : AllDelivered env image.phdrs) (placed : Placed image.segments) :
    (∀ vaddr, image.read vaddr = env.file.memory image.phdrs vaddr) ↔
      ∀ header ∈ image.phdrs, header.isLoad = true →
        header.vaddr.toNat + header.memsz.toNat < 2 ^ 64 := by
  have tables := belowTop_iff (image_rendered returned delivered)
  constructor
  · intro same header member isLoad
    refine tables.mp (fun segment inTable => ?_) header (List.mem_filter.mpr ⟨member, isLoad⟩)
    by_cases below : segment.BelowTop
    · exact below
    · have last := same (-1)
      rw [Image.read, vaddrToHost_last] at last
      exact absurd last.symm (memory_last returned delivered inTable below)
  · intro below
    refine read_eq_memory returned delivered placed (tables.mpr fun header member => ?_)
    exact below header (List.mem_filter.mp member).1 (List.mem_filter.mp member).2

end Runs

def sharingHeaders : List Phdr :=
  [{ sampleSegment with filesz := 4 }, { sampleSegment with vaddr := 0x400008, filesz := 16 }]

def sharingFile : File :=
  { bytes := encodeHeaders { sampleHeader with phnum := 2 } sharingHeaders
    bounded := by decide +kernel }

private theorem sharingFile_delivered :
    AllDelivered (sampleEnvironment sharingFile) sharingHeaders := by
  have limited : ∀ limit ∈ (some (2 ^ 63) : Option Nat), 16 ≤ limit := by
    intro limit same
    rw [← Option.some.inj same]
    decide
  have long : 16 ≤ sharingFile.bytes.length := by decide +kernel
  intro load member
  have reads : loadReads (readsBeforeLoading sharingHeaders) sharingHeaders =
      sharingHeaders.zip [5, 6] := by decide
  rw [reads] at member
  rcases List.mem_pair.mp member with rfl | rfl
  · exact .inr ⟨Nat.le_trans (by decide) long,
      fun limit same => Nat.le_trans (by decide) (limited limit same)⟩
  · exact .inr ⟨long, limited⟩

private theorem sharing_placed {segments : List LoadedSegment}
    (table : segments.map (fun segment => (segment.host.address, segment.size)) =
      [(0x2000, 16), (0x3000, 16)]) : Placed segments := by
  rcases segments with _ | ⟨first, _ | ⟨second, _ | ⟨third, rest⟩⟩⟩
  · simp at table
  · simp at table
  · simp only [List.map_cons, List.map_nil, List.cons.injEq, Prod.mk.injEq, and_true] at table
    rcases table with ⟨⟨firstHost, firstSize⟩, secondHost, secondSize⟩
    constructor
    · intro segment member
      rcases List.mem_pair.mp member with rfl | rfl
      · rw [LoadedSegment.HostBelowTop, firstHost, firstSize]
        decide
      · rw [LoadedSegment.HostBelowTop, secondHost, secondSize]
        decide
    · refine List.pairwise_pair.mpr fun place here there => ?_
      have below : place < first.host.address.toNat + first.size.toNat := here.2
      have above : second.host.address.toNat ≤ place := there.1
      rw [firstHost, firstSize] at below
      rw [secondHost] at above
      have apart : (0x2000 : XWord).toNat + (16 : XWord).toNat ≤ (0x3000 : XWord).toNat := by decide
      omega
  · simp at table

theorem image_read_of_sharing :
    ∃ image, loaderMain (.binary (sampleEnvironment sharingFile)) = .ok image ∧
      (∀ vaddr, image.read vaddr = sharingFile.memory image.phdrs vaddr) ∧
      sharingFile.memory image.phdrs 0x400001 = some 0x45 ∧
      sharingFile.memory image.phdrs 0x400008 = some 0 := by
  have ran : (loaderMain (.binary (sampleEnvironment sharingFile))).toOption.map
      (fun image => (image.phdrs, image.segments.map fun segment =>
        (segment.host.address, segment.size))) =
      some (sharingHeaders, [(0x2000, 16), (0x3000, 16)]) := by
    decide +kernel
  rcases returns_of_toOption ran with ⟨image, returned, view⟩
  rcases Prod.mk.inj view with ⟨phdrs, table⟩
  refine ⟨image, returned,
    (image_read_iff returned (phdrs ▸ sharingFile_delivered) (sharing_placed table)).mpr ?_, ?_, ?_⟩
  · rw [phdrs]
    decide
  · rw [phdrs]
    decide +kernel
  · rw [phdrs]
    decide +kernel

end SystemsRepository.ElfLoader
