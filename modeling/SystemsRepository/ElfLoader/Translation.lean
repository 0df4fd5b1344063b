import SystemsRepository.Foundation.Regions
import SystemsRepository.ElfLoader.Headers

/-! # Translating addresses

The loader's translation of virtual addresses against the table of segments read in
integers: when it finds every covered address, and where its results lie.
-/

namespace SystemsRepository.ElfLoader

open SystemsRepository.Foundation

def LoadedSegment.region (segment : LoadedSegment) : Region where
  start := segment.virtAddr.toNat
  size := segment.size.toNat
  target := segment.host.address.toNat

def LoadedSegment.BelowTop (segment : LoadedSegment) : Prop :=
  segment.virtAddr.toNat + segment.size.toNat < 2 ^ 64

def LoadedSegment.HostBelowTop (segment : LoadedSegment) : Prop :=
  segment.host.address.toNat + segment.size.toNat ≤ 2 ^ 64

def coveredHost (vaddr : XWord) (segments : List LoadedSegment) : Option XWord :=
  (segments.find? fun segment => segment.region.Covers vaddr.toNat).map fun segment =>
    segment.host.address + (vaddr - segment.virtAddr)

/-- Exactly the covered addresses are translated. -/
def TranslationComplete (segments : List LoadedSegment) : Prop :=
  ∀ vaddr, vaddrToHost vaddr segments = coveredHost vaddr segments

instance (segment : LoadedSegment) : Decidable segment.BelowTop :=
  inferInstanceAs (Decidable (_ < _))

variable {vaddr : XWord} {segment : LoadedSegment} {segments : List LoadedSegment}

/-! ## One segment -/

def LoadedSegment.Matched (segment : LoadedSegment) (vaddr : XWord) : Prop :=
  segment.virtAddr ≤ vaddr ∧ vaddr < segment.virtAddr + segment.size

instance : Decidable (segment.Matched vaddr) := inferInstanceAs (Decidable (_ ∧ _))

private theorem vaddrToHost_eq_find :
    vaddrToHost vaddr segments =
      (segments.find? fun segment => segment.Matched vaddr).map fun segment =>
        segment.host.address + (vaddr - segment.virtAddr) := by
  induction segments with
  | nil => rfl
  | cons segment segments induction =>
      rw [vaddrToHost, List.find?_cons, induction]
      by_cases matched : segment.Matched vaddr
      · rw [decide_eq_true matched]
        exact if_pos matched
      · rw [decide_eq_false matched]
        exact if_neg matched

/-- The end of a segment is computed modulo 2^64: one that reaches the top of the
address space matches nothing. -/
theorem matched_iff :
    segment.Matched vaddr ↔ segment.BelowTop ∧ segment.region.Covers vaddr.toNat := by
  simp only [LoadedSegment.Matched, LoadedSegment.BelowTop, LoadedSegment.region,
    Region.Covers, BitVec.le_def, BitVec.lt_def, BitVec.toNat_add]
  omega

private theorem offset_lt (matched : segment.Matched vaddr) :
    (vaddr - segment.virtAddr).toNat = vaddr.toNat - segment.virtAddr.toNat ∧
      (vaddr - segment.virtAddr).toNat < segment.size.toNat := by
  rcases (matched_iff.mp matched).2 with ⟨reached, inside⟩
  change segment.virtAddr.toNat ≤ vaddr.toNat at reached
  change vaddr.toNat < segment.virtAddr.toNat + segment.size.toNat at inside
  have exact := BitVec.toNat_sub_of_le (show segment.virtAddr ≤ vaddr from reached)
  omega

/-- The place of a matched address, in memory that does not wrap around. -/
theorem toNat_host (matched : segment.Matched vaddr) (host : segment.HostBelowTop) :
    (segment.host.address + (vaddr - segment.virtAddr)).toNat =
      segment.region.placeOf vaddr.toNat := by
  rcases offset_lt matched with ⟨offset, inside⟩
  unfold LoadedSegment.HostBelowTop at host
  rw [BitVec.toNat_add, Nat.mod_eq_of_lt (by omega), offset]
  rfl

/-! ## Completeness -/

theorem translationComplete_of_belowTop (below : ∀ segment ∈ segments, segment.BelowTop) :
    TranslationComplete segments := by
  intro vaddr
  rw [vaddrToHost_eq_find, coveredHost]
  congr 1
  induction segments with
  | nil => rfl
  | cons segment segments induction =>
      have same : segment.Matched vaddr ↔ segment.region.Covers vaddr.toNat := by
        rw [matched_iff]
        exact and_iff_right (below segment List.mem_cons_self)
      have rest := induction fun other later => below other (List.mem_cons_of_mem segment later)
      rw [List.find?_cons, List.find?_cons, rest, decide_eq_decide.mpr same]

/-- The last address is covered by a segment that reaches it, and never translated. -/
theorem covers_last (reaches : ¬segment.BelowTop) :
    segment.region.Covers (-1 : XWord).toNat := by
  have bound := segment.virtAddr.isLt
  unfold LoadedSegment.BelowTop at reaches
  constructor
  · change segment.virtAddr.toNat ≤ 2 ^ 64 - 1
    omega
  · change 2 ^ 64 - 1 < segment.virtAddr.toNat + segment.size.toNat
    omega

theorem vaddrToHost_last : vaddrToHost (-1) segments = none := by
  rw [vaddrToHost_eq_find, Option.map_eq_none_iff, List.find?_eq_none]
  intro segment _
  rw [decide_eq_true_eq, matched_iff]
  intro matched
  have below : segment.virtAddr.toNat + segment.size.toNat < 2 ^ 64 := matched.1
  have last : 2 ^ 64 - 1 < segment.virtAddr.toNat + segment.size.toNat := matched.2.2
  omega

private theorem belowTop_of_translationComplete (complete : TranslationComplete segments) :
    ∀ segment ∈ segments, segment.BelowTop := by
  intro segment member
  by_contra reaches
  have last := (complete (-1)).symm.trans vaddrToHost_last
  rw [coveredHost, Option.map_eq_none_iff, List.find?_eq_none] at last
  exact last segment member (decide_eq_true (covers_last reaches))

private theorem tests_translated {env : Environment} {image : Image}
    (returned : loaderMain (.binary env) = .ok image) :
    ∀ test ∈ (image.header.entry, image.entryHost) :: image.tests,
      test.2 = vaddrToHost test.1 image.segments := by
  rcases loaderMain_finished returned with ⟨headers, middle, final, _, loading⟩
  rcases loadImage_finished loading with ⟨header, _, _, _, _, entry, seg, rest, _, tests⟩
  intro test member
  rcases List.mem_cons.mp member with rfl | later
  · rw [header]
    exact entry
  · rw [tests] at later
    rcases List.mem_map.mp later with ⟨vaddr, _, rfl⟩
    rfl

/-- Every address is translated as the segments cover it exactly when no segment reaches
the top of the address space; the addresses that a run tests are translated as any other. -/
theorem translation_complete_iff (segments : List LoadedSegment) :
    (TranslationComplete segments ↔ ∀ segment ∈ segments, segment.BelowTop) ∧
      ∀ env image, loaderMain (.binary env) = .ok image → image.segments = segments →
        TranslationComplete segments →
        ∀ test ∈ (image.header.entry, image.entryHost) :: image.tests,
          test.2 = coveredHost test.1 segments := by
  refine ⟨⟨belowTop_of_translationComplete, translationComplete_of_belowTop⟩, ?_⟩
  intro env image returned table complete test member
  rw [tests_translated returned test member, table]
  exact complete test.1

def topSegment : Phdr := { sampleSegment with vaddr := 0xfffffffffffffff0 }

def topFile : File :=
  { bytes := encodeHeaders sampleHeader [topSegment], bounded := by decide +kernel }

/-- The test of the last byte fails, although the segment covers it. -/
theorem top_segment_untranslated :
    ∃ image, loaderMain (.binary (sampleEnvironment topFile)) = .ok image ∧
      (-1, none) ∈ image.tests ∧ (∃ segment ∈ image.segments,
        segment.region.Covers (-1 : XWord).toNat) ∧ ¬TranslationComplete image.segments := by
  have ran : (loaderMain (.binary (sampleEnvironment topFile))).toOption.map
      (fun image => (image.segments.map fun segment => (segment.virtAddr, segment.size),
        image.tests.map Prod.fst)) =
      some ([(0xfffffffffffffff0, 16)], [0xfffffffffffffff0, 0, -1, 0]) := by
    decide +kernel
  rcases returns_of_toOption ran with ⟨image, returned, view⟩
  rcases Prod.mk.inj view with ⟨table, addresses⟩
  have last : (-1 : XWord) ∈ image.tests.map Prod.fst := by
    rw [addresses]
    decide
  rcases List.mem_map.mp last with ⟨test, member, isLast⟩
  have untranslated := tests_translated returned test (List.mem_cons_of_mem _ member)
  rw [isLast, vaddrToHost_last] at untranslated
  have only : (0xfffffffffffffff0, 16) ∈
      image.segments.map fun segment => (segment.virtAddr, segment.size) := by
    rw [table]
    exact List.mem_singleton_self _
  rcases List.mem_map.mp only with ⟨segment, inTable, extent⟩
  rcases Prod.mk.inj extent with ⟨start, size⟩
  have reaches : ¬segment.BelowTop := by
    rw [LoadedSegment.BelowTop, start, size]
    decide
  refine ⟨image, returned, ?_, ⟨segment, inTable, covers_last reaches⟩, ?_⟩
  · have same : test = (-1, none) := Prod.ext isLast untranslated
    exact same ▸ member
  · intro complete
    exact reaches (belowTop_of_translationComplete complete segment inTable)

/-! ## Soundness -/

private theorem vaddrToHost_refines (hosts : ∀ segment ∈ segments, segment.HostBelowTop) :
    (vaddrToHost vaddr segments).map BitVec.toNat =
      Region.translate
        ((segments.filter fun segment => segment.BelowTop).map LoadedSegment.region)
        vaddr.toNat := by
  induction segments with
  | nil => rfl
  | cons segment segments induction =>
      have rest := induction fun other later => hosts other (List.mem_cons_of_mem segment later)
      rw [vaddrToHost]
      by_cases matched : segment.Matched vaddr
      · rcases matched_iff.mp matched with ⟨below, covers⟩
        rw [List.filter_cons, if_pos (decide_eq_true below), List.map_cons,
          Region.translate_cons_of_covers covers,
          ← toNat_host matched (hosts segment List.mem_cons_self)]
        exact congrArg _ (if_pos matched)
      · refine (congrArg _ (if_neg matched)).trans (rest.trans ?_)
        by_cases below : segment.BelowTop
        · have outside : ¬segment.region.Covers vaddr.toNat :=
            fun covers => matched (matched_iff.mpr ⟨below, covers⟩)
          rw [List.filter_cons, if_pos (decide_eq_true below), List.map_cons,
            Region.translate_cons_of_not_covers outside]
        · rw [List.filter_cons, if_neg (by simpa using below)]

private theorem vaddrToHost_matched {host : XWord}
    (found : vaddrToHost vaddr segments = some host) : ∃ segment ∈ segments, segment.Matched vaddr ∧
      host = segment.host.address + (vaddr - segment.virtAddr) := by
  rw [vaddrToHost_eq_find] at found
  rcases Option.map_eq_some_iff.mp found with ⟨segment, first, placed⟩
  have matched := List.find?_some first
  exact ⟨segment, List.mem_of_find?_eq_some first, of_decide_eq_true matched, placed.symm⟩

/-- A result is in the memory of a segment, whatever the addresses of the table are; where
the memories are disjoint no two addresses share a byte. -/
theorem vaddrToHost_sound (segments : List LoadedSegment) :
    (∀ vaddr host, vaddrToHost vaddr segments = some host →
      ∃ segment ∈ segments, (host - segment.host.address).toNat < segment.size.toNat ∧
        (segment.HostBelowTop → segment.region.Holds host.toNat)) ∧
    ((∀ segment ∈ segments, segment.HostBelowTop) →
      segments.Pairwise (fun segment other => segment.region.Apart other.region) →
      ∀ first second host, vaddrToHost first segments = some host →
        vaddrToHost second segments = some host → first = second) := by
  constructor
  · intro vaddr host found
    rcases vaddrToHost_matched found with ⟨segment, member, matched, rfl⟩
    refine ⟨segment, member, ?_, ?_⟩
    · rw [BitVec.add_comm, BitVec.add_sub_cancel]
      exact (offset_lt matched).2
    · intro below
      rw [toNat_host matched below]
      exact (matched_iff.mp matched).2.holds_placeOf
  · intro hosts apart first second host left right
    have apartBelow : ((segments.filter fun segment => segment.BelowTop).map
        LoadedSegment.region).Pairwise Region.Apart :=
      List.pairwise_map.mpr (apart.filter _)
    have leftPlace : Region.translate _ first.toNat = some host.toNat :=
      (vaddrToHost_refines hosts).symm.trans (congrArg (Option.map BitVec.toNat) left)
    have rightPlace : Region.translate _ second.toNat = some host.toNat :=
      (vaddrToHost_refines hosts).symm.trans (congrArg (Option.map BitVec.toNat) right)
    exact BitVec.eq_of_toNat_eq (Region.translate_injective apartBelow leftPlace rightPlace)

def overlapping : List LoadedSegment :=
  [{ host := ⟨0x1000, 16, fun _ => 0⟩, virtAddr := 0x400000, size := 16, flags := 4 },
    { host := ⟨0x2000, 16, fun _ => 0⟩, virtAddr := 0x400008, size := 16, flags := 4 }]

/-- A shared address goes to the first segment, and its byte is the byte of no other. -/
theorem overlapping_sound :
    vaddrToHost 0x400008 overlapping = some 0x1008 ∧
      ∀ vaddr, vaddrToHost vaddr overlapping = some 0x1008 → vaddr = 0x400008 := by
  have shared : vaddrToHost 0x400008 overlapping = some 0x1008 := by decide
  refine ⟨shared, ?_⟩
  intro vaddr found
  refine (vaddrToHost_sound overlapping).2 ?_ ?_ vaddr 0x400008 0x1008 found shared
  · intro segment member
    rcases List.mem_pair.mp member with rfl | rfl <;>
      · simp only [LoadedSegment.HostBelowTop]
        decide
  · refine List.pairwise_pair.mpr ?_
    intro place here there
    have below : place < 0x1000 + 16 := here.2
    have above : 0x2000 ≤ place := there.1
    omega

end SystemsRepository.ElfLoader
