import SystemsRepository.BabyMalloc.Coalescing
import SystemsRepository.BabyMalloc.FirstFit

/-! # What a free gives back

A free directly behind an allocation restores the list, up to a merge with a
free successor; and a free never makes a request fail that succeeded before.
-/

namespace SystemsRepository.BabyMalloc

open SystemsRepository.Foundation

/-! ## Merging neighbouring free blocks -/

def coalesce : List Block → List Block
  | [] => []
  | block :: blocks =>
      if block.free then combine block (coalesce blocks) else block :: coalesce blocks

/-- The free byte ranges, neighbouring free blocks counting as one range. -/
def freeRanges (blocks : List Block) : List (Nat × Nat) :=
  ((coalesce blocks).filter fun block => block.free).map fun block =>
    (block.offset, block.finish)

def usedBlocks (blocks : List Block) : List Block := blocks.filter fun block => !block.free

theorem coalesce_eq_self : ∀ {blocks : List Block}, NoAdjacentFree blocks →
    coalesce blocks = blocks
  | [], _ => rfl
  | block :: blocks, coalesced => by
      rcases List.isChain_cons.mp coalesced with ⟨apart, restCoalesced⟩
      rw [coalesce, coalesce_eq_self restCoalesced]
      cases free : block.free with
      | false => rfl
      | true =>
          cases blocks with
          | nil => rfl
          | cons next rest =>
              have nextUsed : next.free = false := by
                have notBoth := apart next rfl
                simpa [NotBothFree, free] using notBoth
              simp [combine, nextUsed]

private theorem coalesce_append_congr {left right : List Block} (before : List Block)
    (same : coalesce left = coalesce right) :
    coalesce (before ++ left) = coalesce (before ++ right) := by
  induction before with
  | nil => exact same
  | cons head tail induction => simp only [List.cons_append, coalesce, induction]

private theorem combine_combine {block next : Block} (blocks : List Block)
    (nextFree : next.free = true) :
    combine block (combine next blocks) =
      combine { block with size := block.size + (sizeofBlockMeta + next.size) } blocks := by
  cases blocks with
  | nil => simp [combine, nextFree]
  | cons third rest =>
      cases thirdFree : third.free with
      | false => simp [combine, nextFree, thirdFree]
      | true => simp [combine, nextFree, thirdFree, Nat.add_assoc]

private theorem coalesce_combine {block : Block} (free : block.free = true) (blocks : List Block) :
    coalesce (combine block blocks) = coalesce (block :: blocks) := by
  cases blocks with
  | nil => rfl
  | cons next rest =>
      cases nextFree : next.free with
      | false => simp [combine, nextFree]
      | true =>
          have merged : combine block (next :: rest) =
              { block with size := block.size + (sizeofBlockMeta + next.size) } :: rest := by
            simp [combine, nextFree]
          rw [merged]
          simp only [coalesce, nextFree, free, if_true]
          rw [combine_combine _ nextFree, free]

theorem usedBlocks_combine {block : Block} (free : block.free = true) (blocks : List Block) :
    usedBlocks (combine block blocks) = usedBlocks blocks := by
  cases blocks with
  | nil => simp [combine, usedBlocks, free]
  | cons next rest =>
      cases nextFree : next.free <;> simp [combine, usedBlocks, free, nextFree]

/-! ## Allocation and free -/

theorem release_append {pointer : Nat} {block : Block} (rest : List Block)
    (here : block.payload = pointer) : ∀ {before : List Block},
    (∀ earlier ∈ before, earlier.payload ≠ pointer) →
      release pointer (before ++ block :: rest) =
        before ++ combine { block with free := true } rest
  | [], _ => by simp [release, here]
  | head :: tail, apart => by
      simp only [List.cons_append, release, apart head (by simp), if_false]
      rw [release_append rest here fun earlier member => apart earlier (by simp [member])]

/-- In a tiling, the blocks listed before another have other payloads. -/
theorem WellFormed.payload_ne_of_before {before rest : List Block} {block earlier : Block}
    {start stop : Nat} (wellFormed : WellFormed start (before ++ block :: rest) stop)
    (member : earlier ∈ before) : earlier.payload ≠ block.payload := by
  intro equal
  have ordered := List.pairwise_append.mp wellFormed.tiles.pairwise
  have apart : earlier.offset + 24 + earlier.size ≤ block.offset :=
    ordered.2.2 earlier member block (by simp)
  have same : earlier.offset + 24 = block.offset + 24 := equal
  omega

/-- Releasing what first fit took merges the taken block's remains, or leaves it
whole and merges it with a free successor. -/
theorem release_firstFit {request pointer start stop : Nat} {blocks after : List Block}
    (found : firstFit request blocks = some (pointer, after))
    (wellFormed : WellFormed start after stop) :
    ∃ before block rest, blocks = before ++ block :: rest ∧ block.free = true ∧
      (release pointer after = blocks ∨
        release pointer after = before ++ combine block rest) := by
  rcases firstFit_eq_some found with ⟨before, block, rest, split, _, fits, rfl, rfl⟩
  refine ⟨before, block, rest, split, fits.1, ?_⟩
  have blockFree : { block with free := true } = block := by
    rw [← fits.1]
  by_cases splits : request + sizeofBlockMeta < block.size
  · left
    simp only [carve, splits, if_true, List.cons_append, List.nil_append] at wellFormed ⊢
    refine (release_append _ rfl fun _ member =>
      wellFormed.payload_ne_of_before member).trans ?_
    have sizeEq : request + (sizeofBlockMeta + (block.size - request - sizeofBlockMeta)) =
        block.size := by
      omega
    simp only [combine, if_true, sizeEq]
    rw [split, blockFree]
  · right
    simp only [carve, splits, if_false, List.cons_append, List.nil_append] at wellFormed ⊢
    refine (release_append _ rfl fun _ member =>
      wellFormed.payload_ne_of_before member).trans ?_
    rw [blockFree]

/-- At every reachable state, a free directly after a successful allocation
leaves the same blocks in use and the same free ranges, and the very same list
when no two neighbouring blocks were free before. -/
theorem free_undoes_allocation {state : State} (reachable : Reachable state) {size : SizeT}
    {pointer : Nat} {heap : Heap}
    (allocated : internalAllocation size state.heap = some (some pointer, heap)) :
    ∃ freed blocks after, bbyFree (some pointer) heap = some freed ∧
      searchedBlocks state.heap = some blocks ∧ walk freed = some after ∧
      usedBlocks after = usedBlocks blocks ∧ freeRanges after = freeRanges blocks ∧
      (NoAdjacentFree blocks → after = blocks) := by
  rcases reachable.represents with ⟨blocks, represents⟩
  rcases internalAllocation_cases represents size with
    ⟨_, heap, nothing, _⟩ | ⟨other, after, otherHeap, found, took, _, linked, wellFormed⟩
  · rw [nothing] at allocated
    cases allocated
  · rw [took] at allocated
    cases allocated
    have used : pointer ∈ usedPointers after :=
      (usedPointers_firstFit found).mem_iff.mpr List.mem_cons_self
    rcases bbyFree_refines linked wellFormed used with ⟨freed, freedEq, linkedFreed, _⟩
    have walked := linkedFreed.walkFrom_eq
      (wellFormed_release wellFormed).length_le_walkLimit
    refine ⟨freed, blocks, _, freedEq, represents.searchedBlocks_eq, walked, ?_⟩
    rcases release_firstFit found wellFormed with
      ⟨before, block, rest, split, free, restored | merged⟩
    · rw [restored]
      exact ⟨rfl, rfl, fun _ => rfl⟩
    · rw [merged, split]
      refine ⟨?_, ?_, ?_⟩
      · have dropped : usedBlocks (block :: rest) = usedBlocks rest := by
          simp [usedBlocks, free]
        have combined := usedBlocks_combine free rest
        simp only [usedBlocks] at dropped combined
        simp only [usedBlocks, List.filter_append, dropped, combined]
      · rw [freeRanges, coalesce_append_congr before (coalesce_combine free rest), freeRanges]
      · intro coalesced
        have right : NoAdjacentFree (block :: rest) := (List.isChain_append.mp coalesced).2.1
        have apart := coalesce_eq_self right
        rw [coalesce, coalesce_eq_self (List.isChain_cons.mp right).2, free, if_pos rfl] at apart
        rw [apart]

theorem free_undoes_allocation_of_demo :
    ∃ state, allocator.run demoCalls State.initial = some state ∧
      ∃ pointer heap freed after, internalAllocation 100 state.heap = some (some pointer, heap) ∧
        bbyFree (some pointer) heap = some freed ∧ walk freed = some after ∧
        ∃ blocks, searchedBlocks state.heap = some blocks ∧
          usedBlocks after = usedBlocks blocks := by
  rcases demo_finishes with ⟨state, finished, reachable, _⟩
  have computed : (allocator.run demoCalls State.initial).bind (fun final =>
      (internalAllocation 100 final.heap).bind Prod.fst) = some 376 := by
    decide +kernel
  rw [finished, Option.bind_some, Option.bind_eq_some_iff] at computed
  rcases computed with ⟨⟨result, heap⟩, allocated, isPointer⟩
  cases isPointer
  rcases free_undoes_allocation reachable allocated with
    ⟨freed, blocks, after, freedEq, searched, walked, same, _⟩
  exact ⟨state, finished, 376, heap, freed, after, allocated, freedEq, walked, blocks,
    searched, same⟩

/-! ## Requests after a free -/

def Succeeds (size : SizeT) (heap : Heap) : Prop :=
  ∃ pointer after, internalAllocation size heap = some (some pointer, after)

theorem succeeds_iff {state : State} {blocks : List Block}
    (represents : Represents state blocks) (size : SizeT) :
    Succeeds size state.heap ↔ ∃ block ∈ blocks, block.Fits (roundUp size).toNat := by
  rcases internalAllocation_cases represents size with
    ⟨nothing, heap, allocated, _⟩ | ⟨pointer, after, heap, found, allocated, _⟩
  · have noFit := firstFit_eq_none_iff.mp nothing
    constructor
    · rintro ⟨pointer, after, succeeded⟩
      rw [allocated] at succeeded
      cases succeeded
    · rintro ⟨block, member, fits⟩
      exact absurd fits (noFit block member)
  · refine ⟨fun _ => ?_, fun _ => ⟨pointer, heap, allocated⟩⟩
    rcases firstFit_eq_some found with ⟨before, block, rest, split, _, fits, _⟩
    exact ⟨block, by simp [split], fits⟩

private theorem exists_fits_combine {request : Nat} {block fitting : Block} {blocks : List Block}
    (member : fitting ∈ block :: blocks) (fits : fitting.Fits request)
    (free : block.free = true) : ∃ serving ∈ combine block blocks, serving.Fits request := by
  cases blocks with
  | nil => exact ⟨fitting, member, fits⟩
  | cons next rest =>
      cases nextFree : next.free with
      | false => exact ⟨fitting, by simpa [combine, nextFree] using member, fits⟩
      | true =>
          simp only [combine, nextFree, if_true]
          have room := fits.2
          rcases List.mem_cons.mp member with same | member
          · subst same
            refine ⟨_, List.mem_cons_self, free, ?_⟩
            show request ≤ fitting.size + (24 + next.size)
            omega
          · rcases List.mem_cons.mp member with same | later
            · subst same
              refine ⟨_, List.mem_cons_self, free, ?_⟩
              show request ≤ block.size + (24 + fitting.size)
              omega
            · exact ⟨fitting, List.mem_cons_of_mem _ later, fits⟩

/-- After a release, a request is served by a block that could serve it before,
or by the released one. -/
theorem exists_fits_release {request pointer start stop : Nat} {blocks : List Block}
    {fitting : Block} (wellFormed : WellFormed start blocks stop)
    (used : pointer ∈ usedPointers blocks) (member : fitting ∈ blocks)
    (room : request ≤ fitting.size) (serves : fitting.free = true ∨ fitting.payload = pointer) :
    ∃ serving ∈ release pointer blocks, serving.Fits request := by
  rcases release_split used with ⟨before, block, rest, split, here, released⟩
  have blockMember : block ∈ blocks := by simp [split]
  rw [released]
  have combined : ∀ other ∈ { block with free := true } :: rest, other.Fits request →
      ∃ serving ∈ before ++ combine { block with free := true } rest,
        serving.Fits request := by
    intro other otherMember fits
    rcases exists_fits_combine otherMember fits rfl with ⟨serving, servingMember, servingFits⟩
    exact ⟨serving, List.mem_append_right _ servingMember, servingFits⟩
  by_cases isReleased : fitting.payload = pointer
  · have same : fitting = block :=
      wellFormed.eq_of_payload_eq member blockMember (isReleased.trans here.symm)
    subst same
    exact combined _ List.mem_cons_self ⟨rfl, room⟩
  · have fits : fitting.Fits request := ⟨serves.resolve_right isReleased, room⟩
    rw [split] at member
    rcases List.mem_append.mp member with earlier | later
    · exact ⟨fitting, List.mem_append_left _ earlier, fits⟩
    · rcases List.mem_cons.mp later with same | later
      · exact absurd (same ▸ here) isReleased
      · exact combined fitting (List.mem_cons_of_mem _ later) fits

private theorem roundUp_le {size : SizeT} {bound : Nat} (aligned : 8 ∣ bound)
    (small : size.toNat ≤ bound) (inPool : bound ≤ poolSize) : (roundUp size).toNat ≤ bound := by
  rw [roundUp_toNat]
  simp only [poolSize] at inPool
  omega

/-- At every reachable state, freeing a pointer in use makes no request fail
that succeeded before, and every request up to the size of the freed block
succeeds. -/
theorem free_is_monotone {state : State} (reachable : Reachable state) {pointer : Nat}
    (held : pointer ∈ state.live) :
    ∃ header freed, state.heap.load (pointer - sizeofBlockMeta) = some header ∧
      bbyFree (some pointer) state.heap = some freed ∧
      (∀ size, Succeeds size state.heap → Succeeds size freed) ∧
      ∀ size ≤ header.size, Succeeds size freed := by
  rcases reachable.represents with ⟨blocks, represents⟩
  have wellFormed := represents.wellFormed
  have used : pointer ∈ usedPointers blocks := represents.live.mem_iff.mpr held
  have initialised := represents.isInitialized_of_mem_live held
  rcases represents.pool with ⟨untouched, _⟩ | ⟨_, linked⟩
  · rw [untouched] at initialised
    cases initialised
  · rcases mem_usedPointers.mp used with ⟨block, member, _, here⟩
    rcases linked.exists_load member with ⟨header, loaded, describes⟩
    have offsetEq : pointer - sizeofBlockMeta = block.offset := by
      rw [← here, Block.payload_eq, Nat.add_sub_cancel]
    rcases release_represents represents held with ⟨next, executed, after, _⟩
    rcases Option.map_eq_some_iff.mp executed with ⟨freed, freedEq, nextEq⟩
    have heapEq : next.heap = freed := by rw [← nextEq]; rfl
    refine ⟨header, freed, offsetEq ▸ loaded, freedEq, ?_, ?_⟩
    · intro size succeeded
      rcases (succeeds_iff represents size).mp succeeded with ⟨fitting, fitMember, fits⟩
      rw [← heapEq, succeeds_iff after]
      exact exists_fits_release wellFormed used fitMember fits.2 (.inl fits.1)
    · intro size enough
      rw [BitVec.le_def, describes.1] at enough
      rw [← heapEq, succeeds_iff after]
      apply exists_fits_release wellFormed used member _ (.inr here)
      have inside : block.offset + sizeofBlockMeta + block.size ≤ poolSize :=
        (wellFormed.tiles.bounds member).2
      exact roundUp_le (wellFormed.aligned block member) enough (by omega)

theorem free_is_monotone_of_demo :
    ∃ state, allocator.run demoCalls State.initial = some state ∧
      ∃ header freed, state.heap.load (152 - sizeofBlockMeta) = some header ∧
        bbyFree (some 152) state.heap = some freed ∧
        ∀ size ≤ header.size, Succeeds size freed := by
  rcases demo_finishes with ⟨state, finished, reachable, _⟩
  have computed : (allocator.run demoCalls State.initial).map State.live = some [24, 152] := by
    decide +kernel
  rw [finished, Option.map_some, Option.some.injEq] at computed
  rcases free_is_monotone reachable (by simp [computed] : 152 ∈ state.live) with
    ⟨header, freed, loaded, freedEq, _, succeeds⟩
  exact ⟨state, finished, header, freed, loaded, freedEq, succeeds⟩

end SystemsRepository.BabyMalloc
