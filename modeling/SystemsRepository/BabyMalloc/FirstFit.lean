import SystemsRepository.BabyMalloc.HeapInvariant

/-! # What an allocation takes

Which block of the list an allocation takes, what it leaves of it, and how many
bytes the caller is granted.
-/

namespace SystemsRepository.BabyMalloc

open SystemsRepository.Foundation

/-! ## Reachable states -/

def Reachable (state : State) : Prop :=
  ∃ calls, allocator.Permits Allowed State.initial calls ∧
    allocator.run calls State.initial = some state

theorem Reachable.represents {state : State} (reachable : Reachable state) :
    ∃ blocks, Represents state blocks := by
  rcases reachable with ⟨calls, permits, finished⟩
  rcases run_represents represents_initial permits with
    ⟨final, finalFinished, represents, _⟩
  have same : final = state := Option.some.inj (finalFinished.symm.trans finished)
  exact ⟨_, same ▸ represents⟩

def searchedBlocks (heap : Heap) : Option (List Block) := (initOnce heap).bind walk

theorem Represents.searchedBlocks_eq {state : State} {blocks : List Block}
    (represents : Represents state blocks) : searchedBlocks state.heap = some blocks := by
  rcases initOnce_refines represents with ⟨heap, ready, _, linked⟩
  rw [searchedBlocks, ready]
  exact linked.walkFrom_eq represents.wellFormed.length_le_walkLimit

theorem demo_finishes : ∃ state, allocator.run demoCalls State.initial = some state ∧
    Reachable state ∧ state.heap.isInitialized = true := by
  have permits : allocator.Permits Allowed State.initial demoCalls := by decide +kernel
  rcases run_represents represents_initial permits with ⟨state, finished, _, initialised⟩
  exact ⟨state, finished, ⟨demoCalls, permits, finished⟩,
    initialised (.inr ⟨.internalAllocation 100, by decide, rfl⟩)⟩

theorem Linked.exists_load {heap : Heap} {block : Block} :
    ∀ {blocks : List Block} {head : Pointer}, Linked heap head blocks → block ∈ blocks →
      ∃ header, heap.load block.offset = some header ∧ header.Describes block
  | first :: blocks, _, ⟨_, header, loaded, describes, rest⟩, member => by
      rcases List.mem_cons.mp member with same | later
      · exact ⟨header, same ▸ loaded, same ▸ describes⟩
      · exact rest.exists_load later

/-! ## The search -/

theorem firstFit_eq_none_iff {request : Nat} : ∀ {blocks : List Block},
    firstFit request blocks = none ↔ ∀ block ∈ blocks, ¬block.Fits request
  | [] => by simp [firstFit]
  | head :: tail => by
      by_cases fits : head.Fits request
      · simp [firstFit, fits]
      · simp only [firstFit, fits, if_false, Option.map_eq_none_iff,
          List.forall_mem_cons, not_false_eq_true, true_and]
        exact firstFit_eq_none_iff

private theorem takeBlock_ne_none {request : SizeT} {curr : Nat} {block : BlockMeta}
    {heap after : Heap} : takeBlock request curr block heap ≠ some (none, after) := by
  intro took
  simp only [takeBlock, Option.bind_eq_bind, Option.bind_eq_some_iff] at took
  rcases took with ⟨marked, _, rest⟩
  split at rest
  · simp [Option.bind_eq_some_iff] at rest
  · simp at rest

private theorem searchFrom_eq_none {request : SizeT} : ∀ {fuel : Nat} {pointer : Pointer}
    {heap after : Heap}, searchFrom fuel request pointer heap = some (none, after) →
      after = heap
  | 0, none, _, _, searched => by
      simpa [searchFrom, eq_comm] using searched
  | _ + 1, none, _, _, searched => by
      simpa [searchFrom, eq_comm] using searched
  | fuel + 1, some curr, heap, after, searched => by
      simp only [searchFrom, Option.bind_eq_bind, Option.bind_eq_some_iff] at searched
      rcases searched with ⟨block, _, rest⟩
      split at rest
      · exact absurd rest takeBlock_ne_none
      · exact searchFrom_eq_none rest

/-- The allocation of a reachable state, by what first fit does to its list. -/
theorem internalAllocation_cases {state : State} {blocks : List Block}
    (represents : Represents state blocks) (size : SizeT) :
    (firstFit (roundUp size).toNat blocks = none ∧
      ∃ heap, internalAllocation size state.heap = some (none, heap) ∧
        initOnce state.heap = some heap) ∨
    (∃ pointer after heap, firstFit (roundUp size).toNat blocks = some (pointer, after) ∧
      internalAllocation size state.heap = some (some pointer, heap) ∧
      heap.isInitialized = true ∧ Linked heap (some freeList) after ∧
      WellFormed 0 after poolSize) := by
  rcases internalAllocation_refines represents size with
    ⟨result, heap, after, allocated, initialised, linked, outcome⟩
  unfold AllocationOutcome at outcome
  cases found : firstFit (roundUp size).toNat blocks with
  | none =>
      rw [found] at outcome
      rcases outcome with ⟨rfl, rfl⟩
      rcases initOnce_refines represents with ⟨ready, readyEq, _, _⟩
      refine .inl ⟨rfl, heap, allocated, ?_⟩
      simp only [internalAllocation, readyEq, Option.bind_eq_bind, Option.bind_some] at allocated
      rw [readyEq, searchFrom_eq_none allocated]
  | some taken =>
      rcases taken with ⟨pointer, carved⟩
      rw [found] at outcome
      rcases outcome with ⟨rfl, rfl⟩
      exact .inr ⟨pointer, _, heap, rfl, allocated, initialised, linked,
        wellFormed_firstFit (roundUp_aligned size) represents.wellFormed found⟩

/-! ## First fit -/

/-- What an allocation does, at every reachable state and for every size: `NULL`
exactly when no free block is large enough, and then nothing is written beyond
the initial layout of the pool; otherwise the free block of the lowest address
that is large enough is taken, and only a remainder directly behind it is new. -/
theorem allocation_first_fit {state : State} (reachable : Reachable state) (size : SizeT) :
    ∃ blocks result heap after,
      searchedBlocks state.heap = some blocks ∧
      internalAllocation size state.heap = some (result, heap) ∧
      walk heap = some after ∧
      (result = none ↔ ∀ block ∈ blocks, ¬block.Fits (roundUp size).toNat) ∧
      (result = none → after = blocks ∧ initOnce state.heap = some heap ∧
        (state.heap.isInitialized = true → heap = state.heap)) ∧
      ∀ pointer, result = some pointer →
        ∃ before block rest, blocks = before ++ block :: rest ∧
          block.Fits (roundUp size).toNat ∧
          (∀ other ∈ blocks, other.Fits (roundUp size).toNat → block.offset ≤ other.offset) ∧
          pointer = block.offset + sizeofBlockMeta ∧
          ((roundUp size).toNat + sizeofBlockMeta < block.size →
            after = before ++ { block with size := (roundUp size).toNat, free := false } ::
              { offset := block.offset + sizeofBlockMeta + (roundUp size).toNat
                size := block.size - (roundUp size).toNat - sizeofBlockMeta
                free := true } :: rest) ∧
          (¬(roundUp size).toNat + sizeofBlockMeta < block.size →
            after = before ++ { block with free := false } :: rest) := by
  rcases reachable.represents with ⟨blocks, represents⟩
  have searched := represents.searchedBlocks_eq
  rcases internalAllocation_cases represents size with
    ⟨nothing, heap, allocated, ready⟩ |
    ⟨pointer, after, heap, found, allocated, _, linked, wellFormed⟩
  · have walked : walk heap = some blocks := by
      rw [searchedBlocks, ready] at searched
      exact searched
    refine ⟨blocks, none, heap, blocks, searched, allocated, walked, ?_, ?_, ?_⟩
    · exact ⟨fun _ => firstFit_eq_none_iff.mp nothing, fun _ => rfl⟩
    · intro _
      refine ⟨rfl, ready, ?_⟩
      intro initialised
      simpa [initOnce, initialised, eq_comm] using ready
    · intro pointer impossible
      cases impossible
  · refine ⟨blocks, some pointer, heap, after, searched, allocated,
      linked.walkFrom_eq wellFormed.length_le_walkLimit, ?_, ?_, ?_⟩
    · rw [← firstFit_eq_none_iff, found]
      simp
    · intro impossible
      cases impossible
    · intro _ same
      cases same
      rcases firstFit_eq_some found with
        ⟨before, block, rest, split, earlier, fits, pointerEq, afterEq⟩
      refine ⟨before, block, rest, split, fits, ?_, pointerEq, ?_, ?_⟩
      · intro other member otherFits
        rw [split] at member
        rcases List.mem_append.mp member with isEarlier | later
        · exact absurd otherFits (earlier other isEarlier)
        · have tiles := represents.wellFormed.tiles
          rw [split] at tiles
          rcases Layout.tiles_append.mp tiles with ⟨middle, _, starts, restTiles⟩
          have above : middle ≤ other.offset :=
            ((Layout.tiles_cons.mpr ⟨starts, restTiles⟩).bounds later).1
          exact Nat.le_trans (Nat.le_of_eq starts) above
      · intro splits
        simp [afterEq, carve, splits]
      · intro whole
        simp [afterEq, carve, whole]

theorem allocation_first_fit_of_demo :
    ∃ state, allocator.run demoCalls State.initial = some state ∧
      ∃ result heap, internalAllocation 2000000 state.heap = some (result, heap) ∧
        (result = none → heap = state.heap) := by
  rcases demo_finishes with ⟨state, finished, reachable, initialised⟩
  rcases allocation_first_fit reachable 2000000 with
    ⟨_, result, heap, _, _, allocated, _, _, nothing, _⟩
  exact ⟨state, finished, result, heap, allocated, fun isNull => (nothing isNull).2.2 initialised⟩

/-! ## Granted bytes -/

/-- A pointer that was returned lies behind a header which records at least
`size` bytes. -/
def Covers (size : SizeT) (heap : Heap) (result : Pointer) : Prop :=
  ∀ pointer ∈ result, ∃ header,
    heap.load (pointer - sizeofBlockMeta) = some header ∧ size ≤ header.size

/-- The size that the block taken for a request keeps. -/
def granted (request : Nat) (block : Block) : Nat :=
  if request + sizeofBlockMeta < block.size then request else block.size

theorem mem_carve_granted (request : Nat) (block : Block) :
    { block with size := granted request block, free := false } ∈ carve request block := by
  by_cases splits : request + sizeofBlockMeta < block.size <;> simp [granted, carve, splits]

theorem le_roundUp {size : SizeT} (small : size.toNat ≤ 2 ^ 64 - 8) :
    size.toNat ≤ (roundUp size).toNat := by
  rw [roundUp_toNat]
  omega

private theorem roundUp_wraps {size : SizeT} (large : ¬size.toNat ≤ 2 ^ 64 - 8) :
    (roundUp size).toNat = 0 := by
  have bound := size.isLt
  rw [roundUp_toNat]
  omega

/-- After first fit the header before the returned pointer records the granted
size of the block taken. -/
theorem covers_iff_granted {request pointer : Nat} {blocks after : List Block} {heap : Heap}
    {head : Pointer} (size : SizeT)
    (found : firstFit request blocks = some (pointer, after)) (linked : Linked heap head after) :
    ∃ block ∈ blocks, block.Fits request ∧
      (Covers size heap (some pointer) ↔ size.toNat ≤ granted request block) := by
  rcases firstFit_eq_some found with
    ⟨before, block, rest, split, _, fits, pointerEq, afterEq⟩
  refine ⟨block, by simp [split], fits, ?_⟩
  have member : { block with size := granted request block, free := false } ∈ after := by
    rw [afterEq]
    simp [mem_carve_granted]
  rcases linked.exists_load member with ⟨header, loaded, describes⟩
  have sizeEq : header.size.toNat = granted request block := describes.1
  have offsetEq : pointer - sizeofBlockMeta = block.offset := by
    rw [pointerEq, Block.payload_eq, Nat.add_sub_cancel]
  rw [← sizeEq, ← BitVec.le_def]
  constructor
  · intro covers
    rcases covers pointer rfl with ⟨other, otherLoaded, enough⟩
    rw [offsetEq, loaded] at otherLoaded
    cases otherLoaded
    exact enough
  · intro enough held same
    cases same
    exact ⟨header, offsetEq ▸ loaded, enough⟩

/-- At every reachable state and for every size, the block granted is as large
as the request exactly when rounding the size up does not wrap, or no block is
free so that nothing is granted. -/
theorem granted_size_covers_iff {state : State} (reachable : Reachable state) (size : SizeT) :
    ∃ blocks result heap,
      searchedBlocks state.heap = some blocks ∧
      internalAllocation size state.heap = some (result, heap) ∧
      bbyMalloc size state.heap = some (if result.isSome then 1 else 0, result, heap) ∧
      (Covers size heap result ↔
        size.toNat ≤ 2 ^ 64 - 8 ∨ ∀ block ∈ blocks, block.free = false) := by
  rcases reachable.represents with ⟨blocks, represents⟩
  have wraps : ∀ block : Block, ¬size.toNat ≤ 2 ^ 64 - 8 →
      (block.Fits (roundUp size).toNat ↔ block.free = true) := by
    intro block large
    rw [roundUp_wraps large]
    simp [Block.Fits]
  rcases internalAllocation_cases represents size with
    ⟨nothing, heap, allocated, _⟩ | ⟨pointer, after, heap, found, allocated, _, linked, _⟩
  · refine ⟨blocks, none, heap, represents.searchedBlocks_eq, allocated, ?_, ?_⟩
    · simp [bbyMalloc_eq, allocated]
    · refine ⟨fun _ => ?_, fun _ _ impossible => by cases impossible⟩
      by_cases small : size.toNat ≤ 2 ^ 64 - 8
      · exact .inl small
      · right
        intro block member
        have noFit := firstFit_eq_none_iff.mp nothing block member
        rw [wraps block small] at noFit
        simpa using noFit
  · refine ⟨blocks, some pointer, heap, represents.searchedBlocks_eq, allocated, ?_, ?_⟩
    · simp [bbyMalloc_eq, allocated]
    · rcases covers_iff_granted size found linked with ⟨block, member, fits, coversIff⟩
      rw [coversIff]
      by_cases small : size.toNat ≤ 2 ^ 64 - 8
      · have enough := le_roundUp small
        have requestFits := fits.2
        simp only [small, true_or, iff_true, granted]
        split <;> omega
      · have used : ¬∀ block ∈ blocks, block.free = false := by
          intro allUsed
          have free := fits.1
          rw [allUsed block member] at free
          cases free
        have request := roundUp_wraps small
        simp only [small, used, or_self, iff_false, granted, request]
        simp only [sizeofBlockMeta]
        split <;> omega

theorem granted_size_covers_iff_of_demo :
    ∃ state, allocator.run demoCalls State.initial = some state ∧
      ∃ result heap, internalAllocation 4096 state.heap = some (result, heap) ∧
        Covers 4096 heap result := by
  rcases demo_finishes with ⟨state, finished, reachable, _⟩
  rcases granted_size_covers_iff reachable 4096 with
    ⟨_, result, heap, _, allocated, _, coversIff⟩
  exact ⟨state, finished, result, heap, allocated, coversIff.mpr (.inl (by decide))⟩

/-- The largest size is rounded up to 0, and the first call grants it an empty
block. -/
theorem largest_size_granted_nothing :
    Reachable State.initial ∧
    ∃ heap header, bbyMalloc (BitVec.ofNat 64 (2 ^ 64 - 1)) State.initial.heap =
        some (1, some 24, heap) ∧
      heap.load (24 - sizeofBlockMeta) = some header ∧ header.size = 0 ∧
      ¬Covers (BitVec.ofNat 64 (2 ^ 64 - 1)) heap (some 24) := by
  have computed : (bbyMalloc (BitVec.ofNat 64 (2 ^ 64 - 1)) State.initial.heap).map
      (fun outcome => (outcome.1, outcome.2.1, outcome.2.2.load (24 - sizeofBlockMeta))) =
      some (1, some 24, some { size := 0, free := false, next := some 24 }) := by
    decide +kernel
  rcases Option.map_eq_some_iff.mp computed with ⟨⟨status, result, heap⟩, allocated, observed⟩
  simp only [Prod.mk.injEq] at observed
  rcases observed with ⟨rfl, rfl, loaded⟩
  refine ⟨⟨[], trivial, rfl⟩, heap, _, allocated, loaded, rfl, ?_⟩
  intro covers
  rcases covers 24 rfl with ⟨header, otherLoaded, enough⟩
  rw [loaded] at otherLoaded
  cases otherLoaded
  exact absurd enough (by decide)

end SystemsRepository.BabyMalloc
