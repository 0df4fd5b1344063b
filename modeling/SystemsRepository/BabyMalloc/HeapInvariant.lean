import SystemsRepository.Foundation.Execution
import SystemsRepository.BabyMalloc.Refinement

/-! # The heap invariant over whole runs

A client calls the allocator any number of times, freeing only `NULL` or
pointers it holds. The block list in the pool then evolves as the list
operations say, which gives the invariant of every state of every run.
-/

namespace SystemsRepository.BabyMalloc

open SystemsRepository.Foundation

/-- The heap, and the pointers returned to the client and not freed since. -/
structure State where
  heap : Heap
  live : List Nat

inductive Call
  | internalAllocation (size : SizeT)
  | bbyMalloc (size : SizeT)
  | bbyFree (ptr : Pointer)
  deriving DecidableEq, Repr

namespace Call

def requestedSize : Call → Option SizeT
  | .internalAllocation size => some size
  | .bbyMalloc size => some size
  | .bbyFree _ => none

end Call

namespace State

def initial : State := { heap := Heap.uninitialised, live := [] }

def returned (state : State) (result : Pointer) (heap : Heap) : State :=
  { heap, live := result.toList ++ state.live }

def freed (state : State) (ptr : Pointer) (heap : Heap) : State :=
  { heap, live := ptr.elim state.live state.live.erase }

end State

def execute : Call → State → Option State
  | .internalAllocation size, state =>
      (internalAllocation size state.heap).map fun (result, heap) =>
        state.returned result heap
  | .bbyMalloc size, state =>
      (bbyMalloc size state.heap).map fun (_, out, heap) => state.returned out heap
  | .bbyFree ptr, state => (bbyFree ptr state.heap).map (state.freed ptr)

def allocator : Machine State Call := { execute }

/-- The client frees `NULL` or a pointer it holds. -/
def Allowed (state : State) : Call → Prop
  | .bbyFree ptr => ∀ held ∈ ptr, held ∈ state.live
  | _ => True

instance : ∀ state call, Decidable (Allowed state call)
  | _, .internalAllocation _ => .isTrue trivial
  | _, .bbyMalloc _ => .isTrue trivial
  | state, .bbyFree ptr => inferInstanceAs (Decidable (∀ held ∈ ptr, held ∈ state.live))

/-! ## Runs of the block list -/

/-- The pool as `init_allocator` lays it out. -/
def wholePool : Block :=
  { offset := freeList, size := poolSize - sizeofBlockMeta, free := true }

def allocateBlocks (size : SizeT) (blocks : List Block) : List Block :=
  ((firstFit (roundUp size).toNat blocks).map Prod.snd).getD blocks

def applyCall (blocks : List Block) : Call → List Block
  | .internalAllocation size => allocateBlocks size blocks
  | .bbyMalloc size => allocateBlocks size blocks
  | .bbyFree none => blocks
  | .bbyFree (some pointer) => release pointer blocks

/-- The state's heap holds these blocks, and the client holds their payloads.
Before the first allocation the list is the one `init_allocator` will create. -/
structure Represents (state : State) (blocks : List Block) : Prop where
  pool : (state.heap = Heap.uninitialised ∧ blocks = [wholePool]) ∨
    (state.heap.isInitialized = true ∧ Linked state.heap (some freeList) blocks)
  wellFormed : WellFormed 0 blocks poolSize
  live : (usedPointers blocks).Perm state.live

private theorem wellFormed_wholePool : WellFormed 0 [wholePool] poolSize where
  tiles := ⟨rfl, rfl⟩
  aligned block member := by
    cases List.mem_singleton.mp member
    decide

theorem represents_initial : Represents State.initial [wholePool] where
  pool := .inl ⟨rfl, rfl⟩
  wellFormed := wellFormed_wholePool
  live := List.Perm.refl []

theorem WellFormed.length_le_walkLimit {blocks : List Block}
    (wellFormed : WellFormed 0 blocks poolSize) : blocks.length ≤ walkLimit := by
  have headers := wellFormed.tiles.length_mul_header_le
  simp only [poolSize, sizeofBlockMeta] at headers
  simp only [walkLimit, poolSize, sizeofBlockMeta]
  omega

private theorem initAllocator_links : ∃ heap, initAllocator Heap.uninitialised = some heap ∧
    heap.isInitialized = true ∧ Linked heap (some freeList) [wholePool] := by
  rcases Heap.uninitialised.exists_store
    { size := BitVec.ofNat 64 (poolSize - sizeofBlockMeta), free := true, next := none }
    (by decide : freeList + sizeofBlockMeta ≤ poolSize) with ⟨stored, storedEq⟩
  refine ⟨{ stored with isInitialized := true }, ?_, rfl, ?_⟩
  · simp [initAllocator, storedEq]
  · have loaded := Heap.load_of_store storedEq
    exact ⟨rfl, _, loaded, ⟨by decide, rfl⟩, rfl⟩

theorem initOnce_refines {state : State} {blocks : List Block}
    (represents : Represents state blocks) :
    ∃ heap, initOnce state.heap = some heap ∧ heap.isInitialized = true ∧
      Linked heap (some freeList) blocks := by
  rcases represents.pool with ⟨untouched, whole⟩ | ⟨initialised, linked⟩
  · rw [untouched, whole]
    exact initAllocator_links
  · exact ⟨state.heap, by simp [initOnce, initialised], initialised, linked⟩

/-- An allocation returns, whether or not the allocator was initialised. -/
theorem internalAllocation_refines {state : State} {blocks : List Block}
    (represents : Represents state blocks) (size : SizeT) :
    ∃ result heap after, internalAllocation size state.heap = some (result, heap) ∧
      heap.isInitialized = true ∧ Linked heap (some freeList) after ∧
      AllocationOutcome (roundUp size).toNat blocks result after := by
  rcases initOnce_refines represents with ⟨heap, ready, initialised, linked⟩
  rcases searchFrom_refines (roundUp size) linked represents.wellFormed
    represents.wellFormed.length_le_walkLimit with
    ⟨result, heapAfter, after, searched, outcome, linkedAfter, same⟩
  refine ⟨result, heapAfter, after, ?_, same.1.trans initialised, linkedAfter, outcome⟩
  simp only [internalAllocation, ready, Option.bind_eq_bind, Option.bind_some]
  exact searched

theorem bbyMalloc_eq (size : SizeT) (heap : Heap) :
    bbyMalloc size heap = (internalAllocation size heap).map fun (result, after) =>
      (if result.isSome then 1 else 0, result, after) := by
  cases allocated : internalAllocation size heap with
  | none => simp [bbyMalloc, allocated]
  | some outcome =>
      rcases outcome with ⟨_ | _, _⟩ <;> simp [bbyMalloc, allocated]

theorem execute_allocation (call : Call) {size : SizeT}
    (asks : call.requestedSize = some size) (state : State) :
    execute call state = (internalAllocation size state.heap).map fun (result, heap) =>
      state.returned result heap := by
  cases call with
  | internalAllocation asked => cases asks; rfl
  | bbyMalloc asked =>
      cases asks
      rw [execute, bbyMalloc_eq, Option.map_map]
      rfl
  | bbyFree ptr => cases asks

theorem applyCall_allocation (call : Call) {size : SizeT}
    (asks : call.requestedSize = some size) (blocks : List Block) :
    applyCall blocks call = allocateBlocks size blocks := by
  cases call with
  | internalAllocation asked => cases asks; rfl
  | bbyMalloc asked => cases asks; rfl
  | bbyFree ptr => cases asks

theorem allocation_represents {state : State} {blocks : List Block} (call : Call)
    {size : SizeT} (asks : call.requestedSize = some size)
    (represents : Represents state blocks) :
    ∃ next, execute call state = some next ∧
      Represents next (applyCall blocks call) ∧ next.heap.isInitialized = true := by
  rcases internalAllocation_refines represents size with
    ⟨result, heap, after, allocated, initialised, linked, outcome⟩
  refine ⟨state.returned result heap, ?_, ?_, initialised⟩
  · rw [execute_allocation call asks, allocated]
    rfl
  · rw [applyCall_allocation call asks]
    unfold AllocationOutcome at outcome
    cases found : firstFit (roundUp size).toNat blocks with
    | none =>
        rw [found] at outcome
        rcases outcome with ⟨rfl, rfl⟩
        simp only [allocateBlocks, found, Option.map_none, Option.getD_none]
        exact ⟨.inr ⟨initialised, linked⟩, represents.wellFormed, represents.live⟩
    | some taken =>
        rcases taken with ⟨pointer, carved⟩
        rw [found] at outcome
        rcases outcome with ⟨rfl, rfl⟩
        simp only [allocateBlocks, found, Option.map_some, Option.getD_some]
        refine ⟨.inr ⟨initialised, linked⟩, ?_, ?_⟩
        · exact wellFormed_firstFit (roundUp_aligned size) represents.wellFormed found
        · exact (usedPointers_firstFit found).trans (represents.live.cons pointer)

theorem release_represents {state : State} {blocks : List Block} {pointer : Nat}
    (represents : Represents state blocks) (held : pointer ∈ state.live) :
    ∃ next, execute (.bbyFree (some pointer)) state = some next ∧
      Represents next (release pointer blocks) ∧
      next.heap.isInitialized = state.heap.isInitialized := by
  have used : pointer ∈ usedPointers blocks := represents.live.mem_iff.mpr held
  rcases represents.pool with ⟨_, whole⟩ | ⟨initialised, linked⟩
  · rw [whole] at used
    cases used
  · rcases bbyFree_refines linked represents.wellFormed used with
      ⟨heap, freed, linkedAfter, same⟩
    refine ⟨state.freed (some pointer) heap, by simp [execute, freed], ?_, same.1⟩
    refine ⟨.inr ⟨same.1.trans initialised, linkedAfter⟩,
      wellFormed_release represents.wellFormed, ?_⟩
    have removed := usedPointers_release represents.wellFormed used
    have erased := (removed.symm.trans represents.live).erase pointer
    simpa [State.freed] using erased

/-- Every call the client may make returns, and does to the represented list
what `applyCall` says. -/
theorem execute_represents {state : State} {blocks : List Block} {call : Call}
    (represents : Represents state blocks) (allowed : Allowed state call) :
    ∃ next, execute call state = some next ∧ Represents next (applyCall blocks call) ∧
      (next.heap.isInitialized = true ↔
        state.heap.isInitialized = true ∨ call.requestedSize.isSome = true) := by
  cases call with
  | internalAllocation size =>
      rcases allocation_represents (.internalAllocation size) rfl represents with
        ⟨next, executed, after, initialised⟩
      exact ⟨next, executed, after, by simp [initialised, Call.requestedSize]⟩
  | bbyMalloc size =>
      rcases allocation_represents (.bbyMalloc size) rfl represents with
        ⟨next, executed, after, initialised⟩
      exact ⟨next, executed, after, by simp [initialised, Call.requestedSize]⟩
  | bbyFree ptr =>
      cases ptr with
      | none => exact ⟨state, rfl, represents, by simp [Call.requestedSize]⟩
      | some pointer =>
          rcases release_represents represents (allowed pointer rfl) with
            ⟨next, executed, after, same⟩
          exact ⟨next, executed, after, by simp [same, Call.requestedSize]⟩

/-- A run the client may make never faults, and its final heap holds the blocks
computed by the list operations. Once any call has allocated, the allocator is
initialised. -/
theorem run_represents : ∀ {calls : List Call} {state : State} {blocks : List Block},
    Represents state blocks → allocator.Permits Allowed state calls →
    ∃ final, allocator.run calls state = some final ∧
      Represents final (calls.foldl applyCall blocks) ∧
      ((state.heap.isInitialized = true ∨
          ∃ call ∈ calls, call.requestedSize.isSome = true) →
        final.heap.isInitialized = true) := by
  intro calls
  induction calls with
  | nil =>
      intro state blocks represents _
      refine ⟨state, rfl, represents, ?_⟩
      rintro (initialised | ⟨call, member, _⟩)
      · exact initialised
      · cases member
  | cons call calls induction =>
      intro state blocks represents permits
      rcases execute_represents represents permits.1 with
        ⟨next, executed, nextRepresents, initialisedIff⟩
      rcases induction nextRepresents (permits.rest executed) with
        ⟨final, finished, finalRepresents, initialised⟩
      refine ⟨final, ?_, finalRepresents, ?_⟩
      · simp only [Machine.run]
        rw [show allocator.execute call state = some next from executed]
        exact finished
      · rintro (before | ⟨asking, member, asks⟩)
        · exact initialised (.inl (initialisedIff.mpr (.inl before)))
        · rcases List.mem_cons.mp member with same | later
          · subst same
            exact initialised (.inl (initialisedIff.mpr (.inr asks)))
          · exact initialised (.inr ⟨asking, later, asks⟩)

/-! ## The invariant -/

namespace Block

def InHeader (address : Nat) (block : Block) : Prop :=
  block.offset ≤ address ∧ address < block.offset + sizeofBlockMeta

def InPayload (address : Nat) (block : Block) : Prop :=
  block.offset + sizeofBlockMeta ≤ address ∧
    address < block.offset + sizeofBlockMeta + block.size

end Block

/-- What holds of the heap once it has been initialised: the walk from
`memory_pool` visits `blocks`, which tile the pool, and the blocks in use are
exactly the ones whose payloads the client holds. -/
structure HeapInvariant (state : State) (blocks : List Block) : Prop where
  walked : walk state.heap = some blocks
  tiles : poolLayout.Tiles 0 blocks poolSize
  aligned : ∀ block ∈ blocks, 8 ∣ block.size
  liveNodup : state.live.Nodup
  owner : ∀ pointer ∈ state.live, ∃ block ∈ blocks, block.free = false ∧
    block.offset + sizeofBlockMeta = pointer ∧
    ∀ other ∈ blocks, other.offset + sizeofBlockMeta = pointer → other = block
  held : ∀ block ∈ blocks, block.free = false →
    block.offset + sizeofBlockMeta ∈ state.live
  payloadInPool : ∀ block ∈ blocks, ∀ address, block.InPayload address →
    address < poolSize
  payloadsDisjoint : ∀ left ∈ blocks, ∀ right ∈ blocks, left ≠ right →
    ∀ address, left.InPayload address → ¬right.InPayload address
  payloadNoHeader : ∀ left ∈ blocks, ∀ right ∈ blocks,
    ∀ address, left.InPayload address → ¬right.InHeader address

/-- Two blocks of a well-formed list that are not the same block lie apart. -/
theorem WellFormed.apart {left right : Block} {blocks : List Block} {start stop : Nat}
    (wellFormed : WellFormed start blocks stop)
    (leftMember : left ∈ blocks) (rightMember : right ∈ blocks) (different : left ≠ right) :
    left.offset + sizeofBlockMeta + left.size ≤ right.offset ∨
      right.offset + sizeofBlockMeta + right.size ≤ left.offset :=
  wellFormed.tiles.disjoint leftMember rightMember different

theorem Represents.heapInvariant {state : State} {blocks : List Block}
    (represents : Represents state blocks)
    (initialised : state.heap.isInitialized = true) : HeapInvariant state blocks := by
  have wellFormed := represents.wellFormed
  have linked : Linked state.heap (some freeList) blocks := by
    rcases represents.pool with ⟨untouched, _⟩ | ⟨_, linked⟩
    · rw [untouched] at initialised
      cases initialised
    · exact linked
  constructor
  · exact linked.walkFrom_eq wellFormed.length_le_walkLimit
  · exact wellFormed.tiles
  · exact wellFormed.aligned
  · exact represents.live.nodup_iff.mp wellFormed.usedPointers_nodup
  · intro pointer member
    rcases mem_usedPointers.mp (represents.live.mem_iff.mpr member) with
      ⟨block, blockMember, used, payloadEq⟩
    refine ⟨block, blockMember, used, payloadEq, ?_⟩
    intro other otherMember otherPayload
    exact wellFormed.eq_of_payload_eq otherMember blockMember
      (otherPayload.trans payloadEq.symm)
  · intro block member used
    exact represents.live.mem_iff.mp
      (mem_usedPointers.mpr ⟨block, member, used, rfl⟩)
  · rintro block member address ⟨_, above⟩
    have inside : block.offset + sizeofBlockMeta + block.size ≤ poolSize :=
      (wellFormed.tiles.bounds member).2
    omega
  · rintro left leftMember right rightMember different address ⟨_, _⟩ ⟨_, _⟩
    rcases wellFormed.apart leftMember rightMember different with before | after <;> omega
  · rintro left leftMember right rightMember address ⟨_, _⟩ ⟨_, _⟩
    rcases Classical.em (left = right) with same | different
    · subst same
      omega
    · rcases wellFormed.apart leftMember rightMember different with before | after <;> omega

/-- From the uninitialised allocator, every run of allocations and of frees of
held pointers returns at every call, and from the first allocation on the heap
invariant holds. -/
theorem heap_invariant {calls : List Call}
    (permits : allocator.Permits Allowed State.initial calls) :
    ∃ state, allocator.run calls State.initial = some state ∧
      ((∃ call ∈ calls, call.requestedSize.isSome = true) →
        ∃ blocks, HeapInvariant state blocks) := by
  rcases run_represents represents_initial permits with
    ⟨state, finished, represents, initialised⟩
  exact ⟨state, finished, fun allocated =>
    ⟨_, represents.heapInvariant (initialised (.inr allocated))⟩⟩

def demoCalls : List Call :=
  [.internalAllocation 100, .bbyMalloc 200, .bbyFree (some 24), .bbyFree none,
    .internalAllocation 50]

theorem heap_invariant_of_demo :
    ∃ state, allocator.run demoCalls State.initial = some state ∧
      ∃ blocks, HeapInvariant state blocks := by
  have permits : allocator.Permits Allowed State.initial demoCalls := by decide +kernel
  rcases heap_invariant permits with ⟨state, finished, invariant⟩
  exact ⟨state, finished, invariant ⟨.internalAllocation 100, by decide, rfl⟩⟩

end SystemsRepository.BabyMalloc
