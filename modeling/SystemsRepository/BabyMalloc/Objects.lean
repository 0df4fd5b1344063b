import SystemsRepository.BabyMalloc.Freeing
import SystemsRepository.BabyMalloc.Memory

/-! # Objects in the pool

A client allocates objects, writes into the ones it holds and releases them. For it the
bytes of the pool are a store of separate objects: each holds what was last written to
it, whatever else is allocated, written or released.
-/

namespace SystemsRepository.BabyMalloc

open SystemsRepository.Foundation

structure Object where
  pointer : Nat
  contents : List (BitVec 8)
  deriving DecidableEq, Repr

def Object.write (object : Object) (index : Nat) (byte : BitVec 8) : Object :=
  { object with contents := object.contents.set index byte }

inductive ClientCall
  | malloc (size : SizeT)
  | free (ptr : Nat)
  | write (ptr index : Nat) (byte : BitVec 8)
  deriving DecidableEq, Repr

/-! ## Separate objects -/

/-- What a call does to the objects of a client. A new one holds any bytes. -/
inductive ObjectStep (objects : List Object) : ClientCall → List Object → Prop
  | refused {size : SizeT} : ObjectStep objects (.malloc size) objects
  | granted {size : SizeT} {object : Object} (sized : object.contents.length = size.toNat)
      (fresh : ∀ other ∈ objects, other.pointer ≠ object.pointer) :
      ObjectStep objects (.malloc size) (object :: objects)
  | freed {ptr : Nat} :
      ObjectStep objects (.free ptr) (objects.filter fun object => object.pointer ≠ ptr)
  | written {ptr index : Nat} {byte : BitVec 8} :
      ObjectStep objects (.write ptr index byte)
        (objects.map fun object => if object.pointer = ptr then object.write index byte else object)

inductive ObjectRun : List Object → List ClientCall → List Object → Prop
  | nil {objects : List Object} : ObjectRun objects [] objects
  | cons {objects middle final : List Object} {call : ClientCall} {calls : List ClientCall}
      (step : ObjectStep objects call middle) (rest : ObjectRun middle calls final) :
      ObjectRun objects (call :: calls) final

/-! ## The client -/

/-- The memory, and each pointer that the client holds with the size it asked for. -/
structure ClientState where
  memory : Memory
  held : List (Nat × Nat)

/-- A pointer is held if `bby_malloc` returns 1. -/
def clientCall (pool : Nat) : ClientCall → ClientState → Option ClientState
  | .malloc size, state =>
      (state.memory.bbyMalloc pool size).map fun (returned, out, memory) =>
        { memory, held := if returned = 0 then state.held else (out, size.toNat) :: state.held }
  | .free ptr, state =>
      (state.memory.bbyFree pool ptr).map fun memory =>
        { memory, held := state.held.filter fun entry => entry.1 ≠ ptr }
  | .write ptr index byte, state =>
      some { state with
        memory.bytes := state.memory.bytes.storeWord (ptr + index) 1 byte.toNat }

def client (pool : Nat) : Machine ClientState ClientCall where
  execute := clientCall pool

/-- The client frees `NULL` or what it holds, writes into what it holds, and asks for no more
bytes than can be rounded up. -/
def Owned (state : ClientState) : ClientCall → Prop
  | .malloc size => size.toNat ≤ 2 ^ 64 - 8
  | .free ptr => ptr = 0 ∨ ∃ entry ∈ state.held, entry.1 = ptr
  | .write ptr index _ => ∃ entry ∈ state.held, entry.1 = ptr ∧ index < entry.2

instance : ∀ state call, Decidable (Owned state call)
  | _, .malloc _ => inferInstanceAs (Decidable (_ ≤ _))
  | state, .free ptr => inferInstanceAs (Decidable (ptr = 0 ∨ ∃ entry ∈ state.held, entry.1 = ptr))
  | state, .write ptr index _ =>
      inferInstanceAs (Decidable (∃ entry ∈ state.held, entry.1 = ptr ∧ index < entry.2))

structure Untouched (pool : Nat) (state : ClientState) : Prop where
  isInitialized : state.memory.isInitialized = false
  zero : ∀ place, pool ≤ place → place < pool + poolSize → state.memory.bytes place = 0
  held : state.held = []

/-- The objects are those that the client holds: they lie in the pool, apart from each other,
and their bytes are in the memory. -/
structure ObjectsHeld (pool : Nat) (state : ClientState) (objects : List Object) : Prop where
  held : state.held = objects.map fun object => (object.pointer, object.contents.length)
  inside : ∀ object ∈ objects, pool < object.pointer ∧
    object.pointer + object.contents.length ≤ pool + poolSize
  apart : objects.Pairwise fun left right =>
    left.pointer + left.contents.length < right.pointer ∨
      right.pointer + right.contents.length < left.pointer
  stored : ∀ object ∈ objects, ∀ index byte, object.contents[index]? = some byte →
    state.memory.bytes (object.pointer + index) = byte

/-! ## Headers of a list -/

section Lists

variable {blocks after : List Block} {block : Block} {request pointer : Nat}

private theorem WellFormed.first_offset (wellFormed : WellFormed 0 blocks poolSize) :
    freeList ∈ blocks.map Block.offset := by
  cases blocks with
  | nil => exact absurd (show 0 = poolSize from wellFormed.tiles) (by decide)
  | cons first rest => exact List.mem_cons.mpr (.inl wellFormed.tiles.1.symm)

private theorem used_firstFit (found : firstFit request blocks = some (pointer, after))
    (member : block ∈ blocks) (used : block.free = false) : block ∈ after := by
  rcases firstFit_eq_some found with ⟨before, taken, rest, rfl, _, fits, _, rfl⟩
  rcases List.mem_append.mp member with earlier | later
  · exact List.mem_append_left _ earlier
  · rcases List.mem_cons.mp later with rfl | later
    · rw [fits.1] at used
      cases used
    · exact List.mem_append_right _ (List.mem_append_right _ later)

private theorem used_release (released : pointer ∈ usedPointers blocks) (member : block ∈ blocks)
    (used : block.free = false) (other : block.payload ≠ pointer) :
    block ∈ release pointer blocks := by
  rcases release_split released with ⟨before, first, rest, rfl, here, same⟩
  rw [same]
  rcases List.mem_append.mp member with earlier | later
  · exact List.mem_append_left _ earlier
  · rcases List.mem_cons.mp later with rfl | later
    · exact absurd here other
    · have left : block ∈ usedBlocks (combine { first with free := true } rest) := by
        rw [usedBlocks_combine rfl]
        exact List.mem_filter.mpr ⟨later, by rw [used]; rfl⟩
      exact List.mem_append_right _ (List.mem_filter.mp left).1

private theorem release_offset (released : pointer ∈ usedPointers blocks) :
    pointer - sizeofBlockMeta ∈ (release pointer blocks).map Block.offset := by
  rcases release_split released with ⟨before, first, rest, rfl, rfl, same⟩
  have place : first.payload - sizeofBlockMeta = first.offset := Nat.add_sub_cancel _ _
  rw [same, place, List.map_append]
  apply List.mem_append_right
  cases rest with
  | nil => exact List.mem_cons_self
  | cons next rest =>
      rw [combine]
      split <;> exact List.mem_cons_self

private theorem takenHeaders_subset {size : SizeT} {curr : Nat} {header : BlockMeta} {heap : Heap}
    {head : Pointer} (wellFormed : WellFormed 0 blocks poolSize) (linked : Linked heap head blocks)
    (found : firstFit size.toNat blocks = some (curr + sizeofBlockMeta, after))
    (loaded : heap.load curr = some header) :
    takenHeaders size curr header ⊆ after.map Block.offset := by
  rcases firstFit_eq_some found with ⟨before, taken, rest, rfl, _, fits, same, rfl⟩
  have place : curr = taken.offset := Nat.add_right_cancel same
  have member : taken ∈ before ++ taken :: rest := by simp
  rcases linked.exists_load member with ⟨other, otherLoaded, describes⟩
  rw [← place, loaded] at otherLoaded
  cases otherLoaded
  have bounds : taken.offset + 24 + taken.size ≤ poolSize := (wellFormed.tiles.bounds member).2
  have room := fits.2
  have small : header.size.toNat ≤ poolSize := by
    rw [describes.1]
    omega
  have splits := @splits_iff header.size size small (by rw [describes.1]; exact fits.2)
  simp only [takenHeaders, carve, splits, describes.1, place, List.map_append]
  apply List.Subset.trans _ (List.subset_append_right _ _)
  split <;> simp

end Lists

/-! ## The calls -/

section Calls

variable {pool : Nat} {state : State} {blocks : List Block} {memory : Memory}

private theorem bbyMalloc_views (positive : 0 < pool) (fits : pool + poolSize ≤ 2 ^ 64)
    (represents : Represents state blocks) (views : Views pool state.heap memory) (size : SizeT) :
    ∃ next returned out after, execute (.bbyMalloc size) state = some next ∧
      Represents next (allocateBlocks size blocks) ∧
      memory.bbyMalloc pool size = some (returned, out, after) ∧ Views pool next.heap after ∧
      SameOutside pool ((allocateBlocks size blocks).map Block.offset) memory after ∧
      (returned = 0 ∨ returned = 1 ∧ ∃ pointer,
        firstFit (roundUp size).toNat blocks = some (pointer, allocateBlocks size blocks) ∧
          out = pool + pointer) := by
  rcases allocation_represents (.bbyMalloc size) rfl represents with ⟨next, executed, after, _⟩
  rw [applyCall] at after
  rcases initOnce_refines represents with ⟨heap, ready, _, linked⟩
  rcases searchFrom_refines (roundUp size) linked represents.wellFormed
    represents.wellFormed.length_le_walkLimit with ⟨result, found, _, searched, outcome, _, _⟩
  have allocated : internalAllocation size state.heap = some (result, found) := by
    rw [internalAllocation, ready]
    exact searched
  have isNext : next.heap = found := by
    rw [execute_allocation (.bbyMalloc size) rfl, allocated] at executed
    cases executed
    rfl
  rcases initOnce_views views ready with ⟨laidOut, readyBytes, viewsReady, sameReady⟩
  rcases searchFrom_views positive fits viewsReady searched with
    ⟨final, searchedBytes, viewsFinal, wrote⟩
  have sameFirst : SameOutside pool ((allocateBlocks size blocks).map Block.offset) memory laidOut :=
    sameReady.mono (by simpa using after.wellFormed.first_offset)
  have allocatedBytes : memory.internalAllocation pool size =
      some (address pool result, final) := by
    rw [Memory.internalAllocation, readyBytes]
    exact searchedBytes
  have called : memory.bbyMalloc pool size =
      some (if address pool result = 0 then 0 else 1, address pool result, final) := by
    rw [Memory.bbyMalloc, allocatedBytes, Option.bind_eq_bind, Option.bind_some]
    dsimp only
    split
    next null =>
      rw [null]
      rfl
    next => rfl
  rw [← isNext] at viewsFinal
  refine ⟨next, _, _, final, executed, after, called, viewsFinal, ?_⟩
  unfold AllocationOutcome at outcome
  cases taken : firstFit (roundUp size).toNat blocks with
  | none =>
      rw [taken] at outcome
      rcases wrote with ⟨_, same⟩ | ⟨curr, block, isSome, _⟩
      · rw [outcome.1, same]
        exact ⟨sameFirst, .inl rfl⟩
      · rw [outcome.1] at isSome
        cases isSome
  | some carved =>
      rw [taken] at outcome
      have isSomeTaken : result = some carved.1 := outcome.1
      have carvedEq : allocateBlocks size blocks = carved.2 := by
        rw [allocateBlocks, taken]
        rfl
      rcases wrote with ⟨isNone, _⟩ | ⟨curr, block, isSome, loaded, same⟩
      · rw [isNone] at isSomeTaken
        cases isSomeTaken
      · have pointerEq : carved.1 = curr + sizeofBlockMeta :=
          Option.some.inj (isSomeTaken.symm.trans isSome)
        have found : firstFit (roundUp size).toNat blocks =
            some (curr + sizeofBlockMeta, allocateBlocks size blocks) := by
          rw [taken, carvedEq, ← pointerEq]
        have subset := takenHeaders_subset represents.wellFormed linked found loaded
        have nonzero : address pool result ≠ 0 := by
          rw [isSome]
          exact mt (address_eq_zero_iff positive).mp fun isNull => by cases isNull
        refine ⟨sameFirst.trans (same.mono subset), .inr ⟨if_neg nonzero, carved.1, ?_, ?_⟩⟩
        · rw [carvedEq]
        · rw [isSomeTaken, address]

private theorem bbyFree_release_views (positive : 0 < pool) (represents : Represents state blocks)
    (views : Views pool state.heap memory) {pointer : Nat} (used : pointer ∈ usedPointers blocks) :
    ∃ next after, Represents next (release pointer blocks) ∧
      memory.bbyFree pool (pool + pointer) = some after ∧ Views pool next.heap after ∧
      SameOutside pool ((release pointer blocks).map Block.offset) memory after := by
  rcases release_represents represents (represents.live.mem_iff.mp used) with
    ⟨next, executed, after, _⟩
  rcases Option.map_eq_some_iff.mp executed with ⟨heap, freed, rfl⟩
  rcases bbyFree_views positive views freed with ⟨final, ran, viewsFinal, same⟩
  have subset : (some pointer).toList.map (· - sizeofBlockMeta) ⊆
      (release pointer blocks).map Block.offset := by
    simpa using release_offset used
  exact ⟨_, final, after, ran, viewsFinal, same.mono subset⟩

end Calls

/-! ## What the client keeps -/

def Object.PlacedIn (object : Object) (pool : Nat) (block : Block) : Prop :=
  block.free = false ∧ object.pointer = pool + block.payload ∧
    object.contents.length ≤ block.size

def Object.StoredIn (object : Object) (memory : Memory) : Prop :=
  ∀ index byte, object.contents[index]? = some byte → memory.bytes (object.pointer + index) = byte

structure Keeps (pool : Nat) (client : ClientState) (objects : List Object) (state : State)
    (blocks : List Block) : Prop where
  represents : Represents state blocks
  views : Views pool state.heap client.memory
  held : client.held = objects.map fun object => (object.pointer, object.contents.length)
  placed : ∀ object ∈ objects, ∃ block ∈ blocks, object.PlacedIn pool block
  distinct : (objects.map Object.pointer).Nodup
  stored : ∀ object ∈ objects, object.StoredIn client.memory

section Keeping

variable {pool : Nat} {client : ClientState} {objects : List Object} {state : State}
  {blocks : List Block}

private theorem Object.StoredIn.lt {object : Object} {index : Nat} {byte : BitVec 8}
    (here : object.contents[index]? = some byte) : index < object.contents.length :=
  (List.getElem?_eq_some_iff.mp here).1

private theorem Object.StoredIn.of_sameOutside {object : Object} {block : Block}
    {memory after : Memory}
    (stored : object.StoredIn memory) (wellFormed : WellFormed 0 blocks poolSize)
    (member : block ∈ blocks) (placed : object.PlacedIn pool block)
    (same : SameOutside pool (blocks.map Block.offset) memory after) : object.StoredIn after := by
  intro index byte here
  have inside := StoredIn.lt here
  have room := placed.2.2
  have pointerEq : object.pointer = pool + (block.offset + 24) := placed.2.1
  rw [← stored index byte here]
  apply same
  intro offset isHeader
  rcases List.mem_map.mp isHeader with ⟨other, otherMember, rfl⟩
  simp only [sizeofBlockMeta]
  by_cases same : block = other
  · rw [same] at pointerEq
    omega
  · rcases wellFormed.apart member otherMember same with before | behind
    · simp only [sizeofBlockMeta] at before
      omega
    · simp only [sizeofBlockMeta] at behind
      omega

private theorem used_allocateBlocks {size : SizeT} {block : Block} (member : block ∈ blocks)
    (used : block.free = false) : block ∈ allocateBlocks size blocks := by
  unfold allocateBlocks
  cases found : firstFit (roundUp size).toNat blocks with
  | none => exact member
  | some taken => exact used_firstFit found member used

private theorem granted_placed {size : SizeT} {pointer : Nat} {after : List Block}
    (small : size.toNat ≤ 2 ^ 64 - 8)
    (found : firstFit (roundUp size).toNat blocks = some (pointer, after)) :
    (∃ block ∈ after, block.free = false ∧ block.payload = pointer ∧ size.toNat ≤ block.size) ∧
      ∃ block ∈ blocks, block.free = true ∧ block.payload = pointer := by
  rcases firstFit_eq_some found with ⟨before, taken, rest, rfl, _, fits, rfl, rfl⟩
  refine ⟨⟨{ taken with size := granted (roundUp size).toNat taken, free := false }, ?_, rfl, rfl,
    ?_⟩, taken, by simp, fits.1, rfl⟩
  · exact List.mem_append_right _ (List.mem_append_left _ (mem_carve_granted _ _))
  · have rounded := le_roundUp small
    have room := fits.2
    unfold granted
    split
    next => exact rounded
    next => exact Nat.le_trans rounded room

private theorem Keeps.pointer_ne {object : Object} {block : Block}
    (keeps : Keeps pool client objects state blocks) (member : block ∈ blocks)
    (free : block.free = true) (isObject : object ∈ objects) :
    object.pointer ≠ pool + block.payload := by
  intro same
  rcases keeps.placed object isObject with ⟨other, otherMember, used, pointerEq, _⟩
  have payloadEq : other.payload = block.payload := by omega
  have sameBlock := keeps.represents.wellFormed.eq_of_payload_eq otherMember member payloadEq
  rw [sameBlock, free] at used
  cases used

theorem Keeps.apart {left right : Object} (keeps : Keeps pool client objects state blocks)
    (isLeft : left ∈ objects) (isRight : right ∈ objects) (different : left.pointer ≠ right.pointer) :
    left.pointer + left.contents.length < right.pointer ∨
      right.pointer + right.contents.length < left.pointer := by
  rcases keeps.placed left isLeft with ⟨first, firstMember, _, leftEq, leftRoom⟩
  rcases keeps.placed right isRight with ⟨second, secondMember, _, rightEq, rightRoom⟩
  have distinct : first ≠ second := by
    intro same
    rw [same, ← rightEq] at leftEq
    exact different leftEq
  rw [Block.payload_eq] at leftEq rightEq
  simp only [sizeofBlockMeta] at leftEq rightEq
  rcases keeps.represents.wellFormed.apart firstMember secondMember distinct with before | after
  · simp only [sizeofBlockMeta] at before
    omega
  · simp only [sizeofBlockMeta] at after
    omega

/-- An allocation leaves the objects as they are, and may make a new one. -/
theorem Keeps.malloc (positive : 0 < pool) (fits : pool + poolSize ≤ 2 ^ 64) {size : SizeT}
    (keeps : Keeps pool client objects state blocks) (small : size.toNat ≤ 2 ^ 64 - 8) :
    ∃ next after nextState, clientCall pool (.malloc size) client = some next ∧
      ObjectStep objects (.malloc size) after ∧
      Keeps pool next after nextState (allocateBlocks size blocks) := by
  rcases bbyMalloc_views positive fits keeps.represents keeps.views size with
    ⟨nextState, returned, out, memory, _, represents, called, views, same, outcome⟩
  have placed : ∀ object ∈ objects, ∃ block ∈ allocateBlocks size blocks,
      object.PlacedIn pool block := by
    intro object member
    rcases keeps.placed object member with ⟨block, blockMember, here⟩
    exact ⟨block, used_allocateBlocks blockMember here.1, here⟩
  have stored : ∀ object ∈ objects, object.StoredIn memory := by
    intro object member
    rcases placed object member with ⟨block, blockMember, here⟩
    exact (keeps.stored object member).of_sameOutside represents.wellFormed blockMember here same
  rw [clientCall, called, Option.map_some]
  rcases outcome with rfl | ⟨rfl, pointer, found, rfl⟩
  · exact ⟨_, objects, nextState, rfl, .refused, represents, views, keeps.held, placed,
      keeps.distinct, stored⟩
  · rcases granted_placed small found with
      ⟨⟨block, blockMember, used, payloadEq, room⟩, taken, takenMember, free, takenEq⟩
    let object : Object :=
      { pointer := pool + pointer
        contents := (List.range size.toNat).map fun index => memory.bytes (pool + pointer + index) }
    have sized : object.contents.length = size.toNat := by
      rw [List.length_map, List.length_range]
    have fresh : ∀ other ∈ objects, other.pointer ≠ object.pointer := by
      intro other member
      rw [show object.pointer = pool + taken.payload by rw [takenEq]]
      exact keeps.pointer_ne takenMember free member
    have isPlaced : object.PlacedIn pool block :=
      ⟨used, by rw [payloadEq], by rw [sized]; exact room⟩
    have isStored : object.StoredIn memory := by
      intro index byte here
      rw [List.getElem?_map, Option.map_eq_some_iff] at here
      rcases here with ⟨position, isIndex, rfl⟩
      rw [List.getElem?_eq_some_iff] at isIndex
      rcases isIndex with ⟨inside, rfl⟩
      rw [List.getElem_range]
    have distinct : ((object :: objects).map Object.pointer).Nodup := by
      rw [List.map_cons, List.nodup_cons]
      refine ⟨?_, keeps.distinct⟩
      intro member
      rcases List.mem_map.mp member with ⟨other, otherMember, same⟩
      exact fresh other otherMember same
    refine ⟨_, object :: objects, nextState, rfl, .granted sized fresh, represents, views, ?_,
      List.forall_mem_cons.mpr ⟨⟨block, blockMember, isPlaced⟩, placed⟩, distinct,
      List.forall_mem_cons.mpr ⟨isStored, stored⟩⟩
    rw [List.map_cons, sized, ← keeps.held]
    rfl

theorem Keeps.free (positive : 0 < pool) {ptr : Nat}
    (keeps : Keeps pool client objects state blocks) (owned : Owned client (.free ptr)) :
    ∃ next nextState after, clientCall pool (.free ptr) client = some next ∧
      Keeps pool next (objects.filter fun object => object.pointer ≠ ptr) nextState after := by
  have held : (client.held.filter fun entry => entry.1 ≠ ptr) =
      (objects.filter fun object => object.pointer ≠ ptr).map fun object =>
        (object.pointer, object.contents.length) := by
    rw [keeps.held, List.filter_map]
    rfl
  have distinct : ((objects.filter fun object => object.pointer ≠ ptr).map Object.pointer).Nodup :=
    keeps.distinct.sublist (List.filter_sublist.map _)
  have remaining : ∀ object ∈ objects.filter (fun object => object.pointer ≠ ptr),
      object ∈ objects ∧ object.pointer ≠ ptr := by
    intro object member
    simpa using member
  rcases owned with rfl | ⟨entry, entryMember, isEntry⟩
  · refine ⟨_, state, blocks, rfl, keeps.represents, keeps.views, held, ?_, distinct, ?_⟩
    · exact fun object member => keeps.placed object (remaining object member).1
    · exact fun object member => keeps.stored object (remaining object member).1
  · rw [keeps.held] at entryMember
    rcases List.mem_map.mp entryMember with ⟨released, releasedMember, rfl⟩
    have isPtr : released.pointer = ptr := isEntry
    subst isPtr
    rcases keeps.placed released releasedMember with ⟨block, blockMember, used, pointerEq, _⟩
    have isUsed : block.payload ∈ usedPointers blocks :=
      mem_usedPointers.mpr ⟨block, blockMember, used, rfl⟩
    rcases bbyFree_release_views positive keeps.represents keeps.views isUsed with
      ⟨nextState, memory, represents, freed, views, same⟩
    have placed : ∀ object ∈ objects.filter (fun object => object.pointer ≠ released.pointer),
        ∃ other ∈ release block.payload blocks, object.PlacedIn pool other := by
      intro object member
      rcases remaining object member with ⟨isObject, different⟩
      rcases keeps.placed object isObject with ⟨other, otherMember, here⟩
      have apart : other.payload ≠ block.payload := by
        intro equal
        rw [here.2.1, pointerEq, equal] at different
        exact different rfl
      exact ⟨other, used_release isUsed otherMember here.1 apart, here⟩
    refine ⟨{ memory, held := client.held.filter fun entry => entry.1 ≠ released.pointer },
      nextState, _, ?_, represents, views, held, placed, distinct, ?_⟩
    · dsimp only [clientCall]
      rw [pointerEq, freed]
      rfl
    · intro object member
      rcases placed object member with ⟨other, otherMember, here⟩
      exact (keeps.stored object (remaining object member).1).of_sameOutside
        represents.wellFormed otherMember here same

/-- What is left of the headers once a byte has been written that is in none of the list. -/
private def Heap.withoutHeadersAt (heap : Heap) (place : Nat) : Heap :=
  { heap with
    headers := fun offset =>
      if offset ≤ place ∧ place < offset + sizeofBlockMeta then none else heap.headers offset }

private theorem Heap.load_withoutHeadersAt {heap : Heap} {offset place : Nat}
    (apart : place < offset ∨ offset + sizeofBlockMeta ≤ place) :
    (heap.withoutHeadersAt place).load offset = heap.load offset := by
  unfold load withoutHeadersAt
  dsimp only
  rw [if_neg (by omega : ¬(offset ≤ place ∧ place < offset + sizeofBlockMeta))]

private theorem Views.withoutHeadersAt {heap : Heap} {memory : Memory} {place number : Nat}
    (views : Views pool heap memory) :
    Views pool (heap.withoutHeadersAt place)
      { memory with bytes := memory.bytes.storeWord (pool + place) 1 number } := by
  refine ⟨views.isInitialized, ?_⟩
  intro offset header loaded
  by_cases overlaps : offset ≤ place ∧ place < offset + sizeofBlockMeta
  · simp only [Heap.load, Heap.withoutHeadersAt, overlaps, and_self, if_true, ite_self] at loaded
    cases loaded
  · rw [Heap.load_withoutHeadersAt (by omega)] at loaded
    apply (views.headers offset header loaded).congr
    intro other low high
    exact ByteMemory.storeWord_apart (by omega)

private theorem Represents.withoutHeadersAt {block : Block} {place : Nat}
    (represents : Represents state blocks) (member : block ∈ blocks) (used : block.free = false)
    (behind : block.payload ≤ place) (inside : place < block.payload + block.size) :
    Represents { state with heap := state.heap.withoutHeadersAt place } blocks := by
  refine ⟨.inr ?_, represents.wellFormed, represents.live⟩
  rcases represents.pool with ⟨_, whole⟩ | ⟨initialised, linked⟩
  · rw [whole, List.mem_singleton] at member
    rw [member] at used
    cases used
  · refine ⟨initialised, linked.congr fun other otherMember => ?_⟩
    apply Heap.load_withoutHeadersAt
    rw [Block.payload_eq] at behind inside
    by_cases same : block = other
    · rw [← same]
      exact .inr behind
    · rcases represents.wellFormed.apart member otherMember same with before | after
      · exact .inl (by omega)
      · exact .inr (by omega)

/-- A byte that a client writes into one of its objects changes that object only. -/
theorem Keeps.write {ptr index : Nat} {byte : BitVec 8}
    (keeps : Keeps pool client objects state blocks)
    (owned : Owned client (.write ptr index byte)) :
    ∃ next nextState, clientCall pool (.write ptr index byte) client = some next ∧
      Keeps pool next (objects.map fun object =>
        if object.pointer = ptr then object.write index byte else object) nextState blocks := by
  rcases owned with ⟨entry, entryMember, isEntry, inEntry⟩
  rw [keeps.held] at entryMember
  rcases List.mem_map.mp entryMember with ⟨target, targetMember, rfl⟩
  have isPtr : target.pointer = ptr := isEntry
  have inside : index < target.contents.length := inEntry
  subst isPtr
  rcases keeps.placed target targetMember with ⟨block, blockMember, used, pointerEq, room⟩
  have place : target.pointer + index = pool + (block.payload + index) := by omega
  have views := @Views.withoutHeadersAt _ _ _ (block.payload + index) byte.toNat keeps.views
  have represents := keeps.represents.withoutHeadersAt blockMember used
    (Nat.le_add_right _ index) (Nat.add_lt_add_left (Nat.lt_of_lt_of_le inside room) _)
  have pointers : ∀ object : Object, (if object.pointer = target.pointer then
      object.write index byte else object).pointer = object.pointer := by
    intro object
    split <;> rfl
  have lengths : ∀ object : Object, (if object.pointer = target.pointer then
      object.write index byte else object).contents.length = object.contents.length := by
    intro object
    split
    next => exact List.length_set
    next => rfl
  refine ⟨_, _, rfl, represents, ?_, ?_, ?_, ?_, ?_⟩
  · rw [place]
    exact views
  · simp only [keeps.held, List.map_map, Function.comp_def, pointers, lengths]
  · intro object member
    rcases List.mem_map.mp member with ⟨before, isBefore, rfl⟩
    rcases keeps.placed before isBefore with ⟨other, otherMember, here⟩
    exact ⟨other, otherMember, here.1, by rw [pointers, here.2.1], by rw [lengths]; exact here.2.2⟩
  · simpa only [List.map_map, Function.comp_def, pointers] using keeps.distinct
  · intro object member
    rcases List.mem_map.mp member with ⟨before, isBefore, rfl⟩
    intro position value here
    rw [pointers]
    dsimp only
    by_cases same : before.pointer = target.pointer
    · rw [if_pos same, Object.write, List.getElem?_set] at here
      rw [same]
      by_cases isIndex : index = position
      · rw [← isIndex, ByteMemory.storeByte_here]
        rw [if_pos isIndex] at here
        split at here
        next => exact Option.some.inj here
        next => cases here
      · rw [if_neg isIndex] at here
        rw [ByteMemory.storeWord_apart (by omega), ← same]
        exact keeps.stored before isBefore position value here
    · rw [if_neg same] at here
      have apart := keeps.apart isBefore targetMember same
      have short := Object.StoredIn.lt here
      rw [ByteMemory.storeWord_apart (by omega)]
      exact keeps.stored before isBefore position value here

/-- What the client may do does something to its objects that it may rely on. -/
theorem Keeps.step (positive : 0 < pool) (fits : pool + poolSize ≤ 2 ^ 64) {call : ClientCall}
    (keeps : Keeps pool client objects state blocks) (owned : Owned client call) :
    ∃ next after nextState nextBlocks, clientCall pool call client = some next ∧
      ObjectStep objects call after ∧ Keeps pool next after nextState nextBlocks := by
  cases call with
  | malloc size =>
      rcases keeps.malloc positive fits owned with ⟨next, after, nextState, called, step, kept⟩
      exact ⟨next, after, nextState, _, called, step, kept⟩
  | free ptr =>
      rcases keeps.free positive owned with ⟨next, nextState, nextBlocks, called, kept⟩
      exact ⟨next, _, nextState, nextBlocks, called, .freed, kept⟩
  | write ptr index byte =>
      rcases keeps.write owned with ⟨next, nextState, called, kept⟩
      exact ⟨next, _, nextState, blocks, called, .written, kept⟩

theorem Keeps.run (positive : 0 < pool) (fits : pool + poolSize ≤ 2 ^ 64) :
    ∀ {calls : List ClientCall} {client : ClientState} {objects : List Object} {state : State}
      {blocks : List Block}, Keeps pool client objects state blocks →
      (BabyMalloc.client pool).Permits Owned client calls →
      ∃ final after finalState finalBlocks,
        (BabyMalloc.client pool).run calls client = some final ∧ ObjectRun objects calls after ∧
        Keeps pool final after finalState finalBlocks := by
  intro calls
  induction calls with
  | nil =>
      intro client objects state blocks keeps _
      exact ⟨client, objects, state, blocks, rfl, .nil, keeps⟩
  | cons call calls induction =>
      intro client objects state blocks keeps permits
      rcases keeps.step positive fits permits.1 with
        ⟨next, middle, nextState, nextBlocks, called, step, kept⟩
      rcases induction kept (permits.rest called) with
        ⟨final, after, finalState, finalBlocks, ran, rest, kept⟩
      have executed : (BabyMalloc.client pool).execute call client = some next := called
      refine ⟨final, after, finalState, finalBlocks, ?_, .cons step rest, kept⟩
      rw [Machine.run, executed]
      exact ran

private theorem Keeps.objectsHeld (keeps : Keeps pool client objects state blocks) :
    ObjectsHeld pool client objects := by
  refine ⟨keeps.held, ?_, ?_, keeps.stored⟩
  · intro object member
    rcases keeps.placed object member with ⟨block, blockMember, _, pointerEq, room⟩
    have bounds : block.offset + 24 + block.size ≤ poolSize :=
      (keeps.represents.wellFormed.tiles.bounds blockMember).2
    rw [Block.payload_eq] at pointerEq
    simp only [sizeofBlockMeta] at pointerEq
    omega
  · have distinct : objects.Pairwise fun left right => left.pointer ≠ right.pointer :=
      List.pairwise_map.mp keeps.distinct
    exact distinct.imp_of_mem fun isLeft isRight different => keeps.apart isLeft isRight different

/-- The zero-filled pool shows the headers of the heap that no call has touched. -/
theorem Untouched.keeps (untouched : Untouched pool client) :
    Keeps pool client [] State.initial [wholePool] := by
  refine ⟨represents_initial, ⟨untouched.isInitialized, ?_⟩, untouched.held, nofun, .nil, nofun⟩
  intro offset header loaded
  have inside := Heap.inside_of_load loaded
  have isZero : header = { size := 0, free := false, next := none } := by
    rw [Heap.load, if_pos inside] at loaded
    exact (Option.some.inj loaded).symm
  have values : ∀ field, client.memory.value (pool + offset) field = 0 := by
    intro field
    apply ByteMemory.word_eq_of_digits (Nat.pow_pos (by decide))
    intro index small
    rw [untouched.zero _ (by omega) (by
      simp only [sizeofBlockMeta] at inside
      cases field <;> simp only [Field.offset, Field.width] at small ⊢ <;> omega)]
    simp
  rw [isZero]
  exact ⟨values .size, by rw [values]; decide, values .next⟩

end Keeping

/-- The pool is a store of separate objects. Wherever it lies in memory, a client that asks for
sizes which can be rounded up, and writes into and frees only what it holds, never faults; and its
objects are as if each had memory of its own. -/
theorem pool_refines_objects {pool : Nat} (positive : 0 < pool) (fits : pool + poolSize ≤ 2 ^ 64)
    {start : ClientState} (untouched : Untouched pool start) {calls : List ClientCall}
    (permits : (client pool).Permits Owned start calls) :
    ∃ final objects, (client pool).run calls start = some final ∧ ObjectRun [] calls objects ∧
      ObjectsHeld pool final objects := by
  rcases untouched.keeps.run positive fits permits with
    ⟨final, objects, _, _, ran, run, keeps⟩
  exact ⟨final, objects, ran, run, keeps.objectsHeld⟩

def clientStart : ClientState where
  memory := { isInitialized := false, bytes := fun _ => 0 }
  held := []

def clientDemo : List ClientCall :=
  [.malloc 10, .malloc 8, .write 4120 9 7, .write 4160 0 5, .free 4120, .free 0]

theorem pool_refines_objects_of_demo :
    ∃ final objects, (client 4096).run clientDemo clientStart = some final ∧
      ObjectRun [] clientDemo objects ∧ ObjectsHeld 4096 final objects := by
  have permits : (client 4096).Permits Owned clientStart clientDemo := by decide +kernel
  exact pool_refines_objects (by decide) (by decide)
    ⟨rfl, fun _ _ _ => rfl, rfl⟩ permits

end SystemsRepository.BabyMalloc
