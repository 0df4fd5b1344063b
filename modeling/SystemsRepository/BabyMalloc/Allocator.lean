/-! # The `bby_malloc` allocator

The static pool, its in-band block headers, and the functions that read and
write them. Addresses are offsets into `memory_pool`; `NULL` is `none`. A
function returns `none` where the C program has no defined behaviour, or where
the walk along `next` exceeds `walkLimit`.
-/

namespace SystemsRepository.BabyMalloc

abbrev SizeT := BitVec 64

abbrev Pointer := Option Nat

/-- `sizeof(block_meta)`: two 8-byte words and an `int` padded to a third. -/
abbrev sizeofBlockMeta : Nat := 24

abbrev poolSize : Nat := 1048576

/-- `block_meta`. The `int free` is only ever assigned 0 or 1. -/
structure BlockMeta where
  size : SizeT
  free : Bool
  next : Pointer
  deriving DecidableEq, Repr

/-- The pool seen as headers: `headers o` is the header whose bytes start at
offset `o`, or `none` once some of those bytes have been overwritten by a
header starting elsewhere. -/
structure Heap where
  isInitialized : Bool
  headers : Nat → Option BlockMeta

namespace Heap

/-- The static pool is zero-filled, so every position reads as a zero header. -/
def uninitialised : Heap where
  isInitialized := false
  headers := fun _ => some { size := 0, free := false, next := none }

/-- Read the header at `offset`; reading past the pool is undefined. -/
def load (heap : Heap) (offset : Nat) : Option BlockMeta :=
  if offset + sizeofBlockMeta ≤ poolSize then heap.headers offset else none

/-- Write the header at `offset`. Headers that share a byte with it and start
elsewhere are destroyed. -/
def store (heap : Heap) (offset : Nat) (block : BlockMeta) : Option Heap :=
  if offset + sizeofBlockMeta ≤ poolSize then
    some { heap with
      headers := fun other =>
        if other = offset then some block
        else if other < offset + sizeofBlockMeta ∧ offset < other + sizeofBlockMeta then
          none
        else heap.headers other }
  else none

end Heap

/-- `free_list`, the fixed head of the block list. -/
abbrev freeList : Nat := 0

/-- More headers than this do not fit into the pool, so a longer walk along
`next` has entered a cycle. -/
abbrev walkLimit : Nat := poolSize / sizeofBlockMeta

def initAllocator (heap : Heap) : Option Heap := do
  let heap ← heap.store freeList
    { size := BitVec.ofNat 64 (poolSize - sizeofBlockMeta), free := true, next := none }
  return { heap with isInitialized := true }

def initOnce (heap : Heap) : Option Heap :=
  if heap.isInitialized then some heap else initAllocator heap

/-- `(size + 7) & ~7` in `size_t` arithmetic. -/
def roundUp (size : SizeT) : SizeT := (size + 7) &&& ~~~(7 : SizeT)

/-- The body of the loop's `if`: mark `curr` used and split off the remainder
when it has room for a header and at least one more byte. -/
def takeBlock (size : SizeT) (curr : Nat) (block : BlockMeta) (heap : Heap) :
    Option (Pointer × Heap) := do
  let heap ← heap.store curr { block with free := false }
  if size + BitVec.ofNat 64 sizeofBlockMeta < block.size then
    let next := curr + sizeofBlockMeta + size.toNat
    let heap ← heap.store next
      { size := block.size - size - BitVec.ofNat 64 sizeofBlockMeta
        free := true
        next := block.next }
    let heap ← heap.store curr { size := size, free := false, next := some next }
    return (some (curr + sizeofBlockMeta), heap)
  else
    return (some (curr + sizeofBlockMeta), heap)

def searchFrom : Nat → SizeT → Pointer → Heap → Option (Pointer × Heap)
  | _, _, none, heap => some (none, heap)
  | 0, _, some _, _ => none
  | fuel + 1, size, some curr, heap => do
      let block ← heap.load curr
      if block.free ∧ size ≤ block.size then
        takeBlock size curr block heap
      else
        searchFrom fuel size block.next heap

def internalAllocation (size : SizeT) (heap : Heap) : Option (Pointer × Heap) := do
  let heap ← initOnce heap
  searchFrom walkLimit (roundUp size) (some freeList) heap

/-- Merge the block at `curr`, whose header is `block`, with its successor in
the list when that one is free. -/
def combineWithNext (curr : Nat) (block : BlockMeta) (heap : Heap) : Option Heap :=
  match block.next with
  | none => some heap
  | some next => do
      let successor ← heap.load next
      if successor.free then
        heap.store curr
          { block with
            size := block.size + (BitVec.ofNat 64 sizeofBlockMeta + successor.size)
            next := successor.next }
      else
        return heap

def bbyFree (ptr : Pointer) (heap : Heap) : Option Heap :=
  match ptr with
  | none => some heap
  | some ptr =>
      if ptr < sizeofBlockMeta then none
      else do
        let curr := ptr - sizeofBlockMeta
        let block ← heap.load curr
        let block := { block with free := true }
        let heap ← heap.store curr block
        combineWithNext curr block heap

/-- `bby_malloc` returns 1 with the pointer in `*out`, or 0 with `*out = NULL`. -/
def bbyMalloc (size : SizeT) (heap : Heap) : Option (Nat × Pointer × Heap) := do
  let (result, heap) ← internalAllocation size heap
  match result with
  | none => return (0, none, heap)
  | some result => return (1, some result, heap)

/-- A block as the walk along `next` finds it: `dump_allocator_state` prints
its size and whether it is free. -/
structure Block where
  offset : Nat
  size : Nat
  free : Bool
  deriving DecidableEq, Repr

/-- The walk of `dump_allocator_state` from a pointer. -/
def walkFrom : Nat → Heap → Pointer → Option (List Block)
  | _, _, none => some []
  | 0, _, some _ => none
  | fuel + 1, heap, some curr => do
      let block ← heap.load curr
      let rest ← walkFrom fuel heap block.next
      return { offset := curr, size := block.size.toNat, free := block.free } :: rest

/-- The block list as walked from `memory_pool`. -/
def walk (heap : Heap) : Option (List Block) :=
  walkFrom walkLimit heap (some freeList)

end SystemsRepository.BabyMalloc
