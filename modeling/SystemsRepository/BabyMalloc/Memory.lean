import SystemsRepository.Foundation.ByteMemory
import SystemsRepository.BabyMalloc.Refinement

/-! # The pool as bytes

The allocator once more, with the pool as the bytes at its addresses and each field of a
header read and written by itself. Run on a memory that shows the headers of a heap, it
does to the bytes what the functions on headers say, and writes nothing but headers.
-/

namespace SystemsRepository.BabyMalloc

open SystemsRepository.Foundation

/-- The fields of `block_meta`; behind the `int` there are four bytes of padding. -/
inductive Field
  | size
  | free
  | next
  deriving DecidableEq, Repr

namespace Field

def offset : Field → Nat
  | size => 0
  | free => 8
  | next => 16

def width : Field → Nat
  | size => 8
  | free => 4
  | next => 8

end Field

/-- The bytes at all addresses; those of `memory_pool` are `poolSize` bytes among them. -/
structure Memory where
  isInitialized : Bool
  bytes : ByteMemory

def InPool (pool block : Nat) : Prop := pool ≤ block ∧ block + sizeofBlockMeta ≤ pool + poolSize

instance (pool block : Nat) : Decidable (InPool pool block) := inferInstanceAs (Decidable (_ ∧ _))

namespace Memory

def value (memory : Memory) (block : Nat) (field : Field) : Nat :=
  memory.bytes.word (block + field.offset) field.width

def put (memory : Memory) (block : Nat) (field : Field) (number : Nat) : Memory :=
  { memory with bytes := memory.bytes.storeWord (block + field.offset) field.width number }

section Functions

variable (pool : Nat)

/-- `block->field`; a header outside the pool is not read. -/
def get (memory : Memory) (block : Nat) (field : Field) : Option Nat :=
  if InPool pool block then some (memory.value block field) else none

def set (memory : Memory) (block : Nat) (field : Field) (number : Nat) : Option Memory :=
  if InPool pool block then some (memory.put block field number) else none

def initAllocator (memory : Memory) : Option Memory := do
  let memory ← memory.set pool pool .size (poolSize - sizeofBlockMeta)
  let memory ← memory.set pool pool .free 1
  let memory ← memory.set pool pool .next 0
  return { memory with isInitialized := true }

def initOnce (memory : Memory) : Option Memory :=
  if memory.isInitialized then some memory else memory.initAllocator pool

def takeBlock (size : SizeT) (curr : Nat) (memory : Memory) : Option (Nat × Memory) := do
  let memory ← memory.set pool curr .free 0
  let currSize ← memory.get pool curr .size
  if size + BitVec.ofNat 64 sizeofBlockMeta < .ofNat 64 currSize then
    let next := curr + sizeofBlockMeta + size.toNat
    let currSize ← memory.get pool curr .size
    let memory ← memory.set pool next .size
      (BitVec.ofNat 64 currSize - size - BitVec.ofNat 64 sizeofBlockMeta).toNat
    let memory ← memory.set pool next .free 1
    let currNext ← memory.get pool curr .next
    let memory ← memory.set pool next .next currNext
    let memory ← memory.set pool curr .size size.toNat
    let memory ← memory.set pool curr .next next
    return (curr + sizeofBlockMeta, memory)
  else
    return (curr + sizeofBlockMeta, memory)

def searchFrom : Nat → SizeT → Nat → Memory → Option (Nat × Memory)
  | fuel, size, curr, memory =>
      if curr = 0 then some (0, memory)
      else
        match fuel with
        | 0 => none
        | fuel + 1 => do
            let currFree ← memory.get pool curr .free
            let currSize ← memory.get pool curr .size
            if currFree ≠ 0 ∧ size ≤ .ofNat 64 currSize then takeBlock pool size curr memory
            else
              let currNext ← memory.get pool curr .next
              searchFrom fuel size currNext memory

def internalAllocation (size : SizeT) (memory : Memory) : Option (Nat × Memory) := do
  let memory ← memory.initOnce pool
  searchFrom pool walkLimit (roundUp size) pool memory

/-- `if (block->next && block->next->free)`, and what it guards. -/
def combineWithNext (block : Nat) (memory : Memory) : Option Memory := do
  let next ← memory.get pool block .next
  if next = 0 then return memory
  else
    let nextFree ← memory.get pool next .free
    if nextFree = 0 then return memory
    else
      let size ← memory.get pool block .size
      let nextSize ← memory.get pool next .size
      let memory ← memory.set pool block .size
        (BitVec.ofNat 64 size +
          (BitVec.ofNat 64 sizeofBlockMeta + BitVec.ofNat 64 nextSize)).toNat
      let next ← memory.get pool block .next
      let nextNext ← memory.get pool next .next
      memory.set pool block .next nextNext

def bbyFree (ptr : Nat) (memory : Memory) : Option Memory :=
  if ptr = 0 then some memory
  else do
    let block := ptr - sizeofBlockMeta
    let memory ← memory.set pool block .free 1
    memory.combineWithNext pool block

def bbyMalloc (size : SizeT) (memory : Memory) : Option (Nat × Nat × Memory) := do
  let (result, memory) ← memory.internalAllocation pool size
  if result = 0 then return (0, 0, memory) else return (1, result, memory)

end Functions

/-! ## Fields -/

variable {memory after : Memory} {pool block other number : Nat} {field : Field}

private theorem get_of_inPool (inPool : InPool pool block) :
    memory.get pool block field = some (memory.value block field) :=
  if_pos inPool

private theorem set_of_inPool (inPool : InPool pool block) :
    memory.set pool block field number = some (memory.put block field number) :=
  if_pos inPool

private theorem value_put_same :
    (memory.put block field number).value block field = number % 256 ^ field.width :=
  memory.bytes.word_storeWord_same _ _ _

private theorem value_put_field {field written : Field} (different : field ≠ written) :
    (memory.put block written number).value block field = memory.value block field := by
  apply ByteMemory.word_storeWord_apart
  cases field <;> cases written <;> simp [Field.offset, Field.width] at different ⊢

private theorem value_put_apart {field written : Field}
    (apart : other + sizeofBlockMeta ≤ block ∨ block + sizeofBlockMeta ≤ other) :
    (memory.put block written number).value other field = memory.value other field := by
  apply ByteMemory.word_storeWord_apart
  simp only [sizeofBlockMeta] at apart
  cases field <;> cases written <;> simp only [Field.offset, Field.width] <;> omega

private theorem value_lt (memory : Memory) (block : Nat) (field : Field) :
    memory.value block field < 256 ^ field.width :=
  memory.bytes.word_lt _ _

end Memory

/-! ## Headers in the bytes -/

def address (pool : Nat) : Pointer → Nat
  | none => 0
  | some offset => pool + offset

structure Shows (pool : Nat) (memory : Memory) (offset : Nat) (header : BlockMeta) : Prop where
  size : memory.value (pool + offset) .size = header.size.toNat
  free : memory.value (pool + offset) .free ≠ 0 ↔ header.free = true
  next : memory.value (pool + offset) .next = address pool header.next

/-- The memory shows every header that the heap has. -/
structure Views (pool : Nat) (heap : Heap) (memory : Memory) : Prop where
  isInitialized : memory.isInitialized = heap.isInitialized
  headers : ∀ offset header, heap.load offset = some header → Shows pool memory offset header

def SameOutside (pool : Nat) (offsets : List Nat) (before after : Memory) : Prop :=
  ∀ place, (∀ offset ∈ offsets, place < pool + offset ∨ pool + offset + sizeofBlockMeta ≤ place) →
    after.bytes place = before.bytes place

section Writing

variable {pool offset : Nat} {heap next : Heap} {header : BlockMeta}
  {memory middle after : Memory} {offsets more : List Nat}

theorem SameOutside.refl (pool : Nat) (offsets : List Nat) (memory : Memory) :
    SameOutside pool offsets memory memory :=
  fun _ _ => rfl

theorem SameOutside.trans (first : SameOutside pool offsets memory middle)
    (second : SameOutside pool offsets middle after) : SameOutside pool offsets memory after :=
  fun place outside => (second place outside).trans (first place outside)

theorem SameOutside.mono (same : SameOutside pool offsets memory after) (subset : offsets ⊆ more) :
    SameOutside pool more memory after :=
  fun place outside => same place fun offset member => outside offset (subset member)

theorem SameOutside.put (pool offset : Nat) (field : Field) (number : Nat) (memory : Memory) :
    SameOutside pool [offset] memory (memory.put (pool + offset) field number) := by
  intro place outside
  have apart := outside offset List.mem_cons_self
  simp only [sizeofBlockMeta] at apart
  apply ByteMemory.storeWord_apart
  cases field <;> simp only [Field.offset, Field.width] <;> omega

theorem inPool_iff : InPool pool (pool + offset) ↔ offset + sizeofBlockMeta ≤ poolSize := by
  rw [InPool, Nat.add_assoc, Nat.add_le_add_iff_left, and_iff_right (Nat.le_add_right _ _)]

theorem Heap.inside_of_load (loaded : heap.load offset = some header) :
    offset + sizeofBlockMeta ≤ poolSize := by
  unfold load at loaded
  split at loaded
  next inside => exact inside
  next => cases loaded

private theorem Heap.load_store_cases {other : Nat} {found : BlockMeta}
    (stored : heap.store offset header = some next) (loaded : next.load other = some found) :
    other = offset ∧ found = header ∨
      (other + sizeofBlockMeta ≤ offset ∨ offset + sizeofBlockMeta ≤ other) ∧
        heap.load other = some found := by
  by_cases apart : other + sizeofBlockMeta ≤ offset ∨ offset + sizeofBlockMeta ≤ other
  · exact .inr ⟨apart, by rw [← load_of_store_apart stored apart, loaded]⟩
  · by_cases same : other = offset
    · rw [same, load_of_store stored, Option.some.injEq] at loaded
      exact .inl ⟨same, loaded.symm⟩
    · unfold store at stored
      split at stored
      next =>
        cases stored
        have overlaps : other < offset + sizeofBlockMeta ∧ offset < other + sizeofBlockMeta := by
          omega
        simp only [load, same, overlaps, and_self, if_true, if_false, ite_self] at loaded
        cases loaded
      next => cases stored

theorem Shows.congr (shows : Shows pool memory offset header)
    (same : ∀ place, pool + offset ≤ place → place < pool + offset + sizeofBlockMeta →
      after.bytes place = memory.bytes place) : Shows pool after offset header := by
  have values : ∀ field, after.value (pool + offset) field =
      memory.value (pool + offset) field := by
    intro field
    apply ByteMemory.word_congr
    intro place low high
    cases field <;> simp only [Field.offset, Field.width] at low high <;>
      exact same place (by omega) (by simp only [sizeofBlockMeta]; omega)
  exact ⟨by rw [values, shows.size], by rw [values, shows.free], by rw [values, shows.next]⟩

theorem Views.store (views : Views pool heap memory)
    (stored : heap.store offset header = some next)
    (same : SameOutside pool [offset] memory after)
    (initialised : after.isInitialized = memory.isInitialized)
    (shows : Shows pool after offset header) : Views pool next after := by
  constructor
  · rw [initialised, views.isInitialized, Heap.isInitialized_of_store stored]
  · intro other found loaded
    rcases Heap.load_store_cases stored loaded with ⟨rfl, rfl⟩ | ⟨apart, before⟩
    · exact shows
    · apply (views.headers other found before).congr
      intro place low high
      apply same
      intro written member
      rw [List.mem_singleton.mp member]
      omega

end Writing

/-! ## The functions on bytes -/

section Simulation

variable {pool : Nat} {heap next : Heap} {memory : Memory}

def takenHeaders (size : SizeT) (curr : Nat) (block : BlockMeta) : List Nat :=
  if size + BitVec.ofNat 64 sizeofBlockMeta < block.size then
    [curr, curr + sizeofBlockMeta + size.toNat]
  else [curr]

private theorem store_inside {offset : Nat} {header : BlockMeta}
    (stored : heap.store offset header = some next) : InPool pool (pool + offset) :=
  inPool_iff.mpr (Heap.store_eq_some stored).1

private theorem Shows.ofNat_size {offset : Nat} {header : BlockMeta}
    (shows : Shows pool memory offset header) :
    BitVec.ofNat 64 (memory.value (pool + offset) .size) = header.size := by
  rw [shows.size, BitVec.ofNat_toNat, BitVec.setWidth_eq]

private theorem toNat_mod (size : SizeT) : size.toNat % 256 ^ 8 = size.toNat :=
  Nat.mod_eq_of_lt size.isLt

private theorem Views.setFree {offset number : Nat} {header : BlockMeta} {free : Bool}
    (views : Views pool heap memory) (loaded : heap.load offset = some header)
    (flag : number % 256 ^ 4 ≠ 0 ↔ free = true)
    (stored : heap.store offset { header with free } = some next) :
    Views pool next (memory.put (pool + offset) .free number) := by
  have shows := views.headers offset header loaded
  apply views.store stored (.put pool offset .free number memory) rfl
  constructor
  · rw [Memory.value_put_field (by decide), shows.size]
  · rw [Memory.value_put_same]
    exact flag
  · rw [Memory.value_put_field (by decide), shows.next]

private theorem Views.setFields {offset pointer : Nat} {header : BlockMeta}
    (views : Views pool heap memory) (link : pointer = address pool header.next)
    (small : pointer < 2 ^ 64) (free : header.free = true)
    (stored : heap.store offset header = some next) :
    Views pool next (((memory.put (pool + offset) .size header.size.toNat).put
      (pool + offset) .free 1).put (pool + offset) .next pointer) := by
  apply views.store stored ((SameOutside.put _ _ _ _ _).trans
    ((SameOutside.put _ _ _ _ _).trans (.put _ _ _ _ _))) rfl
  constructor
  · rw [Memory.value_put_field (by decide), Memory.value_put_field (by decide),
      Memory.value_put_same]
    exact toNat_mod _
  · rw [Memory.value_put_field (by decide), Memory.value_put_same, free]
    exact iff_of_true (by decide) rfl
  · rw [Memory.value_put_same, link]
    exact Nat.mod_eq_of_lt (link ▸ small)

private theorem Views.setLink {offset pointer : Nat} {old header : BlockMeta}
    (views : Views pool heap memory) (loaded : heap.load offset = some old)
    (link : pointer = address pool header.next) (small : pointer < 2 ^ 64)
    (free : old.free = header.free) (stored : heap.store offset header = some next) :
    Views pool next ((memory.put (pool + offset) .size header.size.toNat).put
      (pool + offset) .next pointer) := by
  have shows := views.headers offset old loaded
  apply views.store stored ((SameOutside.put _ _ _ _ _).trans (.put _ _ _ _ _)) rfl
  constructor
  · rw [Memory.value_put_field (by decide), Memory.value_put_same]
    exact toNat_mod _
  · rw [Memory.value_put_field (by decide), Memory.value_put_field (by decide), shows.free, free]
  · rw [Memory.value_put_same, link]
    exact Nat.mod_eq_of_lt (link ▸ small)

private theorem takeBlock_views (fits : pool + poolSize ≤ 2 ^ 64) {size : SizeT} {curr : Nat}
    {block : BlockMeta} {result : Pointer} (views : Views pool heap memory)
    (loaded : heap.load curr = some block)
    (took : takeBlock size curr block heap = some (result, next)) :
    result = some (curr + sizeofBlockMeta) ∧ ∃ after,
      memory.takeBlock pool size (pool + curr) = some (pool + curr + sizeofBlockMeta, after) ∧
        Views pool next after ∧ SameOutside pool (takenHeaders size curr block) memory after := by
  rcases Option.bind_eq_some_iff.mp took with ⟨marked, storedMark, took⟩
  have inPool := @inPool_iff pool curr |>.mpr (Heap.inside_of_load loaded)
  have viewsMarked := @Views.setFree _ _ _ _ _ 0 _ _ views loaded (by decide) storedMark
  have loadedMark := Heap.load_of_store storedMark
  have sameMarked : SameOutside pool [curr] memory (memory.put (pool + curr) .free 0) :=
    .put pool curr .free 0 memory
  have shows := viewsMarked.headers curr _ loadedMark
  generalize isMarked : memory.put (pool + curr) .free 0 = bytes at *
  unfold Memory.takeBlock
  rw [Memory.set_of_inPool inPool, isMarked, Option.bind_eq_bind, Option.bind_some,
    Memory.get_of_inPool inPool, Option.bind_eq_bind, Option.bind_some, shows.ofNat_size,
    takenHeaders]
  split at took
  next splits =>
    rcases Option.bind_eq_some_iff.mp took with ⟨split, storedSplit, took⟩
    rcases Option.bind_eq_some_iff.mp took with ⟨taken, storedTaken, took⟩
    cases took
    have place : pool + curr + sizeofBlockMeta + size.toNat =
        pool + (curr + sizeofBlockMeta + size.toNat) := by
      omega
    have nextInPool := @store_inside pool _ _ _ _ storedSplit
    have apart : curr + sizeofBlockMeta ≤ curr + sizeofBlockMeta + size.toNat := by omega
    have small : bytes.value (pool + curr) .next < 2 ^ 64 := bytes.value_lt _ _
    rw [if_pos splits, if_pos splits, place]
    generalize curr + sizeofBlockMeta + size.toNat = following at *
    have viewsSplit := @Views.setFields _ _ _ _ _ _ ⟨_, true, block.next⟩ viewsMarked shows.next
      small rfl storedSplit
    have loadedSplit := (Heap.load_of_store_apart storedSplit (.inl apart)).trans loadedMark
    have inside := (Heap.store_eq_some storedSplit).1
    have low : pool + following < 2 ^ 64 := by
      simp only [sizeofBlockMeta] at inside
      omega
    have viewsTaken := @Views.setLink _ _ _ _ _ _ _ ⟨size, false, some following⟩ viewsSplit
      loadedSplit rfl low rfl storedTaken
    have link : ((bytes.put (pool + following) .size
        (block.size - size - BitVec.ofNat 64 sizeofBlockMeta).toNat).put (pool + following) .free
        1).value (pool + curr) .next = bytes.value (pool + curr) .next := by
      rw [Memory.value_put_apart (by omega), Memory.value_put_apart (by omega)]
    refine ⟨rfl, _, ?_, viewsTaken, ?_⟩
    · simp only [Memory.get_of_inPool inPool, Memory.set_of_inPool inPool,
        Memory.set_of_inPool nextInPool, Option.bind_some, shows.ofNat_size, link]
      rfl
    · have onCurr : [curr] ⊆ [curr, following] := by simp
      have onFollowing : [following] ⊆ [curr, following] := by simp
      apply (sameMarked.mono onCurr).trans
      apply SameOutside.trans (SameOutside.put _ _ _ _ _ |>.mono onFollowing)
      apply SameOutside.trans (SameOutside.put _ _ _ _ _ |>.mono onFollowing)
      apply SameOutside.trans (SameOutside.put _ _ _ _ _ |>.mono onFollowing)
      apply SameOutside.trans (SameOutside.put _ _ _ _ _ |>.mono onCurr)
      exact SameOutside.put _ _ _ _ _ |>.mono onCurr
  next whole =>
    cases took
    rw [if_neg whole, if_neg whole]
    exact ⟨rfl, bytes, rfl, viewsMarked, sameMarked⟩

theorem searchFrom_views (positive : 0 < pool) (fits : pool + poolSize ≤ 2 ^ 64) {size : SizeT} :
    ∀ {fuel : Nat} {pointer result : Pointer},
      Views pool heap memory → searchFrom fuel size pointer heap = some (result, next) →
      ∃ after, memory.searchFrom pool fuel size (address pool pointer) =
          some (address pool result, after) ∧ Views pool next after ∧
        (result = none ∧ after = memory ∨
          ∃ curr block, result = some (curr + sizeofBlockMeta) ∧ heap.load curr = some block ∧
            SameOutside pool (takenHeaders size curr block) memory after) := by
  intro fuel
  induction fuel with
  | zero =>
      intro pointer result views searched
      cases pointer with
      | none =>
          cases searched
          exact ⟨memory, rfl, views, .inl ⟨rfl, rfl⟩⟩
      | some curr => cases searched
  | succ fuel induction =>
      intro pointer result views searched
      cases pointer with
      | none =>
          cases searched
          exact ⟨memory, rfl, views, .inl ⟨rfl, rfl⟩⟩
      | some curr =>
          rcases Option.bind_eq_some_iff.mp searched with ⟨block, loaded, searched⟩
          have nonzero : pool + curr ≠ 0 := by omega
          have inPool := @inPool_iff pool curr |>.mpr (Heap.inside_of_load loaded)
          have shows := views.headers curr block loaded
          have suits : memory.value (pool + curr) .free ≠ 0 ∧ size ≤ block.size ↔
              block.free = true ∧ size ≤ block.size := by
            rw [shows.free]
          rw [address, Memory.searchFrom, if_neg nonzero]
          simp only [Memory.get_of_inPool inPool, Option.bind_eq_bind, Option.bind_some,
            shows.ofNat_size, suits]
          split at searched
          next found =>
            rcases takeBlock_views fits views loaded searched with
              ⟨same, after, took, viewsAfter, outside⟩
            rw [if_pos found, same]
            rw [address, ← Nat.add_assoc]
            exact ⟨after, took, viewsAfter, .inr ⟨curr, block, rfl, loaded, outside⟩⟩
          next other =>
            rw [if_neg other, shows.next]
            exact induction views searched

theorem initOnce_views (views : Views pool heap memory)
    (ready : initOnce heap = some next) :
    ∃ after, memory.initOnce pool = some after ∧ Views pool next after ∧
      SameOutside pool [freeList] memory after := by
  unfold initOnce at ready
  unfold Memory.initOnce
  rw [views.isInitialized]
  split at ready
  next initialised =>
    cases ready
    rw [if_pos initialised]
    exact ⟨memory, rfl, views, .refl _ _ _⟩
  next untouched =>
    unfold initAllocator at ready
    rcases Option.bind_eq_some_iff.mp ready with ⟨stored, storedHeader, ready⟩
    cases ready
    have inPool : InPool pool pool := store_inside storedHeader
    have written := @Views.setFields _ _ _ _ freeList 0
      ⟨BitVec.ofNat 64 (poolSize - sizeofBlockMeta), true, none⟩ views rfl (by decide) rfl
      storedHeader
    rw [if_neg untouched, Memory.initAllocator]
    simp only [Memory.set_of_inPool inPool, Option.bind_eq_bind, Option.bind_some]
    refine ⟨_, rfl, ⟨rfl, ?_⟩, ?_⟩
    · intro offset header loaded
      exact (written.headers offset header loaded).congr fun _ _ _ => rfl
    · exact (SameOutside.put pool freeList .size _ _).trans
        ((SameOutside.put pool freeList .free _ _).trans (.put pool freeList .next _ _))

theorem address_eq_zero_iff (positive : 0 < pool) {pointer : Pointer} :
    address pool pointer = 0 ↔ pointer = none := by
  cases pointer with
  | none => exact iff_of_true rfl rfl
  | some offset => exact iff_of_false (Nat.ne_of_gt (Nat.add_pos_left positive _)) nofun

/-- A written field does not show in the other fields of the headers of a heap that has just
stored the header. -/
theorem value_put_stored {offset other number : Nat} {header found : BlockMeta}
    {field written : Field} (stored : heap.store offset header = some next)
    (loaded : next.load other = some found) (different : field ≠ written) :
    (memory.put (pool + offset) written number).value (pool + other) field =
      memory.value (pool + other) field := by
  rcases Heap.load_store_cases stored loaded with ⟨rfl, _⟩ | ⟨apart, _⟩
  · exact Memory.value_put_field different
  · exact Memory.value_put_apart (by omega)

private theorem combineWithNext_views (positive : 0 < pool) {marked : Heap} {curr : Nat}
    {block : BlockMeta} (views : Views pool marked memory)
    (stored : heap.store curr block = some marked)
    (combined : combineWithNext curr block marked = some next) :
    ∃ after, memory.combineWithNext pool (pool + curr) = some after ∧ Views pool next after ∧
      SameOutside pool [curr] memory after := by
  have inPool : InPool pool (pool + curr) := store_inside stored
  have loaded := Heap.load_of_store stored
  have shows := views.headers curr block loaded
  unfold combineWithNext at combined
  unfold Memory.combineWithNext
  rw [Memory.get_of_inPool inPool, Option.bind_eq_bind, Option.bind_some, shows.next]
  cases link : block.next with
  | none =>
      rw [link] at combined
      cases combined
      exact ⟨memory, if_pos rfl, views, .refl _ _ _⟩
  | some following =>
      rw [link] at combined
      rcases Option.bind_eq_some_iff.mp combined with ⟨successor, found, combined⟩
      have nonzero : address pool (some following) ≠ 0 :=
        mt (address_eq_zero_iff positive).mp nofun
      have nextInPool := @inPool_iff pool following |>.mpr (Heap.inside_of_load found)
      have nextShows := views.headers following successor found
      rw [if_neg nonzero, address, Memory.get_of_inPool nextInPool, Option.bind_eq_bind,
        Option.bind_some]
      split at combined
      next free =>
        rw [if_neg (nextShows.free.mpr free)]
        let merged : BlockMeta :=
          { block with
            size := block.size + (BitVec.ofNat 64 sizeofBlockMeta + successor.size)
            next := successor.next }
        have nextKept := @value_put_stored pool _ _ memory curr following
          (block.size + (BitVec.ofNat 64 sizeofBlockMeta + successor.size)).toNat _ _ .next .size
          stored found (by decide)
        have currKept : (memory.put (pool + curr) .size
            (block.size + (BitVec.ofNat 64 sizeofBlockMeta + successor.size)).toNat).value
              (pool + curr) .next = pool + following := by
          rw [Memory.value_put_field (by decide), shows.next, link, address]
        have small : memory.value (pool + following) .next < 2 ^ 64 := memory.value_lt _ _
        refine ⟨_, ?_, @Views.setLink _ _ _ _ _ _ block merged views loaded nextShows.next small rfl
          combined, ?_⟩
        · simp only [Memory.get_of_inPool inPool, Memory.get_of_inPool nextInPool,
            Memory.set_of_inPool inPool, Option.bind_some, shows.ofNat_size,
            nextShows.ofNat_size, currKept, nextKept]
          rfl
        · exact (SameOutside.put _ _ _ _ _).trans (.put _ _ _ _ _)
      next used =>
        cases combined
        have zero : memory.value (pool + following) .free = 0 :=
          Decidable.byContradiction fun marked => used (nextShows.free.mp marked)
        rw [if_pos zero]
        exact ⟨memory, rfl, views, .refl _ _ _⟩

theorem bbyFree_views (positive : 0 < pool) {pointer : Pointer} (views : Views pool heap memory)
    (freed : bbyFree pointer heap = some next) :
    ∃ after, memory.bbyFree pool (address pool pointer) = some after ∧ Views pool next after ∧
      SameOutside pool (pointer.toList.map (· - sizeofBlockMeta)) memory after := by
  unfold Memory.bbyFree
  cases pointer with
  | none =>
      cases freed
      exact ⟨memory, if_pos rfl, views, .refl _ _ _⟩
  | some pointer =>
      unfold bbyFree at freed
      dsimp only at freed
      split at freed
      next => cases freed
      next behind =>
        rcases Option.bind_eq_some_iff.mp freed with ⟨block, loaded, freed⟩
        rcases Option.bind_eq_some_iff.mp freed with ⟨marked, stored, combined⟩
        have nonzero : address pool (some pointer) ≠ 0 :=
          mt (address_eq_zero_iff positive).mp nofun
        have place : address pool (some pointer) - sizeofBlockMeta =
            pool + (pointer - sizeofBlockMeta) := by
          simp only [address]
          omega
        have inPool : InPool pool (pool + (pointer - sizeofBlockMeta)) := store_inside stored
        have viewsMarked := @Views.setFree _ _ _ _ _ 1 _ _ views loaded (by decide) stored
        rcases combineWithNext_views positive viewsMarked stored combined with
          ⟨after, ran, viewsAfter, same⟩
        rw [if_neg nonzero, place, Option.toList_some, List.map_singleton]
        simp only [Memory.set_of_inPool inPool, Option.bind_eq_bind, Option.bind_some]
        exact ⟨after, ran, viewsAfter, (SameOutside.put _ _ _ _ _).trans same⟩

end Simulation

end SystemsRepository.BabyMalloc
