import SystemsRepository.BabyMalloc.BlockList
import Mathlib.Algebra.Group.Nat.Defs

/-! # The heap refines the block list

`Linked` reads a block list out of the headers in the pool. Each allocator
function, started on a heap that represents a well-formed list, returns without
fault and leaves the heap that the corresponding list operation describes.
-/

namespace SystemsRepository.BabyMalloc

open SystemsRepository.Foundation

/-! ## Headers in the pool -/

namespace Heap

theorem store_eq_some {heap after : Heap} {offset : Nat} {block : BlockMeta}
    (stored : heap.store offset block = some after) :
    offset + sizeofBlockMeta ≤ poolSize ∧
      after.isInitialized = heap.isInitialized ∧
      after.headers offset = some block ∧
      ∀ other, other + sizeofBlockMeta ≤ offset ∨ offset + sizeofBlockMeta ≤ other →
        after.headers other = heap.headers other := by
  unfold store at stored
  split at stored
  · rename_i inside
    cases stored
    refine ⟨inside, rfl, by simp, ?_⟩
    intro other apart
    have different : other ≠ offset := by
      simp only [sizeofBlockMeta] at apart
      omega
    have separate : ¬(other < offset + sizeofBlockMeta ∧ offset < other + sizeofBlockMeta) := by
      omega
    simp [different, separate]
  · cases stored

theorem exists_store (heap : Heap) {offset : Nat} (block : BlockMeta)
    (inside : offset + sizeofBlockMeta ≤ poolSize) :
    ∃ after, heap.store offset block = some after := by
  simp only [store, inside, if_true]
  exact ⟨_, rfl⟩

theorem load_of_store {heap after : Heap} {offset : Nat} {block : BlockMeta}
    (stored : heap.store offset block = some after) :
    after.load offset = some block := by
  have facts := store_eq_some stored
  simp only [load, facts.1, if_true]
  exact facts.2.2.1

theorem load_of_store_apart {heap after : Heap} {offset other : Nat}
    {block : BlockMeta} (stored : heap.store offset block = some after)
    (apart : other + sizeofBlockMeta ≤ offset ∨ offset + sizeofBlockMeta ≤ other) :
    after.load other = heap.load other := by
  simp only [load, (store_eq_some stored).2.2.2 other apart]

theorem isInitialized_of_store {heap after : Heap} {offset : Nat} {block : BlockMeta}
    (stored : heap.store offset block = some after) :
    after.isInitialized = heap.isInitialized :=
  (store_eq_some stored).2.1

def SameBelow (limit : Nat) (before after : Heap) : Prop :=
  after.isInitialized = before.isInitialized ∧
    ∀ offset, offset + sizeofBlockMeta ≤ limit → after.load offset = before.load offset

theorem SameBelow.refl (limit : Nat) (heap : Heap) : SameBelow limit heap heap :=
  ⟨rfl, fun _ _ => rfl⟩

theorem SameBelow.trans {limit : Nat} {first second third : Heap}
    (left : SameBelow limit first second) (right : SameBelow limit second third) :
    SameBelow limit first third :=
  ⟨right.1.trans left.1,
    fun offset below => (right.2 offset below).trans (left.2 offset below)⟩

theorem SameBelow.mono {small large : Nat} {before after : Heap}
    (same : SameBelow large before after) (smaller : small ≤ large) :
    SameBelow small before after :=
  ⟨same.1, fun offset below => same.2 offset (Nat.le_trans below smaller)⟩

private theorem SameBelow.of_store {heap after : Heap} {limit offset : Nat} {block : BlockMeta}
    (stored : heap.store offset block = some after) (above : limit ≤ offset) :
    SameBelow limit heap after :=
  ⟨isInitialized_of_store stored,
    fun _ below => load_of_store_apart stored (.inl (Nat.le_trans below above))⟩

end Heap

/-! ## Representation -/

def BlockMeta.Describes (header : BlockMeta) (block : Block) : Prop :=
  header.size.toNat = block.size ∧ header.free = block.free

/-- Following `next` from a pointer visits exactly these blocks. -/
def Linked (heap : Heap) : Pointer → List Block → Prop
  | pointer, [] => pointer = none
  | pointer, block :: blocks =>
      pointer = some block.offset ∧
        ∃ header, heap.load block.offset = some header ∧ header.Describes block ∧
          Linked heap header.next blocks

theorem Linked.cons {heap : Heap} {pointer : Pointer} {block : Block}
    {blocks : List Block} {header : BlockMeta} (here : pointer = some block.offset)
    (loaded : heap.load block.offset = some header)
    (describes : header.Describes block) (rest : Linked heap header.next blocks) :
    Linked heap pointer (block :: blocks) :=
  ⟨here, header, loaded, describes, rest⟩

/-- A heap that reads the same at the listed headers represents the same list. -/
theorem Linked.congr {before after : Heap} :
    ∀ {blocks : List Block} {pointer : Pointer}, Linked before pointer blocks →
      (∀ block ∈ blocks, after.load block.offset = before.load block.offset) →
      Linked after pointer blocks
  | [], _, linked, _ => linked
  | block :: blocks, _, ⟨here, header, loaded, describes, rest⟩, same => by
      refine ⟨here, header, (same block (by simp)).trans loaded, describes, ?_⟩
      exact rest.congr fun other member => same other (by simp [member])

private theorem Linked.of_store_before {heap after : Heap} {pointer : Pointer}
    {blocks : List Block} {header : BlockMeta} {offset start stop : Nat}
    (linked : Linked heap pointer blocks)
    (tiles : poolLayout.Tiles start blocks stop)
    (stored : heap.store offset header = some after)
    (before : offset + sizeofBlockMeta ≤ start) :
    Linked after pointer blocks := by
  apply linked.congr
  intro block member
  exact Heap.load_of_store_apart stored (.inr (Nat.le_trans before (tiles.bounds member).1))

theorem Linked.walkFrom_eq {heap : Heap} :
    ∀ {blocks : List Block} {pointer : Pointer} {fuel : Nat},
      Linked heap pointer blocks → blocks.length ≤ fuel →
      walkFrom fuel heap pointer = some blocks
  | [], pointer, fuel, linked, _ => by
      have isNull : pointer = none := linked
      subst isNull
      cases fuel <;> rfl
  | block :: blocks, pointer, 0, _, enough => by simp at enough
  | block :: blocks, pointer, fuel + 1, ⟨here, header, loaded, describes, rest⟩, enough => by
      have walked := rest.walkFrom_eq (Nat.le_of_succ_le_succ enough)
      subst here
      simp [walkFrom, loaded, walked, describes.1, describes.2]

/-! ## Allocation -/

private theorem clearLowBits (value : SizeT) :
    value &&& ~~~(7 : SizeT) = (value >>> 3) <<< 3 := by
  have mask : ∀ index : Fin 64,
      (~~~(7 : SizeT)).getLsbD index.val = decide (3 ≤ index.val) := by
    decide
  apply BitVec.eq_of_getLsbD_eq
  intro index inRange
  have here := mask ⟨index, inRange⟩
  simp only at here
  rw [BitVec.getLsbD_and, here, BitVec.getLsbD_shiftLeft, BitVec.getLsbD_ushiftRight]
  cases low : decide (index < 3) with
  | true => simp_all
  | false =>
      have shifted : 3 + (index - 3) = index := by
        simp at low
        omega
      simp_all

theorem roundUp_toNat (size : SizeT) :
    (roundUp size).toNat = (size.toNat + 7) % 2 ^ 64 / 8 * 8 := by
  have small := (size + 7).isLt
  rw [roundUp, clearLowBits, BitVec.toNat_shiftLeft, BitVec.toNat_ushiftRight,
    Nat.shiftRight_eq_div_pow, Nat.shiftLeft_eq, BitVec.toNat_add]
  rw [BitVec.toNat_add] at small
  change (size.toNat + 7) % 2 ^ 64 / 2 ^ 3 * 2 ^ 3 % 2 ^ 64 = _
  change (size.toNat + 7) % 2 ^ 64 < 2 ^ 64 at small
  omega

theorem roundUp_aligned (size : SizeT) : 8 ∣ (roundUp size).toNat := by
  rw [roundUp_toNat]
  exact Nat.dvd_mul_left _ _

/-- The test for a split does not overflow for a size within the pool. -/
theorem splits_iff {size request : SizeT} (inPool : size.toNat ≤ poolSize)
    (fits : request.toNat ≤ size.toNat) :
    request + BitVec.ofNat 64 sizeofBlockMeta < size ↔
      request.toNat + sizeofBlockMeta < size.toNat := by
  rw [BitVec.lt_def, BitVec.toNat_add]
  simp only [poolSize, sizeofBlockMeta, BitVec.toNat_ofNat] at *
  omega

private theorem remainder_toNat {size request : SizeT} (inPool : size.toNat ≤ poolSize)
    (splits : request.toNat + sizeofBlockMeta < size.toNat) :
    (size - request - BitVec.ofNat 64 sizeofBlockMeta).toNat =
      size.toNat - request.toNat - sizeofBlockMeta := by
  simp only [BitVec.toNat_sub, BitVec.toNat_ofNat]
  simp only [poolSize, sizeofBlockMeta] at *
  omega

private theorem takeBlock_refines {heap : Heap} {block : Block} {blocks : List Block}
    {header : BlockMeta} {request : SizeT} {start : Nat}
    (wellFormed : WellFormed start (block :: blocks) poolSize)
    (describes : header.Describes block)
    (rest : Linked heap header.next blocks)
    (fits : block.Fits request.toNat) :
    ∃ after, takeBlock request block.offset header heap = some (some block.payload, after) ∧
      Linked after (some block.offset) (carve request.toNat block ++ blocks) ∧
      Heap.SameBelow start heap after := by
  have bounds := wellFormed.tiles.bounds (List.mem_cons_self : block ∈ block :: blocks)
  have starts := wellFormed.head.1
  have room : block.offset + sizeofBlockMeta + block.size ≤ poolSize := bounds.2
  have sizeEq := describes.1
  have requestFits := fits.2
  rcases heap.exists_store { header with free := false }
    (show block.offset + sizeofBlockMeta ≤ poolSize by omega) with ⟨marked, markedEq⟩
  have restMarked : Linked marked header.next blocks :=
    rest.of_store_before wellFormed.tail.tiles markedEq (Block.finish_eq block ▸ by omega)
  have splitIff : request + BitVec.ofNat 64 sizeofBlockMeta < header.size ↔
      request.toNat + sizeofBlockMeta < block.size := by
    rw [← sizeEq]
    exact splits_iff (by omega) (by omega)
  by_cases splits : request.toNat + sizeofBlockMeta < block.size
  · let next := block.offset + sizeofBlockMeta + request.toNat
    have nextInside : next + sizeofBlockMeta ≤ poolSize := by
      simp only [next]
      omega
    let remainder : BlockMeta :=
      { size := header.size - request - BitVec.ofNat 64 sizeofBlockMeta
        free := true
        next := header.next }
    let taken : BlockMeta := { size := request, free := false, next := some next }
    rcases marked.exists_store remainder nextInside with ⟨split, splitEq⟩
    rcases split.exists_store taken
      (show block.offset + sizeofBlockMeta ≤ poolSize by omega) with ⟨after, afterEq⟩
    refine ⟨after, ?_, ?_, ?_⟩
    · simp only [takeBlock, markedEq, Option.bind_eq_bind, Option.bind_some, splitIff,
        splits, if_true]
      change (marked.store next remainder).bind _ = _
      rw [splitEq]
      change (split.store block.offset taken).bind _ = _
      rw [afterEq]
      rfl
    · simp only [carve, splits, if_true, List.cons_append, List.nil_append]
      have remainderLoaded : after.load next = some remainder :=
        (Heap.load_of_store_apart afterEq (.inr (Nat.le_add_right _ _))).trans
          (Heap.load_of_store splitEq)
      have remainderSize : remainder.size.toNat =
          block.size - request.toNat - sizeofBlockMeta := by
        rw [← sizeEq] at splits ⊢
        exact remainder_toNat (by omega) splits
      have restSplit : Linked split header.next blocks :=
        restMarked.of_store_before wellFormed.tail.tiles splitEq (by
          simp only [next, Block.finish_eq]
          omega)
      have restAfter : Linked after header.next blocks :=
        restSplit.of_store_before wellFormed.tail.tiles afterEq (by
          simp only [Block.finish_eq]
          omega)
      refine Linked.cons rfl (Heap.load_of_store afterEq) ⟨rfl, rfl⟩ ?_
      exact Linked.cons rfl remainderLoaded ⟨remainderSize, rfl⟩ restAfter
    · have first : Heap.SameBelow start heap marked := .of_store markedEq (by omega)
      have second : Heap.SameBelow start marked split := .of_store splitEq (by
        simp only [next]
        omega)
      have third : Heap.SameBelow start split after := .of_store afterEq (by omega)
      exact (first.trans second).trans third
  · refine ⟨marked, ?_, ?_, Heap.SameBelow.of_store markedEq (by omega)⟩
    · simp only [takeBlock, markedEq, Option.bind_eq_bind, Option.bind_some, splitIff,
        splits, if_false]
      rfl
    · simp only [carve, splits, if_false, List.cons_append, List.nil_append]
      exact Linked.cons rfl (Heap.load_of_store markedEq) ⟨sizeEq, rfl⟩ restMarked

/-- What a call that returned `result` on a heap representing `blocks` has done:
the list is unchanged when nothing fits, and carved by first fit otherwise. -/
def AllocationOutcome (request : Nat) (blocks : List Block) (result : Pointer)
    (after : List Block) : Prop :=
  match firstFit request blocks with
  | none => result = none ∧ after = blocks
  | some (pointer, carved) => result = some pointer ∧ after = carved

theorem searchFrom_refines (request : SizeT) :
    ∀ {blocks : List Block} {heap : Heap} {pointer : Pointer} {fuel start : Nat},
      Linked heap pointer blocks → WellFormed start blocks poolSize →
      blocks.length ≤ fuel →
      ∃ result heapAfter after,
        searchFrom fuel request pointer heap = some (result, heapAfter) ∧
        AllocationOutcome request.toNat blocks result after ∧
        Linked heapAfter pointer after ∧ Heap.SameBelow start heap heapAfter := by
  intro blocks
  induction blocks with
  | nil =>
      intro heap pointer fuel start linked _ _
      have isNull : pointer = none := linked
      subst isNull
      refine ⟨none, heap, [], ?_, ⟨rfl, rfl⟩, rfl, Heap.SameBelow.refl _ _⟩
      cases fuel <;> rfl
  | cons block blocks induction =>
      intro heap pointer fuel start linked wellFormed enough
      rcases linked with ⟨here, header, loaded, describes, rest⟩
      subst here
      cases fuel with
      | zero => simp at enough
      | succ fuel =>
          have fitsIff : (header.free = true ∧ request ≤ header.size) ↔
              block.Fits request.toNat := by
            rw [BitVec.le_def, describes.1, describes.2]
            rfl
          by_cases fits : block.Fits request.toNat
          · rcases takeBlock_refines wellFormed describes rest fits with
              ⟨heapAfter, took, linkedAfter, same⟩
            refine ⟨some block.payload, heapAfter, _, ?_, ?_, linkedAfter, same⟩
            · simp only [searchFrom, loaded, Option.bind_eq_bind, Option.bind_some,
                fitsIff, fits, if_true]
              exact took
            · simp [AllocationOutcome, firstFit, fits]
          · rcases induction rest wellFormed.tail (Nat.le_of_succ_le_succ enough) with
              ⟨result, heapAfter, after, searched, outcome, linkedAfter, same⟩
            have starts := wellFormed.head.1
            have headBelow : block.offset + sizeofBlockMeta ≤ block.finish :=
              poolLayout.payload_le_finish block
            refine ⟨result, heapAfter, block :: after, ?_, ?_, ?_, ?_⟩
            · simp only [searchFrom, loaded, Option.bind_eq_bind, Option.bind_some,
                fitsIff, fits, if_false]
              exact searched
            · unfold AllocationOutcome at outcome ⊢
              simp only [firstFit, fits, if_false]
              cases found : firstFit request.toNat blocks with
              | none =>
                  rw [found] at outcome
                  exact ⟨outcome.1, congrArg _ outcome.2⟩
              | some taken =>
                  rw [found] at outcome
                  exact ⟨outcome.1, congrArg _ outcome.2⟩
            · exact Linked.cons rfl ((same.2 _ headBelow).trans loaded) describes linkedAfter
            · apply same.mono
              omega

/-! ## Release -/

private theorem combineWithNext_refines {heap : Heap} {block : Block} {blocks : List Block}
    {header : BlockMeta} {start : Nat}
    (wellFormed : WellFormed start (block :: blocks) poolSize)
    (loaded : heap.load block.offset = some header)
    (describes : header.Describes block)
    (rest : Linked heap header.next blocks) :
    ∃ after, combineWithNext block.offset header heap = some after ∧
      Linked after (some block.offset) (combine block blocks) ∧
      Heap.SameBelow start heap after := by
  have starts := wellFormed.head.1
  cases blocks with
  | nil =>
      have isNull : header.next = none := rest
      refine ⟨heap, by simp [combineWithNext, isNull], ?_, Heap.SameBelow.refl _ _⟩
      exact Linked.cons rfl loaded describes rest
  | cons next blocks =>
      have wholeRest := rest
      rcases rest with ⟨nextHere, successor, nextLoaded, nextDescribes, nextRest⟩
      have bounds := (wellFormed.tiles.bounds (by simp : next ∈ block :: next :: blocks)).2
      have nextStarts := wellFormed.tail.head.1
      have nextEnd : next.offset + sizeofBlockMeta + next.size ≤ poolSize := bounds
      simp only [Block.finish_eq] at nextStarts
      cases free : next.free with
      | false =>
          have successorUsed : successor.free = false := nextDescribes.2.trans free
          refine ⟨heap, ?_, ?_, Heap.SameBelow.refl _ _⟩
          · simp [combineWithNext, nextHere, nextLoaded, successorUsed]
          · simp only [combine, free, Bool.false_eq_true, if_false]
            exact Linked.cons rfl loaded describes wholeRest
      | true =>
          have successorFree : successor.free = true := nextDescribes.2.trans free
          let merged : BlockMeta :=
            { header with
              size := header.size + (BitVec.ofNat 64 sizeofBlockMeta + successor.size)
              next := successor.next }
          rcases heap.exists_store merged
            (show block.offset + sizeofBlockMeta ≤ poolSize by omega) with ⟨after, stored⟩
          refine ⟨after, ?_, ?_, Heap.SameBelow.of_store stored (by omega)⟩
          · simp only [combineWithNext, nextHere, nextLoaded, Option.bind_eq_bind,
              Option.bind_some, successorFree, if_true]
            exact stored
          · simp only [combine, free, if_true]
            have mergedSize : merged.size.toNat =
                block.size + (sizeofBlockMeta + next.size) := by
              simp only [merged, BitVec.toNat_add, BitVec.toNat_ofNat, describes.1,
                nextDescribes.1]
              simp only [poolSize, sizeofBlockMeta] at *
              omega
            refine Linked.cons rfl (Heap.load_of_store stored) ⟨mergedSize, describes.2⟩ ?_
            exact nextRest.of_store_before wellFormed.tail.tail.tiles stored (by
              simp only [Block.finish_eq]
              omega)

theorem bbyFree_refines {pointer : Nat} :
    ∀ {blocks : List Block} {heap : Heap} {head : Pointer} {start : Nat},
      Linked heap head blocks → WellFormed start blocks poolSize →
      pointer ∈ usedPointers blocks →
      ∃ after, bbyFree (some pointer) heap = some after ∧
        Linked after head (release pointer blocks) ∧ Heap.SameBelow start heap after := by
  intro blocks
  induction blocks with
  | nil =>
      intro _ _ _ _ _ member
      cases member
  | cons block blocks induction =>
      intro heap head start linked wellFormed member
      rcases linked with ⟨here, header, loaded, describes, rest⟩
      subst here
      have starts := wellFormed.head.1
      have blockEnd : block.offset + sizeofBlockMeta + block.size ≤ poolSize :=
        (wellFormed.tiles.bounds (List.mem_cons_self : block ∈ block :: blocks)).2
      by_cases found : block.payload = pointer
      · have offsetEq : pointer - sizeofBlockMeta = block.offset := by
          rw [← found, Block.payload_eq, Nat.add_sub_cancel]
        have notBelow : ¬pointer < sizeofBlockMeta := by
          rw [← found, Block.payload_eq]
          omega
        let freed : BlockMeta := { header with free := true }
        rcases heap.exists_store freed
          (show block.offset + sizeofBlockMeta ≤ poolSize by omega) with ⟨marked, stored⟩
        have restMarked : Linked marked header.next blocks :=
          rest.of_store_before wellFormed.tail.tiles stored (by
            rw [Block.finish_eq]
            omega)
        have freedWellFormed :
            WellFormed start ({ block with free := true } :: blocks) poolSize :=
          WellFormed.cons starts wellFormed.head.2 wellFormed.tail
        rcases combineWithNext_refines freedWellFormed (Heap.load_of_store stored)
          ⟨describes.1, rfl⟩ restMarked with ⟨after, combined, linkedAfter, same⟩
        refine ⟨after, ?_, ?_, ?_⟩
        · simp only [bbyFree, notBelow, if_false, offsetEq, loaded, Option.bind_eq_bind,
            Option.bind_some]
          change (heap.store block.offset freed).bind _ = _
          rw [stored]
          exact combined
        · simp only [release, found, if_true]
          exact linkedAfter
        · exact (Heap.SameBelow.of_store stored (by omega)).trans same
      · have tailMember : pointer ∈ usedPointers blocks := by
          rw [usedPointers_cons] at member
          split at member
          · exact member
          · exact (List.mem_cons.mp member).resolve_left fun equal => found equal.symm
        rcases induction rest wellFormed.tail tailMember with
          ⟨after, freed, linkedAfter, same⟩
        have headBelow : block.offset + sizeofBlockMeta ≤ block.finish :=
          poolLayout.payload_le_finish block
        refine ⟨after, freed, ?_, ?_⟩
        · simp only [release, found, if_false]
          exact Linked.cons rfl ((same.2 _ headBelow).trans loaded) describes linkedAfter
        · apply same.mono
          omega

end SystemsRepository.BabyMalloc
