import SystemsRepository.Foundation.Numerals
import SystemsRepository.Foundation.Text
import SystemsRepository.BabyMalloc.FirstFit

/-! # What `dump_allocator_state` tells

The dump prints sizes and flags only. At every state that a client can reach they are
enough: the text determines the blocks, with their places, and the pointers outstanding.
-/

namespace SystemsRepository.BabyMalloc

open SystemsRepository.Foundation

def dumpHeading : List Char := "\n----Allocator State---- \n".toList

def dumpEnding : List Char := "NULL\n--------------------\n\n".toList

def sizeLabel : List Char := "[ size=".toList

def flagText (free : Bool) : List Char := if free then "FREE".toList else "USED".toList

def arrow : List Char := " ] -> ".toList

def dumpBlock (block : Block) : List Char :=
  sizeLabel ++ (Nat.toDigits 10 block.size ++ ',' :: ' ' :: (flagText block.free ++ arrow))

/-- The text printed; it is `none` where the walk does not end. -/
def dumpAllocatorState (heap : Heap) : Option (List Char) :=
  (walk heap).map fun blocks => dumpHeading ++ (blocks.flatMap dumpBlock ++ dumpEnding)

/-! ## The text of a list -/

private theorem toDigits_injective {left right : Nat}
    (same : Nat.toDigits 10 left = Nat.toDigits 10 right) : left = right := by
  rw [← Numerals.decimal_toDigits left, same, Numerals.decimal_toDigits]

private theorem comma_not_mem_toDigits (number : Nat) : ',' ∉ Nat.toDigits 10 number := by
  intro member
  have digit := Nat.isDigit_of_mem_toDigits (by decide) (by decide) member
  cases digit

private theorem dumpBlock_injective {left right : Block} {rest tail : List Char}
    (same : dumpBlock left ++ rest = dumpBlock right ++ tail) :
    left.size = right.size ∧ left.free = right.free ∧ rest = tail := by
  unfold dumpBlock at same
  simp only [List.append_assoc, List.cons_append, List.append_cancel_left_eq] at same
  rcases Text.line_append_injective (comma_not_mem_toDigits _) (comma_not_mem_toDigits _) same with
    ⟨digits, flags⟩
  refine ⟨toDigits_injective digits, ?_⟩
  rw [List.cons_inj_right] at flags
  cases leftFree : left.free <;> cases rightFree : right.free <;>
    rw [leftFree, rightFree] at flags
  · rw [List.append_cancel_left_eq, List.append_cancel_left_eq] at flags
    exact ⟨rfl, flags⟩
  · cases flags
  · cases flags
  · rw [List.append_cancel_left_eq, List.append_cancel_left_eq] at flags
    exact ⟨rfl, flags⟩

theorem dumpBlocks_injective : ∀ {left right : List Block} {start leftStop rightStop : Nat},
    poolLayout.Tiles start left leftStop → poolLayout.Tiles start right rightStop →
    left.flatMap dumpBlock ++ dumpEnding = right.flatMap dumpBlock ++ dumpEnding → left = right
  | [], [], _, _, _, _, _, _ => rfl
  | [], _ :: _, _, _, _, _, _, same => by cases same
  | _ :: _, [], _, _, _, _, _, same => by cases same
  | block :: left, other :: right, _, _, _, leftTiles, rightTiles, same => by
      rw [List.flatMap_cons, List.flatMap_cons, List.append_assoc, List.append_assoc] at same
      rcases dumpBlock_injective same with ⟨size, free, rest⟩
      have first : block = other := by
        have offset : block.offset = other.offset := leftTiles.1.trans rightTiles.1.symm
        cases block
        cases other
        simp only at size free offset
        rw [size, free, offset]
      rw [first] at leftTiles
      rw [first, dumpBlocks_injective leftTiles.2 rightTiles.2 rest]

/-! ## Reachable states -/

def zeroBlock : Block := { offset := freeList, size := 0, free := false }

private theorem walk_uninitialised : walk Heap.uninitialised = some [zeroBlock] := rfl

/-- Blocks that the dump of a state walks, and the pointers that they stand for. -/
theorem Reachable.walked {state : State} (reachable : Reachable state) :
    ∃ blocks stop, walk state.heap = some blocks ∧ poolLayout.Tiles 0 blocks stop ∧
      (blocks = [zeroBlock] ∧ state.live = [] ∨
        stop = poolSize ∧ (usedPointers blocks).Perm state.live) := by
  rcases reachable.represents with ⟨blocks, represents⟩
  rcases represents.pool with ⟨untouched, whole⟩ | ⟨_, linked⟩
  · rw [untouched]
    refine ⟨[zeroBlock], sizeofBlockMeta, walk_uninitialised, ⟨rfl, rfl⟩, .inl ⟨rfl, ?_⟩⟩
    have live := represents.live
    rw [whole] at live
    exact live.symm.eq_nil
  · exact ⟨blocks, poolSize, linked.walkFrom_eq represents.wellFormed.length_le_walkLimit,
      represents.wellFormed.tiles, .inr ⟨rfl, represents.live⟩⟩

/-- Two states that can be reached and print the same dump have the same blocks at the same places,
and the same pointers are outstanding. -/
theorem dump_injective {left right : State} (leftReachable : Reachable left)
    (rightReachable : Reachable right)
    (same : dumpAllocatorState left.heap = dumpAllocatorState right.heap) :
    (dumpAllocatorState left.heap).isSome ∧ walk left.heap = walk right.heap ∧
      left.live.Perm right.live := by
  rcases leftReachable.walked with ⟨blocks, stop, walked, tiles, held⟩
  rcases rightReachable.walked with ⟨others, otherStop, otherWalked, otherTiles, otherHeld⟩
  rw [dumpAllocatorState, dumpAllocatorState, walked, otherWalked, Option.map_some,
    Option.map_some, Option.some.injEq, List.append_cancel_left_eq] at same
  have blocksEq := dumpBlocks_injective tiles otherTiles same
  subst blocksEq
  refine ⟨by rw [dumpAllocatorState, walked]; rfl, walked.trans otherWalked.symm, ?_⟩
  have stops : stop = otherStop := tiles.stop_unique otherTiles
  rcases held with ⟨zero, nothing⟩ | ⟨isPool, live⟩
  · rcases otherHeld with ⟨_, otherNothing⟩ | ⟨isPool, _⟩
    · rw [nothing, otherNothing]
    · rw [zero, stops, isPool] at tiles
      exact absurd (show sizeofBlockMeta = poolSize from tiles.2) (by decide)
  · rcases otherHeld with ⟨zero, _⟩ | ⟨_, otherLive⟩
    · rw [zero, isPool] at tiles
      exact absurd (show sizeofBlockMeta = poolSize from tiles.2) (by decide)
    · exact live.symm.trans otherLive

def plainCalls : List Call := [.bbyMalloc 100, .bbyMalloc 200]

def detourCalls : List Call :=
  [.internalAllocation 97, .bbyMalloc 8, .bbyFree (some 152), .bbyMalloc 193]

theorem dump_injective_of_detour :
    ∃ left right, allocator.run plainCalls State.initial = some left ∧
      allocator.run detourCalls State.initial = some right ∧
      (dumpAllocatorState left.heap).isSome ∧ walk left.heap = walk right.heap ∧
      left.live.Perm right.live := by
  have plain : allocator.Permits Allowed State.initial plainCalls := by decide +kernel
  have detour : allocator.Permits Allowed State.initial detourCalls := by decide +kernel
  have dumps : (allocator.run plainCalls State.initial).bind
      (fun state => dumpAllocatorState state.heap) =
        (allocator.run detourCalls State.initial).bind
          fun state => dumpAllocatorState state.heap := by
    decide +kernel
  rcases run_represents represents_initial plain with ⟨left, leftRan, _⟩
  rcases run_represents represents_initial detour with ⟨right, rightRan, _⟩
  rw [leftRan, rightRan] at dumps
  exact ⟨left, right, leftRan, rightRan,
    dump_injective ⟨plainCalls, plain, leftRan⟩ ⟨detourCalls, detour, rightRan⟩ dumps⟩

end SystemsRepository.BabyMalloc
