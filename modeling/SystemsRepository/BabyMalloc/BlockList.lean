import SystemsRepository.Foundation.Tiling
import SystemsRepository.BabyMalloc.Allocator

/-! # The block list without memory

First-fit allocation and release as operations on the list of blocks, and the
properties of that list which they preserve. Pointers are payload offsets.
-/

namespace SystemsRepository.BabyMalloc

open SystemsRepository.Foundation

@[reducible] def poolLayout : Layout Block where
  header := sizeofBlockMeta
  offset := Block.offset
  size := Block.size

namespace Block

abbrev payload (block : Block) : Nat := poolLayout.payload block

abbrev finish (block : Block) : Nat := poolLayout.finish block

theorem payload_eq (block : Block) :
    block.payload = block.offset + sizeofBlockMeta := rfl

theorem finish_eq (block : Block) :
    block.finish = block.offset + sizeofBlockMeta + block.size := rfl

def Fits (request : Nat) (block : Block) : Prop :=
  block.free = true ∧ request ≤ block.size

instance (request : Nat) (block : Block) : Decidable (block.Fits request) :=
  inferInstanceAs (Decidable (_ ∧ _))

end Block

def usedPointers (blocks : List Block) : List Nat :=
  (blocks.filter fun block => !block.free).map Block.payload

@[simp] theorem usedPointers_nil : usedPointers [] = [] := rfl

theorem usedPointers_cons (block : Block) (blocks : List Block) :
    usedPointers (block :: blocks) =
      if block.free then usedPointers blocks
      else block.payload :: usedPointers blocks := by
  cases free : block.free <;> simp [usedPointers, free]

@[simp] theorem usedPointers_append (left right : List Block) :
    usedPointers (left ++ right) = usedPointers left ++ usedPointers right := by
  simp [usedPointers]

theorem mem_usedPointers {pointer : Nat} {blocks : List Block} :
    pointer ∈ usedPointers blocks ↔
      ∃ block ∈ blocks, block.free = false ∧ block.payload = pointer := by
  simp [usedPointers, and_assoc]

/-! ## The operations -/

def carve (request : Nat) (block : Block) : List Block :=
  if request + sizeofBlockMeta < block.size then
    [{ block with size := request, free := false },
      { offset := block.offset + sizeofBlockMeta + request
        size := block.size - request - sizeofBlockMeta
        free := true }]
  else
    [{ block with free := false }]

def firstFit (request : Nat) : List Block → Option (Nat × List Block)
  | [] => none
  | block :: blocks =>
      if block.Fits request then
        some (block.payload, carve request block ++ blocks)
      else
        (firstFit request blocks).map fun (pointer, rest) => (pointer, block :: rest)

def combine (block : Block) : List Block → List Block
  | [] => [block]
  | next :: blocks =>
      if next.free then
        { block with size := block.size + (sizeofBlockMeta + next.size) } :: blocks
      else
        block :: next :: blocks

/-- Free the block whose payload starts at `pointer`. -/
def release (pointer : Nat) : List Block → List Block
  | [] => []
  | block :: blocks =>
      if block.payload = pointer then combine { block with free := true } blocks
      else block :: release pointer blocks

theorem firstFit_eq_some {request : Nat} :
    ∀ {blocks after : List Block} {pointer : Nat},
      firstFit request blocks = some (pointer, after) →
      ∃ before block rest, blocks = before ++ block :: rest ∧
        (∀ earlier ∈ before, ¬earlier.Fits request) ∧ block.Fits request ∧
        pointer = block.payload ∧ after = before ++ (carve request block ++ rest) := by
  intro blocks
  induction blocks with
  | nil =>
      intro _ _ taken
      cases taken
  | cons head tail induction =>
      intro after pointer taken
      by_cases fits : head.Fits request
      · simp only [firstFit, fits, if_true, Option.some.injEq, Prod.mk.injEq] at taken
        exact ⟨[], head, tail, rfl, by simp, fits, taken.1.symm, taken.2.symm⟩
      · simp only [firstFit, fits, if_false, Option.map_eq_some_iff] at taken
        rcases taken with ⟨⟨found, rest⟩, foundRest, equal⟩
        simp only [Prod.mk.injEq] at equal
        rcases induction foundRest with
          ⟨before, block, after, split, earlier, blockFits, pointerEq, restEq⟩
        refine ⟨head :: before, block, after, by simp [split], ?_, blockFits, ?_, ?_⟩
        · intro other member
          rcases List.mem_cons.mp member with same | member
          · exact same ▸ fits
          · exact earlier other member
        · exact equal.1.symm.trans pointerEq
        · rw [← equal.2, restEq, List.cons_append]

/-! ## The list keeps tiling the pool -/

/-- Blocks tile a range and have sizes that are multiples of 8. -/
structure WellFormed (start : Nat) (blocks : List Block) (stop : Nat) : Prop where
  tiles : poolLayout.Tiles start blocks stop
  aligned : ∀ block ∈ blocks, 8 ∣ block.size

theorem WellFormed.head {block : Block} {blocks : List Block} {start stop : Nat}
    (wellFormed : WellFormed start (block :: blocks) stop) :
    block.offset = start ∧ 8 ∣ block.size :=
  ⟨wellFormed.tiles.1, wellFormed.aligned block (by simp)⟩

theorem WellFormed.tail {block : Block} {blocks : List Block} {start stop : Nat}
    (wellFormed : WellFormed start (block :: blocks) stop) :
    WellFormed block.finish blocks stop :=
  ⟨wellFormed.tiles.2, fun other member => wellFormed.aligned other (by simp [member])⟩

theorem WellFormed.cons {block : Block} {blocks : List Block} {start stop : Nat}
    (starts : block.offset = start) (aligned : 8 ∣ block.size)
    (rest : WellFormed block.finish blocks stop) :
    WellFormed start (block :: blocks) stop where
  tiles := ⟨starts, rest.tiles⟩
  aligned other member := by
    rcases List.mem_cons.mp member with same | member
    · exact same ▸ aligned
    · exact rest.aligned other member

private theorem wellFormed_carve {request stop : Nat} {block : Block} {blocks : List Block}
    (requestAligned : 8 ∣ request) (sizeAligned : 8 ∣ block.size)
    (rest : WellFormed block.finish blocks stop) :
    WellFormed block.offset (carve request block ++ blocks) stop := by
  by_cases splits : request + sizeofBlockMeta < block.size
  · simp only [carve, splits, if_true, List.cons_append, List.nil_append]
    -- The remainder ends where the taken block ended.
    refine WellFormed.cons rfl requestAligned (WellFormed.cons rfl ?_ ?_)
    · show 8 ∣ block.size - request - 24
      omega
    · have sameEnd : block.offset + sizeofBlockMeta + request + sizeofBlockMeta +
          (block.size - request - sizeofBlockMeta) = block.finish := by
        rw [Block.finish_eq]
        omega
      rw [Block.finish_eq, sameEnd]
      exact rest
  · simp only [carve, splits, if_false, List.cons_append, List.nil_append]
    exact WellFormed.cons rfl sizeAligned rest

theorem wellFormed_firstFit {request stop : Nat} (aligned : 8 ∣ request) :
    ∀ {blocks after : List Block} {start pointer : Nat}, WellFormed start blocks stop →
      firstFit request blocks = some (pointer, after) → WellFormed start after stop := by
  intro blocks
  induction blocks with
  | nil =>
      intro _ _ _ _ taken
      cases taken
  | cons head tail induction =>
      intro after start pointer wellFormed taken
      have headFacts := wellFormed.head
      by_cases fits : head.Fits request
      · simp only [firstFit, fits, if_true, Option.some.injEq, Prod.mk.injEq] at taken
        rw [← headFacts.1, ← taken.2]
        exact wellFormed_carve aligned headFacts.2 wellFormed.tail
      · simp only [firstFit, fits, if_false, Option.map_eq_some_iff] at taken
        rcases taken with ⟨⟨found, rest⟩, foundRest, equal⟩
        simp only [Prod.mk.injEq] at equal
        rw [← headFacts.1, ← equal.2]
        exact WellFormed.cons rfl headFacts.2 (induction wellFormed.tail foundRest)

private theorem wellFormed_combine (block : Block) {stop : Nat} (aligned : 8 ∣ block.size) :
    ∀ {blocks : List Block}, WellFormed block.finish blocks stop →
      WellFormed block.offset (combine block blocks) stop
  | [], rest => WellFormed.cons rfl aligned rest
  | next :: blocks, rest => by
      by_cases free : next.free
      · have nextFacts := rest.head
        simp only [combine, free, if_true]
        refine WellFormed.cons rfl ?_ ?_
        · show 8 ∣ block.size + (24 + next.size)
          omega
        · have sameEnd : block.offset + sizeofBlockMeta +
              (block.size + (sizeofBlockMeta + next.size)) = next.finish := by
            rw [Block.finish_eq, nextFacts.1, Block.finish_eq]
            omega
          rw [Block.finish_eq, sameEnd]
          exact rest.tail
      · simp only [combine, free]
        exact WellFormed.cons rfl aligned rest

theorem wellFormed_release {pointer stop : Nat} :
    ∀ {blocks : List Block} {start : Nat}, WellFormed start blocks stop →
      WellFormed start (release pointer blocks) stop
  | [], _, wellFormed => wellFormed
  | block :: blocks, start, wellFormed => by
      have headFacts := wellFormed.head
      rw [← headFacts.1]
      by_cases here : block.payload = pointer
      · simp only [release, here, if_true]
        exact wellFormed_combine { block with free := true } headFacts.2 wellFormed.tail
      · simp only [release, here, if_false]
        exact WellFormed.cons rfl headFacts.2 (wellFormed_release wellFormed.tail)

/-! ## Pointers in use -/

private theorem usedPointers_carve (request : Nat) (block : Block) :
    usedPointers (carve request block) = [block.payload] := by
  by_cases splits : request + sizeofBlockMeta < block.size <;>
    simp [carve, splits, usedPointers, Block.payload, Layout.payload]

/-- First fit puts exactly one more pointer in use, the one it returns. -/
theorem usedPointers_firstFit {request pointer : Nat} {blocks after : List Block}
    (taken : firstFit request blocks = some (pointer, after)) :
    (usedPointers after).Perm (pointer :: usedPointers blocks) := by
  rcases firstFit_eq_some taken with
    ⟨before, block, rest, rfl, _, fits, rfl, rfl⟩
  simp only [usedPointers_append, usedPointers_carve, usedPointers_cons, fits.1, if_true]
  exact List.perm_middle

private theorem usedPointers_combine (block : Block) (free : block.free = true)
    (blocks : List Block) :
    usedPointers (combine block blocks) = usedPointers blocks := by
  cases blocks with
  | nil => simp [combine, usedPointers_cons, free]
  | cons next blocks =>
      by_cases nextFree : next.free <;>
        simp [combine, usedPointers_cons, free, nextFree]

theorem WellFormed.eq_of_payload_eq {left right : Block} {blocks : List Block}
    {start stop : Nat} (wellFormed : WellFormed start blocks stop)
    (leftMember : left ∈ blocks) (rightMember : right ∈ blocks)
    (equal : left.payload = right.payload) : left = right := by
  apply wellFormed.tiles.eq_of_offset_eq (by decide) leftMember rightMember
  exact Nat.add_right_cancel equal

theorem usedPointers_release {pointer stop : Nat} :
    ∀ {blocks : List Block} {start : Nat}, WellFormed start blocks stop →
      pointer ∈ usedPointers blocks →
      (usedPointers blocks).Perm (pointer :: usedPointers (release pointer blocks)) := by
  intro blocks
  induction blocks with
  | nil =>
      intro _ _ member
      cases member
  | cons head tail induction =>
      intro start wellFormed member
      rcases mem_usedPointers.mp member with ⟨block, blockMember, used, payloadEq⟩
      by_cases here : head.payload = pointer
      · have same : head = block :=
          wellFormed.eq_of_payload_eq (by simp) blockMember (here.trans payloadEq.symm)
        have headUsed : head.free = false := same ▸ used
        simp only [release, here, if_true]
        rw [usedPointers_combine _ rfl, usedPointers_cons, headUsed, ← here]
        exact List.Perm.refl _
      · have tailMember : pointer ∈ usedPointers tail := by
          rcases List.mem_cons.mp blockMember with same | tailMember
          · exact absurd (same ▸ payloadEq) here
          · exact mem_usedPointers.mpr ⟨block, tailMember, used, payloadEq⟩
        have smaller := induction wellFormed.tail tailMember
        simp only [release, here, if_false, usedPointers_cons]
        cases free : head.free with
        | true => simpa using smaller
        | false =>
            simp only [Bool.false_eq_true, if_false]
            exact (smaller.cons _).trans (List.Perm.swap _ _ _)

theorem WellFormed.usedPointers_nodup {blocks : List Block} {start stop : Nat}
    (wellFormed : WellFormed start blocks stop) : (usedPointers blocks).Nodup := by
  have ordered := wellFormed.tiles.pairwise
  simp only [usedPointers, List.Nodup, List.pairwise_map]
  apply (ordered.sublist List.filter_sublist).imp
  intro left right before equal
  have payloadsEqual : left.offset + 24 = right.offset + 24 := equal
  have endsBefore : left.offset + 24 + left.size ≤ right.offset := before
  omega

end SystemsRepository.BabyMalloc
