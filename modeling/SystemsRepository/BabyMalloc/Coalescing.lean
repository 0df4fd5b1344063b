import Mathlib.Data.List.Chain
import SystemsRepository.BabyMalloc.HeapInvariant

/-! # Adjacent free blocks

`bby_free` merges the freed block with its successor only. Whether two free
blocks become neighbours is therefore decided by the block before the freed one.
-/

namespace SystemsRepository.BabyMalloc

open SystemsRepository.Foundation

def NotBothFree (left right : Block) : Prop := ¬(left.free = true ∧ right.free = true)

instance : DecidableRel NotBothFree := fun _ _ => inferInstanceAs (Decidable (¬_))

/-- No two consecutive blocks are both free. -/
def NoAdjacentFree (blocks : List Block) : Prop := blocks.IsChain NotBothFree

instance (blocks : List Block) : Decidable (NoAdjacentFree blocks) :=
  inferInstanceAs (Decidable (blocks.IsChain NotBothFree))

def freeBefore (pointer : Nat) : List Block → Bool
  | before :: block :: rest =>
      if block.payload = pointer then before.free else freeBefore pointer (block :: rest)
  | _ => false

private theorem freeBefore_of_not_mem {pointer : Nat} : ∀ {head : Block} {blocks : List Block},
    (∀ block ∈ blocks, block.payload ≠ pointer) → freeBefore pointer (head :: blocks) = false
  | _, [], _ => rfl
  | _, next :: rest, absent => by
      rw [freeBefore, if_neg (absent next (by simp))]
      exact freeBefore_of_not_mem fun block member => absent block (by simp [member])

/-- In a tiling, the block before the released one is the last of those in
front of it. -/
theorem freeBefore_split {block : Block} {rest : List Block} :
    ∀ {before : List Block} {start stop : Nat},
      WellFormed start (before ++ block :: rest) stop →
      freeBefore block.payload (before ++ block :: rest) =
        before.getLast?.any fun previous => previous.free := by
  intro before
  induction before with
  | nil =>
      intro start stop wellFormed
      apply freeBefore_of_not_mem
      intro other member equal
      have later : block.offset + 24 + block.size ≤ other.offset :=
        (wellFormed.tail.tiles.bounds member).1
      have same : other.offset + 24 = block.offset + 24 := equal
      omega
  | cons head tail induction =>
      intro start stop wellFormed
      cases tail with
      | nil => simp [freeBefore]
      | cons next tail =>
          have different : next.payload ≠ block.payload := by
            intro equal
            have same := wellFormed.tail.eq_of_payload_eq List.mem_cons_self
              (by simp : block ∈ next :: (tail ++ block :: rest)) equal
            have later : next.offset + 24 + next.size ≤ block.offset :=
              (wellFormed.tail.tail.tiles.bounds (by simp : block ∈ tail ++ block :: rest)).1
            rw [same] at later
            omega
          have smaller := induction wellFormed.tail
          simp only [List.cons_append] at smaller ⊢
          rw [freeBefore, if_neg different, smaller]
          simp

/-! ## One call -/

private theorem noAdjacentFree_firstFit {request pointer : Nat} {blocks after : List Block}
    (taken : firstFit request blocks = some (pointer, after))
    (coalesced : NoAdjacentFree blocks) : NoAdjacentFree after := by
  rcases firstFit_eq_some taken with
    ⟨before, block, rest, rfl, _, fits, rfl, rfl⟩
  rcases List.isChain_append.mp coalesced with ⟨left, right, _⟩
  rcases List.isChain_cons.mp right with ⟨blockNext, restChain⟩
  -- A used block may stand next to anything.
  have usedFirst : ∀ previous : Block, ∀ taken : Block, taken.free = false →
      NotBothFree previous taken := by
    intro previous taken used both
    simp [used] at both
  apply List.isChain_append.mpr
  refine ⟨left, ?_, ?_⟩
  · by_cases splits : request + sizeofBlockMeta < block.size
    · simp only [carve, splits, if_true, List.cons_append, List.nil_append]
      refine List.IsChain.cons_cons (fun both => by simp at both) ?_
      apply List.isChain_cons.mpr
      refine ⟨?_, restChain⟩
      intro next member both
      exact blockNext next member ⟨fits.1, both.2⟩
    · simp only [carve, splits, if_false, List.cons_append, List.nil_append]
      apply List.isChain_cons.mpr
      exact ⟨fun next _ both => by simp at both, restChain⟩
  · intro previous _ first firstEq
    apply usedFirst
    by_cases splits : request + sizeofBlockMeta < block.size
    · simp only [carve, splits, if_true, List.cons_append, List.head?_cons,
        Option.mem_some] at firstEq
      rw [← firstEq]
    · simp only [carve, splits, if_false, List.cons_append, List.head?_cons,
        Option.mem_some] at firstEq
      rw [← firstEq]

theorem release_split {pointer : Nat} : ∀ {blocks : List Block},
    pointer ∈ usedPointers blocks →
    ∃ before block rest, blocks = before ++ block :: rest ∧ block.payload = pointer ∧
      release pointer blocks = before ++ combine { block with free := true } rest
  | head :: tail, member => by
      by_cases here : head.payload = pointer
      · exact ⟨[], head, tail, rfl, here, by simp [release, here]⟩
      · have tailMember : pointer ∈ usedPointers tail := by
          rw [usedPointers_cons] at member
          split at member
          · exact member
          · exact (List.mem_cons.mp member).resolve_left fun equal => here equal.symm
        rcases release_split tailMember with ⟨before, block, rest, split, payloadEq, released⟩
        refine ⟨head :: before, block, rest, by simp [split], payloadEq, ?_⟩
        simp [release, here, released]

private theorem noAdjacentFree_combine {block : Block} {blocks : List Block}
    (coalesced : NoAdjacentFree blocks) :
    NoAdjacentFree (combine block blocks) := by
  cases blocks with
  | nil => exact List.isChain_singleton _
  | cons next blocks =>
      rcases List.isChain_cons.mp coalesced with ⟨nextNext, restChain⟩
      by_cases free : next.free
      · simp only [combine, free, if_true]
        apply List.isChain_cons.mpr
        exact ⟨fun other member both => nextNext other member ⟨free, both.2⟩, restChain⟩
      · simp only [combine, free]
        exact List.IsChain.cons_cons (fun both => free both.2) coalesced

private theorem head?_combine_free (block : Block) (free : block.free = true)
    (blocks : List Block) : ∃ first ∈ (combine block blocks).head?, first.free = true := by
  cases blocks with
  | nil => exact ⟨block, rfl, free⟩
  | cons next blocks =>
      by_cases nextFree : next.free
      · exact ⟨{ block with size := block.size + (sizeofBlockMeta + next.size) },
          by simp [combine, nextFree], free⟩
      · exact ⟨block, by simp [combine, nextFree], free⟩

/-- Releasing keeps free blocks apart exactly when the block before the
released one is in use. -/
theorem noAdjacentFree_release_iff {pointer start stop : Nat} {blocks : List Block}
    (wellFormed : WellFormed start blocks stop) (used : pointer ∈ usedPointers blocks)
    (coalesced : NoAdjacentFree blocks) :
    NoAdjacentFree (release pointer blocks) ↔ freeBefore pointer blocks = false := by
  rcases release_split used with ⟨before, block, rest, rfl, rfl, released⟩
  rw [released, freeBefore_split wellFormed]
  rcases List.isChain_append.mp coalesced with ⟨beforeChain, right, _⟩
  have restChain : NoAdjacentFree rest := (List.isChain_cons.mp right).2
  have combinedChain : NoAdjacentFree (combine { block with free := true } rest) :=
    noAdjacentFree_combine restChain
  rcases head?_combine_free { block with free := true } rfl rest with
    ⟨first, firstEq, firstFree⟩
  constructor
  · intro chain
    have seam := (List.isChain_append.mp chain).2.2
    cases last : before.getLast? with
    | none => rfl
    | some previous =>
        have apart := seam previous last first firstEq
        cases free : previous.free with
        | false => simp [free]
        | true => exact absurd ⟨free, firstFree⟩ apart
  · intro previousUsed
    apply List.isChain_append.mpr
    refine ⟨beforeChain, combinedChain, ?_⟩
    intro previous last other _ both
    rw [Option.mem_def.mp last] at previousUsed
    simp [both.1] at previousUsed

/-! ## Runs -/

/-- The call is not a free of a block that follows a free block. -/
def FreesAfterUsed (state : State) : Call → Prop
  | .bbyFree (some pointer) =>
      ∀ blocks ∈ walk state.heap, freeBefore pointer blocks = false
  | _ => True

instance : ∀ state call, Decidable (FreesAfterUsed state call)
  | _, .internalAllocation _ => .isTrue trivial
  | _, .bbyMalloc _ => .isTrue trivial
  | _, .bbyFree none => .isTrue trivial
  | state, .bbyFree (some pointer) =>
      inferInstanceAs (Decidable (∀ blocks ∈ walk state.heap, freeBefore pointer blocks = false))

def Coalescing (state : State) (call : Call) : Prop :=
  Allowed state call ∧ FreesAfterUsed state call

instance (state : State) (call : Call) : Decidable (Coalescing state call) :=
  inferInstanceAs (Decidable (_ ∧ _))

theorem Represents.isInitialized_of_mem_live {state : State} {blocks : List Block}
    {pointer : Nat} (represents : Represents state blocks) (held : pointer ∈ state.live) :
    state.heap.isInitialized = true := by
  rcases represents.pool with ⟨_, whole⟩ | ⟨initialised, _⟩
  · have used := represents.live.mem_iff.mpr held
    rw [whole] at used
    cases used
  · exact initialised

private theorem applyCall_noAdjacentFree {state : State} {blocks : List Block} {call : Call}
    (represents : Represents state blocks) (permitted : Coalescing state call)
    (coalesced : NoAdjacentFree blocks) : NoAdjacentFree (applyCall blocks call) := by
  have allocated : ∀ size, NoAdjacentFree (allocateBlocks size blocks) := by
    intro size
    unfold allocateBlocks
    cases found : firstFit (roundUp size).toNat blocks with
    | none => exact coalesced
    | some taken =>
        rcases taken with ⟨pointer, after⟩
        exact noAdjacentFree_firstFit found coalesced
  cases call with
  | internalAllocation size => exact allocated size
  | bbyMalloc size => exact allocated size
  | bbyFree ptr =>
      cases ptr with
      | none => exact coalesced
      | some pointer =>
          have held : pointer ∈ state.live := permitted.1 pointer rfl
          have walked := (represents.heapInvariant
            (represents.isInitialized_of_mem_live held)).walked
          exact (noAdjacentFree_release_iff represents.wellFormed
            (represents.live.mem_iff.mpr held) coalesced).mpr (permitted.2 blocks walked)

/-- When nothing is in use and no two neighbours are free, one block is left. -/
theorem eq_wholePool_of_unused {blocks : List Block}
    (wellFormed : WellFormed 0 blocks poolSize) (coalesced : NoAdjacentFree blocks)
    (unused : usedPointers blocks = []) : blocks = [wholePool] := by
  have allFree : ∀ block ∈ blocks, block.free = true := by
    intro block member
    cases free : block.free with
    | true => rfl
    | false =>
        have used := mem_usedPointers.mpr ⟨block, member, free, rfl⟩
        rw [unused] at used
        cases used
  match blocks, wellFormed, coalesced, allFree with
  | [], wellFormed, _, _ => exact absurd (Layout.tiles_nil.mp wellFormed.tiles) (by decide)
  | [block], wellFormed, _, allFree =>
      have starts : block.offset = 0 := wellFormed.head.1
      have ends : block.offset + 24 + block.size = 1048576 := wellFormed.tail.tiles
      have free := allFree block (by simp)
      have size : block.size = 1048552 := by omega
      cases block
      simp only at starts size free
      subst starts size free
      rfl
  | first :: second :: rest, _, coalesced, allFree =>
      exact absurd ⟨allFree first (by simp), allFree second (by simp)⟩
        (List.isChain_cons_cons.mp coalesced).1

private theorem run_coalesced {calls : List Call}
    (permits : allocator.Permits Coalescing State.initial calls) :
    ∃ state blocks, allocator.run calls State.initial = some state ∧
      Represents state blocks ∧ NoAdjacentFree blocks := by
  have step : ∀ state call,
      (∃ blocks, Represents state blocks ∧ NoAdjacentFree blocks) → Coalescing state call →
      ∃ next, allocator.execute call state = some next ∧
        ∃ blocks, Represents next blocks ∧ NoAdjacentFree blocks := by
    rintro state call ⟨blocks, represents, coalesced⟩ permitted
    rcases execute_represents represents permitted.1 with ⟨next, executed, after, _⟩
    exact ⟨next, executed, _, after, applyCall_noAdjacentFree represents permitted coalesced⟩
  rcases allocator.run_of_invariant Coalescing _ step
    ⟨[wholePool], represents_initial, List.isChain_singleton _⟩ permits with
    ⟨state, finished, blocks, represents, coalesced⟩
  exact ⟨state, blocks, finished, represents, coalesced⟩

/-- Freeing the lower of two neighbours first leaves both on the list. -/
theorem freed_neighbours_stay_apart :
    allocator.Permits Allowed State.initial
        [.bbyMalloc 100, .bbyMalloc 200, .bbyFree (some 24), .bbyFree (some 152)] ∧
    ∃ state blocks, allocator.run
        [.bbyMalloc 100, .bbyMalloc 200, .bbyFree (some 24), .bbyFree (some 152)]
        State.initial = some state ∧
      state.live = [] ∧ walk state.heap = some blocks ∧
      ¬NoAdjacentFree blocks ∧ blocks ≠ [wholePool] := by
  have computed : (allocator.run
      [.bbyMalloc 100, .bbyMalloc 200, .bbyFree (some 24), .bbyFree (some 152)]
      State.initial).map (fun state => (state.live, walk state.heap)) =
      some ([], some [⟨0, 104, true⟩, ⟨128, 1048424, true⟩]) := by
    decide +kernel
  rcases Option.map_eq_some_iff.mp computed with ⟨state, finished, observed⟩
  simp only [Prod.mk.injEq] at observed
  exact ⟨by decide +kernel, state, _, finished, observed.1, observed.2, by decide, by decide⟩

/-- In every run that frees only behind blocks in use, no two neighbours are
free, and when the client holds nothing the pool is one block again. In any
reachable state without free neighbours, a free keeps it that way exactly when
the block before the freed one is in use. -/
theorem no_adjacent_free :
    (∀ calls, allocator.Permits Coalescing State.initial calls →
      ∃ state, allocator.run calls State.initial = some state ∧
        ((∃ call ∈ calls, call.requestedSize.isSome = true) →
          ∃ blocks, walk state.heap = some blocks ∧ NoAdjacentFree blocks ∧
            (state.live = [] → blocks = [wholePool]))) ∧
    (∀ calls state blocks pointer, allocator.Permits Allowed State.initial calls →
      allocator.run calls State.initial = some state → walk state.heap = some blocks →
      NoAdjacentFree blocks → pointer ∈ state.live →
      ∃ next after, execute (.bbyFree (some pointer)) state = some next ∧
        walk next.heap = some after ∧
        (NoAdjacentFree after ↔ freeBefore pointer blocks = false)) := by
  constructor
  · intro calls permits
    rcases run_coalesced permits with ⟨state, blocks, finished, represents, coalesced⟩
    rcases run_represents represents_initial
      (permits.mono fun _ _ both => both.1) with ⟨other, otherFinished, _, initialised⟩
    have same : other = state := Option.some.inj (otherFinished.symm.trans finished)
    subst same
    refine ⟨other, finished, fun allocated => ⟨blocks, ?_, coalesced, ?_⟩⟩
    · exact (represents.heapInvariant (initialised (.inr allocated))).walked
    · intro empty
      apply eq_wholePool_of_unused represents.wellFormed coalesced
      exact List.Perm.eq_nil (empty ▸ represents.live)
  · intro calls state blocks pointer permits finished walked coalesced held
    rcases run_represents represents_initial permits with
      ⟨other, otherFinished, represents, _⟩
    have same : other = state := Option.some.inj (otherFinished.symm.trans finished)
    subst same
    have initialised := represents.isInitialized_of_mem_live held
    have blocksEq : calls.foldl applyCall [wholePool] = blocks :=
      Option.some.inj ((represents.heapInvariant initialised).walked.symm.trans walked)
    rw [blocksEq] at represents
    rcases release_represents represents held with ⟨next, freed, after, stays⟩
    refine ⟨next, _, freed, (after.heapInvariant (stays.trans initialised)).walked, ?_⟩
    exact noAdjacentFree_release_iff represents.wellFormed
      (represents.live.mem_iff.mpr held) coalesced

theorem no_adjacent_free_of_demo :
    ∃ state, allocator.run
        [.bbyMalloc 100, .bbyMalloc 200, .bbyFree (some 152), .bbyFree (some 24)]
        State.initial = some state ∧
      ∃ blocks, walk state.heap = some blocks ∧ NoAdjacentFree blocks ∧
        (state.live = [] → blocks = [wholePool]) := by
  rcases no_adjacent_free.1
    [.bbyMalloc 100, .bbyMalloc 200, .bbyFree (some 152), .bbyFree (some 24)]
    (by decide +kernel) with ⟨state, finished, merged⟩
  exact ⟨state, finished, merged ⟨.bbyMalloc 100, by decide, rfl⟩⟩

end SystemsRepository.BabyMalloc
