import SystemsRepository.BabyMalloc.Freeing

/-! # Nested allocations

A client that frees what it has allocated last uses the pool as a stack: what it holds
lies at the start of the pool without gaps, and one free block behind it is the rest.
-/

namespace SystemsRepository.BabyMalloc

open SystemsRepository.Foundation

def Nested (state : State) : Call → Prop
  | .bbyFree ptr => ∀ pointer ∈ ptr, state.live.head? = some pointer
  | _ => True

instance : ∀ state call, Decidable (Nested state call)
  | _, .internalAllocation _ => .isTrue trivial
  | _, .bbyMalloc _ => .isTrue trivial
  | state, .bbyFree ptr =>
      inferInstanceAs (Decidable (∀ pointer ∈ ptr, state.live.head? = some pointer))

/-- Blocks in use in the order of their allocation, and the free block behind them. -/
structure Stacked (used : List Block) (top : Option Block) (live : List Nat) : Prop where
  filled : ∀ block ∈ used, block.free = false
  order : used.map Block.payload = live.reverse
  free : ∀ block ∈ top, block.free = true

/-! ## The list -/

section Lists

variable {used : List Block} {top : Option Block} {live : List Nat} {request : Nat}

private theorem firstFit_append {before : List Block}
    (tooSmall : ∀ block ∈ before, ¬block.Fits request)
    (rest : List Block) : firstFit request (before ++ rest) =
      (firstFit request rest).map fun taken => (taken.1, before ++ taken.2) := by
  induction before with
  | nil => exact Option.map_id'.symm
  | cons first before induction =>
      have parts := List.forall_mem_cons.mp tooSmall
      rw [List.cons_append, firstFit, if_neg parts.1, induction parts.2, Option.map_map]
      rfl

theorem Stacked.firstFit_eq (stacked : Stacked used top live) :
    firstFit request (used ++ top.toList) =
      (top.filter fun block => request ≤ block.size).map fun block =>
        (block.payload, used ++ carve request block) := by
  have taken : ∀ block ∈ used, ¬block.Fits request := by
    intro block member fits
    have free := fits.1
    rw [stacked.filled block member] at free
    cases free
  rw [firstFit_append taken]
  cases top with
  | none => rfl
  | some block =>
      have free := stacked.free block rfl
      by_cases room : request ≤ block.size
      · simp [firstFit, Block.Fits, free, room, Option.filter]
      · simp [firstFit, Block.Fits, room, Option.filter]

theorem Stacked.push {block : Block} (stacked : Stacked used (some block) live) (request : Nat) :
    ∃ taken rest, used ++ carve request block = (used ++ [taken]) ++ rest.toList ∧
      Stacked (used ++ [taken]) rest (block.payload :: live) := by
  have pushed : ∀ size, Stacked (used ++ [{ block with size, free := false }]) none
      (block.payload :: live) := by
    intro size
    refine ⟨?_, ?_, nofun⟩
    · intro other member
      rcases List.mem_append.mp member with earlier | same
      · exact stacked.filled other earlier
      · rw [List.mem_singleton.mp same]
    · rw [List.map_append, stacked.order, List.reverse_cons]
      rfl
  unfold carve
  split
  next =>
    have whole := pushed request
    exact ⟨_, some _, by rw [Option.toList_some, List.append_assoc]; rfl, whole.filled, whole.order,
      by simp⟩
  next => exact ⟨_, none, by rw [Option.toList_none, List.append_nil], pushed block.size⟩

private theorem Stacked.pop {pointer : Nat} (stacked : Stacked used top (pointer :: live))
    {start stop : Nat} (wellFormed : WellFormed start (used ++ top.toList) stop) :
    ∃ left rest, release pointer (used ++ top.toList) = left ++ (some rest).toList ∧
      Stacked left (some rest) live := by
  rcases List.eq_nil_or_concat used with rfl | ⟨left, last, isLast⟩
  · have mapped := stacked.order
    rw [List.reverse_cons] at mapped
    exact absurd mapped.symm (List.append_ne_nil_of_right_ne_nil _ (List.cons_ne_nil _ _))
  · rw [List.concat_eq_append] at isLast
    subst isLast
    have mapped := stacked.order
    rw [List.map_append, List.map_singleton, List.reverse_cons] at mapped
    rcases List.append_inj' mapped rfl with ⟨same, single⟩
    have here : last.payload = pointer := (List.cons.inj single).1
    rw [List.append_assoc, List.singleton_append] at wellFormed ⊢
    have distinct : ∀ earlier ∈ left, earlier.payload ≠ pointer := by
      intro earlier member
      rw [← here]
      exact wellFormed.payload_ne_of_before member
    have others : ∀ block ∈ left, block.free = false :=
      fun block member => stacked.filled block (List.mem_append_left _ member)
    rw [release_append _ here distinct]
    cases top with
    | none => exact ⟨left, _, rfl, others, same, by simp⟩
    | some next =>
        have free := stacked.free next rfl
        rw [Option.toList_some, combine, if_pos free]
        exact ⟨left, _, rfl, others, same, by simp⟩

end Lists

/-! ## Runs -/

section Runs

variable {state : State} {used : List Block} {top : Option Block}

private theorem allocation_stacked (call : Call) {size : SizeT}
    (asks : call.requestedSize = some size)
    (represents : Represents state (used ++ top.toList)) (stacked : Stacked used top state.live) :
    ∃ next left rest, execute call state = some next ∧ Represents next (left ++ rest.toList) ∧
      Stacked left rest next.live := by
  rcases allocation_represents call asks represents with ⟨next, executed, after, _⟩
  rw [applyCall_allocation call asks, allocateBlocks, stacked.firstFit_eq] at after
  rw [execute_allocation call asks] at executed
  have found := @Stacked.firstFit_eq used top state.live (roundUp size).toNat stacked
  rcases internalAllocation_cases represents size with
    ⟨nothing, heap, allocated, _⟩ | ⟨pointer, list, heap, taken, allocated, _⟩
  · rw [allocated] at executed
    cases executed
    rw [← found, nothing] at after
    exact ⟨_, used, top, by rw [execute_allocation call asks, allocated]; rfl, after, stacked⟩
  · rw [allocated] at executed
    cases executed
    rw [taken] at found
    rcases Option.map_eq_some_iff.mp found.symm with ⟨block, isTop, same⟩
    have isTop' : top = some block := (Option.filter_eq_some_iff.mp isTop).1
    subst isTop'
    rcases stacked.push (roundUp size).toNat with ⟨last, rest, split, pushed⟩
    rw [isTop, Option.map_some, Option.map_some, Option.getD_some, split] at after
    refine ⟨_, used ++ [last], rest, by rw [execute_allocation call asks, allocated]; rfl, after, ?_⟩
    rw [← (Prod.mk.inj same).1]
    exact pushed

private theorem execute_stacked {call : Call} (nested : Nested state call)
    (represents : Represents state (used ++ top.toList)) (stacked : Stacked used top state.live) :
    ∃ next left rest, execute call state = some next ∧ Represents next (left ++ rest.toList) ∧
      Stacked left rest next.live := by
  cases call with
  | internalAllocation size => exact allocation_stacked _ rfl represents stacked
  | bbyMalloc size => exact allocation_stacked _ rfl represents stacked
  | bbyFree ptr =>
      cases ptr with
      | none => exact ⟨state, used, top, rfl, represents, stacked⟩
      | some pointer =>
          rcases List.head?_eq_some_iff.mp (nested pointer rfl) with ⟨others, live⟩
          have held : pointer ∈ state.live := by simp [live]
          rcases release_represents represents held with ⟨next, executed, after, _⟩
          rcases Option.map_eq_some_iff.mp executed with ⟨heap, _, rfl⟩
          rw [live] at stacked
          rcases stacked.pop represents.wellFormed with ⟨left, rest, released, popped⟩
          rw [released] at after
          refine ⟨_, left, some rest, executed, after, ?_⟩
          simpa [State.freed, live] using popped

/-- In a run of nested calls the blocks in use lie one behind the other from the start of the
pool, in the order in which they were allocated, and one free block at most lies behind them: a
request succeeds exactly when that block is large enough. Once nothing is held the pool is whole. -/
theorem run_stacked {calls : List Call} (permits : allocator.Permits Nested State.initial calls) :
    ∃ state used top, allocator.run calls State.initial = some state ∧
      searchedBlocks state.heap = some (used ++ top.toList) ∧ Stacked used top state.live ∧
      (∀ size, Succeeds size state.heap ↔ ∃ block ∈ top, (roundUp size).toNat ≤ block.size) ∧
      (state.live = [] → used = [] ∧ top = some wholePool) := by
  have step : ∀ state call,
      (∃ used top, Represents state (used ++ Option.toList top) ∧ Stacked used top state.live) →
      Nested state call → ∃ next, allocator.execute call state = some next ∧
        ∃ used top, Represents next (used ++ Option.toList top) ∧ Stacked used top next.live := by
    intro state call invariant nested
    rcases invariant with ⟨used, top, represents, stacked⟩
    rcases execute_stacked nested represents stacked with
      ⟨next, left, rest, executed, after, kept⟩
    exact ⟨next, executed, left, rest, after, kept⟩
  have start : Stacked [] (some wholePool) State.initial.live := ⟨nofun, rfl, by simp [wholePool]⟩
  rcases allocator.run_of_invariant Nested _ step ⟨[], some wholePool, represents_initial, start⟩
    permits with ⟨state, finished, used, top, represents, stacked⟩
  refine ⟨state, used, top, finished, represents.searchedBlocks_eq, stacked, ?_, ?_⟩
  · intro size
    rw [succeeds_iff represents]
    constructor
    · intro fitting
      rcases fitting with ⟨block, member, fits⟩
      rcases List.mem_append.mp member with inUse | onTop
      · have free := fits.1
        rw [stacked.filled block inUse] at free
        cases free
      · exact ⟨block, Option.mem_toList.mp onTop, fits.2⟩
    · intro room
      rcases room with ⟨block, isTop, fits⟩
      exact ⟨block, List.mem_append_right _ (Option.mem_toList.mpr isTop),
        stacked.free block isTop, fits⟩
  · intro nothing
    have order := stacked.order
    rw [nothing, List.reverse_nil, List.map_eq_nil_iff] at order
    subst order
    refine ⟨rfl, ?_⟩
    have chain : NoAdjacentFree top.toList := by cases top <;> simp [NoAdjacentFree]
    have unused : usedPointers top.toList = [] := by
      cases top with
      | none => rfl
      | some block => simp [usedPointers_cons, stacked.free block rfl]
    have whole := eq_wholePool_of_unused represents.wellFormed chain unused
    cases top with
    | none => cases whole
    | some block => rw [(List.cons.inj whole).1]

end Runs

def nestedDemo : List Call :=
  [.bbyMalloc 100, .bbyMalloc 200, .bbyFree (some 152), .internalAllocation 50,
    .bbyFree (some 152), .bbyFree none]

theorem run_stacked_of_demo :
    ∃ state used top, allocator.run nestedDemo State.initial = some state ∧
      searchedBlocks state.heap = some (used ++ Option.toList top) ∧
      Stacked used top state.live ∧
      (∀ size, Succeeds size state.heap ↔ ∃ block ∈ top, (roundUp size).toNat ≤ block.size) ∧
      (state.live = [] → used = [] ∧ top = some wholePool) := by
  have permits : allocator.Permits Nested State.initial nestedDemo := by decide +kernel
  exact run_stacked permits

end SystemsRepository.BabyMalloc
