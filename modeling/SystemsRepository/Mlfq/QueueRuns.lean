import SystemsRepository.Mlfq.ProcessQueue

/-! # Runs of a queue

What the calls of `enqueue` and `dequeue` on one queue accept and return.
-/

namespace SystemsRepository.Mlfq

open SystemsRepository.Foundation

variable {Process : Type u}

inductive Call (Process : Type u)
  | enqueue (p : Process)
  | dequeue
  deriving DecidableEq, Repr

/-- A queue, with what it has accepted and returned so far. -/
structure Recorded (Process : Type u) where
  queue : ProcessQueue Process
  history : History Process
  deriving DecidableEq, Repr

namespace Recorded

def start : Recorded Process where
  queue := .init
  history := .start

/-- A process is accepted unless the overflow is reported; one is returned unless it is
`NULL`. -/
def execute (call : Call Process) (state : Recorded Process) : Option (Recorded Process) :=
  match call with
  | .enqueue p => do
      match ← state.queue.enqueue p with
      | (queue, none) => return { queue, history := state.history.accept p }
      | (queue, some _) => return { state with queue }
  | .dequeue => do
      match ← state.queue.dequeue with
      | (queue, none) => return { state with queue }
      | (queue, some p) => return { queue, history := state.history.give p }

def machine : Machine (Recorded Process) (Call Process) where
  execute := execute

structure Valid (state : Recorded Process) : Prop where
  inOrder : state.history.InOrder
  holds : ∃ before after, state.queue.Holds state.history.waiting before after

theorem start_valid : (start : Recorded Process).Valid where
  inOrder := History.start_inOrder
  holds := ⟨0, maxProcesses, ProcessQueue.init_holds⟩

/-- No call accesses the array outside its bounds, and the queue goes on having what waits. -/
theorem Valid.execute {state : Recorded Process} (valid : state.Valid) (call : Call Process) :
    ∃ next, execute call state = some next ∧ next.Valid := by
  rcases valid with ⟨inOrder, before, after, holds⟩
  cases call with
  | enqueue p =>
      cases after with
      | zero =>
          refine ⟨state, ?_, inOrder, before, 0, holds⟩
          simp [Recorded.execute, holds.overflow p]
      | succ after =>
          rcases holds.enqueue p with ⟨queue, accepted, nextHolds⟩
          refine ⟨{ queue, history := state.history.accept p }, ?_, inOrder.accept p, before,
            after, ?_⟩
          · simp [Recorded.execute, accepted]
          · rw [inOrder.waiting_accept]
            exact nextHolds
  | dequeue =>
      cases waiting : state.history.waiting with
      | nil =>
          rw [waiting] at holds
          refine ⟨state, ?_, inOrder, before, after, waiting ▸ holds⟩
          simp [Recorded.execute, holds.dequeue_nil]
      | cons p rest =>
          rw [waiting] at holds
          rcases holds.dequeue_cons with ⟨queue, nextBefore, nextAfter, returned, nextHolds⟩
          have given := inOrder.give waiting
          refine ⟨{ queue, history := state.history.give p }, ?_, given.1, nextBefore, nextAfter,
            ?_⟩
          · simp [Recorded.execute, returned]
          · rw [given.2]
            exact nextHolds

/-! ## Order -/

/-- Every slot from `front` to `rear` has the process that waits at its place, and every other
slot has `NULL`. -/
def Slots (queue : ProcessQueue Process) (waiting : List Process) : Prop :=
  queue.queue.length = maxProcesses ∧ queue.rear - queue.front + 1 = waiting.length ∧
    ∀ index < maxProcesses, queue.queue[index]? =
      some (if queue.front ≤ index ∧ index ≤ queue.rear
        then waiting[index - queue.front.toNat]? else none)

/-- The queue has returned what it accepted in order of acceptance, and has the rest. -/
structure FirstInFirstOut (state : Recorded Process) : Prop where
  indices : 0 ≤ state.queue.front ∧ state.queue.front < maxProcesses ∧
    -1 ≤ state.queue.rear ∧ state.queue.rear < maxProcesses
  slots : Slots state.queue state.history.waiting
  ordered : state.history.returned <+: state.history.accepted
  empties : (∃ queue, state.queue.dequeue = some (queue, none)) ↔
    state.history.returned = state.history.accepted

private theorem slots_of_holds {queue : ProcessQueue Process} {waiting : List Process}
    {before after : Nat} (holds : queue.Holds waiting before after) : Slots queue waiting := by
  have size := holds.size
  have front := holds.front
  have rear := holds.rear
  refine ⟨?_, by omega, ?_⟩
  · rw [holds.slots]
    simp only [List.length_append, List.length_replicate, List.length_map]
    omega
  · intro index inside
    rw [holds.slots]
    by_cases earlier : index < before
    · rw [List.getElem?_append_left (by rwa [List.length_replicate]),
        List.getElem?_replicate_of_lt earlier, if_neg (by omega)]
    · rw [List.getElem?_append_right (by rw [List.length_replicate]; omega),
        List.length_replicate]
      by_cases held : index < before + waiting.length
      · have position : queue.front.toNat = before := by omega
        rw [List.getElem?_append_left (by rw [List.length_map]; omega), List.getElem?_map,
          if_pos (by omega), position, List.getElem?_eq_getElem (by omega : _ < waiting.length)]
        rfl
      · rw [List.getElem?_append_right (by rw [List.length_map]; omega), List.length_map,
          List.getElem?_replicate_of_lt (by omega), if_neg (by omega)]

private theorem Valid.firstInFirstOut {state : Recorded Process} (valid : state.Valid) :
    state.FirstInFirstOut := by
  rcases valid with ⟨inOrder, before, after, holds⟩
  have size := holds.size
  have front := holds.front
  have rear := holds.rear
  refine ⟨?_, slots_of_holds holds, inOrder, ?_⟩
  · refine ⟨by omega, ?_, by omega, by omega⟩
    by_cases nothing : state.history.waiting = []
    · rw [front, holds.reset nothing]
      decide
    · have positive := List.length_pos_iff.mpr nothing
      omega
  · rw [← inOrder.waiting_eq_nil_iff]
    constructor
    · intro empty
      rcases empty with ⟨queue, returned⟩
      cases waiting : state.history.waiting with
      | nil => rfl
      | cons p rest =>
          rw [waiting] at holds
          rcases holds.dequeue_cons with ⟨_, _, _, other, _⟩
          rw [returned] at other
          cases other
    · intro nothing
      rw [nothing] at holds
      exact ⟨_, holds.dequeue_nil⟩

/-- After any calls the queue is first in, first out on what it accepted. -/
theorem run_firstInFirstOut (calls : List (Call Process)) :
    ∃ final, machine.run calls start = some final ∧ final.FirstInFirstOut := by
  rcases machine.run_of_invariant (fun _ _ => True) Valid
    (fun _ call valid _ => valid.execute call) start_valid
    (machine.permits_always calls start) with
    ⟨final, finished, valid⟩
  exact ⟨final, finished, valid.firstInFirstOut⟩

/-! ## Overflow -/

/-- The call discards its process. -/
def discards (state : Recorded Process) : Call Process → Bool
  | .enqueue p => (state.queue.enqueue p).any fun result => result.2.isSome
  | .dequeue => false

def DiscardsOnlyWhenFull (state : Recorded Process) (call : Call Process) : Prop :=
  discards state call = true → state.history.waiting.length = maxProcesses

/-- No process comes when the last slot has been used and the first one is free again. -/
def RoomAtTheEnd (state : Recorded Process) (call : Call Process) : Prop :=
  match call with
  | .enqueue _ => ¬(state.queue.rear = maxProcesses - 1 ∧ 0 < state.queue.front)
  | .dequeue => True

instance (state : Recorded Process) (call : Call Process) :
    Decidable (DiscardsOnlyWhenFull state call) := inferInstanceAs (Decidable (_ → _))

private theorem discards_enqueue_iff {state : Recorded Process} {before after : Nat}
    (holds : state.queue.Holds state.history.waiting before after) (p : Process) :
    discards state (.enqueue p) = true ↔ after = 0 := by
  cases after with
  | zero => simp [discards, holds.overflow p]
  | succ after =>
      rcases holds.enqueue p with ⟨queue, accepted, _⟩
      simp [discards, accepted]

private theorem Valid.discardsOnlyWhenFull_iff {state : Recorded Process} (valid : state.Valid)
    (call : Call Process) : DiscardsOnlyWhenFull state call ↔ RoomAtTheEnd state call := by
  cases call with
  | dequeue => simp [DiscardsOnlyWhenFull, RoomAtTheEnd, discards]
  | enqueue p =>
      rcases valid.holds with ⟨before, after, holds⟩
      have size := holds.size
      have front := holds.front
      have rear := holds.rear
      rw [DiscardsOnlyWhenFull, discards_enqueue_iff holds p, RoomAtTheEnd]
      omega

/-- In exactly the runs in which no process comes too late for the array's last slot, only a
full queue discards one. -/
theorem run_discardsOnlyWhenFull_iff (calls : List (Call Process)) :
    machine.Permits DiscardsOnlyWhenFull start calls ↔
      machine.Permits RoomAtTheEnd start calls := by
  apply machine.permits_iff_of_invariant Valid
  · exact fun _ call valid => valid.discardsOnlyWhenFull_iff call
  · intro state call next valid executed
    rcases valid.execute call with ⟨other, same, nextValid⟩
    rw [show machine.execute call state = _ from same, Option.some.injEq] at executed
    exact executed ▸ nextValid
  · exact start_valid

/-- After 100 processes have been accepted and one of them returned, the next one is discarded. -/
theorem discards_with_room :
    let calls := List.replicate 100 (Call.enqueue 7) ++ [.dequeue]
    (machine.run calls start).map (fun state =>
        (state.history.waiting.length, discards state (.enqueue 8))) = some (99, true) ∧
      ¬machine.Permits DiscardsOnlyWhenFull start (calls ++ [.enqueue 8]) := by
  decide +kernel

end Recorded

end SystemsRepository.Mlfq
