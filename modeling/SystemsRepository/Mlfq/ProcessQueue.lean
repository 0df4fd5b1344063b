import SystemsRepository.Foundation.Execution
import SystemsRepository.Foundation.Fifo

/-! # The queues of the scheduler

A queue is an array with two indices that only move forward, until the queue runs
empty. An operation is `none` where it accesses the array outside its bounds.
-/

namespace SystemsRepository.Mlfq

open SystemsRepository.Foundation

abbrev maxProcesses : Nat := 100

/-- The slots hold pointers to processes, or `NULL`. -/
structure ProcessQueue (Process : Type u) where
  queue : List (Option Process)
  front : Int
  rear : Int
  deriving DecidableEq, Repr

variable {Process : Type u}

namespace ProcessQueue

def init : ProcessQueue Process where
  queue := List.replicate maxProcesses none
  front := 0
  rear := -1

def load (q : ProcessQueue Process) (index : Int) : Option (Option Process) :=
  if 0 ≤ index then q.queue[index.toNat]? else none

def store (q : ProcessQueue Process) (index : Int) (slot : Option Process) :
    Option (ProcessQueue Process) :=
  if 0 ≤ index ∧ index.toNat < q.queue.length then
    some { q with queue := q.queue.set index.toNat slot }
  else none

/-- The queue, and the process that the message `Queue overflow!` is about, if it is printed. -/
def enqueue (q : ProcessQueue Process) (p : Process) :
    Option (ProcessQueue Process × Option Process) :=
  if q.rear < maxProcesses - 1 then do
    let q := { q with rear := q.rear + 1 }
    let q ← q.store q.rear (some p)
    return (q, none)
  else return (q, some p)

def isEmpty (q : ProcessQueue Process) : Bool := q.rear < q.front

/-- The queue, and the process that is returned, or `NULL`. -/
def dequeue (q : ProcessQueue Process) : Option (ProcessQueue Process × Option Process) :=
  if q.isEmpty then return (q, none)
  else do
    let p ← q.load q.front
    let q ← q.store q.front none
    let q := { q with front := q.front + 1 }
    if q.front > q.rear then return ({ q with front := 0, rear := -1 }, p)
    else return (q, p)

/-- The queue has these processes from `front` to `rear`, and nothing in its other slots. -/
structure Holds (q : ProcessQueue Process) (waiting : List Process) (before after : Nat) :
    Prop where
  slots : q.queue =
    List.replicate before none ++ (waiting.map some ++ List.replicate after none)
  front : q.front = before
  rear : q.rear = before + waiting.length - 1
  size : before + waiting.length + after = maxProcesses
  reset : waiting = [] → before = 0

theorem init_holds : (init : ProcessQueue Process).Holds [] 0 maxProcesses where
  slots := rfl
  front := rfl
  rear := rfl
  size := rfl
  reset _ := rfl

section Operations

variable {q : ProcessQueue Process} {waiting : List Process} {before after : Nat}

private theorem store_at {front behind : List (Option Process)} {old : Option Process} {index : Int}
    (slot : Option Process) (slots : q.queue = front ++ old :: behind)
    (position : index = front.length) :
    q.store index slot = some { q with queue := front ++ slot :: behind } := by
  have inside : 0 ≤ index ∧ index.toNat < q.queue.length := by
    rw [slots, List.length_append, List.length_cons]
    omega
  have same : index.toNat = front.length := by omega
  rw [store, if_pos inside, slots, same, List.set_append_right _ _ (Nat.le_refl _), Nat.sub_self,
    List.set_cons_zero]

theorem Holds.enqueue (holds : q.Holds waiting before (after + 1)) (p : Process) :
    ∃ next, q.enqueue p = some (next, none) ∧ next.Holds (waiting ++ [p]) before after := by
  have room : q.rear < maxProcesses - 1 := by
    have rear := holds.rear
    have size := holds.size
    omega
  have slots : ({ q with rear := q.rear + 1 } : ProcessQueue Process).queue =
      (List.replicate before none ++ waiting.map some) ++
        none :: List.replicate after none := by
    rw [List.append_assoc]
    exact holds.slots
  have position : q.rear + 1 =
      ((List.replicate before none ++ waiting.map some).length : Int) := by
    rw [holds.rear, List.length_append, List.length_replicate, List.length_map]
    omega
  refine ⟨{ q with
    queue := (List.replicate before none ++ waiting.map some) ++
      some p :: List.replicate after none
    rear := q.rear + 1 }, ?_, ?_⟩
  · rw [ProcessQueue.enqueue, if_pos room]
    simp only [store_at (some p) slots position, Option.bind_eq_bind, Option.bind_some]
    rfl
  · refine ⟨by simp, holds.front, ?_, ?_, by simp⟩
    · simp only [holds.rear, List.length_append, List.length_singleton]
      omega
    · have size := holds.size
      rw [List.length_append, List.length_singleton]
      omega

theorem Holds.overflow (holds : q.Holds waiting before 0) (p : Process) :
    q.enqueue p = some (q, some p) := by
  have last : ¬q.rear < maxProcesses - 1 := by
    have rear := holds.rear
    have size := holds.size
    omega
  rw [ProcessQueue.enqueue, if_neg last]
  rfl

theorem Holds.dequeue_nil (holds : q.Holds [] before after) : q.dequeue = some (q, none) := by
  have empty : q.isEmpty = true := by
    rw [isEmpty, decide_eq_true_eq, holds.front, holds.rear, List.length_nil]
    omega
  rw [dequeue, if_pos empty]
  rfl

/-- The first process is returned, and its slot is not used again before the queue is empty. -/
theorem Holds.dequeue_cons {p : Process} (holds : q.Holds (p :: waiting) before after) :
    ∃ next nextBefore nextAfter, q.dequeue = some (next, some p) ∧
      next.Holds waiting nextBefore nextAfter := by
  have nonempty : q.isEmpty = false := by
    rw [isEmpty, decide_eq_false_iff_not, holds.front, holds.rear, List.length_cons]
    omega
  have loaded : q.load q.front = some (some p) := by
    have position : q.front.toNat = (List.replicate before (none : Option Process)).length := by
      rw [holds.front, List.length_replicate]
      rfl
    rw [load, if_pos (by rw [holds.front]; omega), holds.slots, position,
      List.getElem?_append_right (Nat.le_refl _), Nat.sub_self]
    rfl
  have stored := @store_at _ q _ _ (some p) q.front none holds.slots
    (by rw [holds.front, List.length_replicate])
  have size := holds.size
  rw [List.length_cons] at size
  have rear := holds.rear
  rw [List.length_cons] at rear
  have front := holds.front
  unfold dequeue
  simp only [nonempty, Bool.false_eq_true, if_false, loaded, stored, Option.bind_eq_bind,
    Option.bind_some]
  cases waiting with
  | nil =>
      rw [List.length_nil] at rear size
      rw [if_pos (by omega)]
      refine ⟨_, 0, maxProcesses, rfl, ?_, rfl, rfl, rfl, fun _ => rfl⟩
      have whole : maxProcesses = before + (after + 1) := by omega
      rw [whole, ← List.replicate_append_replicate]
      rfl
  | cons second waiting =>
      rw [List.length_cons] at rear size
      rw [if_neg (by omega)]
      refine ⟨_, before + 1, after, rfl, ?_, ?_, ?_, ?_, nofun⟩
      · simp [List.replicate_succ']
      · change q.front + 1 = ((before + 1 : Nat) : Int)
        omega
      · change q.rear = _
        rw [List.length_cons]
        omega
      · rw [List.length_cons]
        omega

end Operations

end ProcessQueue

end SystemsRepository.Mlfq
