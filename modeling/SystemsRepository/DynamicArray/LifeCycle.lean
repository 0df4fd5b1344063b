import SystemsRepository.DynamicArray.Vector
import SystemsRepository.Foundation.Execution

/-! # The life of a vector

Runs of `push_back` and `delete_vector` on a vector that was initialised once.
-/

namespace SystemsRepository.DynamicArray

open SystemsRepository.Foundation

inductive Call
  | pushBack (granted : Bool) (val : CInt)
  | deleteVector
  deriving DecidableEq, Repr

/-- The program has the vector, with how many elements have been carried over in all, or has
ended with an error. -/
inductive Session
  | running (vec : IntegerVector) (carried : Nat)
  | exited
  deriving DecidableEq, Repr

namespace Session

def start (granted : Bool) : Session :=
  match initializeVector granted with
  | .returned vec => .running vec 0
  | .exited _ => .exited

def execute (call : Call) : Session → Option Session
  | .exited => some .exited
  | .running vec carried =>
      match call with
      | .pushBack granted val =>
          (pushBack granted vec val).map fun outcome =>
            match outcome with
            | .returned next => .running next (carried + carriedOver vec)
            | .exited _ => .exited
      | .deleteVector => some (.running (deleteVector vec) carried)

def machine : Machine Session Call where
  execute := execute

/-! ## Pushing -/

structure Pushed (values : List CInt) (vec : IntegerVector) (carried : Nat) : Prop where
  contents : ∃ free, vec.data = some (values.map some ++ free) ∧
    values.length + free.length = vec.capacity.toNat
  size : vec.size.toNat = values.length
  fits : values.length ≤ vec.capacity.toNat
  power : ∃ doublings, vec.capacity.toNat = 4 * 2 ^ doublings
  used : vec.capacity.toNat ≤ max 4 (2 * values.length - 2)
  exact : (vec.capacity * 2 * sizeofInt).toNat = vec.capacity.toNat * 2 * 4
  cost : carried ≤ 2 * values.length

def Has (values : List CInt) : Session → Prop
  | .running vec carried => ∃ growth, Represents vec values growth ∧ carried = growth.carried
  | .exited => True

private theorem start_has (granted : Bool) : (start granted).Has [] := by
  unfold start
  split
  next vec returned => exact ⟨_, initializeVector_represents granted vec returned, rfl⟩
  next => trivial

theorem Has.push {values : List CInt} {session : Session} (has : session.Has values)
    (granted : Bool) (val : CInt) :
    ∃ next, execute (.pushBack granted val) session = some next ∧ next.Has (values ++ [val]) := by
  cases session with
  | exited => exact ⟨_, rfl, trivial⟩
  | running vec carried =>
      rcases has with ⟨growth, represents, total⟩
      rcases represents.pushBack granted val with ⟨moved, outcome, pushed, grown, _⟩
      refine ⟨_, by rw [execute, pushed, Option.map_some], ?_⟩
      cases outcome with
      | exited error => trivial
      | returned next => exact ⟨growth.push, grown next rfl, by rw [total, moved]⟩

theorem Has.run {values : List CInt} {session : Session} (has : session.Has values)
    (pushes : List (Bool × CInt)) :
    ∃ final, machine.run (pushes.map fun push => .pushBack push.1 push.2) session = some final ∧
      final.Has (values ++ pushes.map Prod.snd) := by
  induction pushes generalizing values session with
  | nil => exact ⟨session, rfl, by rwa [List.map_nil, List.append_nil]⟩
  | cons push pushes induction =>
      rcases has.push push.1 push.2 with ⟨next, executed, nextHas⟩
      rcases induction nextHas with ⟨final, finished, finalHas⟩
      refine ⟨final, ?_, ?_⟩
      · simp only [List.map_cons, Machine.run, machine, executed, Option.bind_some]
        exact finished
      · rw [List.map_cons, List.append_cons]
        exact finalHas

private theorem pushed_of_represents {vec : IntegerVector} {values : List CInt} {growth : Growth}
    (represents : Represents vec values growth) : Pushed values vec growth.carried := by
  rcases represents with ⟨data, size, capacity, count, bytes, doubled⟩
  have fits := doubled.fits
  have used := doubled.capacity_le
  have cost := doubled.carried_le
  refine ⟨⟨_, data, ?_⟩, by omega, by omega, ?_, by omega, ?_, by omega⟩
  · rw [List.length_replicate]
    omega
  · rw [capacity]
    exact doubled.power
  · have small : maxBytes < 2 ^ 63 := by decide
    have two : (2 : SizeT).toNat = 2 := rfl
    have four : sizeofInt.toNat = 4 := rfl
    rw [BitVec.toNat_mul, BitVec.toNat_mul, two, four]
    omega

/-- However often `push_back` is called after `initialize_vector`, and whatever the heap
answers, the vector holds what was pushed unless the program has ended. -/
theorem run_pushed (granted : Bool) (pushes : List (Bool × CInt)) :
    ∃ final, machine.run (pushes.map fun push => .pushBack push.1 push.2) (start granted) =
        some final ∧
      ∀ vec carried, final = .running vec carried → Pushed (pushes.map Prod.snd) vec carried := by
  rcases (start_has granted).run pushes with ⟨final, finished, has⟩
  refine ⟨final, finished, ?_⟩
  intro vec carried isRunning
  subst isRunning
  rcases has with ⟨growth, represents, total⟩
  rw [total]
  exact pushed_of_represents represents

/-- The program has not ended when every allocation that is asked for is granted; none is of
more than eight bytes for each value. -/
theorem run_granted {pushes : List (Bool × CInt)} (granted : ∀ push ∈ pushes, push.1 = true)
    {values : List CInt} (small : (values.length + pushes.length) * 8 ≤ maxBytes)
    {vec : IntegerVector} {carried : Nat} (has : (Session.running vec carried).Has values) :
    ∃ final total, machine.run (pushes.map fun push => .pushBack push.1 push.2)
      (.running vec carried) = some (.running final total) := by
  induction pushes generalizing values vec carried with
  | nil => exact ⟨vec, carried, rfl⟩
  | cons push pushes induction =>
      rcases has with ⟨growth, represents, total⟩
      rcases represents.pushBack push.1 push.2 with ⟨moved, outcome, pushed, grown, returns⟩
      rw [List.length_cons] at small
      rcases returns (granted push List.mem_cons_self) (by omega) with ⟨next, rfl⟩
      have others := fun other member => granted other (List.mem_cons_of_mem _ member)
      have longer : (values ++ [push.2]).length = values.length + 1 := by simp
      have nextHas : (Session.running next (carried + carriedOver vec)).Has (values ++ [push.2]) :=
        ⟨growth.push, grown next rfl, by rw [total, moved]⟩
      rcases induction others (by rw [longer]; omega) nextHas with ⟨final, all, finished⟩
      refine ⟨final, all, ?_⟩
      simp only [List.map_cons, Machine.run, machine, execute, pushed, Option.map_some,
        Option.bind_some]
      exact finished

theorem run_pushed_running {pushes : List (Bool × CInt)}
    (granted : ∀ push ∈ pushes, push.1 = true) (small : pushes.length * 8 ≤ maxBytes) :
    ∃ vec carried, machine.run (pushes.map fun push => .pushBack push.1 push.2) (start true) =
      some (.running vec carried) := by
  refine run_granted granted ?_ (start_has true)
  rw [List.length_nil, Nat.zero_add]
  exact small

/-- Ten values, as in `usage.c`: the vector grows to 8 and to 16 elements. -/
example : (machine.run (List.replicate 10 (.pushBack true 7)) (start true)).map
    (fun session =>
      match session with
      | .running vec carried => (vec.size, vec.capacity, carried)
      | .exited => (0, 0, 0)) = some (10, 16, 12) := by
  decide +kernel

/-! ## Deleting -/

/-- No value is pushed to a deleted vector, unless that ends the program. -/
def NotReused (session : Session) (call : Call) : Prop :=
  match session, call with
  | .running vec _, .pushBack granted _ => vec.capacity = 0 → granted = false
  | _, _ => True

def Valid : Session → Prop
  | .running vec _ =>
      (∃ values growth, Represents vec values growth) ∨ vec = deleteVector vec
  | .exited => True

theorem start_valid (granted : Bool) : (start granted).Valid := by
  have has := start_has granted
  cases session : start granted with
  | exited => trivial
  | running vec carried =>
      rw [session] at has
      rcases has with ⟨growth, represents, _⟩
      exact .inl ⟨_, growth, represents⟩

/-- A deleted vector asks for an allocation of no bytes, and has no element to write to if it
gets that. -/
theorem pushBack_deleted_granted (vec : IntegerVector) (val : CInt) :
    pushBack true (deleteVector vec) val = none := by
  simp [pushBack, deleteVector, realloc, malloc, IntegerVector.append]

private theorem pushBack_deleted_refused (vec : IntegerVector) (val : CInt) :
    pushBack false (deleteVector vec) val =
      some (.exited "Failed to allocate memory 0 bytes\n".toList) := by
  simp [pushBack, deleteVector, realloc, malloc]

/-- A call writes no element that has not been allocated exactly if it does not push to a
deleted vector, and leaves the vector as it should be. -/
theorem Valid.call {session : Session} (valid : session.Valid) (call : Call) :
    ((execute call session).isSome = true ↔ NotReused session call) ∧
      ∀ next, execute call session = some next → next.Valid := by
  cases session with
  | exited =>
      refine ⟨by simp [execute, NotReused], ?_⟩
      intro next executed
      cases executed
      trivial
  | running vec carried =>
      cases call with
      | deleteVector =>
          refine ⟨by simp [execute, NotReused], ?_⟩
          intro next executed
          cases executed
          exact .inr rfl
      | pushBack granted val =>
          rcases valid with ⟨values, growth, represents⟩ | deleted
          · rcases represents.pushBack granted val with ⟨_, outcome, pushed, grown, _⟩
            have capacity : vec.capacity ≠ 0 := by
              intro zero
              have positive := represents.doubled.capacity_pos (by decide)
              rw [← represents.capacity, zero] at positive
              exact Nat.lt_irrefl 0 positive
            rw [execute, pushed, Option.map_some]
            refine ⟨iff_of_true rfl fun zero => absurd zero capacity, ?_⟩
            intro next executed
            rw [← Option.some.inj executed]
            cases outcome with
            | exited error => trivial
            | returned other => exact .inl ⟨_, _, grown other rfl⟩
          · rw [execute, deleted]
            cases granted with
            | false =>
                rw [pushBack_deleted_refused]
                refine ⟨iff_of_true rfl fun _ => rfl, ?_⟩
                intro next executed
                cases executed
                trivial
            | true =>
                rw [pushBack_deleted_granted]
                refine ⟨iff_of_false Bool.false_ne_true ?_, nofun⟩
                intro kept
                exact Bool.noConfusion (kept rfl)

/-- Every element that is written has been allocated in exactly the runs that push nothing to a
deleted vector for which the heap has an empty allocation. -/
theorem run_isSome_iff_notReused (granted : Bool) (calls : List Call) :
    (machine.run calls (start granted)).isSome = true ↔
      machine.Permits NotReused (start granted) calls := by
  apply machine.run_isSome_iff_permits_of_invariant Valid
  · exact fun session call valid => (valid.call call).1
  · exact fun session call next valid => (valid.call call).2 next
  · exact start_valid granted

/-- After `delete_vector` a `push_back` writes to an allocation without elements. -/
theorem push_after_delete :
    machine.run [.deleteVector] (start true) =
        some (.running { data := none, size := 0, capacity := 0 } 0) ∧
      machine.run [.deleteVector, .pushBack true 1] (start true) = none := by
  decide +kernel

end Session

end SystemsRepository.DynamicArray
