import Mathlib.Algebra.Group.Nat.Defs

/-! # Growth by doubling

The room of a container that is doubled whenever it is full, and how many elements
are carried over on the way.
-/

namespace SystemsRepository.Foundation

structure Growth where
  size : Nat
  capacity : Nat
  carried : Nat
  deriving DecidableEq, Repr

namespace Growth

def start (initial : Nat) : Growth where
  size := 0
  capacity := initial
  carried := 0

def push (growth : Growth) : Growth :=
  if growth.size < growth.capacity then { growth with size := growth.size + 1 }
  else
    { size := growth.size + 1
      capacity := 2 * growth.capacity
      carried := growth.carried + growth.size }

/-- The capacity is what has been carried over in all, and the room at the start. -/
structure Doubled (initial : Nat) (growth : Growth) : Prop where
  power : ∃ doublings, growth.capacity = initial * 2 ^ doublings
  fits : growth.size ≤ growth.capacity
  used : growth.capacity = initial ∨ growth.capacity + 2 ≤ 2 * growth.size
  cost : growth.carried + initial = growth.capacity

variable {initial : Nat} {growth : Growth}

theorem push_of_room (room : growth.size < growth.capacity) :
    growth.push = { growth with size := growth.size + 1 } := if_pos room

theorem push_of_full (full : growth.capacity ≤ growth.size) :
    growth.push =
      { size := growth.size + 1
        capacity := 2 * growth.capacity
        carried := growth.carried + growth.size } := if_neg (Nat.not_lt_of_le full)

theorem start_doubled : (start initial).Doubled initial where
  power := ⟨0, by simp [start]⟩
  fits := Nat.zero_le _
  used := .inl rfl
  cost := Nat.zero_add _

theorem Doubled.push (positive : 0 < initial) (doubled : growth.Doubled initial) :
    growth.push.Doubled initial := by
  rcases doubled with ⟨⟨doublings, power⟩, fits, used, cost⟩
  unfold Growth.push
  split
  next room =>
    refine ⟨⟨doublings, power⟩, room, ?_, cost⟩
    rcases used with unchanged | used
    · exact .inl unchanged
    · simp only
      omega
  next full =>
    refine ⟨⟨doublings + 1, ?_⟩, ?_, ?_, ?_⟩
    · simp only
      rw [power, Nat.pow_succ, Nat.mul_comm 2, Nat.mul_assoc]
    · simp only
      omega
    · simp only
      omega
    · simp only
      omega

theorem Doubled.capacity_pos (positive : 0 < initial) (doubled : growth.Doubled initial) :
    0 < growth.capacity := by
  rcases doubled.power with ⟨doublings, power⟩
  rw [power]
  exact Nat.mul_pos positive (Nat.pow_pos (by decide))

theorem Doubled.capacity_le (doubled : growth.Doubled initial) :
    growth.capacity ≤ max initial (2 * growth.size - 2) := by
  rcases doubled.used with unchanged | used
  · omega
  · omega

theorem Doubled.carried_le (doubled : growth.Doubled initial) :
    growth.carried ≤ 2 * growth.size := by
  have cost := doubled.cost
  rcases doubled.used with unchanged | used
  · omega
  · omega

end Growth

end SystemsRepository.Foundation
