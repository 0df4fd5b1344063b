import SystemsRepository.Foundation.Doubling

/-! # The vector

`vector.c`, with a heap that may refuse an allocation. Writing an element that has
not been allocated is a fault.
-/

namespace SystemsRepository.DynamicArray

open SystemsRepository.Foundation

abbrev CInt := BitVec 32

abbrev SizeT := BitVec 64

def sizeofInt : SizeT := 4

/-! ## The heap -/

/-- The elements of an allocation; one that has not been written has no value. -/
abbrev Block := List (Option CInt)

def maxBytes : Nat := 2 ^ 63 - 1

/-- An allocation of no bytes has no elements. -/
def malloc (granted : Bool) (bytes : SizeT) : Option Block :=
  if granted ∧ bytes.toNat ≤ maxBytes then
    some (List.replicate (bytes.toNat / sizeofInt.toNat) none)
  else none

/-- The old elements are kept as far as there is room for them. -/
def realloc (granted : Bool) (data : Option Block) (bytes : SizeT) : Option Block :=
  match data with
  | none => malloc granted bytes
  | some block =>
      (malloc granted bytes).map fun fresh =>
        block.take fresh.length ++ fresh.drop block.length

/-! ## The vector -/

structure IntegerVector where
  data : Option Block
  size : SizeT
  capacity : SizeT
  deriving DecidableEq, Repr

/-- A function returns, or the program ends with an error. -/
inductive Outcome
  | returned (vec : IntegerVector)
  | exited (error : List Char)
  deriving DecidableEq, Repr

def initializeVector (granted : Bool) : Outcome :=
  let capacity : SizeT := 4
  match malloc granted (capacity * sizeofInt) with
  | none => .exited "Failed to allocate memory\n".toList
  | some block => .returned { data := some block, size := 0, capacity }

def IntegerVector.append (vec : IntegerVector) (val : CInt) : Option Outcome :=
  match vec.data with
  | none => none
  | some block =>
      if vec.size.toNat < block.length then
        some (.returned { vec with
          data := some (block.set vec.size.toNat (some val))
          size := vec.size + 1 })
      else none

def pushBack (granted : Bool) (vec : IntegerVector) (val : CInt) : Option Outcome :=
  if vec.capacity ≤ vec.size then
    let doubleCapacity := vec.capacity * 2
    match realloc granted vec.data (doubleCapacity * sizeofInt) with
    | none =>
        some (.exited ("Failed to allocate memory ".toList ++
          Nat.toDigits 10 (doubleCapacity * sizeofInt).toNat ++ " bytes\n".toList))
    | some temp => { vec with data := some temp, capacity := doubleCapacity }.append val
  else vec.append val

def deleteVector (_ : IntegerVector) : IntegerVector where
  data := none
  size := 0
  capacity := 0

/-- How many elements a call of `push_back` carries over to a new allocation. -/
def carriedOver (vec : IntegerVector) : Nat :=
  if vec.capacity ≤ vec.size then (vec.data.getD []).length else 0

/-! ## What a vector has -/

/-- The vector has these values in front of free elements, and its room is that of a container
which doubles. -/
structure Represents (vec : IntegerVector) (values : List CInt) (growth : Growth) : Prop where
  data : vec.data =
    some (values.map some ++ List.replicate (growth.capacity - values.length) none)
  size : vec.size.toNat = growth.size
  capacity : vec.capacity.toNat = growth.capacity
  count : growth.size = values.length
  bytes : growth.capacity * 4 ≤ maxBytes
  doubled : growth.Doubled 4

variable {vec : IntegerVector} {values : List CInt} {growth : Growth}

theorem initializeVector_represents (granted : Bool) :
    ∀ vec, initializeVector granted = .returned vec → Represents vec [] (.start 4) := by
  intro vec returned
  cases granted with
  | false => cases returned
  | true =>
      cases returned
      exact ⟨rfl, rfl, rfl, rfl, by decide, Growth.start_doubled⟩

private theorem append_eq {others : Block}
    (data : vec.data = some (values.map some ++ none :: others))
    (size : vec.size.toNat = values.length) (val : CInt) :
    vec.append val = some (.returned { vec with
      data := some ((values ++ [val]).map some ++ others), size := vec.size + 1 }) := by
  have inside : vec.size.toNat < (values.map some ++ none :: others).length := by
    rw [List.length_append, List.length_map, List.length_cons]
    omega
  have position : vec.size.toNat = (values.map some).length := by rw [size, List.length_map]
  unfold IntegerVector.append
  rw [data]
  simp only [inside, if_true]
  rw [position, List.set_append_right _ _ (Nat.le_refl _), Nat.sub_self]
  simp

private theorem append_represents {room : Nat}
    (data : vec.data = some (values.map some ++ List.replicate (room + 1) none))
    (size : vec.size.toNat = values.length) (capacity : vec.capacity.toNat = growth.capacity)
    (whole : growth.capacity = values.length + (room + 1)) (count : growth.size = values.length + 1)
    (bytes : growth.capacity * 4 ≤ maxBytes) (doubled : growth.Doubled 4) (val : CInt) :
    ∃ next, vec.append val = some (.returned next) ∧
      Represents next (values ++ [val]) growth := by
  rw [List.replicate_succ] at data
  refine ⟨_, append_eq data size val, ?_, ?_, capacity, ?_, bytes, doubled⟩
  · have left : growth.capacity - (values ++ [val]).length = room := by
      rw [List.length_append, List.length_singleton]
      omega
    rw [left]
  · have small : maxBytes < 2 ^ 63 := by decide
    have one : (1 : SizeT).toNat = 1 := rfl
    change (vec.size + 1).toNat = growth.size
    rw [BitVec.toNat_add, one]
    omega
  · rw [List.length_append, List.length_singleton, count]

/-- An allocation of a whole number of elements has them, unless it is refused. -/
theorem malloc_eq {granted : Bool} {bytes : SizeT} {count : Nat} (whole : bytes.toNat = count * 4) :
    malloc granted bytes = none ∧ (granted = true → maxBytes < count * 4) ∨
      count * 4 ≤ maxBytes ∧ malloc granted bytes = some (List.replicate count none) := by
  unfold malloc
  split
  next possible =>
    rw [whole] at possible
    refine .inr ⟨possible.2, ?_⟩
    have elements : bytes.toNat / sizeofInt.toNat = count := by
      rw [whole]
      exact Nat.mul_div_cancel _ (by decide)
    rw [elements]
  next refused =>
    rw [whole] at refused
    exact .inl ⟨rfl, fun given => Nat.lt_of_not_le fun small => refused ⟨given, small⟩⟩

private theorem Represents.pushBack_room (represents : Represents vec values growth)
    (room : growth.size < growth.capacity) (granted : Bool) (val : CInt) :
    carriedOver vec = 0 ∧ ∃ next, pushBack granted vec val = some (.returned next) ∧
      Represents next (values ++ [val]) growth.push := by
  rcases represents with ⟨data, size, capacity, count, bytes, doubled⟩
  have spare : ¬vec.capacity ≤ vec.size := by
    rw [BitVec.le_def]
    omega
  have free : growth.capacity - values.length = growth.capacity - (values.length + 1) + 1 := by
    omega
  have pushed := doubled.push (by decide)
  rw [free] at data
  rw [Growth.push_of_room room] at pushed ⊢
  unfold carriedOver pushBack
  rw [if_neg spare, if_neg spare]
  refine ⟨rfl, append_represents data (by omega) ?_ ?_ ?_ ?_ pushed val⟩
  · exact capacity
  · simp only
    omega
  · simp only
    omega
  · exact bytes

private theorem Represents.pushBack_full (represents : Represents vec values growth)
    (full : growth.capacity ≤ growth.size) (granted : Bool) (val : CInt) :
    carriedOver vec = growth.size ∧
      ((granted = true → maxBytes < values.length * 8) ∧
          (∃ error, pushBack granted vec val = some (.exited error)) ∨
        ∃ next, pushBack granted vec val = some (.returned next) ∧
          Represents next (values ++ [val]) growth.push) := by
  rcases represents with ⟨data, size, capacity, count, bytes, doubled⟩
  have fits := doubled.fits
  have small : maxBytes < 2 ^ 63 := by decide
  have two : (2 : SizeT).toNat = 2 := rfl
  have four : sizeofInt.toNat = 4 := rfl
  have noRoom : vec.capacity ≤ vec.size := by
    rw [BitVec.le_def]
    omega
  have doubling : (vec.capacity * 2).toNat = 2 * growth.capacity := by
    rw [BitVec.toNat_mul, two, capacity]
    omega
  have bytesAsked : (vec.capacity * 2 * sizeofInt).toNat = 2 * growth.capacity * 4 := by
    rw [BitVec.toNat_mul, doubling, four]
    omega
  have noneFree : growth.capacity - values.length = 0 := by omega
  rw [noneFree, List.replicate_zero, List.append_nil] at data
  unfold carriedOver pushBack
  rw [if_pos noRoom, if_pos noRoom, data]
  refine ⟨by rw [Option.getD_some, List.length_map, count], ?_⟩
  rcases @malloc_eq granted _ _ bytesAsked with ⟨refused, large⟩ | ⟨possible, allocated⟩
  · left
    simp only [realloc, refused, Option.map_none]
    exact ⟨fun given => Nat.lt_of_lt_of_le (large given) (by omega), _, rfl⟩
  · right
    have positive := doubled.capacity_pos (by decide)
    have moved : (values.map some).take (2 * growth.capacity) = values.map some := by
      rw [List.take_of_length_le]
      rw [List.length_map]
      omega
    have fresh : 2 * growth.capacity - values.length = growth.capacity - 1 + 1 := by omega
    have pushed := doubled.push (by decide)
    rw [Growth.push_of_full full] at pushed ⊢
    simp only [realloc, allocated, Option.map_some, List.length_replicate, moved,
      List.drop_replicate, List.length_map, fresh]
    refine append_represents rfl (by rw [size, count]) doubling ?_ ?_ possible pushed val
    · simp only
      omega
    · simp only
      omega

/-- A `push_back` stays inside the vector, and adds its value unless it ends the program, which
it does only where the heap refuses an allocation. -/
theorem Represents.pushBack (represents : Represents vec values growth) (granted : Bool)
    (val : CInt) :
    growth.carried + carriedOver vec = growth.push.carried ∧
      ∃ outcome, DynamicArray.pushBack granted vec val = some outcome ∧
        (∀ next, outcome = .returned next → Represents next (values ++ [val]) growth.push) ∧
        (granted = true → values.length * 8 ≤ maxBytes → ∃ next, outcome = .returned next) := by
  by_cases room : growth.size < growth.capacity
  · rcases represents.pushBack_room room granted val with ⟨nothing, next, pushed, nextHas⟩
    refine ⟨by rw [nothing, Growth.push_of_room room, Nat.add_zero], _, pushed, ?_,
      fun _ _ => ⟨next, rfl⟩⟩
    intro other same
    cases same
    exact nextHas
  · have full := Nat.le_of_not_lt room
    rcases represents.pushBack_full full granted val with
      ⟨all, ⟨large, error, refused⟩ | ⟨next, pushed, nextHas⟩⟩
    · exact ⟨by rw [all, Growth.push_of_full full], _, refused, nofun,
        fun given small => absurd (large given) (Nat.not_lt_of_le small)⟩
    · refine ⟨by rw [all, Growth.push_of_full full], _, pushed, ?_, fun _ _ => ⟨next, rfl⟩⟩
      intro other same
      cases same
      exact nextHas

end SystemsRepository.DynamicArray
