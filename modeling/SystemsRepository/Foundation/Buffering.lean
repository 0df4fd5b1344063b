import SystemsRepository.Foundation.Text

/-! # Reading a file through a buffer

A stream that fills a buffer from a file and hands out its lines. When somebody else moves the
offset of the file, the stream still has what is in its buffer.
-/

namespace SystemsRepository.Foundation.Text

variable {α : Type u}

/-- `capacity` is what the stream asks for when its buffer is empty. -/
structure Source (α : Type u) where
  text : List α
  capacity : Nat
  positive : 0 < capacity

structure Buffered (α : Type u) where
  unread : List α
  offset : Nat
  deriving DecidableEq, Repr

def Buffered.position (stream : Buffered α) : Nat := stream.offset - stream.unread.length

namespace Source

section Reading

variable (source : Source α)

def remaining (stream : Buffered α) : List α := stream.unread ++ source.text.drop stream.offset

def block (offset : Nat) : List α := (source.text.drop offset).take source.capacity

def fill (stream : Buffered α) : Buffered α :=
  match stream.unread with
  | [] =>
      { unread := source.block stream.offset
        offset := stream.offset + (source.block stream.offset).length }
  | _ :: _ => stream

variable [DecidableEq α] (newline : α)

def takeLine : Nat → Buffered α → List α × Buffered α
  | 0, stream => ([], stream)
  | limit + 1, stream =>
      match (source.fill stream).unread with
      | [] => ([], source.fill stream)
      | char :: unread =>
          let next := { unread, offset := (source.fill stream).offset }
          if char = newline then ([char], next)
          else (char :: (takeLine limit next).1, (takeLine limit next).2)

def fgets (size : Nat) (stream : Buffered α) : Option (List α × Buffered α) :=
  match (source.fill stream).unread with
  | [] => none
  | _ :: _ => some (source.takeLine newline (size - 1) stream)

end Reading

variable {source : Source α} {stream : Buffered α}

theorem block_eq_nil_iff {offset : Nat} :
    source.block offset = [] ↔ source.text.drop offset = [] := by
  have positive := source.positive
  rw [block, List.take_eq_nil_iff]
  exact or_iff_right (by omega)

theorem fill_of_unread {char : α} {unread : List α} (here : stream.unread = char :: unread) :
    source.fill stream = stream := by
  rw [fill, here]

theorem fill_of_empty (empty : stream.unread = []) :
    source.fill stream =
      { unread := source.block stream.offset
        offset := stream.offset + (source.block stream.offset).length } := by
  rw [fill, empty]

theorem fill_remaining : source.remaining (source.fill stream) = source.remaining stream := by
  cases here : stream.unread with
  | nil =>
      have leads : source.block stream.offset <+: source.text.drop stream.offset :=
        List.take_prefix _ _
      have split := List.take_append_drop (source.block stream.offset).length
        (source.text.drop stream.offset)
      rw [← List.prefix_iff_eq_take.mp leads] at split
      rw [fill_of_empty here, remaining, remaining, here, List.nil_append, ← List.drop_drop]
      exact split
  | cons char unread => rw [fill_of_unread here]

theorem remaining_of_fill_empty (empty : (source.fill stream).unread = []) :
    source.remaining stream = [] := by
  cases here : stream.unread with
  | nil =>
      rw [fill_of_empty here] at empty
      rw [remaining, here, List.nil_append, ← block_eq_nil_iff]
      exact empty
  | cons char unread =>
      rw [fill_of_unread here, here] at empty
      cases empty

section Lines

variable [DecidableEq α] {newline : α}

theorem takeLine_eq (limit : Nat) :
    ((source.takeLine newline limit stream).1,
        source.remaining (source.takeLine newline limit stream).2) =
      Text.takeLine newline limit (source.remaining stream) := by
  induction limit generalizing stream with
  | zero => rfl
  | succ limit induction =>
      rw [takeLine]
      split
      next empty =>
        rw [fill_remaining, remaining_of_fill_empty empty]
        rfl
      next char unread filled =>
        have further := @induction { unread, offset := (source.fill stream).offset }
        have whole : source.remaining stream =
            char :: source.remaining { unread, offset := (source.fill stream).offset } := by
          rw [← fill_remaining, remaining, filled]
          rfl
        dsimp only
        rw [whole, Text.takeLine]
        split
        next => rfl
        next => rw [← further]

theorem fgets_eq (size : Nat) :
    (source.fgets newline size stream).map (fun read => (read.1, source.remaining read.2)) =
      Text.fgets newline size (source.remaining stream) := by
  rw [fgets]
  split
  next empty =>
    rw [remaining_of_fill_empty empty]
    rfl
  next char unread filled =>
    have nonempty : source.remaining stream ≠ [] := by
      rw [← fill_remaining, remaining, filled]
      exact List.cons_ne_nil _ _
    rw [fgets_eq_some nonempty, Option.map_some, takeLine_eq]

theorem takeLine_served {limit : Nat}
    (served : (source.takeLine newline limit stream).1.length ≤ stream.unread.length) :
    (source.takeLine newline limit stream).2 =
      { stream with
        unread := stream.unread.drop (source.takeLine newline limit stream).1.length } := by
  induction limit generalizing stream with
  | zero => rfl
  | succ limit induction =>
      cases here : stream.unread with
      | nil =>
          rw [here] at served
          rw [takeLine] at served ⊢
          split at served
          next empty =>
            rw [fill_of_empty here] at empty ⊢
            change source.block stream.offset = [] at empty
            rw [empty]
            rfl
          next =>
            split at served <;> simp at served
      | cons char unread =>
          rw [here] at served
          simp only [takeLine, fill_of_unread here, here] at served ⊢
          by_cases ends : char = newline
          · simp only [ends, if_true]
            rfl
          · simp only [ends, if_false, List.length_cons, Nat.add_le_add_iff_right] at served ⊢
            exact @induction { unread, offset := stream.offset } served

theorem takeLine_fill (limit : Nat) :
    source.takeLine newline (limit + 1) (source.fill stream) =
      source.takeLine newline (limit + 1) stream := by
  have again : source.fill (source.fill stream) = source.fill stream := by
    cases filled : (source.fill stream).unread with
    | nil =>
        have ended := remaining_of_fill_empty filled
        rw [← fill_remaining, remaining, filled, List.nil_append] at ended
        have block : source.block (source.fill stream).offset = [] := block_eq_nil_iff.mpr ended
        rw [fill_of_empty filled, block, List.length_nil, Nat.add_zero, ← filled]
    | cons char unread => exact fill_of_unread filled
  rw [takeLine, takeLine, again]

/-! ## What has been read ahead -/

/-- The file has been read up to the bound, or will be when the stream asks for it, and so much
of that has been handed out. -/
def Ahead (source : Source α) (bound count : Nat) (stream : Buffered α) : Prop :=
  source.fill stream = { unread := (source.text.take bound).drop count, offset := bound } ∧
    bound ≤ source.text.length

omit [DecidableEq α] in
theorem ahead_start (whole : source.capacity ≤ source.text.length) :
    source.Ahead source.capacity 0 { unread := [], offset := 0 } := by
  have length : (source.block 0).length = source.capacity := by
    rw [block, List.drop_zero, List.length_take, Nat.min_eq_left whole]
  refine ⟨?_, whole⟩
  rw [fill_of_empty rfl, length, Nat.zero_add]
  rfl

theorem Ahead.fgets {bound count size : Nat} {piece : List α} {after : Buffered α}
    (ahead : source.Ahead bound count stream) (room : 2 ≤ size)
    (read : source.fgets newline size stream = some (piece, after))
    (inside : count + piece.length < bound) :
    source.Ahead bound (count + piece.length) after ∧ after =
      { unread := (source.text.take bound).drop (count + piece.length), offset := bound } := by
  rcases ahead with ⟨filled, whole⟩
  rcases Nat.exists_eq_add_of_le' (show 1 ≤ size - 1 by omega) with ⟨limit, enough⟩
  rw [Source.fgets] at read
  split at read
  next => cases read
  next =>
    rw [Option.some.injEq, enough, ← takeLine_fill] at read
    have served := @takeLine_served _ source (source.fill stream) _ newline (limit + 1)
    rw [read] at served
    have unread : piece.length ≤ (source.fill stream).unread.length := by
      rw [filled, List.length_drop, List.length_take, Nat.min_eq_left whole]
      omega
    have rest := served unread
    simp only [filled, List.drop_drop] at rest
    refine ⟨⟨?_, whole⟩, rest⟩
    rw [rest]
    cases left : (source.text.take bound).drop (count + piece.length) with
    | nil =>
        have short := List.drop_eq_nil_iff.mp left
        rw [List.length_take, Nat.min_eq_left whole] at short
        omega
    | cons char unread => exact fill_of_unread rfl

end Lines

end Source

end SystemsRepository.Foundation.Text
