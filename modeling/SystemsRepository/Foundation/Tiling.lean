/-! # Tilings of an address range

Blocks laid end to end, each a header of fixed size followed by a payload.
-/

namespace SystemsRepository.Foundation

/-- How a block occupies addresses: a header of `header` bytes at `offset`,
followed by `size` payload bytes. -/
structure Layout (Block : Type u) where
  header : Nat
  offset : Block → Nat
  size : Block → Nat

namespace Layout

variable {Block : Type u} (layout : Layout Block)

def payload (block : Block) : Nat := layout.offset block + layout.header

def finish (block : Block) : Nat := layout.payload block + layout.size block

/-- The blocks cover `[start, stop)` without gaps, in address order. -/
def Tiles : Nat → List Block → Nat → Prop
  | start, [], stop => start = stop
  | start, block :: blocks, stop =>
      layout.offset block = start ∧ Tiles (layout.finish block) blocks stop

theorem offset_le_payload (block : Block) :
    layout.offset block ≤ layout.payload block :=
  Nat.le_add_right _ _

theorem payload_le_finish (block : Block) :
    layout.payload block ≤ layout.finish block :=
  Nat.le_add_right _ _

variable {layout}

@[simp] theorem tiles_nil {start stop : Nat} :
    layout.Tiles start [] stop ↔ start = stop := Iff.rfl

@[simp] theorem tiles_cons {block : Block} {blocks : List Block}
    {start stop : Nat} :
    layout.Tiles start (block :: blocks) stop ↔
      layout.offset block = start ∧
        layout.Tiles (layout.finish block) blocks stop := Iff.rfl

theorem Tiles.start_le_stop : ∀ {blocks : List Block} {start stop : Nat},
    layout.Tiles start blocks stop → start ≤ stop
  | [], _, _, tiles => Nat.le_of_eq tiles
  | block :: _, start, stop, ⟨first, rest⟩ => by
      have restOrdered := rest.start_le_stop
      have lower := layout.offset_le_payload block
      have upper := layout.payload_le_finish block
      omega

theorem Tiles.stop_unique : ∀ {blocks : List Block} {start stop other : Nat},
    layout.Tiles start blocks stop → layout.Tiles start blocks other → stop = other
  | [], _, _, _, tiles, otherTiles =>
      (tiles_nil.mp tiles).symm.trans (tiles_nil.mp otherTiles)
  | _ :: _, _, _, _, tiles, otherTiles => tiles.2.stop_unique otherTiles.2

theorem tiles_append {right : List Block} {stop : Nat} :
    ∀ {left : List Block} {start : Nat},
    layout.Tiles start (left ++ right) stop ↔
      ∃ middle, layout.Tiles start left middle ∧ layout.Tiles middle right stop
  | [], start => by simp
  | head :: tail, start => by
      simp only [List.cons_append, tiles_cons, and_assoc, exists_and_left]
      rw [tiles_append]

theorem Tiles.bounds {block : Block} : ∀ {blocks : List Block} {start stop : Nat},
    layout.Tiles start blocks stop → block ∈ blocks →
      start ≤ layout.offset block ∧ layout.finish block ≤ stop
  | head :: tail, start, stop, ⟨first, rest⟩, member => by
      rcases List.mem_cons.mp member with equal | member
      · subst equal
        exact ⟨Nat.le_of_eq first.symm, rest.start_le_stop⟩
      · have inside := rest.bounds member
        have lower := layout.offset_le_payload head
        have upper := layout.payload_le_finish head
        exact ⟨by omega, inside.2⟩

theorem Tiles.pairwise : ∀ {blocks : List Block} {start stop : Nat},
    layout.Tiles start blocks stop →
      blocks.Pairwise fun left right => layout.finish left ≤ layout.offset right
  | [], _, _, _ => .nil
  | _ :: _, _, _, ⟨_, rest⟩ =>
      .cons (fun _ member => (rest.bounds member).1) rest.pairwise

theorem Tiles.disjoint {left right : Block} :
    ∀ {blocks : List Block} {start stop : Nat},
    layout.Tiles start blocks stop → left ∈ blocks → right ∈ blocks →
      left ≠ right →
      layout.finish left ≤ layout.offset right ∨
        layout.finish right ≤ layout.offset left := by
  intro blocks
  induction blocks with
  | nil =>
      intro _ _ _ member
      cases member
  | cons head tail induction =>
      rintro start stop ⟨_, rest⟩ leftMember rightMember different
      rcases List.mem_cons.mp leftMember with leftHead | leftTail
      · rcases List.mem_cons.mp rightMember with rightHead | rightTail
        · exact absurd (leftHead.trans rightHead.symm) different
        · subst leftHead
          exact .inl (rest.bounds rightTail).1
      · rcases List.mem_cons.mp rightMember with rightHead | rightTail
        · subst rightHead
          exact .inr (rest.bounds leftTail).1
        · exact induction rest leftTail rightTail different

/-- Two blocks of a tiling that start at the same address are the same block,
provided headers are not empty. -/
theorem Tiles.eq_of_offset_eq {left right : Block} {blocks : List Block}
    {start stop : Nat} (positive : 0 < layout.header)
    (tiles : layout.Tiles start blocks stop)
    (leftMember : left ∈ blocks) (rightMember : right ∈ blocks)
    (equal : layout.offset left = layout.offset right) : left = right := by
  have apart : ∀ block : Block, layout.offset block < layout.finish block := by
    intro block
    simp only [finish, payload]
    omega
  have leftApart := apart left
  have rightApart := apart right
  apply Classical.byContradiction
  intro different
  rcases tiles.disjoint leftMember rightMember different with before | after
  · omega
  · omega

theorem Tiles.length_mul_header_le : ∀ {blocks : List Block} {start stop : Nat},
    layout.Tiles start blocks stop →
      start + blocks.length * layout.header ≤ stop
  | [], _, _, tiles => by simpa using Nat.le_of_eq tiles
  | head :: tail, start, stop, ⟨first, rest⟩ => by
      have later := rest.length_mul_header_le
      simp only [finish, payload] at later
      simp only [List.length_cons, Nat.add_mul, Nat.one_mul]
      omega

end Layout

end SystemsRepository.Foundation
