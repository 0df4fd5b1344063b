/-! # Regions laid out elsewhere

A table of address regions, each laid out at a place of its own. An address
belongs to the first region of the table that covers it.
-/

namespace SystemsRepository.Foundation

structure Region where
  start : Nat
  size : Nat
  target : Nat
  deriving DecidableEq, Repr

namespace Region

variable {region : Region} {regions : List Region} {address first second place : Nat}

def Covers (region : Region) (address : Nat) : Prop :=
  region.start ≤ address ∧ address < region.start + region.size

/-- The place belongs to the region's layout. -/
def Holds (region : Region) (place : Nat) : Prop :=
  region.target ≤ place ∧ place < region.target + region.size

def Apart (region other : Region) : Prop := ∀ place, region.Holds place → ¬other.Holds place

instance : Decidable (region.Covers address) := inferInstanceAs (Decidable (_ ∧ _))

instance : Decidable (region.Holds place) := inferInstanceAs (Decidable (_ ∧ _))

def placeOf (region : Region) (address : Nat) : Nat := region.target + (address - region.start)

theorem Covers.holds_placeOf (covers : region.Covers address) :
    region.Holds (region.placeOf address) := by
  rcases covers with ⟨reached, inside⟩
  unfold Holds placeOf
  omega

theorem Covers.placeOf_injective (left : region.Covers first) (right : region.Covers second)
    (same : region.placeOf first = region.placeOf second) : first = second := by
  rcases left with ⟨leftReached, _⟩
  rcases right with ⟨rightReached, _⟩
  unfold placeOf at same
  omega

/-! ## Translation -/

def translate (regions : List Region) (address : Nat) : Option Nat :=
  (regions.find? fun region => region.Covers address).map fun region => region.placeOf address

theorem translate_cons_of_covers (covers : region.Covers address) :
    translate (region :: regions) address = some (region.placeOf address) := by
  rw [translate, List.find?_cons, decide_eq_true covers]
  rfl

theorem translate_cons_of_not_covers (outside : ¬region.Covers address) :
    translate (region :: regions) address = translate regions address := by
  rw [translate, List.find?_cons, decide_eq_false outside]
  rfl

theorem translate_covered (translated : translate regions address = some place) :
    ∃ region ∈ regions, region.Covers address ∧ region.placeOf address = place := by
  rcases Option.map_eq_some_iff.mp translated with ⟨region, found, placed⟩
  have covers := List.find?_some found
  exact ⟨region, List.mem_of_find?_eq_some found, of_decide_eq_true covers, placed⟩

theorem eq_of_holds (apart : regions.Pairwise Apart) {other : Region}
    (member : region ∈ regions) (otherMember : other ∈ regions) (here : region.Holds place)
    (there : other.Holds place) : region = other := by
  induction regions with
  | nil => cases member
  | cons head regions induction =>
      rcases List.pairwise_cons.mp apart with ⟨headApart, rest⟩
      rcases List.mem_cons.mp member with rfl | later
      · rcases List.mem_cons.mp otherMember with same | otherLater
        · exact same.symm
        · exact absurd there (headApart other otherLater place here)
      · rcases List.mem_cons.mp otherMember with rfl | otherLater
        · exact absurd here (headApart region later place there)
        · exact induction rest later otherLater

/-- Where the layouts are disjoint no place is shared, however the regions overlap. -/
theorem translate_injective (apart : regions.Pairwise Apart)
    (left : translate regions first = some place)
    (right : translate regions second = some place) : first = second := by
  rcases translate_covered left with ⟨region, member, covers, placed⟩
  rcases translate_covered right with ⟨other, otherMember, otherCovers, otherPlaced⟩
  have same : region = other := eq_of_holds apart member otherMember
    (placed ▸ covers.holds_placeOf) (otherPlaced ▸ otherCovers.holds_placeOf)
  subst same
  exact covers.placeOf_injective otherCovers (placed.trans otherPlaced.symm)

theorem find?_holds {Entry : Type u} {layout : Entry → Region} {entries : List Entry}
    (apart : entries.Pairwise fun entry other => (layout entry).Apart (layout other)) {entry : Entry}
    (member : entry ∈ entries) (here : (layout entry).Holds place) :
    entries.find? (fun other => (layout other).Holds place) = some entry := by
  induction entries with
  | nil => cases member
  | cons head entries induction =>
      rcases List.pairwise_cons.mp apart with ⟨headApart, rest⟩
      rcases List.mem_cons.mp member with rfl | later
      · exact List.find?_cons_of_pos (decide_eq_true here)
      · have outside : ¬(layout head).Holds place := fun there =>
          headApart entry later place there here
        rw [List.find?_cons_of_neg (by simpa using outside)]
        exact induction rest later

end Region

end SystemsRepository.Foundation
