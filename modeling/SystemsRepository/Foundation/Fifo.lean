/-! # First in, first out

What a queue has accepted and what it has returned, in order, and what is still
waiting in it.
-/

namespace SystemsRepository.Foundation

structure History (α : Type u) where
  accepted : List α
  returned : List α
  deriving DecidableEq, Repr

namespace History

variable {α : Type u} {history : History α}

def start : History α where
  accepted := []
  returned := []

def accept (history : History α) (value : α) : History α :=
  { history with accepted := history.accepted ++ [value] }

def give (history : History α) (value : α) : History α :=
  { history with returned := history.returned ++ [value] }

def waiting (history : History α) : List α := history.accepted.drop history.returned.length

def InOrder (history : History α) : Prop := history.returned <+: history.accepted

theorem InOrder.split (inOrder : history.InOrder) :
    history.accepted = history.returned ++ history.waiting :=
  List.prefix_iff_eq_append.mp inOrder |>.symm

theorem start_inOrder : (start : History α).InOrder := List.prefix_refl []

theorem InOrder.accept (inOrder : history.InOrder) (value : α) :
    (history.accept value).InOrder :=
  List.IsPrefix.trans inOrder (List.prefix_append _ _)

theorem InOrder.waiting_accept (inOrder : history.InOrder) (value : α) :
    (history.accept value).waiting = history.waiting ++ [value] := by
  rw [waiting, waiting, History.accept, List.drop_append_of_le_length inOrder.length_le]

theorem InOrder.give (inOrder : history.InOrder) {value : α} {rest : List α}
    (first : history.waiting = value :: rest) :
    (history.give value).InOrder ∧ (history.give value).waiting = rest := by
  have split := inOrder.split
  rw [first, List.append_cons] at split
  constructor
  · rw [InOrder, History.give, split]
    exact List.prefix_append _ _
  · rw [waiting, History.give, split, List.drop_left]

/-- Nothing waits exactly when all that has been accepted has been returned. -/
theorem InOrder.waiting_eq_nil_iff (inOrder : history.InOrder) :
    history.waiting = [] ↔ history.returned = history.accepted := by
  have split := inOrder.split
  constructor
  · intro nothing
    rw [nothing, List.append_nil] at split
    exact split.symm
  · intro same
    rw [waiting, same, List.drop_length]

end History

end SystemsRepository.Foundation
