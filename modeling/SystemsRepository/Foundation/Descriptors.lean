import Mathlib.Logic.Function.Basic

/-! # Descriptors of a process

What a process has open, and what the calls it makes before it executes a program do to
that. The system decides whether a file can be opened. Nothing here is about a particular
program.
-/

namespace SystemsRepository.Foundation

abbrev Descriptors (Channel : Type u) := Nat → Option Channel

/-- `reopen` closes a descriptor and opens a file in its place; where this fails and the file
is required, the process ends. -/
inductive DescriptorCall (Channel : Type u)
  | close (descriptor : Nat)
  | dup2 (source target : Nat)
  | reopen (descriptor : Nat) (file : Channel) (required : Bool)
  deriving DecidableEq, Repr

namespace Descriptors

variable {Channel : Type u} {table next final : Descriptors Channel} {fd : Nat}

def perform (table : Descriptors Channel) : DescriptorCall Channel → Bool →
    Option (Descriptors Channel)
  | .close descriptor, _ => some (Function.update table descriptor none)
  | .dup2 source target, _ =>
      some (if (table source).isSome then Function.update table target (table source) else table)
  | .reopen descriptor file required, succeeds =>
      if succeeds then some (Function.update table descriptor (some file))
      else if required then none
      else some (Function.update table descriptor none)

def Leaves : List (DescriptorCall Channel) → Descriptors Channel → Descriptors Channel → Prop
  | [], table, final => final = table
  | call :: calls, table, final =>
      ∃ succeeds next, perform table call succeeds = some next ∧ Leaves calls next final

/-- What a descriptor refers to once a file has been opened in its place, if one is named. -/
def Opened (file : Option Channel) (required : Bool) (before after : Option Channel) : Prop :=
  match file with
  | none => after = before
  | some channel => after = some channel ∨ required = false ∧ after = none

theorem leaves_nil : Leaves [] table final ↔ final = table := Iff.rfl

theorem leaves_close {calls : List (DescriptorCall Channel)} :
    Leaves (.close fd :: calls) table final ↔
      Leaves calls (Function.update table fd none) final := by
  simp [Leaves, perform]

theorem leaves_dup2 {calls : List (DescriptorCall Channel)} {target : Nat} {channel : Channel}
    (isOpen : table fd = some channel) :
    Leaves (.dup2 fd target :: calls) table final ↔
      Leaves calls (Function.update table target (some channel)) final := by
  simp [Leaves, perform, isOpen]

theorem leaves_reopen {calls : List (DescriptorCall Channel)} {file : Option Channel}
    {required : Bool} :
    Leaves ((file.toList.map fun channel => .reopen fd channel required) ++ calls) table final ↔
      ∃ after, Opened file required (table fd) after ∧
        Leaves calls (Function.update table fd after) final := by
  cases file with
  | none => simp [Opened, Function.update_eq_self]
  | some channel => cases required <;> simp [Leaves, perform, Opened, or_comm]

end Descriptors

end SystemsRepository.Foundation
