import Mathlib.Logic.Function.Basic

/-! # Ownership

A table of resources in use, and holders of at most one resource each. What is in the
table under a resource is what its only holder has put there. Nothing here is about a
particular kind of resource.
-/

namespace SystemsRepository.Foundation

variable {Resource : Type u} {Holder : Type v} {Value : Type w}

structure Owned (table : Resource → Option Value) (holds : Holder → Option (Resource × Value)) :
    Prop where
  held : ∀ resource value,
    table resource = some value ↔ ∃ holder, holds holder = some (resource, value)
  alone : ∀ {first second resource value other},
    holds first = some (resource, value) → holds second = some (resource, other) → first = second

namespace Owned

variable {table : Resource → Option Value} {holds next : Holder → Option (Resource × Value)}
  {holder : Holder} {resource : Resource} {value : Value}

theorem empty : Owned (fun _ : Resource => (none : Option Value))
    (fun _ : Holder => none) where
  held := by simp
  alone := fun first _ => by cases first

theorem here (owned : Owned table holds) (has : holds holder = some (resource, value)) :
    table resource = some value :=
  (owned.held resource value).mpr ⟨holder, has⟩

variable [DecidableEq Resource]

theorem acquire (owned : Owned table holds) (holder : Holder) (unused : table resource = none)
    (idle : holds holder = none) (takes : next holder = some (resource, value))
    (others : ∀ other, other ≠ holder → next other = holds other) :
    Owned (Function.update table resource (some value)) next := by
  have fresh : ∀ other found, holds other ≠ some (resource, found) := by
    intro other found has
    rw [owned.here has] at unused
    cases unused
  refine ⟨fun target found => ?_, fun {first second target found other} has also => ?_⟩
  · by_cases same : target = resource
    · subst same
      rw [Function.update_self]
      constructor
      · intro stored
        exact ⟨holder, by rw [takes, Option.some.inj stored]⟩
      · rintro ⟨other, has⟩
        by_cases mine : other = holder
        · rw [mine, takes] at has
          exact congrArg (fun pair => some pair.2) (Option.some.inj has)
        · rw [others other mine] at has
          exact absurd has (fresh other found)
    · rw [Function.update_of_ne same, owned.held]
      constructor
      · rintro ⟨other, has⟩
        refine ⟨other, ?_⟩
        rw [others other, has]
        rintro rfl
        rw [idle] at has
        cases has
      · rintro ⟨other, has⟩
        refine ⟨other, ?_⟩
        rw [← others other, has]
        rintro rfl
        rw [takes] at has
        exact same (congrArg Prod.fst (Option.some.inj has)).symm
  · by_cases mine : first = holder <;> by_cases theirs : second = holder
    · rw [mine, theirs]
    · rw [mine, takes] at has
      rw [others second theirs] at also
      cases has
      exact absurd also (fresh second other)
    · rw [theirs, takes] at also
      rw [others first mine] at has
      cases also
      exact absurd has (fresh first found)
    · rw [others first mine] at has
      rw [others second theirs] at also
      exact owned.alone has also

theorem release (owned : Owned table holds) (has : holds holder = some (resource, value))
    (gives : next holder = none) (others : ∀ other, other ≠ holder → next other = holds other) :
    Owned (Function.update table resource none) next := by
  have kept : ∀ {other found}, next other = some found → other ≠ holder := by
    rintro other found later rfl
    rw [gives] at later
    cases later
  refine ⟨fun target found => ?_, fun {first second target found other} later also => ?_⟩
  · by_cases same : target = resource
    · subst same
      rw [Function.update_self]
      constructor
      · intro stored
        cases stored
      · rintro ⟨other, later⟩
        have different := kept later
        rw [others other different] at later
        exact absurd (owned.alone later has) different
    · rw [Function.update_of_ne same, owned.held]
      constructor
      · rintro ⟨other, had⟩
        refine ⟨other, ?_⟩
        rw [others other, had]
        rintro rfl
        rw [has] at had
        exact same (congrArg Prod.fst (Option.some.inj had)).symm
      · rintro ⟨other, later⟩
        exact ⟨other, by rw [← others other (kept later), later]⟩
  · rw [others first (kept later)] at later
    rw [others second (kept also)] at also
    exact owned.alone later also

end Owned

end SystemsRepository.Foundation
