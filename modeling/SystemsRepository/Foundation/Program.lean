/-! # Programs that may stop

A program works on a state and either ends with a value or stops early, as a C
function does that leaves through an error exit. The rules below take a finished
run apart and carry a finished run of one program over to another.
-/

namespace SystemsRepository.Foundation

abbrev Program (State : Type u) (Stop : Type v) (α : Type u) := StateT State (Except Stop) α

namespace Program

variable {State : Type u} {Stop : Type v} {α β γ δ : Type u}

/-! ## Finished runs -/

theorem pure_eq_ok {value result : α} {state final : State} :
    (pure value : Program State Stop α) state = .ok (result, final) ↔
      value = result ∧ state = final := by
  constructor
  · intro finished
    cases finished
    exact ⟨rfl, rfl⟩
  · rintro ⟨rfl, rfl⟩
    rfl

theorem bind_of_ok {first : Program State Stop α} {rest : α → Program State Stop β}
    {state middle : State} {value : α} (ran : first state = .ok (value, middle)) :
    (first >>= rest) state = rest value middle := by
  simp only [bind, StateT.bind, Except.bind, ran]

theorem bind_of_error {first : Program State Stop α} {rest : α → Program State Stop β}
    {state : State} {stop : Stop} (ran : first state = .error stop) :
    (first >>= rest) state = .error stop := by
  simp only [bind, StateT.bind, Except.bind, ran]

theorem bind_eq_ok {first : Program State Stop α} {rest : α → Program State Stop β}
    {state final : State} {result : β} :
    (first >>= rest) state = .ok (result, final) ↔
      ∃ value middle, first state = .ok (value, middle) ∧
        rest value middle = .ok (result, final) := by
  cases ran : first state with
  | error stop =>
      rw [bind_of_error ran]
      constructor
      · intro finished
        cases finished
      · rintro ⟨_, _, finished, _⟩
        cases finished
  | ok outcome =>
      rw [bind_of_ok ran]
      constructor
      · intro finished
        exact ⟨outcome.1, outcome.2, rfl, finished⟩
      · rintro ⟨value, middle, same, finished⟩
        cases same
        exact finished

theorem throw_ne_ok {stop : Stop} {state final : State} {result : α} :
    (throw stop : Program State Stop α) state ≠ .ok (result, final) :=
  fun stopped => by cases stopped

/-! ## Stopped runs -/

theorem pure_ne_error {value : α} {state : State} {stop : Stop} :
    (pure value : Program State Stop α) state ≠ .error stop :=
  fun stopped => by cases stopped

theorem throw_eq_error {stop other : Stop} {state : State} :
    (throw stop : Program State Stop α) state = .error other ↔ stop = other := by
  constructor
  · intro stopped
    cases stopped
    rfl
  · intro same
    rw [same]
    rfl

/-- A sequence stops in its first part, or in the rest of a finished first part. -/
theorem bind_eq_error {first : Program State Stop α} {rest : α → Program State Stop β}
    {state : State} {stop : Stop} :
    (first >>= rest) state = .error stop ↔
      first state = .error stop ∨
        ∃ value middle, first state = .ok (value, middle) ∧ rest value middle = .error stop := by
  cases ran : first state with
  | error other =>
      rw [bind_of_error ran]
      constructor
      · intro same
        cases same
        exact .inl rfl
      · intro either
        rcases either with same | ⟨_, _, finished, _⟩
        · cases same
          rfl
        · cases finished
  | ok outcome =>
      rw [bind_of_ok ran]
      constructor
      · intro stopped
        exact .inr ⟨outcome.1, outcome.2, rfl, stopped⟩
      · intro either
        rcases either with finished | ⟨value, middle, same, stopped⟩
        · cases finished
        · cases same
          exact stopped

def Avoids (stop : Stop) (program : Program State Stop α) : Prop :=
  ∀ state, program state ≠ .error stop

theorem Avoids.pure {stop : Stop} (value : α) : Avoids stop (pure value : Program State Stop α) :=
  fun _ => pure_ne_error

theorem Avoids.throw {stop other : Stop} (different : other ≠ stop) :
    Avoids stop (throw other : Program State Stop α) :=
  fun _ stopped => different (throw_eq_error.mp stopped)

theorem Avoids.bind {stop : Stop} {first : Program State Stop α}
    {rest : α → Program State Stop β} (head : Avoids stop first)
    (tail : ∀ value, Avoids stop (rest value)) : Avoids stop (first >>= rest) := by
  intro state stopped
  rcases bind_eq_error.mp stopped with here | ⟨value, middle, _, later⟩
  · exact head state here
  · exact tail value middle later

/-! ## Loops over a list -/

variable {Item : Type w}

def loop (body : Item → Program State Stop PUnit) : List Item → Program State Stop PUnit
  | [] => pure ⟨⟩
  | item :: items => do
      body item
      loop body items

def iterations (body : Item → Program State Stop PUnit) :
    List Item → State → List (Item × State)
  | [], _ => []
  | item :: items, state =>
      (item, state) ::
        match body item state with
        | .ok (_, after) => iterations body items after
        | .error _ => []

theorem loop_eq_error_iff {body : Item → Program State Stop PUnit} {items : List Item}
    {state : State} {stop : Stop} :
    loop body items state = .error stop ↔
      ∃ iteration ∈ iterations body items state,
        body iteration.1 iteration.2 = .error stop := by
  induction items generalizing state with
  | nil =>
      constructor
      · exact fun stopped => absurd stopped pure_ne_error
      · intro iteration
        rcases iteration with ⟨_, none, _⟩
        cases none
  | cons item items induction =>
      rw [loop, bind_eq_error, iterations]
      simp only [List.mem_cons, or_and_right, exists_or, exists_eq_left]
      apply or_congr_right
      cases ran : body item state with
      | error other =>
          constructor
          · intro rest
            rcases rest with ⟨_, _, finished, _⟩
            cases finished
          · intro iteration
            rcases iteration with ⟨_, none, _⟩
            cases none
      | ok outcome =>
          constructor
          · intro rest
            rcases rest with ⟨_, _, finished, stopped⟩
            cases finished
            exact induction.mp stopped
          · intro iteration
            exact ⟨outcome.1, outcome.2, rfl, induction.mpr iteration⟩

/-! ## Matching runs -/

/-- Where the first program finishes, the second finishes in the same state, with
a related value. -/
def Matches (Related : α → β → Prop) (first : Program State Stop α)
    (second : Program State Stop β) : Prop :=
  ∀ state value final, first state = .ok (value, final) →
    ∃ other, second state = .ok (other, final) ∧ Related value other

variable {Related : α → β → Prop}

theorem Matches.refl (program : Program State Stop α) : Matches Eq program program :=
  fun _ value _ finished => ⟨value, finished, rfl⟩

theorem Matches.pure {left : α} {right : β} (related : Related left right) :
    Matches Related (pure left : Program State Stop α) (pure right) := by
  intro state value final finished
  rcases pure_eq_ok.mp finished with ⟨rfl, rfl⟩
  exact ⟨right, rfl, related⟩

theorem Matches.throw (stop : Stop) (second : Program State Stop β) :
    Matches Related (throw stop) second :=
  fun _ _ _ finished => absurd finished throw_ne_ok

theorem Matches.bind {After : γ → δ → Prop} {first : Program State Stop α}
    {second : Program State Stop β} {restFirst : α → Program State Stop γ}
    {restSecond : β → Program State Stop δ} (head : Matches Related first second)
    (rest : ∀ left right, Related left right →
      Matches After (restFirst left) (restSecond right)) :
    Matches After (first >>= restFirst) (second >>= restSecond) := by
  intro state value final finished
  rcases bind_eq_ok.mp finished with ⟨left, middle, ran, continued⟩
  rcases head state left middle ran with ⟨right, otherRan, related⟩
  rcases rest left right related middle value final continued with ⟨other, ended, after⟩
  exact ⟨other, bind_eq_ok.mpr ⟨right, middle, otherRan, ended⟩, after⟩

end Program

end SystemsRepository.Foundation
