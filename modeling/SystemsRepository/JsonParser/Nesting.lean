import SystemsRepository.JsonParser.ArrayMode

/-! # Nesting

How many names are on `key_stack`: as many as objects and arrays have begun in the run and not
ended.
-/

namespace SystemsRepository.JsonParser

/-- An object or array begins inside of the root object. -/
def Visit.opens (visit : Visit) : Bool :=
  visit.parser.state == .valueBegin && (visit.char == '{' || visit.char == '[')

theorem Visit.opens_iff {visit : Visit} :
    visit.opens = true ↔
      visit.parser.state = .valueBegin ∧ (visit.char = '{' ∨ visit.char = '[') := by
  simp [Visit.opens]

/-- The innermost object or array ends, whichever of the two it is. -/
def Visit.closes (visit : Visit) : Bool :=
  visit.parser.state == .valueEnd && (visit.char == '}' || visit.char == ']') &&
    !visit.parser.keyStack.isEmpty

section Depth

variable {parser after : Parser} {char : Char} {rest : CString}

private theorem stepValueBegin_depth (state : parser.state = .valueBegin)
    (next : stepValueBegin parser char = .next after) :
    after.keyStack.length =
      parser.keyStack.length + if Visit.opens { parser, char, rest } then 1 else 0 := by
  rcases stepValueBegin_cases next with
    ⟨brace, opened⟩ | ⟨bracket, opened⟩ | ⟨noBrace, noBracket, _, begun⟩
  · simp [opened, Visit.opens, state, brace]
  · simp [opened, Visit.opens, state, bracket]
  · rw [begun]
    simp [Visit.opens, noBrace, noBracket]

private theorem stepValueEnd_depth (state : parser.state = .valueEnd)
    (next : stepValueEnd parser char = .next after) :
    after.keyStack.length + (if Visit.closes { parser, char, rest } then 1 else 0) =
      parser.keyStack.length := by
  have popped : parser.keyStack.dropLast.length + (if parser.keyStack.isEmpty then 0 else 1) =
      parser.keyStack.length := by
    cases parser.keyStack <;> simp
  rcases stepValueEnd_cases next with
    ⟨rfl, rfl⟩ | ⟨rfl, empty, rfl⟩ | ⟨rfl, nonempty, rfl⟩ | ⟨rfl, rfl⟩ | ⟨noBrace, noBracket, rfl⟩
  · simp [Visit.closes]
  · simp [Visit.closes, empty]
  · simpa [Visit.closes, state, nonempty] using popped
  · cases empty : parser.keyStack.isEmpty <;> simpa [Visit.closes, state, empty] using popped
  · simp [Visit.closes, noBrace, noBracket]

private theorem step_depth
    (moved : step parser char = .next after ∨ step parser char = .again after) :
    after.keyStack.length + (if Visit.closes { parser, char, rest } then 1 else 0) =
      parser.keyStack.length + (if Visit.opens { parser, char, rest } then 1 else 0) := by
  rcases moved with next | again
  · by_cases isBegin : parser.state = .valueBegin
    · rw [step_of_valueBegin isBegin] at next
      rw [@stepValueBegin_depth _ _ _ rest isBegin next]
      simp [Visit.closes, isBegin]
    · by_cases isEnd : parser.state = .valueEnd
      · rw [step_of_valueEnd isEnd] at next
        rw [@stepValueEnd_depth _ _ _ rest isEnd next]
        simp [Visit.opens, isEnd]
      · have kept : after.keyStack = parser.keyStack := by
          cases step_containers next with
          | kept stack _ => exact stack
          | openObject state => exact absurd state isBegin
          | openArray state => exact absurd state isBegin
          | closeObject state => exact absurd state isEnd
          | closeArray state => exact absurd state isEnd
        simp [Visit.closes, Visit.opens, isBegin, isEnd, kept]
  · have states := step_again again
    rw [(step_again_containers again).1]
    simp [Visit.closes, Visit.opens, states.1]

end Depth

/-- In front of every execution of the switch as many containers are open as there were, and
have begun and not ended since. -/
def Balanced (depth : Nat) (run : List Visit) : Prop :=
  ∀ before visit after, run = before ++ visit :: after →
    visit.parser.keyStack.length + before.countP Visit.closes =
      depth + before.countP Visit.opens

theorem Balanced.cons {visit : Visit} {run : List Visit} {depth : Nat}
    (balanced : run = [] ∨ Balanced depth run)
    (moves : run ≠ [] → depth + (if visit.closes then 1 else 0) =
      visit.parser.keyStack.length + (if visit.opens then 1 else 0)) :
    Balanced visit.parser.keyStack.length (visit :: run) := by
  intro before other after split
  cases before with
  | nil =>
      rw [List.nil_append, List.cons.injEq] at split
      rw [← split.1]
      rfl
  | cons first before =>
      rw [List.cons_append, List.cons.injEq] at split
      have longer : run ≠ [] := by
        rw [split.2]
        exact List.append_ne_nil_of_right_ne_nil _ (List.cons_ne_nil _ _)
      have here := moves longer
      have later := (balanced.resolve_left longer) before other after split.2
      rw [← split.1, List.countP_cons, List.countP_cons]
      omega

theorem visits_balanced : ∀ parser text, Balanced parser.keyStack.length (visits parser text) := by
  apply run_induction
  · intro parser before visit after split
    simp [visits] at split
  · intro parser char rest next stepped induction
    rw [visits_next stepped]
    exact Balanced.cons (.inr induction) fun _ => step_depth (.inl stepped)
  · intro parser char rest next stepped induction
    rw [visits_again stepped]
    exact Balanced.cons (.inr induction) fun _ => step_depth (.inr stepped)
  · intro parser char rest stops
    rw [visits_stop stops]
    exact @Balanced.cons { parser, char, rest } [] 0 (.inl rfl) fun more => absurd rfl more

/-- Wherever an object or array begins, fewer than ten have begun before and not ended. -/
def NestingFits (run : List Visit) : Prop :=
  ∀ before visit after, run = before ++ visit :: after → visit.opens = true →
    before.countP Visit.opens < keyStackSize + before.countP Visit.closes

theorem nestingFits_iff (text : CString) :
    NestingFits (visits .initial text) ↔
      ∀ visit ∈ visits .initial text, visit.opens = true →
        visit.parser.keyStack.length < keyStackSize := by
  constructor
  · intro fits visit member opens
    rcases List.append_of_mem member with ⟨before, after, split⟩
    have few := fits before visit after split opens
    have balanced := visits_balanced .initial text before visit after split
    change _ = 0 + _ at balanced
    omega
  · intro room before visit after split opens
    have few := room visit (by rw [split]; simp) opens
    have balanced := visits_balanced .initial text before visit after split
    change _ = 0 + _ at balanced
    omega

end SystemsRepository.JsonParser
