import SystemsRepository.JsonParser.Printing

/-! # Array mode

What the switch does to `key_stack` and `in_array`, and when array mode implies
an open container.
-/

namespace SystemsRepository.JsonParser

open SystemsRepository.Foundation

/-- The characters of a file that the machine meets: each chunk up to its first
terminator. -/
def readText (contents : List Char) : CString :=
  (Text.reads '\n' lineSize contents).flatMap fun line => line.takeWhile fun char => char != nul

theorem parse_eq_feed (contents : List Char) :
    parse (some contents) = feed .initial (readText contents) :=
  feedLines_eq_flatMap _ _

/-! ## Containers -/

inductive Containers (parser : Parser) (char : Char) (after : Parser) : Prop
  | kept (stack : after.keyStack = parser.keyStack) (array : after.inArray = parser.inArray)
  | openObject (state : parser.state = .valueBegin) (brace : char = '{')
      (stack : after.keyStack = parser.keyStack ++ [parser.keyBuffer])
      (array : after.inArray = parser.inArray)
  | openArray (state : parser.state = .valueBegin) (bracket : char = '[')
      (stack : after.keyStack = parser.keyStack ++ [parser.keyBuffer])
      (array : after.inArray = true)
  | closeObject (state : parser.state = .valueEnd) (brace : char = '}')
      (stack : after.keyStack = parser.keyStack.dropLast)
      (array : after.inArray = parser.inArray)
  | closeArray (state : parser.state = .valueEnd) (bracket : char = ']')
      (stack : after.keyStack = parser.keyStack.dropLast) (array : after.inArray = false)

private theorem emit_containers {parser after : Parser} {value : Value}
    (emitted : parser.emit value = some after) :
    after.keyStack = parser.keyStack ∧ after.inArray = parser.inArray := by
  unfold Parser.emit at emitted
  split at emitted
  · cases emitted
  · split at emitted
    · split at emitted
      · cases emitted
        exact ⟨rfl, rfl⟩
      · cases emitted
    · cases emitted
      exact ⟨rfl, rfl⟩

section Containers

variable {parser after : Parser} {char : Char}

private theorem stepLiteral_containers {literal : CString}
    (next : stepLiteral literal parser char = .next after) : Containers parser char after := by
  rcases stepLiteral_cases next with ⟨_, emitted⟩ | ⟨_, rfl⟩
  · have same := emit_containers emitted
    exact .kept same.1 same.2
  · exact .kept rfl rfl

private theorem stepValueString_containers (next : stepValueString parser char = .next after) :
    Containers parser char after := by
  rcases stepValueString_cases next with ⟨_, emitted⟩ | ⟨_, rfl⟩
  · have same := emit_containers emitted
    exact .kept same.1 same.2
  · exact .kept rfl rfl

private theorem stepValueBegin_containers (state : parser.state = .valueBegin)
    (next : stepValueBegin parser char = .next after) : Containers parser char after := by
  rcases stepValueBegin_cases next with ⟨brace, opened⟩ | ⟨bracket, opened⟩ | ⟨_, _, _, begun⟩
  · rw [opened]
    exact .openObject state brace rfl rfl
  · rw [opened]
    exact .openArray state bracket rfl rfl
  · rw [begun]
    exact .kept rfl rfl

private theorem stepValueEnd_containers (state : parser.state = .valueEnd)
    (next : stepValueEnd parser char = .next after) : Containers parser char after := by
  rcases stepValueEnd_cases next with
    ⟨_, rfl⟩ | ⟨_, _, rfl⟩ | ⟨brace, _, rfl⟩ | ⟨bracket, rfl⟩ | ⟨_, _, rfl⟩
  · exact .kept rfl rfl
  · exact .kept rfl rfl
  · exact .closeObject state brace rfl rfl
  · exact .closeArray state bracket rfl rfl
  · exact .kept rfl rfl

theorem step_again_containers (again : step parser char = .again after) :
    after.keyStack = parser.keyStack ∧ after.inArray = parser.inArray :=
  emit_containers (step_again_emits again).2

theorem step_containers (next : step parser char = .next after) :
    Containers parser char after := by
  cases state : parser.state <;> simp only [step, state] at next
  case valueBegin => exact stepValueBegin_containers state next
  case valueEnd => exact stepValueEnd_containers state next
  case valueString => exact stepValueString_containers next
  case valueTrue => exact stepLiteral_containers next
  case valueFalse => exact stepLiteral_containers next
  case valueNull => exact stepLiteral_containers next
  case key =>
    rcases stepKey_cases next with rfl | rfl
    · exact .kept rfl rfl
    · exact .kept rfl rfl
  case valueNumber =>
    rw [(stepValueNumber_next next).2]
    exact .kept rfl rfl
  case done =>
    cases next
    exact .kept rfl rfl
  all_goals
    cases next
    split <;> exact .kept rfl rfl

end Containers

/-! ## Array mode -/

/-- In array mode a brace takes the last name from `key_stack`. -/
def Visit.closesArray (visit : Visit) : Bool :=
  visit.parser.state == .valueEnd && visit.char == '}' && visit.parser.inArray &&
    visit.parser.keyStack.length == 1

/-- In array mode `key_stack[key_depth - 1]` exists. -/
private def Parser.ArrayOpen (parser : Parser) : Prop :=
  parser.inArray = true → parser.keyStack ≠ []

private theorem arrayOpen_next {parser after : Parser} {char : Char} {rest : CString}
    (arrayOpen : parser.ArrayOpen)
    (keeps : Visit.closesArray { parser, char, rest } = false)
    (next : step parser char = .next after) : after.ArrayOpen := by
  intro array
  cases step_containers next with
  | kept stack sameArray => exact stack ▸ arrayOpen (sameArray ▸ array)
  | openObject _ _ stack _ => exact stack ▸ List.concat_ne_nil _ _
  | openArray _ _ stack _ => exact stack ▸ List.concat_ne_nil _ _
  | closeObject state brace stack sameArray =>
      rw [sameArray] at array
      have present := List.length_pos_iff.mpr (arrayOpen array)
      have several : parser.keyStack.length ≠ 1 := by
        intro one
        simp [Visit.closesArray, state, brace, array, one] at keeps
      rw [stack, ← List.length_pos_iff, List.length_dropLast]
      omega
  | closeArray _ _ _ noArray =>
      rw [noArray] at array
      cases array

private theorem arrayOpen_again {parser after : Parser} {char : Char} (arrayOpen : parser.ArrayOpen)
    (again : step parser char = .again after) : after.ArrayOpen := by
  have same := step_again_containers again
  intro array
  exact same.1 ▸ arrayOpen (same.2 ▸ array)

private theorem visits_arrayOpen {text : CString}
    (keeps : ∀ visit ∈ visits .initial text, visit.closesArray = false) :
    ∀ visit ∈ visits .initial text, visit.parser.ArrayOpen :=
  @visits_invariant (fun parser _ => parser.ArrayOpen) (fun visit => visit.closesArray = false)
    (fun _ _ _ _ arrayOpen allowed next => arrayOpen_next arrayOpen allowed next)
    (fun _ _ _ _ arrayOpen _ again => arrayOpen_again arrayOpen again)
    .initial text (fun array => by cases array) keeps

/-! ## Braces that close an array -/

private theorem visits_of_feed :
    ∀ parser left, ∀ {middle : Parser}, feed parser left = .running middle →
    ∀ right, ∀ visit ∈ visits middle right, visit ∈ visits parser (left ++ right) := by
  apply run_induction
  · intro parser middle fed right visit member
    cases fed
    exact member
  · intro parser char rest after stepped induction middle fed right visit member
    rw [feed_next stepped] at fed
    rw [List.cons_append, visits_next stepped]
    exact List.mem_cons_of_mem _ (induction fed right visit member)
  · intro parser char rest after stepped induction middle fed right visit member
    rw [feed_again stepped (step_settles stepped)] at fed
    rw [List.cons_append, visits_again stepped]
    exact List.mem_cons_of_mem _ (induction fed right visit member)
  · intro parser char rest stops middle fed
    rw [feed_stop stops] at fed
    split at fed <;> cases fed

private theorem emits_below_stack {parser : Parser}
    (closes : Visit.closesArray { parser, char := '}', rest := [] } = true) :
    ∃ visit ∈ visits parser ['}', ',', '0', ','],
      visit.emits = true ∧ visit.parser.inArray = true ∧ visit.parser.keyStack = [] := by
  simp only [Visit.closesArray, Bool.and_eq_true, beq_iff_eq] at closes
  rcases closes with ⟨⟨⟨state, _⟩, array⟩, one⟩
  have nonempty : ¬parser.keyStack = [] := by
    intro empty
    rw [empty] at one
    cases one
  have noNames : parser.keyStack.dropLast = [] := by
    rw [← List.length_eq_zero_iff, List.length_dropLast, one]
  have brace : step parser '}' =
      .next { parser with keyStack := parser.keyStack.dropLast, state := .valueEnd } := by
    rw [step_of_valueEnd state, stepValueEnd, if_neg (by decide), if_pos rfl, if_neg nonempty]
  have comma : step { parser with keyStack := parser.keyStack.dropLast, state := .valueEnd } ',' =
      .next { parser with keyStack := parser.keyStack.dropLast, state := .valueBegin } := by
    rw [step_of_valueEnd rfl, stepValueEnd, if_pos rfl]
    simp [array]
  have zero := @step_startsNumber
    { parser with keyStack := parser.keyStack.dropLast, state := .valueBegin } rfl '0' (by decide)
  have member : Visit.mk
      { parser with
        keyStack := parser.keyStack.dropLast, valBuffer := ['0'], state := .valueNumber }
      ',' [] ∈ visits parser ['}', ',', '0', ','] := by
    rw [visits_next brace, visits_next comma, visits_next zero, visits]
    simp
  exact ⟨_, member, rfl, array, noNames⟩

theorem arrayMode_loses_container {front : CString} {parser : Parser}
    (fed : feed .initial front = .running parser)
    (closes : Visit.closesArray { parser, char := '}', rest := [] } = true) :
    ∃ visit ∈ visits .initial (front ++ ['}', ',', '0', ',']),
      visit.emits = true ∧ visit.parser.inArray = true ∧ visit.parser.keyStack = [] := by
  rcases emits_below_stack closes with ⟨visit, member, emitted⟩
  exact ⟨visit, visits_of_feed .initial front fed _ visit member, emitted⟩

/-- Array mode implies an open container in every run in which no brace closes the last
container of array mode. -/
theorem arrayMode_has_container (contents : List Char)
    (keeps : ∀ visit ∈ visits .initial (readText contents), visit.closesArray = false) :
    ∀ visit ∈ visits .initial (readText contents), visit.emits = true →
      visit.parser.inArray = true → 1 ≤ visit.parser.keyStack.length := by
  intro visit member _ array
  exact List.length_pos_iff.mpr (visits_arrayOpen keeps visit member array)

theorem arrayMode_has_container_in_array :
    let contents := "\x7b\"a\":[1,2]\x7d".toList
    (∃ visit ∈ visits .initial (readText contents), visit.emits = true ∧
      visit.parser.inArray = true) ∧
      ∀ visit ∈ visits .initial (readText contents), visit.emits = true →
        visit.parser.inArray = true → 1 ≤ visit.parser.keyStack.length :=
  ⟨by decide +kernel, arrayMode_has_container _ (by decide +kernel)⟩

/-- The brackets of an empty array and the braces of an object behind it. -/
theorem arrayMode_without_container :
    let contents := "\x7b\"a\":[],\"b\":\x7b\"c\":1\x7d,\"d\":\"x\"\x7d".toList
    (∃ visit ∈ visits .initial (readText contents),
      visit.emits = true ∧ visit.parser.inArray = true ∧ visit.parser.keyStack = []) ∧
      parse (some contents) = .undefined := by
  decide +kernel

end SystemsRepository.JsonParser
