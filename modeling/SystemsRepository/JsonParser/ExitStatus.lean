import SystemsRepository.JsonParser.Nesting

/-! # The exit status

What `main` returns tells only whether a literal was misspelt. Whether the root object
was closed is known to the machine, in `STATE_DONE`, but not to its caller.
-/

namespace SystemsRepository.JsonParser

open SystemsRepository.Foundation

def Outcome.finalState : Outcome → Option ParserState
  | .running parser => some parser.state
  | _ => none

def misspellsLiteral (literal : CString) (visit : Visit) : Bool :=
  literal[visit.parser.literalIndex]? != some visit.char

/-- A literal state meets a character that does not continue its literal. -/
def Visit.misspells (visit : Visit) : Bool :=
  match visit.parser.state with
  | .valueTrue => misspellsLiteral literalTrue visit
  | .valueFalse => misspellsLiteral literalFalse visit
  | .valueNull => misspellsLiteral literalNull visit
  | _ => false

def Visit.closesRoot (visit : Visit) : Bool :=
  visit.parser.state == .valueEnd && visit.char == '}' && visit.parser.keyStack.isEmpty

/-! ## Misspelt literals -/

def Step.isInvalid : Step → Bool
  | .invalid _ _ => true
  | _ => false

@[simp] theorem isInvalid_ofOption (result : Option Parser) :
    (Step.ofOption result).isInvalid = false := by
  cases result <;> rfl

private theorem isInvalid_stepLiteral (literal : CString) (visit : Visit) :
    (stepLiteral literal visit.parser visit.char).isInvalid = misspellsLiteral literal visit := by
  unfold stepLiteral misspellsLiteral
  split
  next found =>
    rw [found, bne_self_eq_false]
    dsimp only
    split
    next => exact isInvalid_ofOption _
    next => rfl
  next missing =>
    rw [bne_iff_ne.mpr missing]
    rfl

private theorem isInvalid_step (visit : Visit) :
    (step visit.parser visit.char).isInvalid = visit.misspells := by
  cases state : visit.parser.state <;> simp only [step, state, Visit.misspells]
  case key =>
    unfold stepKey
    repeat' split
    all_goals rfl
  case valueBegin =>
    unfold stepValueBegin
    repeat' split
    all_goals first | exact isInvalid_ofOption _ | rfl
  case valueString =>
    unfold stepValueString
    repeat' split
    all_goals first | exact isInvalid_ofOption _ | rfl
  case valueNumber =>
    unfold stepValueNumber
    repeat' split
    all_goals rfl
  case valueTrue => exact isInvalid_stepLiteral literalTrue visit
  case valueFalse => exact isInvalid_stepLiteral literalFalse visit
  case valueNull => exact isInvalid_stepLiteral literalNull visit
  case valueEnd =>
    unfold stepValueEnd
    repeat' split
    all_goals rfl
  all_goals rfl

private theorem feed_status (parser : Parser) (text : CString) :
    (feed parser text).status = some 1 ↔ ∃ visit ∈ visits parser text, visit.misspells = true := by
  have ends := @feed_iff_visit (fun outcome => outcome.status = some 1) (fun _ => False)
    Visit.misspells (fun _ => by simp [Outcome.status])
    (by
      intro parser char rest after moved
      rw [← isInvalid_step]
      rcases moved with next | again
      · simp [next, Step.isInvalid]
      · simp [again, Step.isInvalid])
    (by
      intro parser char rest stops
      rw [feed_stop stops, ← isInvalid_step]
      cases stepped : step parser char with
      | next after => exact (stepped ▸ stops : (Step.next after).Stops).elim
      | again after => exact (stepped ▸ stops : (Step.again after).Stops).elim
      | invalid _ _ => simp [Outcome.status, Step.isInvalid]
      | undefined => simp [Outcome.status, Step.isInvalid])
    parser text
  rw [ends, false_or]

/-! ## Truncated files -/

private theorem takeWhile_longer {keeps : Char → Bool} {front text : CString}
    (leads : front <+: text) : front.takeWhile keeps <+: text.takeWhile keeps := by
  rcases leads with ⟨more, rfl⟩
  induction front with
  | nil => exact List.nil_prefix
  | cons char front induction =>
      rw [List.cons_append, List.takeWhile_cons, List.takeWhile_cons]
      split
      next => exact List.cons_prefix_cons.mpr ⟨rfl, induction⟩
      next => exact List.prefix_refl []

private theorem readText_longer {front contents : List Char} (leads : front <+: contents) :
    readText front <+: readText contents :=
  Text.reads_flatMap_longer (by decide)
    (fun _ _ piece => takeWhile_longer piece) leads

private theorem status_of_longer {front text : CString} {parser : Parser} (leads : front <+: text)
    (ended : (feed parser text).status = some 0) : (feed parser front).status = some 0 := by
  rcases leads with ⟨more, rfl⟩
  rw [feed_append] at ended
  cases fed : feed parser front with
  | running after => rfl
  | invalid _ _ _ => rw [fed] at ended; cases ended
  | undefined => rw [fed] at ended; cases ended
  | unfinished => rw [fed] at ended; cases ended

/-! ## The end of the root object -/

section States

variable {parser after : Parser} {char : Char}

private theorem emit_ne_done {value : Value} (emitted : parser.emit value = some after) :
    after.state ≠ .done := by
  rw [emit_state emitted]
  exact nofun

private theorem stepLiteral_ne_done {literal : CString} (notDone : parser.state ≠ .done)
    (next : stepLiteral literal parser char = .next after) : after.state ≠ .done := by
  rcases stepLiteral_cases next with ⟨_, emitted⟩ | ⟨_, rfl⟩
  · exact emit_ne_done emitted
  · exact notDone

private theorem stepValueString_ne_done (notDone : parser.state ≠ .done)
    (next : stepValueString parser char = .next after) : after.state ≠ .done := by
  rcases stepValueString_cases next with ⟨_, emitted⟩ | ⟨_, rfl⟩
  · exact emit_ne_done emitted
  · exact notDone

private theorem stepValueBegin_ne_done (notDone : parser.state ≠ .done)
    (next : stepValueBegin parser char = .next after) : after.state ≠ .done := by
  rcases stepValueBegin_cases next with ⟨_, opened⟩ | ⟨_, opened⟩ | ⟨_, _, kept, _⟩
  · rw [opened]
    exact nofun
  · rw [opened]
    exact nofun
  · exact fun isDone => notDone (kept isDone)

private theorem step_ne_done (notEnd : parser.state ≠ .valueEnd) (notDone : parser.state ≠ .done)
    (next : step parser char = .next after) : after.state ≠ .done := by
  cases state : parser.state <;> simp only [step, state] at next
  case valueBegin => exact stepValueBegin_ne_done notDone next
  case valueString => exact stepValueString_ne_done notDone next
  case valueTrue => exact stepLiteral_ne_done notDone next
  case valueFalse => exact stepLiteral_ne_done notDone next
  case valueNull => exact stepLiteral_ne_done notDone next
  case valueEnd => exact absurd state notEnd
  case done => exact absurd state notDone
  case key =>
    rcases stepKey_cases next with rfl | rfl
    · intro same
      cases same
    · exact notDone
  case valueNumber =>
    rw [(stepValueNumber_next next).2]
    exact notDone
  all_goals
    cases next
    split <;> simp [notDone]

private theorem stepValueEnd_done_iff {rest : CString} (state : parser.state = .valueEnd)
    (next : stepValueEnd parser char = .next after) :
    after.state = .done ↔ Visit.closesRoot { parser, char, rest } = true := by
  rcases stepValueEnd_cases next with
    ⟨rfl, rfl⟩ | ⟨rfl, empty, rfl⟩ | ⟨rfl, nonempty, rfl⟩ | ⟨rfl, rfl⟩ | ⟨noBrace, _, rfl⟩
  · cases parser.inArray <;> simp [Visit.closesRoot, state]
  · simp [Visit.closesRoot, state, empty]
  · simp [Visit.closesRoot, state, nonempty]
  · simp [Visit.closesRoot, state]
  · simp [Visit.closesRoot, state, noBrace]

private theorem step_done_iff {rest : CString}
    (moved : step parser char = .next after ∨ step parser char = .again after) :
    after.state = .done ↔
      parser.state = .done ∨ Visit.closesRoot { parser, char, rest } = true := by
  rcases moved with next | again
  · by_cases isEnd : parser.state = .valueEnd
    · rw [step_of_valueEnd isEnd] at next
      rw [@stepValueEnd_done_iff _ _ _ rest isEnd next, isEnd]
      simp
    · by_cases isDone : parser.state = .done
      · rw [step, isDone] at next
        cases next
        simp [isDone]
      · simp [step_ne_done isEnd isDone next, isDone, Visit.closesRoot, isEnd]
  · have states := step_again again
    simp [Visit.closesRoot, states.1, states.2]

private theorem not_done_of_stops {rest : CString} (stops : (step parser char).Stops) :
    ¬(parser.state = .done ∨ Visit.closesRoot { parser, char, rest } = true) := by
  intro ended
  rcases ended with isDone | closes
  · rw [step, isDone] at stops
    exact stops
  · simp only [Visit.closesRoot, Bool.and_eq_true, beq_iff_eq, List.isEmpty_iff] at closes
    rcases closes with ⟨⟨state, brace⟩, empty⟩
    rw [step_of_valueEnd state, stepValueEnd, brace, if_neg (by decide), if_pos rfl,
      if_pos empty] at stops
    exact stops

end States

/-- A file ends in `STATE_DONE` exactly when the machine meets the brace that closes the root
object. -/
theorem feed_finalState (parser : Parser) (text : CString) :
    (feed parser text).finalState = some .done ↔
      parser.state = .done ∨ ∃ visit ∈ visits parser text, visit.closesRoot = true := by
  apply @feed_iff_visit (fun outcome => outcome.finalState = some .done)
    (fun parser => parser.state = .done)
  · intro parser
    simp [Outcome.finalState]
  · intro parser char rest after moved
    exact step_done_iff moved
  · intro parser char rest stops
    refine iff_of_false ?_ (not_done_of_stops stops)
    rw [feed_stop stops]
    split <;> exact nofun

/-! ## The text of the root object -/

/-- In front of this rest of the text the root object has begun, or the machine still
looks for it. -/
private def Begun (text : CString) (parser : Parser) (left : CString) : Prop :=
  (∃ skipped inside, text = skipped ++ '{' :: (inside ++ left) ∧ '{' ∉ skipped) ∨
    parser.state = .start ∧ ∃ skipped, text = skipped ++ left ∧ '{' ∉ skipped

private theorem begun_next {text rest : CString} {parser after : Parser} {char : Char}
    (begun : Begun text parser (char :: rest)) (next : step parser char = .next after) :
    Begun text after rest := by
  rcases begun with ⟨skipped, inside, split, absent⟩ | ⟨state, skipped, split, absent⟩
  · left
    exact ⟨skipped, inside ++ [char], by rw [split, List.append_assoc]; rfl, absent⟩
  · rw [step, state] at next
    by_cases brace : char = '{'
    · left
      exact ⟨skipped, [], by rw [split, brace]; rfl, absent⟩
    · right
      simp only [brace, if_false, Step.next.injEq] at next
      subst next
      refine ⟨state, skipped ++ [char], by rw [split, List.append_assoc]; rfl, ?_⟩
      simp [absent, Ne.symm brace]

private theorem begun_again {text rest : CString} {parser after : Parser} {char : Char}
    (begun : Begun text parser (char :: rest)) (again : step parser char = .again after) :
    Begun text after (char :: rest) := by
  rcases begun with begun | ⟨state, _⟩
  · exact .inl begun
  · rw [(step_again again).1] at state
    cases state

private theorem visits_begun (text : CString) :
    ∀ visit ∈ visits .initial text, Begun text visit.parser (visit.char :: visit.rest) :=
  @visits_invariant (Begun text) (fun _ => True)
    (fun _ _ _ _ begun _ next => begun_next begun next)
    (fun _ _ _ _ begun _ again => begun_again begun again)
    .initial text (.inr ⟨rfl, [], rfl, List.not_mem_nil⟩) (fun _ _ => trivial)

/-- Behind skipped characters the machine has read a root object up to its closing brace, and
as many objects and arrays have ended in it as have begun. -/
def CompleteRoot (text : CString) : Prop :=
  ∃ before closing after skipped inside,
    visits .initial text = before ++ closing :: after ∧ closing.closesRoot = true ∧
      before.countP Visit.opens = before.countP Visit.closes ∧
      text = skipped ++ '{' :: (inside ++ '}' :: closing.rest) ∧ '{' ∉ skipped

private theorem completeRoot_iff (text : CString) :
    CompleteRoot text ↔ ∃ visit ∈ visits .initial text, visit.closesRoot = true := by
  constructor
  · intro complete
    rcases complete with ⟨before, closing, after, _, _, split, closes, _⟩
    exact ⟨closing, by rw [split]; simp, closes⟩
  · intro found
    rcases found with ⟨closing, member, closesRoot⟩
    have closes := closesRoot
    simp only [Visit.closesRoot, Bool.and_eq_true, beq_iff_eq, List.isEmpty_iff] at closes
    rcases closes with ⟨⟨state, brace⟩, empty⟩
    rcases List.append_of_mem member with ⟨before, after, split⟩
    have balanced := visits_balanced .initial text before closing after split
    have noNames : closing.parser.keyStack.length = Parser.initial.keyStack.length := by
      rw [empty]
      rfl
    rcases visits_begun text closing member with ⟨skipped, inside, whole, absent⟩ | ⟨start, _⟩
    · rw [brace] at whole
      exact ⟨before, closing, after, skipped, inside, split, closesRoot, by omega, whole, absent⟩
    · rw [state] at start
      cases start

/-! ## What the exit status says -/

/-- The machine gets to `STATE_DONE` with a complete root object only; 0 is returned for
whatever is not stopped by a misspelt literal, and for each part that a file begins with. -/
theorem exit_status (contents : List Char) :
    ((parse (some contents)).status = some 1 ↔
        ∃ visit ∈ visits .initial (readText contents), visit.misspells = true) ∧
      ((parse (some contents)).status = some 0 ↔ parse (some contents) ≠ .undefined ∧
        ∀ visit ∈ visits .initial (readText contents), visit.misspells = false) ∧
      ((parse (some contents)).status = some 0 →
        ∀ front, front <+: contents → (parse (some front)).status = some 0) ∧
      ((parse (some contents)).finalState = some .done ↔ CompleteRoot (readText contents)) := by
  have misspelt := feed_status .initial (readText contents)
  rw [parse_eq_feed]
  refine ⟨misspelt, ?_, ?_, ?_⟩
  · have spelt : (∀ visit ∈ visits .initial (readText contents), visit.misspells = false) ↔
        ¬(feed .initial (readText contents)).status = some 1 := by
      rw [misspelt]
      simp
    rw [spelt]
    cases fed : feed .initial (readText contents) with
    | running parser => simp [Outcome.status]
    | invalid parser char literal => simp [Outcome.status]
    | undefined => simp [Outcome.status]
    | unfinished => exact absurd fed (feed_ne_unfinished _ _)
  · intro ended front leads
    rw [parse_eq_feed]
    exact status_of_longer (readText_longer leads) ended
  · rw [completeRoot_iff, feed_finalState]
    exact or_iff_right nofun

/-- A document without its last brace is a success, and one behind other text is complete. -/
theorem incomplete_file_succeeds :
    let truncated := "\x7b\"a\":1".toList
    (parse (some truncated)).status = some 0 ∧
      (parse (some truncated)).finalState = some .valueNumber ∧
      (parse (some [])).status = some 0 ∧ (parse (some [])).finalState = some .start ∧
      (parse (some ('x' :: truncated ++ ['}']))).finalState = some .done := by
  decide +kernel

end SystemsRepository.JsonParser
