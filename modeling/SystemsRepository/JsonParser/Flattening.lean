import SystemsRepository.JsonParser.Feeding

/-! # Flattening

On the documents the parser is made for, what it prints is the leaves of the
document, unless a number or an array is too long.
-/

namespace SystemsRepository.JsonParser

open SystemsRepository.Foundation

/-! ## Keys -/

theorem getKey_eq (names : List CString) (key : CString) :
    getKey names key = getKey names [] ++ key := by
  simp [getKey]

theorem getKey_push (names : List CString) (name key : CString) :
    getKey (names ++ [name]) key = getKey names name ++ '.' :: key := by
  simp [getKey]

private theorem arrayKey_eq {name : CString} {index : Nat} (short : name.length < bufferSize)
    (counted : index ≤ intMax) : arrayKey name index = name ++ indexStep index := by
  have digits : (Nat.toDigits 10 index).length ≤ 10 :=
    (Nat.length_toDigits_le_iff (by decide) (by decide)).mpr
      (Nat.lt_of_le_of_lt counted (by decide))
  unfold arrayKey indexStep
  apply List.take_of_length_le
  simp only [List.length_append, List.length_cons, List.length_nil]
  have sizes : bufferSize + 12 ≤ lineSize - 1 := by decide
  omega

/-! ## Objects -/

structure Parser.Inside (parser : Parser) (state : ParserState) (names : List CString) :
    Prop where
  state : parser.state = state
  keyStack : parser.keyStack = names
  inArray : parser.inArray = false

structure Wrote (parser : Parser) (names : List CString) (leaves : List Emission)
    (after : Parser) : Prop where
  inside : after.Inside .valueEnd names
  output : after.output = parser.output ++ leaves

def Json.Runs (names : List CString) (key : CString) (value : Json) : Prop :=
  ∀ (parser : Parser) (rest : CString), parser.Inside .valueBegin names →
    parser.keyBuffer = key → EndsValue rest →
    Leads parser value.text rest value.Fits
      (Wrote parser names (value.leaves (getKey names key)))

def Members.entry : Members → ParserState
  | .nil _ => .valueEnd
  | .cons _ _ _ _ _ _ _ => .keyBegin

def Members.Runs (names : List CString) (members : Members) : Prop :=
  ∀ (parser : Parser) (rest : CString), parser.Inside members.entry names → EndsValue rest →
    Leads parser members.text rest members.Fits
      (Wrote parser names (members.leaves (getKey names [])))

theorem Parser.Inside.fullKey {parser : Parser} {state : ParserState} {names : List CString}
    {key : CString} (inside : parser.Inside state names) (buffer : parser.keyBuffer = key)
    (within : (getKey names key).length < lineSize) :
    parser.fullKey = some (getKey names key) := by
  rw [Parser.fullKey, inside.inArray, inside.keyStack, buffer]
  exact if_pos within

theorem Parser.Inside.canCount {parser : Parser} {state : ParserState} {names : List CString}
    (inside : parser.Inside state names) : parser.CanCount := by
  intro array
  rw [inside.inArray] at array
  cases array

private theorem scalar_runs {names : List CString} {key : CString} {scalar : Scalar}
    (short : scalar.Short) (within : (getKey names key).length < lineSize) :
    (Json.scalar scalar).Runs names key := by
  intro parser rest inside buffer ends
  have printed := scalar_leads inside.state (inside.fullKey buffer within) short ends
  apply printed.imp (and_iff_left inside.canCount)
  intro after printed
  exact ⟨⟨printed.state, printed.keyStack.trans inside.keyStack,
    printed.inArray.trans inside.inArray⟩, printed.output⟩

private theorem feed_memberKey {parser : Parser} (state : parser.state = .keyBegin)
    (before : Space) {key : Quoted} (short : key.chars.length < bufferSize)
    (beforeColon afterColon : Space) (rest : CString) :
    feed parser (before.chars ++ ('"' :: (key.chars ++ ('"' :: (beforeColon.chars ++
      (':' :: (afterColon.chars ++ rest))))))) =
      feed { parser with keyBuffer := key.chars, state := .valueBegin } rest := by
  have waits : parser.state.Waits := by
    rw [state]
    trivial
  rw [feed_space waits, feed_key state short, feed_space (by trivial)]
  have colon : ∀ reading : Parser, reading.state = .keyEnd →
      step reading ':' = .next { reading with state := .valueBegin } := by
    intro reading state
    rw [step, state]
    rfl
  rw [feed_next (colon _ rfl), feed_space (by trivial)]

theorem feed_nextMember {parser : Parser} {names : List CString}
    (inside : parser.Inside .valueEnd names) (after : Space) (others : Members)
    (rest : CString) :
    ∃ entered, feed parser (after.chars ++ (others.separator ++ rest)) = feed entered rest ∧
      entered.Inside others.entry names ∧ entered.output = parser.output := by
  have waits : parser.state.Waits := by
    rw [inside.state]
    trivial
  rw [feed_space waits]
  cases others with
  | nil space => exact ⟨parser, rfl, inside, rfl⟩
  | cons before key beforeColon afterColon value after others =>
      refine ⟨{ parser with state := .keyBegin }, feed_next ?_ _,
        ⟨rfl, inside.keyStack, inside.inArray⟩, rfl⟩
      rw [step_of_valueEnd inside.state, stepValueEnd, if_pos rfl, inside.inArray]
      rfl

theorem Members.Runs.nil (names : List CString) (space : Space) :
    (Members.nil space).Runs names := by
  intro parser rest inside ends
  have waits : parser.state.Waits := by
    rw [inside.state]
    trivial
  exact Leads.of_eq (feed_space waits space rest) ⟨inside, (List.append_nil _).symm⟩

theorem EndsValue.separator {rest : CString} (ends : EndsValue rest) (members : Members) :
    EndsValue (members.separator ++ (members.text ++ rest)) := by
  cases members with
  | nil space => exact ends.space space
  | cons before key beforeColon afterColon value after others => exact ⟨',', _, rfl, rfl⟩

theorem feed_member {parser : Parser} (state : parser.state = .keyBegin) {key : Quoted}
    (short : key.chars.length < bufferSize) (before beforeColon afterColon after : Space)
    (value : Json) (others : Members) (rest : CString) :
    feed parser
        ((Members.cons before key beforeColon afterColon value after others).text ++ rest) =
      feed { parser with keyBuffer := key.chars, state := .valueBegin }
        (value.text ++ (after.chars ++ (others.separator ++ others.text)) ++ rest) := by
  rw [← feed_memberKey state before short beforeColon afterColon]
  simp only [Members.text, List.append_assoc, List.cons_append]

theorem EndsValue.member {rest : CString} (ends : EndsValue rest) (after : Space)
    (others : Members) : EndsValue (after.chars ++ (others.separator ++ others.text) ++ rest) := by
  rw [List.append_assoc, List.append_assoc]
  exact (ends.separator others).space after

theorem Members.Runs.cons {names : List CString} {key : Quoted} {value : Json}
    {others : Members} (short : key.chars.length < bufferSize)
    (valueRuns : value.Runs names key.chars) (othersRun : others.Runs names)
    (before beforeColon afterColon after : Space) :
    (Members.cons before key beforeColon afterColon value after others).Runs names := by
  intro parser rest inside ends
  apply Leads.start (feed_member inside.state short before beforeColon afterColon after value
    others rest)
  have valueLeads := valueRuns { parser with keyBuffer := key.chars, state := .valueBegin } _
    ⟨rfl, inside.keyStack, inside.inArray⟩ rfl (ends.member after others)
  apply valueLeads.append
  intro _ middle wrote
  rcases feed_nextMember wrote.inside after others (others.text ++ rest) with
    ⟨entered, separated, insideOthers, sameOutput⟩
  apply @Leads.start middle entered _ others.text
  · rw [List.append_assoc, List.append_assoc, separated]
  · apply (othersRun entered rest insideOthers ends).imp Iff.rfl
    intro final wroteOthers
    refine ⟨wroteOthers.inside, ?_⟩
    rw [wroteOthers.output, sameOutput, wrote.output, Members.leaves, ← getKey_eq,
      List.append_assoc]

theorem step_openObject {parser : Parser} (state : parser.state = .valueBegin) :
    step parser '{' =
      .ofOption ((parser.pushKey).map fun pushed => { pushed with state := .keyBegin }) := by
  rw [step_of_valueBegin state, stepValueBegin, if_pos rfl]

theorem step_openArray {parser : Parser} (state : parser.state = .valueBegin) :
    step parser '[' =
      .ofOption ((parser.pushKey).map fun pushed =>
        { pushed with inArray := true, arrayIndex := 0, state := .valueBegin }) := by
  rw [step_of_valueBegin state, stepValueBegin, if_neg (by decide), if_pos rfl]

theorem Parser.Inside.pushKey {parser : Parser} {state : ParserState} {names : List CString}
    (inside : parser.Inside state names) (room : names.length < keyStackSize) :
    parser.pushKey = some { parser with keyStack := names ++ [parser.keyBuffer] } := by
  rw [← inside.keyStack] at room ⊢
  exact if_pos room

private theorem step_pushObject {parser : Parser} {names : List CString}
    (inside : parser.Inside .valueBegin names) (room : names.length < keyStackSize) :
    step parser '{' = .next { parser with
      keyStack := names ++ [parser.keyBuffer], state := .keyBegin } := by
  rw [step_openObject inside.state, inside.pushKey room]
  rfl

private theorem step_popObject {parser : Parser} {names : List CString} {name : CString}
    (inside : parser.Inside .valueEnd (names ++ [name])) :
    step parser '}' = .next { parser with keyStack := names, state := .valueEnd } := by
  rw [step_of_valueEnd inside.state, stepValueEnd, if_neg (by decide), if_pos rfl,
    inside.keyStack, if_neg (by simp), List.dropLast_concat]

theorem Members.entry_eq {members : Members} (nonempty : members.Nonempty) :
    members.entry = .keyBegin := by
  cases members with
  | nil space => exact nonempty.elim
  | cons before key beforeColon afterColon value after others => rfl

private theorem object_runs {names : List CString} {key : CString} {members : Members}
    (room : names.length < keyStackSize) (nonempty : members.Nonempty)
    (membersRun : members.Runs (names ++ [key])) : (Json.object members).Runs names key := by
  intro parser rest inside buffer ends
  have fed : feed parser ((Json.object members).text ++ rest) =
      feed { parser with keyStack := names ++ [key], state := .keyBegin }
        (members.text ++ ['}'] ++ rest) := by
    rw [← buffer]
    exact feed_next (step_pushObject inside room) _
  apply Leads.start fed
  apply Leads.imp _ (and_iff_left trivial) fun after wrote => wrote
  have membersLead := membersRun
    { parser with keyStack := names ++ [key], state := .keyBegin } (['}'] ++ rest)
    ⟨(Members.entry_eq nonempty).symm, rfl, inside.inArray⟩ ⟨'}', rest, rfl, rfl⟩
  apply membersLead.append
  intro _ middle wrote
  apply Leads.of_eq (feed_next (step_popObject wrote.inside) rest)
  refine ⟨⟨rfl, rfl, wrote.inside.inArray⟩, ?_⟩
  rw [wrote.output, getKey_push]
  rfl

/-! ## Nesting -/

mutual

theorem Json.Nested.room {names : List CString} {key : CString} :
    ∀ {value : Json}, value.Nested → value.Within names key → names.length ≤ keyStackSize
  | .scalar _, _, within => within.2.1
  | .object _, nested, within => by
      have deeper := nested.2.room nested.1 within
      rw [List.length_append] at deeper
      omega

theorem Members.Nested.room {names : List CString} :
    ∀ {members : Members}, members.Nested → members.Nonempty → members.Within names →
      names.length ≤ keyStackSize
  | .cons _ _ _ _ _ _ _, nested, _, within => nested.1.room within.2.1

end

mutual

theorem Json.Nested.runs {names : List CString} {key : CString} :
    ∀ {value : Json}, value.Nested → value.Within names key → value.Runs names key
  | .scalar _, _, within => scalar_runs within.1 within.2.2
  | .object _, nested, within => by
      have deeper := nested.2.room nested.1 within
      rw [List.length_append, List.length_singleton] at deeper
      exact object_runs deeper nested.1 (nested.2.runs within)

theorem Members.Nested.runs {names : List CString} :
    ∀ {members : Members}, members.Nested → members.Within names → members.Runs names
  | .nil space, _, _ => Members.Runs.nil names space
  | .cons _ _ _ _ _ _ _, nested, within =>
      Members.Runs.cons within.1 (nested.1.runs within.2.1) (nested.2.runs within.2.2) _ _ _ _

end

/-! ## Arrays in the root -/

structure Parser.Counting (parser : Parser) (state : ParserState) (name : CString)
    (index : Nat) : Prop where
  state : parser.state = state
  keyBuffer : parser.keyBuffer = name
  keyStack : parser.keyStack = [name]
  inArray : parser.inArray = true
  arrayIndex : parser.arrayIndex = index

def Elements.entry : Elements → ParserState
  | .nil _ => .valueEnd
  | .cons _ _ _ _ => .valueBegin

theorem Parser.Counting.fullKey {parser : Parser} {state : ParserState} {name : CString}
    {index : Nat} (counting : parser.Counting state name index)
    (short : name.length < bufferSize) (counted : index ≤ intMax) :
    parser.fullKey = some (name ++ indexStep index) := by
  rw [Parser.fullKey, counting.inArray, counting.keyStack, counting.arrayIndex,
    ← arrayKey_eq short counted]
  rfl

theorem element_leads {parser : Parser} {name : CString} {index : Nat}
    (counting : parser.Counting .valueBegin name index) (short : name.length < bufferSize)
    (counted : index ≤ intMax) {scalar : Scalar} (scalarShort : scalar.Short) {rest : CString}
    (ends : EndsValue rest) :
    Leads parser scalar.text rest (scalar.Fits ∧ index + 1 ≤ intMax) fun after =>
      after.Counting .valueEnd name (index + 1) ∧
        after.output = parser.output ++
          [{ fullKey := name ++ indexStep index, value := scalar.value }] := by
  have printed := scalar_leads counting.state (counting.fullKey short counted) scalarShort ends
  have canCount : parser.CanCount ↔ index + 1 ≤ intMax := by
    rw [← counting.arrayIndex]
    exact ⟨fun can => can counting.inArray, fun room _ => room⟩
  apply printed.imp (and_congr_right fun _ => canCount)
  · intro after printed
    refine ⟨⟨printed.state, printed.keyBuffer.trans counting.keyBuffer,
      printed.keyStack.trans counting.keyStack,
      printed.inArray.trans counting.inArray, ?_⟩, printed.output⟩
    rw [printed.arrayIndex, counting.arrayIndex, counting.inArray]
    rfl

theorem feed_nextElement {parser : Parser} {name : CString} {index : Nat}
    (counting : parser.Counting .valueEnd name index) (after : Space) (others : Elements)
    (rest : CString) :
    ∃ entered, feed parser (after.chars ++ (others.separator ++ rest)) = feed entered rest ∧
      entered.Counting others.entry name index ∧ entered.output = parser.output := by
  have waits : parser.state.Waits := by
    rw [counting.state]
    trivial
  rw [feed_space waits]
  cases others with
  | nil space => exact ⟨parser, rfl, counting, rfl⟩
  | cons before value after others =>
      refine ⟨{ parser with state := .valueBegin }, feed_next ?_ _,
        ⟨rfl, counting.keyBuffer, counting.keyStack, counting.inArray, counting.arrayIndex⟩, rfl⟩
      rw [step_of_valueEnd counting.state, stepValueEnd, if_pos rfl, counting.inArray]
      rfl

private theorem EndsValue.elementsSeparator {rest : CString} (ends : EndsValue rest)
    (elements : Elements) : EndsValue (elements.separator ++ (elements.text ++ rest)) := by
  cases elements with
  | nil space => exact ends.space space
  | cons before value after others => exact ⟨',', _, rfl, rfl⟩

theorem EndsValue.element {rest : CString} (ends : EndsValue rest) (after : Space)
    (others : Elements) : EndsValue (after.chars ++ (others.separator ++ others.text) ++ rest) := by
  rw [List.append_assoc, List.append_assoc]
  exact (ends.elementsSeparator others).space after

theorem feed_element {parser : Parser} (state : parser.state = .valueBegin)
    (before after : Space) (value : Json) (others : Elements) (rest : CString) :
    feed parser ((Elements.cons before value after others).text ++ rest) =
      feed parser (value.text ++ (after.chars ++ (others.separator ++ others.text)) ++ rest) := by
  have waits : parser.state.Waits := by
    rw [state]
    trivial
  simp only [Elements.text, List.append_assoc]
  exact feed_space waits before _

private theorem elements_lead {name : CString} (short : name.length < bufferSize) :
    ∀ {elements : Elements} {index : Nat}, elements.Scalars → elements.Within →
      index ≤ intMax → ∀ (parser : Parser) (rest : CString),
      parser.Counting elements.entry name index → EndsValue rest →
      Leads parser elements.text rest
        (elements.NumbersFit ∧ index + elements.length ≤ intMax) fun after =>
          (∃ final, after.Counting .valueEnd name final) ∧
            after.output = parser.output ++ elements.leaves name index
  | .nil space, index, _, _, counted, parser, rest, counting, ends => by
      have waits : parser.state.Waits := by
        rw [counting.state]
        trivial
      apply (Leads.of_eq (feed_space waits space rest)
        ⟨⟨index, counting⟩, (List.append_nil _).symm⟩).imp _ fun _ post => post
      exact (iff_true_intro ⟨trivial, counted⟩).symm
  | .cons before (.scalar scalar) after others, index, scalars, within, counted, parser, rest,
      counting, ends => by
      apply Leads.start (feed_element counting.state before after (.scalar scalar) others rest)
      have scalarLeads := element_leads counting short counted within.1.1
        (ends.element after others)
      apply (scalarLeads.append _).imp _ fun _ post => post
      · exact others.NumbersFit ∧ index + 1 + others.length ≤ intMax
      · rintro ⟨_, room⟩ middle ⟨counted, printed⟩
        rcases feed_nextElement counted after others (others.text ++ rest) with
          ⟨entered, separated, counting, sameOutput⟩
        apply @Leads.start middle entered _ others.text
        · rw [List.append_assoc, List.append_assoc, separated]
        · apply (elements_lead short scalars.2 within.2 room entered rest counting ends).imp Iff.rfl
          rintro final ⟨counting, output⟩
          refine ⟨counting, ?_⟩
          rw [output, sameOutput, printed, List.append_assoc]
          rfl
      · rw [Elements.length, Elements.NumbersFit, Json.Fits]
        constructor
        · rintro ⟨⟨fits, _⟩, othersFit, room⟩
          exact ⟨⟨fits, othersFit⟩, by omega⟩
        · rintro ⟨⟨fits, othersFit⟩, room⟩
          exact ⟨⟨fits, by omega⟩, othersFit, by omega⟩
  | .cons _ (.object _) _ _, _, scalars, _, _, _, _, _, _ => scalars.1.elim
  | .cons _ (.array _) _ _, _, scalars, _, _, _, _, _, _ => scalars.1.elim

private theorem step_pushArray {parser : Parser} (inside : parser.Inside .valueBegin []) :
    step parser '[' = .next { parser with
      keyStack := [parser.keyBuffer], inArray := true, arrayIndex := 0 } := by
  rw [step_openArray inside.state, inside.pushKey (by decide), ← inside.state]
  rfl

private theorem step_popArray {parser : Parser} {name : CString} {index : Nat}
    (counting : parser.Counting .valueEnd name index) :
    step parser ']' =
      .next { parser with keyStack := [], inArray := false, state := .valueEnd } := by
  rw [step_of_valueEnd counting.state, stepValueEnd, if_neg (by decide), if_neg (by decide),
    if_pos rfl, counting.keyStack]
  rfl

theorem Elements.entry_eq {elements : Elements} (nonempty : elements.Nonempty) :
    elements.entry = .valueBegin := by
  cases elements with
  | nil space => exact nonempty.elim
  | cons before value after others => rfl

private theorem array_runs {key : CString} {elements : Elements} (short : key.length < bufferSize)
    (nonempty : elements.Nonempty) (scalars : elements.Scalars) (within : elements.Within) :
    (Json.array elements).Runs [] key := by
  intro parser rest inside buffer ends
  have fed : feed parser ((Json.array elements).text ++ rest) =
      feed { parser with keyStack := [key], inArray := true, arrayIndex := 0 }
        (elements.text ++ [']'] ++ rest) := by
    rw [← buffer]
    exact feed_next (step_pushArray inside) _
  apply Leads.start fed
  have elementsLead := elements_lead short scalars within (Nat.zero_le intMax)
    { parser with keyStack := [key], inArray := true, arrayIndex := 0 } ([']'] ++ rest)
    ⟨inside.state.trans (Elements.entry_eq nonempty).symm, buffer, rfl, rfl, rfl⟩
    ⟨']', rest, rfl, rfl⟩
  apply (elementsLead.append _).imp _ fun _ post => post
  · exact True
  · rintro _ middle ⟨⟨final, counting⟩, output⟩
    exact Leads.of_eq (feed_next (step_popArray counting) rest) ⟨⟨rfl, rfl, rfl⟩, output⟩
  · rw [Nat.zero_add, and_true]
    rfl

/-! ## Documents -/

theorem Json.RootMember.runs {key : CString} (short : key.length < bufferSize) :
    ∀ {value : Json}, value.RootMember → value.Within [] key → value.Runs [] key
  | .scalar leaf, root, within => @Json.Nested.runs [] key (.scalar leaf) root within
  | .object members, root, within => @Json.Nested.runs [] key (.object members) root within
  | .array _, root, within => array_runs short root.1 root.2 within

theorem Members.RootMembers.runs :
    ∀ {members : Members}, members.RootMembers → members.Within [] → members.Runs []
  | .nil space, _, _ => Members.Runs.nil [] space
  | .cons _ _ _ _ _ _ _, root, within =>
      Members.Runs.cons within.1 (root.1.runs within.1 within.2.1) (root.2.runs within.2.2) _ _ _ _

theorem feed_document (document : Document) :
    feed .initial (document.text ++ []) =
      feed { Parser.initial with state := .keyBegin }
        (document.members.text ++ ('}' :: document.after.chars) ++ []) := by
  have opened : ∀ parser : Parser, parser.state = .start →
      step parser '{' = .next { parser with state := .keyBegin } := by
    intro parser state
    rw [step, state]
    rfl
  rw [Document.text, List.append_assoc, feed_space (by trivial), List.cons_append,
    feed_next (opened .initial rfl)]

theorem document_leads {document : Document} (regular : document.Regular)
    (within : document.Within) :
    Leads .initial document.text [] document.Fits fun after =>
      after.state = .done ∧ after.output = document.leaves := by
  apply Leads.start (feed_document document)
  have membersLead := regular.2.runs within { Parser.initial with state := .keyBegin }
    ('}' :: document.after.chars ++ []) ⟨(Members.entry_eq regular.1).symm, rfl, rfl⟩
    ⟨'}', _, rfl, rfl⟩
  apply (membersLead.append _).imp (and_iff_left trivial) fun _ post => post
  intro _ middle wrote
  have closed : step middle '}' = .next { middle with state := .done } := by
    rw [step_of_valueEnd wrote.inside.state, stepValueEnd, if_neg (by decide), if_pos rfl,
      if_pos wrote.inside.keyStack]
  apply Leads.of_eq
  · rw [List.cons_append, feed_next closed, feed_space (by trivial)]
  · exact ⟨rfl, wrote.output⟩

/-! ## Reading the file -/

def NoNul (text : CString) : Prop := ∀ char ∈ text, char ≠ nul

@[simp] theorem noNul_nil : NoNul [] := nofun

@[simp] theorem noNul_cons {char : Char} {text : CString} :
    NoNul (char :: text) ↔ char ≠ nul ∧ NoNul text := List.forall_mem_cons

@[simp] theorem noNul_append {left right : CString} :
    NoNul (left ++ right) ↔ NoNul left ∧ NoNul right := List.forall_mem_append

theorem Quoted.noNul (content : Quoted) : NoNul content.chars :=
  fun char member => (content.plain char member).2.2

theorem Space.noNul (space : Space) : NoNul space.chars := by
  intro char member
  rcases space.blank char member with rfl | rfl | rfl | rfl <;> decide

theorem Number.noNul (number : Number) : NoNul number.token := by
  have body : NoNul number.body := by
    rintro char member rfl
    exact absurd (number.plain nul member) (by decide)
  unfold Number.token
  split
  · exact noNul_cons.mpr ⟨by decide, body⟩
  · exact body

theorem Scalar.noNul : ∀ scalar : Scalar, NoNul scalar.text
  | .string content => by
      simp only [Scalar.text, noNul_cons, noNul_append, noNul_nil]
      exact ⟨by decide, content.noNul, by decide, trivial⟩
  | .number digits => digits.noNul
  | .true => by simp [Scalar.text, literalTrue, nul]
  | .false => by simp [Scalar.text, literalFalse, nul]
  | .null => by simp [Scalar.text, literalNull, nul]

private theorem Members.separator_noNul (members : Members) : NoNul members.separator := by
  cases members <;> simp [Members.separator, nul]

private theorem Elements.separator_noNul (elements : Elements) : NoNul elements.separator := by
  cases elements <;> simp [Elements.separator, nul]

mutual

theorem Json.noNul : ∀ value : Json, NoNul value.text
  | .scalar leaf => leaf.noNul
  | .object members => by
      simp only [Json.text, noNul_cons, noNul_append, noNul_nil]
      exact ⟨by decide, members.noNul, by decide, trivial⟩
  | .array elements => by
      simp only [Json.text, noNul_cons, noNul_append, noNul_nil]
      exact ⟨by decide, elements.noNul, by decide, trivial⟩

theorem Members.noNul : ∀ members : Members, NoNul members.text
  | .nil space => space.noNul
  | .cons before key beforeColon afterColon value after others => by
      simp only [Members.text, noNul_cons, noNul_append]
      exact ⟨before.noNul, by decide, key.noNul, by decide, beforeColon.noNul, by decide,
        afterColon.noNul, value.noNul, after.noNul, others.separator_noNul, others.noNul⟩

theorem Elements.noNul : ∀ elements : Elements, NoNul elements.text
  | .nil space => space.noNul
  | .cons before value after others => by
      simp only [Elements.text, noNul_append]
      exact ⟨before.noNul, value.noNul, after.noNul, others.separator_noNul, others.noNul⟩

end

theorem Document.noNul (document : Document) : NoNul document.text := by
  simp only [Document.text, noNul_cons, noNul_append]
  exact ⟨document.before.noNul, by decide, document.members.noNul, by decide,
    document.after.noNul⟩

theorem parse_document (document : Document) :
    parse (some document.text) = feed .initial (document.text ++ []) := by
  rw [parse_eq document.noNul, List.append_nil]

/-! ## The object fragment -/

def Document.Flattens (document : Document) : Prop :=
  ∃ parser, parse (some document.text) = .running parser ∧
    (parse (some document.text)).status = some 0 ∧ parser.state = .done ∧
    parser.output = document.leaves

private theorem undefined_of_not_fits {document : Document} (regular : document.Regular)
    (within : document.Within) (notFits : ¬document.Fits) :
    parse (some document.text) = .undefined := by
  rw [parse_document]
  exact (document_leads regular within).2 notFits

theorem flattens_iff_fits {document : Document} (regular : document.Regular)
    (within : document.Within) : document.Flattens ↔ document.Fits := by
  constructor
  · rintro ⟨parser, parsed, _⟩
    apply Classical.byContradiction
    intro notFits
    rw [undefined_of_not_fits regular within notFits] at parsed
    cases parsed
  · intro fits
    rcases (document_leads regular within).1 fits with ⟨after, fed, done, output⟩
    have parsed : parse (some document.text) = .running after := by rw [parse_document, fed, feed]
    exact ⟨after, parsed, by rw [parsed]; rfl, done, output⟩

def Space.empty : Space := ⟨[], by simp⟩

def Space.single : Space := ⟨[' '], by simp⟩

def quotedUser : Quoted := ⟨['u', 's', 'e', 'r'], by simp [nul]⟩

def quotedAge : Quoted := ⟨['a', 'g', 'e'], by simp [nul]⟩

def quotedTags : Quoted := ⟨['t', 'a', 'g', 's'], by simp [nul]⟩

/-- `{"user": {"age": 30}, "tags": ["user", true]}` -/
def sample : Document where
  before := .empty
  members :=
    .cons .empty quotedUser .empty .single
      (.object (.cons .empty quotedAge .empty .single
        (.scalar (.number ⟨false, ['3', '0'], by simp, by simp [continuesNumber, isDigit]⟩))
          .empty (.nil .empty)))
      .empty
      (.cons .single quotedTags .empty .single
        (.array (.cons .empty (.scalar (.string quotedUser)) .empty
          (.cons .single (.scalar .true) .empty (.nil .empty))))
        .empty (.nil .empty))
  after := .empty

theorem sample_regular : sample.Regular := by
  simp [sample, Document.Regular, Members.Nonempty, Members.RootMembers, Json.RootMember,
    Json.Nested, Members.Nested, Elements.Nonempty, Elements.Scalars, Json.IsScalar]

theorem sample_within : sample.Within := by
  simp [sample, Document.Within, Members.Within, Json.Within, Elements.Within, Scalar.Short,
    getKey, quotedUser, quotedAge, quotedTags, bufferSize, keyStackSize, lineSize]

theorem sample_fits : sample.Fits := by
  simp [sample, Document.Fits, Members.Fits, Json.Fits, Elements.NumbersFit, Elements.length,
    Scalar.Fits, Number.token, bufferSize, intMax]

theorem flattens_iff_fits_of_sample :
    sample.Regular ∧ sample.Within ∧ sample.Fits ∧ sample.Flattens :=
  ⟨sample_regular, sample_within, sample_fits,
    (flattens_iff_fits sample_regular sample_within).mpr sample_fits⟩

def longDigits : Number where
  negative := false
  body := List.replicate bufferSize '1'
  nonempty := by simp
  plain := fun _ member => List.eq_of_mem_replicate member ▸ rfl

def longNumber : Document where
  before := .empty
  members :=
    .cons .empty quotedAge .empty .single
      (.scalar (.number longDigits)) .empty (.nil .empty)
  after := .empty

theorem longNumber_overflows :
    longNumber.Regular ∧ longNumber.Within ∧
      parse (some longNumber.text) = .undefined ∧ ¬longNumber.Flattens := by
  have regular : longNumber.Regular := by
    simp [longNumber, Document.Regular, Members.Nonempty, Members.RootMembers, Json.RootMember,
      Json.Nested]
  have within : longNumber.Within := by
    simp [longNumber, Document.Within, Members.Within, Json.Within, Scalar.Short, getKey,
      quotedAge, bufferSize, lineSize]
  have notFits : ¬longNumber.Fits := by
    simp [longNumber, longDigits, Document.Fits, Members.Fits, Json.Fits, Scalar.Fits,
      Number.token]
  have overflow := undefined_of_not_fits regular within notFits
  refine ⟨regular, within, overflow, ?_⟩
  rintro ⟨parser, parsed, _⟩
  rw [overflow] at parsed
  cases parsed

end SystemsRepository.JsonParser
