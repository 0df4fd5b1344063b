import SystemsRepository.JsonParser.Flattening
import SystemsRepository.JsonParser.Printing

/-! # Documents that are not flattened

An array inside another value, and a container inside an array, are printed
under a key that is too short. What has been printed stays printed, so no later
text makes up for it.
-/

namespace SystemsRepository.JsonParser

/-! ## Output only grows -/

def Step.Keeps (output : List Emission) : Step → Prop
  | .next after => output <+: after.output
  | .again after => output <+: after.output
  | .invalid _ _ => True
  | .undefined => True

private theorem step_keeps (parser : Parser) (char : Char) :
    (step parser char).Keeps parser.output := by
  cases stepped : step parser char with
  | next after => exact ⟨_, (next_output stepped []).symm⟩
  | again after => exact ⟨_, (again_output stepped []).symm⟩
  | invalid _ _ => trivial
  | undefined => trivial

private theorem visit_keeps (visits : Nat) {parser after : Parser} {char : Char}
    (visited : visit visits parser char = .running after) :
    parser.output <+: after.output := by
  induction visits generalizing parser with
  | zero => cases visited
  | succ visits induction =>
      have kept := step_keeps parser char
      rw [visit] at visited
      cases stepped : step parser char with
      | next reached =>
          rw [stepped] at kept visited
          cases visited
          exact kept
      | again reached =>
          rw [stepped] at kept visited
          exact List.IsPrefix.trans kept (induction visited)
      | invalid other literal =>
          rw [stepped] at visited
          cases visited
      | undefined =>
          rw [stepped] at visited
          cases visited

private theorem feed_keeps {parser after : Parser} {text : CString}
    (fed : feed parser text = .running after) : parser.output <+: after.output := by
  induction text generalizing parser with
  | nil =>
      cases fed
      exact List.prefix_rfl
  | cons char text induction =>
      rw [feed] at fed
      cases visited : visit 2 parser char with
      | running reached =>
          rw [visited] at fed
          exact (visit_keeps 2 visited).trans (induction fed)
      | invalid _ _ _ =>
          rw [visited] at fed
          cases fed
      | undefined =>
          rw [visited] at fed
          cases fed
      | unfinished =>
          rw [visited] at fed
          cases fed

/-! ## Wrong output -/

/-- Over this text the machine prints something else than these pairs, whatever
comes after them. -/
def Derails (parser : Parser) (text rest : CString) (leaves : List Emission) : Prop :=
  ∀ after, feed parser (text ++ rest) = .running after →
    ¬(parser.output ++ leaves) <+: after.output

theorem Derails.start {parser middle : Parser} {text left rest : CString}
    {leaves : List Emission} (fed : feed parser (text ++ rest) = feed middle (left ++ rest))
    (same : middle.output = parser.output) (derails : Derails middle left rest leaves) :
    Derails parser text rest leaves := by
  intro after reached
  rw [← same]
  exact derails after (fed.symm.trans reached)

private theorem Derails.of_undefined {parser : Parser} {text rest : CString}
    {leaves : List Emission}
    (undefined : feed parser (text ++ rest) = .undefined) : Derails parser text rest leaves := by
  intro after reached
  rw [undefined] at reached
  cases reached

theorem Derails.append {parser : Parser} {left right rest : CString}
    {leaves others : List Emission} (derails : Derails parser left (right ++ rest) leaves) :
    Derails parser (left ++ right) rest (leaves ++ others) := by
  intro after reached printed
  rw [List.append_assoc] at reached
  rw [← List.append_assoc] at printed
  exact derails after reached ((List.prefix_append _ _).trans printed)

theorem Derails.closed {parser : Parser} {left right rest : CString} {leaves : List Emission}
    (derails : Derails parser left (right ++ rest) leaves) :
    Derails parser (left ++ right) rest leaves := by
  have extended := @Derails.append _ _ _ _ _ [] derails
  rw [List.append_nil] at extended
  exact extended

private theorem Leads.derails {parser : Parser} {left right rest : CString} {fits : Prop}
    {Middle : Parser → Prop} {leaves others : List Emission}
    (leads : Leads parser left (right ++ rest) fits Middle)
    (continued : fits → ∀ middle, Middle middle →
      middle.output = parser.output ++ leaves ∧ Derails middle right rest others) :
    Derails parser (left ++ right) rest (leaves ++ others) := by
  by_cases fitting : fits
  · rcases leads.1 fitting with ⟨middle, fed, here⟩
    rcases continued fitting middle here with ⟨output, derails⟩
    intro after reached
    rw [← List.append_assoc, ← output]
    apply derails
    rw [← fed, ← List.append_assoc]
    exact reached
  · apply Derails.of_undefined
    rw [List.append_assoc]
    exact leads.2 fitting

private theorem scalar_derails {parser : Parser} {fullKey path : CString}
    (state : parser.state = .valueBegin) (key : parser.fullKey = some fullKey)
    (wrong : fullKey ≠ path) {scalar : Scalar} (short : scalar.Short) {rest : CString}
    (ends : EndsValue rest) :
    Derails parser scalar.text rest [{ fullKey := path, value := scalar.value }] := by
  intro after reached
  have leads := scalar_leads state key short ends
  by_cases fits : scalar.Fits ∧ parser.CanCount
  · rcases leads.1 fits with ⟨middle, fed, printed⟩
    have kept := feed_keeps (fed.symm.trans reached)
    rw [printed.output] at kept
    intro expected
    have same := List.prefix_of_prefix_length_le expected kept (by simp)
    have emitted := List.append_cancel_left (same.eq_of_length (by simp))
    exact wrong (congrArg Emission.fullKey (List.head_eq_of_cons_eq emitted)).symm
  · rw [leads.2 fits] at reached
    cases reached

/-! ## Containers in arrays -/

mutual

def Json.Full : Json → Prop
  | .scalar _ => True
  | .object members => members.Nonempty ∧ members.Full
  | .array elements => elements.Nonempty ∧ elements.Full

def Members.Full : Members → Prop
  | .nil _ => True
  | .cons _ _ _ _ value _ rest => value.Full ∧ rest.Full

def Elements.Full : Elements → Prop
  | .nil _ => True
  | .cons _ value _ rest => value.Full ∧ rest.Full

end

def Document.Full (document : Document) : Prop :=
  document.members.Nonempty ∧ document.members.Full

structure Parser.Astray (parser : Parser) (state : ParserState) (name : CString) : Prop where
  state : parser.state = state
  keyStack : parser.keyStack.getLast? = some name
  inArray : parser.inArray = true

/-- The length of the keys printed in the array of this name. -/
def Parser.keyLength (parser : Parser) (name : CString) : Nat :=
  name.length + (indexStep parser.arrayIndex).length

theorem Parser.Astray.fullKey {parser : Parser} {state : ParserState} {name path : CString}
    (astray : parser.Astray state name) (longer : parser.keyLength name < path.length) :
    ∃ fullKey, parser.fullKey = some fullKey ∧ fullKey ≠ path := by
  refine ⟨arrayKey name parser.arrayIndex, ?_, ?_⟩
  · rw [Parser.fullKey, astray.inArray, astray.keyStack]
    rfl
  · intro same
    have bound : (arrayKey name parser.arrayIndex).length ≤ parser.keyLength name := by
      rw [arrayKey, List.length_take]
      apply Nat.le_trans (Nat.min_le_right _ _)
      rw [List.length_append]
      exact Nat.le_refl _
    rw [same] at bound
    omega

private theorem pushKey_cases (parser : Parser) :
    parser.pushKey = none ∨
      parser.pushKey = some { parser with keyStack := parser.keyStack ++ [parser.keyBuffer] } := by
  unfold Parser.pushKey
  split
  · exact .inr rfl
  · exact .inl rfl

theorem Derails.push {parser : Parser} {char : Char} {change : Parser → Parser}
    {text rest : CString} {leaves : List Emission}
    (stepped : step parser char = .ofOption ((parser.pushKey).map change))
    (same : ∀ pushed : Parser, (change pushed).output = pushed.output)
    (derails : Derails
      (change { parser with keyStack := parser.keyStack ++ [parser.keyBuffer] }) text rest leaves) :
    Derails parser (char :: text) rest leaves := by
  rcases pushKey_cases parser with full | pushed
  · apply Derails.of_undefined
    rw [full] at stepped
    exact feed_undefined stepped _
  · rw [pushed] at stepped
    exact Derails.start (feed_next stepped _) (same _) derails

private theorem indexStep_length_pos (index : Nat) : 0 < (indexStep index).length :=
  Nat.succ_pos _

mutual

theorem Json.derails {names : List CString} {key : CString} : ∀ {value : Json}, value.Full →
    value.Within names key → ∀ {parser : Parser} {name path rest : CString},
    parser.Astray .valueBegin name → (value.IsScalar → parser.keyLength name < path.length) →
    parser.keyLength parser.keyBuffer ≤ path.length → EndsValue rest →
    Derails parser value.text rest (value.leaves path)
  | .scalar _, _, within, parser, name, path, rest, astray, longer, _, ends => by
      rcases astray.fullKey (longer trivial) with ⟨fullKey, key, wrong⟩
      exact scalar_derails astray.state key wrong within.1 ends
  | .object members, full, within, parser, name, path, rest, astray, _, bound, ends => by
      apply Derails.push (step_openObject astray.state) fun _ => rfl
      rw [Json.leaves]
      apply Derails.closed
      have longer : parser.keyLength parser.keyBuffer < (path ++ ['.']).length := by
        rw [List.length_append, List.length_singleton]
        omega
      exact Members.derails full.1 full.2 within
        ⟨rfl, List.getLast?_concat, astray.inArray⟩ longer ⟨'}', rest, rfl, rfl⟩
  | .array elements, full, within, parser, name, path, rest, astray, _, bound, ends => by
      apply Derails.push (step_openArray astray.state) fun _ => rfl
      rw [Json.leaves]
      apply Derails.closed
      have longer : parser.keyBuffer.length < path.length := by
        have positive := indexStep_length_pos parser.arrayIndex
        rw [Parser.keyLength] at bound
        omega
      exact Elements.derails full.1 full.2 within
        ⟨rfl, List.getLast?_concat, rfl⟩ rfl longer ⟨']', rest, rfl, rfl⟩

theorem Members.derails {names : List CString} : ∀ {members : Members}, members.Nonempty →
    members.Full → members.Within names → ∀ {parser : Parser} {name parent rest : CString},
    parser.Astray .keyBegin name → parser.keyLength name < parent.length → EndsValue rest →
    Derails parser members.text rest (members.leaves parent)
  | .cons before key beforeColon afterColon value after others, _, full, within, parser, name,
      parent, rest, astray, longer, ends => by
      apply Derails.start (feed_member astray.state within.1 before beforeColon afterColon
        after value others rest) rfl
      apply Derails.append
      have strayed : Parser.Astray { parser with keyBuffer := key.chars, state := .valueBegin }
          .valueBegin name := ⟨rfl, astray.keyStack, astray.inArray⟩
      apply Json.derails full.1 within.2.1 strayed
      · intro _
        rw [List.length_append]
        exact Nat.lt_of_lt_of_le longer (Nat.le_add_right _ _)
      · rw [List.length_append, Nat.add_comm]
        unfold Parser.keyLength at longer ⊢
        simp only
        omega
      · exact ends.member after others

theorem Elements.derails : ∀ {elements : Elements}, elements.Nonempty → elements.Full →
    elements.Within → ∀ {parser : Parser} {path rest : CString},
    parser.Astray .valueBegin parser.keyBuffer → parser.arrayIndex = 0 →
    parser.keyBuffer.length < path.length → EndsValue rest →
    Derails parser elements.text rest (elements.leaves path 0)
  | .cons before value after others, _, full, within, parser, path, rest, astray, index,
      longer, ends => by
      have bound : parser.keyLength parser.keyBuffer < (path ++ indexStep 0).length := by
        rw [Parser.keyLength, index, List.length_append]
        omega
      apply Derails.start (feed_element astray.state before after value others rest) rfl
      apply Derails.append
      exact Json.derails full.1 within.1 astray (fun _ => bound) (Nat.le_of_lt bound)
        (ends.element after others)

end

/-! ## Arrays in objects -/

def Json.Strays (names : List CString) (key : CString) (value : Json) : Prop :=
  ∀ (parser : Parser) (rest : CString), parser.Inside .valueBegin names →
    parser.keyBuffer = key → EndsValue rest →
    Derails parser value.text rest (value.leaves (getKey names key))

def Members.Strays (names : List CString) (members : Members) : Prop :=
  ∀ (parser : Parser) (rest : CString), parser.Inside members.entry names → EndsValue rest →
    Derails parser members.text rest (members.leaves (getKey names []))

private theorem Members.Strays.of_value {names : List CString} {key : Quoted} {value : Json}
    (short : key.chars.length < bufferSize) (strays : value.Strays names key.chars)
    (before beforeColon afterColon after : Space) (others : Members) :
    (Members.cons before key beforeColon afterColon value after others).Strays names := by
  intro parser rest inside ends
  apply Derails.start (feed_member inside.state short before beforeColon afterColon after value
    others rest) rfl
  apply Derails.append
  rw [← getKey_eq]
  exact strays _ _ ⟨rfl, inside.keyStack, inside.inArray⟩ rfl (ends.member after others)

private theorem Members.Strays.of_others {names : List CString} {key : Quoted} {value : Json}
    {others : Members} (short : key.chars.length < bufferSize)
    (valueRuns : value.Runs names key.chars) (strays : others.Strays names)
    (before beforeColon afterColon after : Space) :
    (Members.cons before key beforeColon afterColon value after others).Strays names := by
  intro parser rest inside ends
  apply Derails.start (feed_member inside.state short before beforeColon afterColon after value
    others rest) rfl
  have valueLeads := valueRuns { parser with keyBuffer := key.chars, state := .valueBegin } _
    ⟨rfl, inside.keyStack, inside.inArray⟩ rfl (ends.member after others)
  rw [Members.leaves, ← getKey_eq]
  apply valueLeads.derails
  intro _ middle wrote
  refine ⟨wrote.output, ?_⟩
  rcases feed_nextMember wrote.inside after others (others.text ++ rest) with
    ⟨entered, separated, insideOthers, sameOutput⟩
  apply @Derails.start middle entered _ others.text _ _ _ sameOutput
  · exact strays entered rest insideOthers ends
  · rw [List.append_assoc, List.append_assoc, separated]

private theorem object_strays {names : List CString} {key : CString} {members : Members}
    (nonempty : members.Nonempty) (strays : members.Strays (names ++ [key])) :
    (Json.object members).Strays names key := by
  intro parser rest inside buffer ends
  apply Derails.push (step_openObject inside.state) fun _ => rfl
  rw [Json.leaves]
  apply Derails.closed
  have parent : getKey names key ++ ['.'] = getKey (names ++ [key]) [] := by
    rw [getKey_push]
  rw [parent]
  apply strays
  · exact ⟨(Members.entry_eq nonempty).symm, by rw [← inside.keyStack, ← buffer],
      inside.inArray⟩
  · exact ⟨'}', rest, rfl, rfl⟩

private theorem getKey_longer {names : List CString} (enclosed : names ≠ []) (key : CString) :
    key.length < (getKey names key).length := by
  cases names with
  | nil => exact absurd rfl enclosed
  | cons name names =>
      simp only [getKey, List.flatMap_cons, List.length_append, List.length_cons]
      omega

private theorem array_strays {names : List CString} {key : CString} {elements : Elements}
    (enclosed : names ≠ []) (nonempty : elements.Nonempty) (full : elements.Full)
    (within : elements.Within) : (Json.array elements).Strays names key := by
  intro parser rest inside buffer ends
  apply Derails.push (step_openArray inside.state) fun _ => rfl
  rw [Json.leaves]
  apply Derails.closed
  have longer : parser.keyBuffer.length < (getKey names key).length := by
    rw [buffer]
    exact getKey_longer enclosed key
  exact Elements.derails nonempty full within ⟨rfl, List.getLast?_concat, rfl⟩ rfl longer
    ⟨']', rest, rfl, rfl⟩

mutual

theorem Json.strays {names : List CString} {key : CString} (enclosed : names ≠ []) :
    ∀ {value : Json}, ¬value.Nested → value.Full → value.Within names key →
      value.Strays names key
  | .scalar _, notNested, _, _ => absurd trivial notNested
  | .object members, notNested, full, within =>
      object_strays full.1 (Members.strays (by simp)
        (fun nested => notNested ⟨full.1, nested⟩) full.2 within)
  | .array elements, _, full, within => array_strays enclosed full.1 full.2 within

theorem Members.strays {names : List CString} (enclosed : names ≠ []) :
    ∀ {members : Members}, ¬members.Nested → members.Full → members.Within names →
      members.Strays names
  | .nil _, notNested, _, _ => absurd trivial notNested
  | .cons _ _ _ _ value _ others, notNested, full, within => by
      by_cases nested : value.Nested
      · have othersNot : ¬others.Nested := fun other => notNested ⟨nested, other⟩
        exact Members.Strays.of_others within.1 (nested.runs within.2.1)
          (Members.strays enclosed othersNot full.2 within.2.2) _ _ _ _
      · exact Members.Strays.of_value within.1
          (Json.strays enclosed nested full.1 within.2.1) _ _ _ _ _

end

/-! ## The root -/

private theorem container_derails {parser : Parser} {name : CString} {index : Nat}
    (counting : parser.Counting .valueBegin name index) (value : Json)
    (notScalar : ¬value.IsScalar) (full : value.Full) (within : value.Within [] [])
    (before after : Space) (others : Elements) {rest : CString} (ends : EndsValue rest) :
    Derails parser (Elements.cons before value after others).text rest
      ((Elements.cons before value after others).leaves name index) := by
  have astray : parser.Astray .valueBegin name :=
    ⟨counting.state, by rw [counting.keyStack]; rfl, counting.inArray⟩
  apply Derails.start (feed_element counting.state before after value others rest) rfl
  apply Derails.append
  apply Json.derails full within astray (fun isScalar => absurd isScalar notScalar) _
    (ends.element after others)
  apply Nat.le_of_eq
  rw [Parser.keyLength, counting.keyBuffer, counting.arrayIndex, List.length_append]

private theorem elements_derail {name : CString} (short : name.length < bufferSize) :
    ∀ {elements : Elements} {index : Nat}, ¬elements.Scalars → elements.Full →
      elements.Within → index ≤ intMax → ∀ (parser : Parser) (rest : CString),
      parser.Counting elements.entry name index → EndsValue rest →
      Derails parser elements.text rest (elements.leaves name index)
  | .nil _, _, notScalars, _, _, _, _, _, _, _ => absurd trivial notScalars
  | .cons before (.scalar scalar) after others, index, notScalars, full, within, counted,
      parser, rest, counting, ends => by
      have othersNot : ¬others.Scalars := fun scalars => notScalars ⟨trivial, scalars⟩
      apply Derails.start
        (feed_element counting.state before after (.scalar scalar) others rest) rfl
      have scalarLeads := element_leads counting short counted within.1.1
        (ends.element after others)
      apply scalarLeads.derails
      rintro ⟨_, room⟩ middle ⟨counted, printed⟩
      refine ⟨printed, ?_⟩
      rcases feed_nextElement counted after others (others.text ++ rest) with
        ⟨entered, separated, counting, sameOutput⟩
      apply @Derails.start middle entered _ others.text _ _ _ sameOutput
      · exact elements_derail short othersNot full.2 within.2 room entered rest counting ends
      · rw [List.append_assoc, List.append_assoc, separated]
  | .cons before (.object members) after others, _, _, full, within, _, _, _, counting, ends =>
      container_derails counting (.object members) False.elim full.1 within.1 before after
        others ends
  | .cons before (.array elements) after others, _, _, full, within, _, _, _, counting, ends =>
      container_derails counting (.array elements) False.elim full.1 within.1 before after
        others ends

private theorem rootArray_strays {key : CString} {elements : Elements}
    (short : key.length < bufferSize)
    (notScalars : ¬elements.Scalars) (nonempty : elements.Nonempty) (full : elements.Full)
    (within : elements.Within) : (Json.array elements).Strays [] key := by
  intro parser rest inside buffer ends
  apply Derails.push (step_openArray inside.state) fun _ => rfl
  rw [Json.leaves]
  apply Derails.closed
  apply elements_derail short notScalars full within (Nat.zero_le intMax)
  · exact ⟨(Elements.entry_eq nonempty).symm, buffer, by rw [inside.keyStack, buffer]; rfl,
      rfl, rfl⟩
  · exact ⟨']', rest, rfl, rfl⟩

private theorem Json.rootStrays {key : CString} (short : key.length < bufferSize) :
    ∀ {value : Json}, ¬value.RootMember → value.Full → value.Within [] key →
      value.Strays [] key
  | .scalar _, notMember, _, _ => absurd trivial notMember
  | .object _, notMember, full, within =>
      object_strays full.1 (Members.strays (by simp)
        (fun nested => notMember ⟨full.1, nested⟩) full.2 within)
  | .array _, notMember, full, within =>
      rootArray_strays short (fun scalars => notMember ⟨full.1, scalars⟩) full.1 full.2 within

private theorem Members.rootStrays : ∀ {members : Members}, ¬members.RootMembers → members.Full →
    members.Within [] → members.Strays []
  | .nil _, notMembers, _, _ => absurd trivial notMembers
  | .cons _ _ _ _ value _ others, notMembers, full, within => by
      by_cases member : value.RootMember
      · have othersNot : ¬others.RootMembers := fun others => notMembers ⟨member, others⟩
        exact Members.Strays.of_others within.1 (member.runs within.1 within.2.1)
          (Members.rootStrays othersNot full.2 within.2.2) _ _ _ _
      · exact Members.Strays.of_value within.1
          (Json.rootStrays within.1 member full.1 within.2.1) _ _ _ _ _

private theorem document_derails {document : Document} (notRegular : ¬document.Regular)
    (full : document.Full) (within : document.Within) :
    Derails .initial document.text [] document.leaves := by
  have notMembers : ¬document.members.RootMembers :=
    fun members => notRegular ⟨full.1, members⟩
  apply Derails.start (feed_document document) rfl
  rw [Document.leaves]
  apply Derails.closed
  exact Members.rootStrays notMembers full.2 within _ _
    ⟨(Members.entry_eq full.1).symm, rfl, rfl⟩ ⟨'}', _, rfl, rfl⟩

def Document.Printed (document : Document) : Prop :=
  ∃ parser, parse (some document.text) = .running parser ∧ parser.output = document.leaves

private theorem printed_of_regular {document : Document} (within : document.Within)
    (fits : document.Fits) (regular : document.Regular) : document.Printed := by
  rcases (document_leads regular within).1 fits with ⟨after, fed, _, output⟩
  exact ⟨after, by rw [parse_document, fed, feed], output⟩

private theorem not_printed_of_full {document : Document} (within : document.Within)
    (full : document.Full) (notRegular : ¬document.Regular) : ¬document.Printed := by
  rintro ⟨parser, parsed, output⟩
  rw [parse_document] at parsed
  apply document_derails notRegular full within parser parsed
  exact ⟨[], by rw [List.append_nil, output]; rfl⟩

/-- The parser prints the leaves of the documents it is made for. Of the others
without an empty container it prints none right. -/
theorem regular_printed {document : Document} (within : document.Within)
    (fits : document.Fits) :
    (document.Regular → document.Printed) ∧
      (document.Full → ¬document.Regular → ¬document.Printed) :=
  ⟨printed_of_regular within fits, not_printed_of_full within⟩

def nestedArray : Document where
  before := .empty
  members :=
    .cons .empty quotedUser .empty .single
      (.object (.cons .empty quotedTags .empty .single
        (.array (.cons .empty (.scalar .true) .empty (.nil .empty))) .empty (.nil .empty)))
      .empty (.nil .empty)
  after := .empty

private theorem nestedArray_within : nestedArray.Within := by
  simp [nestedArray, Document.Within, Members.Within, Json.Within, Elements.Within, Scalar.Short,
    getKey, quotedUser, quotedTags, bufferSize, keyStackSize, lineSize]

private theorem nestedArray_fits : nestedArray.Fits := by
  simp [nestedArray, Document.Fits, Members.Fits, Json.Fits, Elements.NumbersFit,
    Elements.length, Scalar.Fits, intMax]

theorem regular_printed_of_samples : sample.Printed ∧ ¬nestedArray.Printed := by
  have full : nestedArray.Full := by
    simp [nestedArray, Document.Full, Members.Nonempty, Members.Full, Json.Full,
      Elements.Nonempty, Elements.Full]
  have notRegular : ¬nestedArray.Regular := by
    simp [nestedArray, Document.Regular, Members.RootMembers, Json.RootMember, Members.Nested,
      Json.Nested]
  exact ⟨(regular_printed sample_within sample_fits).1 sample_regular,
    (regular_printed nestedArray_within nestedArray_fits).2 full notRegular⟩

/-- The enclosing name is missing. -/
theorem nestedArray_misprinted :
    nestedArray.Within ∧ nestedArray.Fits ∧
      nestedArray.leaves = [{ fullKey := "user.tags[0]".toList, value := .literal literalTrue }] ∧
      ∃ parser, parse (some nestedArray.text) = .running parser ∧
        parser.output = [{ fullKey := "tags[0]".toList, value := .literal literalTrue }] := by
  refine ⟨nestedArray_within, nestedArray_fits, rfl, ?_⟩
  rw [parse_document]
  exact ⟨_, rfl, rfl⟩

end SystemsRepository.JsonParser
