import SystemsRepository.JsonParser.Visits

/-! # The line buffer

The loop over `line_buffer` as it is written, with an index that `i--` sends back,
and its agreement with a run over the characters of the file.
-/

namespace SystemsRepository.JsonParser

open SystemsRepository.Foundation

/-! ## The loop over the buffer -/

/-- `line_buffer[i]`; `none` outside of the buffer. -/
def readBuffer (buffer : List Char) (index : Int) : Option Char :=
  if 0 ≤ index then buffer[index.toNat]? else none

/-- How the loop over one chunk ends, and the indices it executed the switch with. -/
structure Scan where
  outcome : Outcome
  visited : List Int
  deriving DecidableEq, Repr

/-- `for(int i = index; line_buffer[i] != '\0'; ++i)`, with at most `fuel` tests of the
condition. -/
def scanBuffer (buffer : List Char) : Nat → Parser → Int → Scan
  | 0, _, _ => { outcome := .unfinished, visited := [] }
  | fuel + 1, parser, index =>
      match readBuffer buffer index with
      | none => { outcome := .undefined, visited := [] }
      | some char =>
          if char = nul then { outcome := .running parser, visited := [] }
          else
            match step parser char with
            | .next after =>
                let later := scanBuffer buffer fuel after (index + 1)
                { later with visited := index :: later.visited }
            | .again after =>
                -- `i--` in the switch and `++i` in the loop
                let later := scanBuffer buffer fuel after (index - 1 + 1)
                { later with visited := index :: later.visited }
            | .invalid char literal =>
                { outcome := .invalid parser char literal, visited := [index] }
            | .undefined => { outcome := .undefined, visited := [index] }

/-- `fgets` writes the chunk and a terminator over the start of the buffer. -/
def storeChunk (chunk buffer : List Char) : List Char :=
  chunk ++ nul :: buffer.drop (chunk.length + 1)

/-- `while(fgets(line_buffer, sizeof line_buffer, f))`, for the chunks that the calls
return. -/
def scanChunks (fuel : Nat) : Parser → List Char → List (List Char) → Outcome
  | parser, _, [] => .running parser
  | parser, buffer, chunk :: chunks =>
      match (scanBuffer (storeChunk chunk buffer) fuel parser 0).outcome with
      | .running after => scanChunks fuel after (storeChunk chunk buffer) chunks
      | stopped => stopped

/-- The chunks of a file are the results of `fgets` on it. -/
def scanFile (fuel : Nat) (buffer contents : List Char) : Outcome :=
  scanChunks fuel .initial buffer (Text.reads '\n' lineSize contents)

/-! ## Agreement with the run over the characters -/

theorem readBuffer_append (front : List Char) (char : Char) (rest : List Char) :
    readBuffer (front ++ char :: rest) front.length = some char := by
  simp [readBuffer]

def Visit.index (length : Nat) (visit : Visit) : Int := length - 1 - visit.rest.length

/-- The scan of the buffer is the run over the text in it: it executes the switch as often, and
each time with the index of the character. -/
theorem scanBuffer_eq {length : Nat} {junk : List Char} :
    ∀ parser text, nul ∉ text → ∀ front : List Char, front.length + text.length = length →
      ∀ fuel, (visits parser text).length < fuel →
        scanBuffer (front ++ (text ++ nul :: junk)) fuel parser front.length =
          { outcome := feed parser text
            visited := (visits parser text).map (Visit.index length) } := by
  apply run_induction
  · intro parser _ front _ fuel enough
    cases fuel with
    | zero => cases enough
    | succ fuel =>
        rw [scanBuffer, List.nil_append, readBuffer_append]
        rfl
  · intro parser char rest after stepped induction noNul front total fuel enough
    rw [visits_next stepped] at enough ⊢
    cases fuel with
    | zero => cases enough
    | succ fuel =>
        have notNul : char ≠ nul := fun equal => noNul (by simp [equal])
        have later := induction (fun member => noNul (by simp [member])) (front ++ [char])
          (by simp at total ⊢; omega) fuel (Nat.lt_of_succ_lt_succ enough)
        have here : (front.length : Int) = Visit.index length { parser, char, rest } := by
          simp only [Visit.index, List.length_cons] at total ⊢
          omega
        have position : ((front ++ [char]).length : Int) = front.length + 1 := by simp
        rw [position, List.append_assoc, List.singleton_append] at later
        rw [scanBuffer, List.cons_append, readBuffer_append]
        simp only [if_neg notNul, stepped, later, feed_next stepped, List.map_cons, ← here]
  · intro parser char rest after stepped induction noNul front total fuel enough
    rw [visits_again stepped] at enough ⊢
    cases fuel with
    | zero => cases enough
    | succ fuel =>
        have notNul : char ≠ nul := fun equal => noNul (by simp [equal])
        have later := induction noNul front total fuel (Nat.lt_of_succ_lt_succ enough)
        have here : (front.length : Int) = Visit.index length { parser, char, rest } := by
          simp only [Visit.index, List.length_cons] at total ⊢
          omega
        have position : (front.length : Int) - 1 + 1 = front.length := by omega
        rw [List.cons_append] at later ⊢
        rw [scanBuffer, readBuffer_append]
        simp only [if_neg notNul, stepped, position, later,
          feed_again stepped (step_settles stepped), List.map_cons, ← here]
  · intro parser char rest stops noNul front total fuel enough
    rw [visits_stop stops]
    cases fuel with
    | zero => cases enough
    | succ fuel =>
        have notNul : char ≠ nul := fun equal => noNul (by simp [equal])
        have here : (front.length : Int) = Visit.index length { parser, char, rest } := by
          simp only [Visit.index, List.length_cons] at total ⊢
          omega
        rw [scanBuffer, List.cons_append, readBuffer_append, feed_stop stops]
        simp only [if_neg notNul, List.map_cons, List.map_nil, ← here]
        cases stepped : step parser char with
        | next after => exact (stepped ▸ stops : (Step.next after).Stops).elim
        | again after => exact (stepped ▸ stops : (Step.again after).Stops).elim
        | invalid _ _ => rfl
        | undefined => rfl

private theorem scanBuffer_storeChunk {chunk : List Char} (noNul : nul ∉ chunk)
    (fits : chunk.length < lineSize) {fuel : Nat} (enough : 2 * lineSize ≤ fuel) (parser : Parser)
    (buffer : List Char) :
    scanBuffer (storeChunk chunk buffer) fuel parser 0 =
      { outcome := feed parser chunk
        visited := (visits parser chunk).map (Visit.index chunk.length) } := by
  have short := (visits_length_le parser chunk).1
  exact scanBuffer_eq parser chunk noNul [] (by simp) fuel (by omega)

private theorem count_visited_le_two (parser : Parser) (text : CString) (length : Nat)
    (index : Int) : ((visits parser text).map (Visit.index length)).count index ≤ 2 := by
  rw [List.count, List.countP_map]
  by_cases met : ∃ visit ∈ visits parser text, visit.index length = index
  · rcases met with ⟨visit, _, same⟩
    apply Nat.le_trans _ (meetings_le_two parser text visit.rest.length)
    apply List.countP_mono_left
    intro other _ equal
    simp only [Function.comp, beq_iff_eq, Visit.index] at equal same ⊢
    omega
  · rw [List.countP_eq_zero.mpr]
    · exact Nat.zero_le 2
    · intro visit member equal
      exact met ⟨visit, member, by simpa using equal⟩

theorem scanChunks_eq {fuel : Nat} (enough : 2 * lineSize ≤ fuel) {chunks : List (List Char)}
    (noNul : nul ∉ chunks.flatten) (fits : ∀ chunk ∈ chunks, chunk.length < lineSize)
    (parser : Parser) (buffer : List Char) :
    scanChunks fuel parser buffer chunks = feed parser chunks.flatten := by
  induction chunks generalizing parser buffer with
  | nil => rfl
  | cons chunk chunks induction =>
      rw [List.flatten_cons] at noNul ⊢
      have scanned := scanBuffer_storeChunk (fun member => noNul (List.mem_append_left _ member))
        (fits chunk (by simp)) enough parser buffer
      rw [scanChunks, scanned, feed_append]
      cases feed parser chunk with
      | running after =>
          exact induction (fun member => noNul (List.mem_append_right _ member))
            (fun other member => fits other (by simp [member])) after _
      | invalid _ _ _ => rfl
      | undefined => rfl
      | unfinished => rfl

/-- However the file is cut into chunks that fit the buffer, the loops do what the machine does
with its characters one after the other, meeting only a character behind a number again. They
end, since they meet no character more than twice. -/
theorem lineBuffer_invisible {text : CString} (noNul : nul ∉ text) {chunks : List (List Char)}
    (cut : chunks.flatten = text) (fits : ∀ chunk ∈ chunks, chunk.length < lineSize)
    {fuel : Nat} (enough : 2 * lineSize ≤ fuel) (parser : Parser) (buffer : List Char) :
    scanChunks fuel parser buffer chunks = feed parser text ∧
      scanFile fuel buffer text = feed .initial text ∧
      scanChunks fuel parser buffer chunks ≠ .unfinished ∧
      (∀ chunk ∈ chunks, ∀ before earlier index,
        (scanBuffer (storeChunk chunk earlier) fuel before 0).visited.count index ≤ 2) ∧
      ∀ before char after, step before char = .again after →
        before.state = .valueNumber ∧ after.state = .valueEnd := by
  have whole : scanChunks fuel parser buffer chunks = feed parser text :=
    cut ▸ scanChunks_eq enough (cut.symm ▸ noNul) fits parser buffer
  have file : scanFile fuel buffer text = feed .initial text := by
    have pieces : (Text.reads '\n' lineSize text).flatten = text :=
      Text.reads_flatten (by decide) text
    have scanned := @scanChunks_eq fuel enough (Text.reads '\n' lineSize text)
      (pieces.symm ▸ noNul) (fun chunk member => Text.reads_length_lt (by decide) member) .initial
      buffer
    rw [pieces] at scanned
    exact scanned
  refine ⟨whole, file, whole ▸ feed_ne_unfinished parser text, ?_, ?_⟩
  · intro chunk member before earlier index
    have clean : nul ∉ chunk := fun inChunk =>
      noNul (cut ▸ List.mem_flatten.mpr ⟨chunk, member, inChunk⟩)
    rw [scanBuffer_storeChunk clean (fits chunk member) enough]
    exact count_visited_le_two before chunk chunk.length index
  · exact fun before char after again => step_again again

/-- A number that is cut in two, the comma behind it at the start of a chunk. -/
theorem lineBuffer_invisible_of_cut_number :
    scanChunks (2 * lineSize) .initial (List.replicate lineSize 'x')
        [['{', '"', 'k', '"', ':', '1'], ['2'], [',', '}']] =
      feed .initial ['{', '"', 'k', '"', ':', '1', '2', ',', '}'] :=
  (lineBuffer_invisible (by decide) rfl (by decide) (Nat.le_refl _) .initial _).1

end SystemsRepository.JsonParser
