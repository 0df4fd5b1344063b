/-! # Lines and tokens of C text

The parts of `stdio.h` and `string.h` that read a stream line by line and cut a
line into tokens, over an arbitrary alphabet. Strings are lists of characters
without their terminator.
-/

namespace SystemsRepository.Foundation.Text

variable {α : Type u}

/-! ## Reading lines -/

def unlines (newline : α) (lines : List (List α)) : List α :=
  lines.flatMap fun line => line ++ [newline]

section Unlines

variable {newline : α}

@[simp] theorem unlines_nil : unlines newline ([] : List (List α)) = [] := rfl

@[simp] theorem unlines_cons (line : List α) (lines : List (List α)) :
    unlines newline (line :: lines) = line ++ newline :: unlines newline lines := by
  simp [unlines]

@[simp] theorem unlines_append (left right : List (List α)) :
    unlines newline (left ++ right) = unlines newline left ++ unlines newline right := by
  simp [unlines]

theorem line_append_injective {line other rest tail : List α} (lineClean : newline ∉ line)
    (otherClean : newline ∉ other) (same : line ++ newline :: rest = other ++ newline :: tail) :
    line = other ∧ rest = tail := by
  induction line generalizing other with
  | nil =>
      cases other with
      | nil => exact ⟨rfl, (List.cons.inj same).2⟩
      | cons char other => exact absurd ((List.cons.inj same).1 ▸ List.mem_cons_self) otherClean
  | cons char line induction =>
      cases other with
      | nil => exact absurd ((List.cons.inj same).1 ▸ List.mem_cons_self) lineClean
      | cons otherChar other =>
          rcases List.cons.inj same with ⟨equal, rest⟩
          have tails := induction (fun member => lineClean (List.mem_cons_of_mem _ member))
            (fun member => otherClean (List.mem_cons_of_mem _ member)) rest
          exact ⟨by rw [equal, tails.1], tails.2⟩

theorem unlines_injective {left right : List (List α)} (leftClean : ∀ line ∈ left, newline ∉ line)
    (rightClean : ∀ line ∈ right, newline ∉ line)
    (same : unlines newline left = unlines newline right) : left = right := by
  induction left generalizing right with
  | nil =>
      cases right with
      | nil => rfl
      | cons line right => simp at same
  | cons line left induction =>
      cases right with
      | nil => simp at same
      | cons other right =>
          rw [unlines_cons, unlines_cons] at same
          have parts := line_append_injective (leftClean line (by simp))
            (rightClean other (by simp)) same
          rw [parts.1, induction (fun found member => leftClean found (by simp [member]))
            (fun found member => rightClean found (by simp [member])) parts.2]

/-- The lines of a text that have an end. -/
def endedLines [DecidableEq α] (newline : α) (text : List α) : List α :=
  (text.reverse.dropWhile fun char => char ≠ newline).reverse

theorem endedLines_append [DecidableEq α] (lines : List (List α)) {torn : List α}
    (clean : newline ∉ torn) :
    endedLines newline (unlines newline lines ++ torn) = unlines newline lines := by
  have dropped : ∀ char ∈ torn.reverse, decide (char ≠ newline) = true := by
    intro char member
    have different : char ≠ newline := fun same => clean (same ▸ List.mem_reverse.mp member)
    simpa using different
  rw [endedLines, List.reverse_append, List.dropWhile_append_of_pos dropped]
  rcases List.eq_nil_or_concat lines with rfl | ⟨front, last, rfl⟩
  · rfl
  · rw [List.concat_eq_append, unlines_append]
    simp [unlines]

end Unlines

section Lines

variable [DecidableEq α] (newline : α)

def takeLine : Nat → List α → List α × List α
  | 0, stream => ([], stream)
  | _ + 1, [] => ([], [])
  | limit + 1, char :: stream =>
      if char = newline then ([char], stream)
      else (char :: (takeLine limit stream).1, (takeLine limit stream).2)

/-- `fgets` into a buffer of `size` bytes: what it stores before the
terminator and what is left of the stream, or `none` (`NULL`) at end of file. -/
def fgets (size : Nat) : List α → Option (List α × List α)
  | [] => none
  | stream => some (takeLine newline (size - 1) stream)

/-- The results of repeated `fgets` calls, at most `fuel` of them. -/
def readsFrom (size : Nat) : Nat → List α → List (List α)
  | 0, _ => []
  | fuel + 1, stream =>
      match fgets newline size stream with
      | none => []
      | some (line, rest) => line :: readsFrom size fuel rest

/-- What the loop `while(fgets(line, size, f) != NULL)` sees. A stream of `n`
characters ends after at most `n` calls. -/
def reads (size : Nat) (stream : List α) : List (List α) :=
  readsFrom newline size stream.length stream

theorem takeLine_append (limit : Nat) (stream : List α) :
    (takeLine newline limit stream).1 ++ (takeLine newline limit stream).2 = stream := by
  induction limit generalizing stream with
  | zero => rfl
  | succ limit induction =>
      cases stream with
      | nil => rfl
      | cons char stream =>
          rw [takeLine]
          split
          · rfl
          · simp [induction]

theorem takeLine_length_le (limit : Nat) (stream : List α) :
    (takeLine newline limit stream).1.length ≤ limit := by
  induction limit generalizing stream with
  | zero => exact Nat.le_refl 0
  | succ limit induction =>
      cases stream with
      | nil => exact Nat.zero_le _
      | cons char stream =>
          rw [takeLine]
          split
          · simp
          · simpa using induction stream

theorem takeLine_rest_length_lt (limit : Nat) {stream : List α}
    (positive : 0 < limit) (nonempty : stream ≠ []) :
    (takeLine newline limit stream).2.length < stream.length := by
  have whole := congrArg List.length (takeLine_append newline limit stream)
  rw [List.length_append] at whole
  have consumed : 0 < (takeLine newline limit stream).1.length := by
    cases limit with
    | zero => omega
    | succ limit =>
        cases stream with
        | nil => exact absurd rfl nonempty
        | cons char stream =>
            rw [takeLine]
            split <;> simp
  omega

variable {newline}

theorem takeLine_line : ∀ {line rest : List α} {limit : Nat},
    newline ∉ line → line.length < limit →
    takeLine newline limit (line ++ newline :: rest) = (line ++ [newline], rest)
  | [], _, 0, _, fits => absurd fits (Nat.lt_irrefl 0)
  | [], rest, limit + 1, _, _ => by simp [takeLine]
  | char :: line, _, 0, _, fits => absurd fits (Nat.not_lt_zero _)
  | char :: line, rest, limit + 1, clean, fits => by
      have different : char ≠ newline := fun equal => clean (by simp [equal])
      have tailClean : newline ∉ line := fun member => clean (by simp [member])
      have shorter : line.length < limit := Nat.lt_of_succ_lt_succ fits
      simp [takeLine, different, takeLine_line tailClean shorter]

theorem takeLine_cut : ∀ {line rest : List α} {limit : Nat},
    newline ∉ line → limit ≤ line.length →
    takeLine newline limit (line ++ rest) = (line.take limit, line.drop limit ++ rest)
  | _, _, 0, _, _ => rfl
  | [], _, _ + 1, _, long => absurd long (Nat.not_succ_le_zero _)
  | char :: line, rest, limit + 1, clean, long => by
      have different : char ≠ newline := fun equal => clean (by simp [equal])
      have tailClean : newline ∉ line := fun member => clean (by simp [member])
      have shorter : limit ≤ line.length := Nat.le_of_succ_le_succ long
      simp [takeLine, different, takeLine_cut tailClean shorter]

theorem fgets_eq_some {size : Nat} {stream : List α} (nonempty : stream ≠ []) :
    fgets newline size stream = some (takeLine newline (size - 1) stream) := by
  cases stream with
  | nil => exact absurd rfl nonempty
  | cons char stream => rfl

theorem eq_nil_of_fgets {size : Nat} {stream : List α}
    (ended : fgets newline size stream = none) : stream = [] := by
  cases stream with
  | nil => rfl
  | cons char stream => cases ended

theorem readsFrom_nil (size fuel : Nat) :
    readsFrom newline size fuel ([] : List α) = [] := by
  cases fuel <;> rfl

theorem readsFrom_eq_reads {size : Nat} (room : 2 ≤ size) :
    ∀ {fuel : Nat} {stream : List α}, stream.length ≤ fuel →
      readsFrom newline size fuel stream = reads newline size stream := by
  have shared : ∀ (bound : Nat) (stream : List α) (first second : Nat),
      stream.length ≤ bound → stream.length ≤ first → stream.length ≤ second →
      readsFrom newline size first stream = readsFrom newline size second stream := by
    intro bound
    induction bound with
    | zero =>
        intro stream first second short _ _
        cases stream with
        | nil => rw [readsFrom_nil, readsFrom_nil]
        | cons char stream => exact absurd short (Nat.not_succ_le_zero _)
    | succ bound induction =>
        intro stream first second short enoughFirst enoughSecond
        cases stream with
        | nil => rw [readsFrom_nil, readsFrom_nil]
        | cons char stream =>
            have shrinks := takeLine_rest_length_lt newline (size - 1) (by omega)
              (List.cons_ne_nil char stream)
            cases first with
            | zero => exact absurd enoughFirst (Nat.not_succ_le_zero _)
            | succ first =>
                cases second with
                | zero => exact absurd enoughSecond (Nat.not_succ_le_zero _)
                | succ second =>
                    simp only [readsFrom, fgets]
                    rw [induction _ first second (by omega) (by omega) (by omega)]
  intro fuel stream enough
  exact shared fuel stream fuel stream.length enough enough (Nat.le_refl _)

@[simp] theorem reads_nil (size : Nat) : reads newline size ([] : List α) = [] := rfl

theorem reads_cons {size : Nat} (room : 2 ≤ size) {stream : List α}
    (nonempty : stream ≠ []) :
    reads newline size stream =
      (takeLine newline (size - 1) stream).1 ::
        reads newline size (takeLine newline (size - 1) stream).2 := by
  have shrinks := takeLine_rest_length_lt newline (size - 1)
    (by omega) nonempty
  unfold reads
  cases length : stream.length with
  | zero => omega
  | succ count =>
      simp only [readsFrom, fgets_eq_some nonempty]
      rw [readsFrom_eq_reads room (by omega)]
      rfl

/-- A call that reads a piece is the first of those that read the stream. -/
theorem reads_of_fgets {size : Nat} (room : 2 ≤ size) {stream piece rest : List α}
    (read : fgets newline size stream = some (piece, rest)) :
    reads newline size stream = piece :: reads newline size rest := by
  have nonempty : stream ≠ [] := by
    intro empty
    rw [empty] at read
    cases read
  rw [fgets_eq_some nonempty] at read
  rw [reads_cons room nonempty, Option.some.inj read]

theorem fgets_of_reads {size : Nat} (room : 2 ≤ size) {stream piece : List α}
    {later : List (List α)} (pieces : reads newline size stream = piece :: later) :
    ∃ rest, fgets newline size stream = some (piece, rest) ∧ reads newline size rest = later := by
  cases read : fgets newline size stream with
  | none =>
      rw [eq_nil_of_fgets read] at pieces
      cases pieces
  | some found =>
      rcases found with ⟨first, rest⟩
      rw [reads_of_fgets room read] at pieces
      rcases List.cons.inj pieces with ⟨rfl, same⟩
      exact ⟨rest, rfl, same⟩

theorem reads_flatten {size : Nat} (room : 2 ≤ size) (stream : List α) :
    (reads newline size stream).flatten = stream := by
  induction length : stream.length using Nat.strongRecOn generalizing stream with
  | ind count induction =>
      cases stream with
      | nil => rfl
      | cons char stream =>
          have nonempty := List.cons_ne_nil char stream
          have shrinks := takeLine_rest_length_lt newline (size - 1) (by omega) nonempty
          rw [reads_cons room nonempty, List.flatten_cons,
            induction _ (by omega) _ rfl, takeLine_append]

/-- The first piece of a stream that goes on: the same one with more behind it, unless the
shorter stream ended in it. -/
theorem takeLine_longer (limit : Nat) {front stream : List α} (leads : front <+: stream) :
    (takeLine newline limit front).1 <+: (takeLine newline limit stream).1 ∧
      ((takeLine newline limit front).2 = [] ∨
        (takeLine newline limit front).1 = (takeLine newline limit stream).1 ∧
          (takeLine newline limit front).2 <+: (takeLine newline limit stream).2) := by
  induction limit generalizing front stream with
  | zero => exact ⟨List.prefix_refl [], .inr ⟨rfl, leads⟩⟩
  | succ limit induction =>
      cases front with
      | nil => exact ⟨List.nil_prefix, .inl rfl⟩
      | cons char front =>
          cases stream with
          | nil => exact absurd (List.prefix_nil.mp leads) (List.cons_ne_nil char front)
          | cons other stream =>
              rcases List.cons_prefix_cons.mp leads with ⟨same, further⟩
              subst same
              rw [takeLine, takeLine]
              split
              next => exact ⟨List.prefix_refl _, .inr ⟨rfl, further⟩⟩
              next =>
                rcases induction further with ⟨piece, ended | ⟨equal, rest⟩⟩
                · exact ⟨List.cons_prefix_cons.mpr ⟨rfl, piece⟩, .inl ended⟩
                · exact ⟨List.cons_prefix_cons.mpr ⟨rfl, piece⟩, .inr ⟨by rw [equal], rest⟩⟩

/-- What is kept of the pieces of a stream begins with what is kept of those of a shorter one. -/
theorem reads_flatMap_longer {β : Type v} {size : Nat} (room : 2 ≤ size) {kept : List α → List β}
    (keeps : ∀ piece longer, piece <+: longer → kept piece <+: kept longer)
    {front stream : List α} (leads : front <+: stream) :
    (reads newline size front).flatMap kept <+: (reads newline size stream).flatMap kept := by
  induction length : front.length using Nat.strongRecOn generalizing front stream with
  | ind count induction =>
      cases front with
      | nil => exact List.nil_prefix
      | cons char front =>
          have nonempty := List.cons_ne_nil char front
          have longer : stream ≠ [] := fun empty =>
            nonempty (List.prefix_nil.mp (empty ▸ leads))
          have shrinks := takeLine_rest_length_lt newline (size - 1) (by omega) nonempty
          rw [reads_cons room nonempty, reads_cons room longer,
            List.flatMap_cons, List.flatMap_cons]
          rcases @takeLine_longer _ _ newline (size - 1) _ _ leads with
            ⟨piece, ended | ⟨same, rest⟩⟩
          · rw [ended, reads_nil, List.flatMap_nil, List.append_nil]
            exact (keeps _ _ piece).trans (List.prefix_append _ _)
          · rw [same]
            exact (List.prefix_append_right_inj _).mpr (induction _ (by omega) rest rfl)

theorem reads_length_lt {size : Nat} (room : 2 ≤ size) {stream piece : List α}
    (member : piece ∈ reads newline size stream) : piece.length < size := by
  induction length : stream.length using Nat.strongRecOn generalizing stream with
  | ind count induction =>
      cases stream with
      | nil => cases member
      | cons char stream =>
          have nonempty := List.cons_ne_nil char stream
          have shrinks := takeLine_rest_length_lt newline (size - 1) (by omega) nonempty
          rw [reads_cons room nonempty] at member
          rcases List.mem_cons.mp member with equal | member
          · have short := takeLine_length_le newline (size - 1) (char :: stream)
            rw [equal]
            omega
          · exact induction _ (by omega) member rfl

theorem reads_line_append {size : Nat} (room : 2 ≤ size) {line : List α}
    (clean : newline ∉ line) (rest : List α) :
    reads newline size (line ++ newline :: rest) =
      reads newline size (line ++ [newline]) ++ reads newline size rest := by
  induction length : line.length using Nat.strongRecOn generalizing line with
  | ind count induction =>
      rw [reads_cons room (by simp : line ++ newline :: rest ≠ []),
        reads_cons room (by simp : line ++ [newline] ≠ [])]
      by_cases fits : line.length < size - 1
      · rw [takeLine_line clean fits, takeLine_line clean fits]
        simp
      · have long : size - 1 ≤ line.length := Nat.le_of_not_lt fits
        rw [takeLine_cut clean long, takeLine_cut clean long]
        have shorter := induction (line.drop (size - 1)).length
          (by rw [List.length_drop]; omega)
          (fun member => clean (List.mem_of_mem_drop member)) rfl
        simp only [List.cons_append]
        rw [shorter]

theorem reads_unlines_append {size : Nat} (room : 2 ≤ size) {lines : List (List α)}
    (clean : ∀ line ∈ lines, newline ∉ line) (rest : List α) :
    reads newline size (unlines newline lines ++ rest) =
      (lines.flatMap fun line => reads newline size (line ++ [newline])) ++
        reads newline size rest := by
  induction lines with
  | nil => rfl
  | cons line lines induction =>
      have tailClean : ∀ other ∈ lines, newline ∉ other :=
        fun other member => clean other (by simp [member])
      rw [unlines_cons, List.append_assoc, List.cons_append,
        reads_line_append room (clean line (by simp)), induction tailClean,
        List.flatMap_cons, List.append_assoc]

theorem reads_unlines {size : Nat} (room : 2 ≤ size) {lines : List (List α)}
    (clean : ∀ line ∈ lines, newline ∉ line) :
    reads newline size (unlines newline lines) =
      lines.flatMap fun line => reads newline size (line ++ [newline]) := by
  have whole := reads_unlines_append room clean []
  simpa using whole

theorem reads_line {size : Nat} {line : List α} (clean : newline ∉ line)
    (fits : line.length + 2 ≤ size) :
    reads newline size (line ++ [newline]) = [line ++ [newline]] := by
  rw [reads_cons (by omega) (by simp), takeLine_line clean (by omega)]
  simp

theorem reads_lines {size : Nat} (room : 2 ≤ size) {lines : List (List α)}
    (clean : ∀ line ∈ lines, newline ∉ line) (fits : ∀ line ∈ lines, line.length + 2 ≤ size) :
    reads newline size (unlines newline lines) = lines.map fun line => line ++ [newline] := by
  rw [reads_unlines room clean]
  induction lines with
  | nil => rfl
  | cons line lines induction =>
      have rest := induction (fun other member => clean other (by simp [member]))
        (fun other member => fits other (by simp [member]))
      rw [List.flatMap_cons, List.map_cons, rest,
        reads_line (clean line (by simp)) (fits line (by simp))]
      rfl

/-- A line one character too long for its newline is read in two pieces. -/
theorem reads_long_line {size : Nat} (room : 2 ≤ size) {line : List α}
    (clean : newline ∉ line) (long : size - 1 ≤ line.length) :
    reads newline size (line ++ [newline]) =
      line.take (size - 1) :: reads newline size (line.drop (size - 1) ++ [newline]) := by
  rw [reads_cons room (by simp), takeLine_cut clean long]

end Lines

/-! ## Cutting strings -/

section Tokens

/-- `strtok`: the next token and the text its successor continues from, or
`none` (`NULL`) when only delimiters are left. -/
def strtok (isDelim : α → Bool) (text : List α) : Option (List α × List α) :=
  match text.dropWhile isDelim with
  | [] => none
  | start =>
      some (start.takeWhile fun char => !isDelim char,
        (start.dropWhile fun char => !isDelim char).drop 1)

variable {isDelim : α → Bool}

theorem strtok_eq_some {text token rest : List α}
    (found : strtok isDelim text = some (token, rest)) :
    text.dropWhile isDelim ≠ [] ∧
      token = (text.dropWhile isDelim).takeWhile (fun char => !isDelim char) ∧
      rest = ((text.dropWhile isDelim).dropWhile fun char => !isDelim char).drop 1 := by
  unfold strtok at found
  split at found
  · cases found
  · rename_i start nonempty
    cases found
    exact ⟨nonempty, rfl, rfl⟩

theorem strtok_eq_none_iff {text : List α} :
    strtok isDelim text = none ↔ ∀ char ∈ text, isDelim char = true := by
  have empty : text.dropWhile isDelim = [] ↔ ∀ char ∈ text, isDelim char = true := by
    induction text with
    | nil => simp
    | cons char text induction => cases delim : isDelim char <;> simp [delim, induction]
  rw [← empty]
  unfold strtok
  cases text.dropWhile isDelim <;> simp

theorem strtok_token_clean {text token rest : List α}
    (found : strtok isDelim text = some (token, rest)) :
    ∀ char ∈ token, isDelim char = false := by
  intro char member
  rw [(strtok_eq_some found).2.1] at member
  have kept := List.all_eq_true.mp
    (List.all_takeWhile (p := fun char => !isDelim char) (l := text.dropWhile isDelim))
    char member
  simpa using kept

theorem strtok_token_ne_nil {text token rest : List α}
    (found : strtok isDelim text = some (token, rest)) : token ≠ [] := by
  rcases strtok_eq_some found with ⟨nonempty, tokenEq, _⟩
  cases start : text.dropWhile isDelim with
  | nil => exact absurd start nonempty
  | cons head tail =>
      have notDelim : isDelim head = false := by
        have stopped := List.head_dropWhile_not isDelim nonempty
        simpa [start] using stopped
      rw [tokenEq, start, List.takeWhile_cons]
      simp [notDelim]

theorem strtok_token_subset {text token rest : List α}
    (found : strtok isDelim text = some (token, rest)) :
    ∀ char ∈ token, char ∈ text := by
  intro char member
  rw [(strtok_eq_some found).2.1] at member
  exact List.dropWhile_sublist _ |>.subset ((List.takeWhile_sublist _).subset member)

theorem strtok_length {text token rest : List α}
    (found : strtok isDelim text = some (token, rest)) :
    token.length + rest.length ≤ text.length ∧
      (rest ≠ [] → token.length + 1 + rest.length ≤ text.length) := by
  rcases strtok_eq_some found with ⟨_, tokenEq, restEq⟩
  have split := congrArg List.length
    (List.takeWhile_append_dropWhile (p := fun char => !isDelim char)
      (l := text.dropWhile isDelim))
  have shorter := (List.dropWhile_sublist isDelim (l := text)).length_le
  rw [List.length_append, ← tokenEq] at split
  cases remaining : (text.dropWhile isDelim).dropWhile fun char => !isDelim char with
  | nil =>
      rw [remaining] at split restEq
      simp only [List.length_nil, List.drop_nil] at split restEq
      subst restEq
      exact ⟨by simp; omega, fun nonempty => absurd rfl nonempty⟩
  | cons delim after =>
      rw [remaining] at split restEq
      simp only [List.length_cons, List.drop_succ_cons, List.drop_zero] at split restEq
      subst restEq
      exact ⟨by omega, fun _ => by omega⟩

theorem strtok_rest_subset {text token rest : List α}
    (found : strtok isDelim text = some (token, rest)) :
    ∀ char ∈ rest, char ∈ text := by
  intro char member
  rw [(strtok_eq_some found).2.2] at member
  exact List.dropWhile_sublist _ |>.subset
    (List.dropWhile_sublist _ |>.subset (List.mem_of_mem_drop member))

theorem strtok_word_append {word : List α} {delim : α} (nonempty : word ≠ [])
    (clean : ∀ char ∈ word, isDelim char = false) (delimits : isDelim delim = true)
    (rest : List α) :
    strtok isDelim (word ++ delim :: rest) = some (word, rest) := by
  cases word with
  | nil => exact absurd rfl nonempty
  | cons head tail =>
      have headClean := clean head (by simp)
      have taken : (head :: tail ++ delim :: rest).takeWhile (fun char => !isDelim char) =
          head :: tail := by
        rw [List.takeWhile_append_of_pos (by simpa using clean)]
        simp [delimits]
      have dropped : (head :: tail ++ delim :: rest).dropWhile (fun char => !isDelim char) =
          delim :: rest := by
        rw [List.dropWhile_append_of_pos (by simpa using clean)]
        simp [delimits]
      have start : (head :: tail ++ delim :: rest).dropWhile isDelim =
          head :: tail ++ delim :: rest := by
        simp [headClean]
      simp only [strtok, start]
      rw [List.cons_append] at taken dropped
      simp only [List.cons_append, taken, dropped, List.drop_one, List.tail_cons]

theorem strtok_word {word : List α} (nonempty : word ≠ [])
    (clean : ∀ char ∈ word, isDelim char = false) :
    strtok isDelim word = some (word, []) := by
  cases word with
  | nil => exact absurd rfl nonempty
  | cons head tail =>
      have headClean := clean head (by simp)
      have start : (head :: tail).dropWhile isDelim = head :: tail := by simp [headClean]
      have kept : ∀ char ∈ head :: tail, (!isDelim char) = true := by simpa using clean
      have taken := @List.takeWhile_append_of_pos _ _ _ [] kept
      have dropped := @List.dropWhile_append_of_pos _ _ _ [] kept
      rw [List.append_nil, List.takeWhile_nil, List.append_nil] at taken
      rw [List.append_nil, List.dropWhile_nil] at dropped
      simp only [strtok, start, taken, dropped, List.drop_nil]

end Tokens

/-! ## Words -/

section Words

variable (isDelim : α → Bool)

/-- The words of a text: its maximal parts without delimiters. -/
def words (text : List α) : List (List α) :=
  (text.splitOnP isDelim).filter fun part => !part.isEmpty

variable {isDelim}

theorem words_dropWhile (text : List α) : words isDelim (text.dropWhile isDelim) =
    words isDelim text := by
  induction text with
  | nil => rfl
  | cons char text induction =>
      by_cases delimits : isDelim char = true
      · rw [List.dropWhile_cons_of_pos delimits, induction, words, words,
          List.splitOnP_cons_eq_if_modifyHead, if_pos delimits]
        rfl
      · rw [List.dropWhile_cons_of_neg delimits]

theorem words_flatten (text : List α) :
    (words isDelim text).flatten = text.filter fun char => !isDelim char := by
  rw [words, List.flatten_filter_not_isEmpty]
  induction text with
  | nil => rfl
  | cons char text induction =>
      rw [List.splitOnP_cons_eq_if_modifyHead]
      by_cases delimits : isDelim char = true
      · rw [if_pos delimits, List.filter_cons_of_neg (by simp [delimits]), ← induction]
        rfl
      · rw [if_neg delimits, List.filter_cons_of_pos (by simp [delimits]), ← induction]
        cases parts : text.splitOnP isDelim with
        | nil => exact absurd parts (List.splitOnP_ne_nil _ _)
        | cons first rest => rfl

theorem words_clean {word : List α} (nonempty : word ≠ [])
    (clean : ∀ char ∈ word, isDelim char = false) : words isDelim word = [word] := by
  rw [words, List.splitOnP_eq_singleton clean]
  cases word with
  | nil => exact absurd rfl nonempty
  | cons head tail => rfl

theorem words_clean_append {word rest : List α} {delim : α} (nonempty : word ≠ [])
    (clean : ∀ char ∈ word, isDelim char = false) (delimits : isDelim delim = true) :
    words isDelim (word ++ delim :: rest) = word :: words isDelim rest := by
  rw [words, List.splitOnP_append_cons_of_forall_mem clean delim delimits]
  cases word with
  | nil => exact absurd rfl nonempty
  | cons head tail => rfl

theorem words_of_strtok_none {text : List α} (ended : strtok isDelim text = none) :
    words isDelim text = [] := by
  unfold strtok at ended
  split at ended
  next empty =>
    rw [← words_dropWhile, empty]
    rfl
  next => cases ended

theorem words_of_strtok {text token rest : List α}
    (found : strtok isDelim text = some (token, rest)) :
    words isDelim text = token :: words isDelim rest := by
  have nonempty := strtok_token_ne_nil found
  have clean := strtok_token_clean found
  rcases strtok_eq_some found with ⟨_, tokenEq, restEq⟩
  have split := List.takeWhile_append_dropWhile (p := fun char => !isDelim char)
    (l := text.dropWhile isDelim)
  rw [← tokenEq] at split
  rw [← words_dropWhile, ← split]
  cases remaining : (text.dropWhile isDelim).dropWhile fun char => !isDelim char with
  | nil =>
      rw [remaining] at restEq
      rw [restEq, List.append_nil, words_clean nonempty clean]
      rfl
  | cons delim after =>
      have delimits : isDelim delim = true := by
        have stopped := List.head_dropWhile_not (fun char => !isDelim char)
          (by rw [remaining]; exact List.cons_ne_nil _ _)
        simpa [remaining] using stopped
      rw [remaining] at restEq
      rw [restEq, words_clean_append nonempty clean delimits]
      rfl

end Words

end SystemsRepository.Foundation.Text
