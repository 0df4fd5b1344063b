import SystemsRepository.Foundation.Text

/-! # Lines read through a small buffer

The lines of a stream, and the pieces in which `fgets` delivers a line that does
not fit its buffer.
-/

namespace SystemsRepository.Foundation.Text

variable {α : Type u}

/-! ## Windows -/

theorem drop_succ_mul (count width : Nat) (line : List α) :
    line.drop ((count + 1) * width) = (line.drop width).drop (count * width) := by
  rw [List.drop_drop, Nat.succ_mul, Nat.add_comm]

/-! ## Lines -/

variable [DecidableEq α]

def lines (newline : α) : List α → List (List α)
  | [] => []
  | char :: stream =>
      if char = newline then [char] :: lines newline stream
      else
        match lines newline stream with
        | [] => [[char]]
        | line :: more => (char :: line) :: more

variable {newline : α}

theorem line_induction {motive : List α → Prop} (last : ∀ line, newline ∉ line → motive line)
    (cons : ∀ line rest, newline ∉ line → motive rest → motive (line ++ newline :: rest)) :
    ∀ stream, motive stream := by
  intro stream
  induction length : stream.length using Nat.strongRecOn generalizing stream with
  | ind count induction =>
      by_cases member : newline ∈ stream
      · rcases List.eq_append_cons_of_mem member with ⟨line, rest, split, clean⟩
        rw [split]
        apply cons line rest clean
        apply induction rest.length _ rest rfl
        rw [split, List.length_append, List.length_cons] at length
        omega
      · exact last stream member

theorem lines_line_append {line : List α} (clean : newline ∉ line) (rest : List α) :
    lines newline (line ++ newline :: rest) = (line ++ [newline]) :: lines newline rest := by
  induction line with
  | nil => simp [lines]
  | cons char line induction =>
      have different : char ≠ newline := fun equal => clean (by simp [equal])
      have tailLines := induction fun member => clean (List.mem_cons_of_mem _ member)
      simp [lines, different, tailLines]

theorem lines_clean {line : List α} (clean : newline ∉ line) (nonempty : line ≠ []) :
    lines newline line = [line] := by
  induction line with
  | nil => exact absurd rfl nonempty
  | cons char line induction =>
      have different : char ≠ newline := fun equal => clean (by simp [equal])
      cases line with
      | nil => simp [lines, different]
      | cons second line =>
          have tailLines := induction (fun member => clean (List.mem_cons_of_mem _ member))
            (List.cons_ne_nil second line)
          rw [lines, if_neg different, tailLines]

theorem line_shape {stream line : List α} (member : line ∈ lines newline stream) :
    (∃ text, line = text ++ [newline] ∧ newline ∉ text) ∨ newline ∉ line := by
  induction stream using @line_induction _ _ newline with
  | last text clean =>
      by_cases empty : text = []
      · rw [empty] at member
        cases member
      · rw [lines_clean clean empty, List.mem_singleton] at member
        exact .inr (member ▸ clean)
  | cons text rest clean induction =>
      rw [lines_line_append clean] at member
      rcases List.mem_cons.mp member with first | later
      · exact .inl ⟨text, first, clean⟩
      · exact induction later

theorem mem_of_mem_lines {stream line : List α} (member : line ∈ lines newline stream) :
    line ⊆ stream := by
  induction stream using @line_induction _ _ newline with
  | last text clean =>
      by_cases empty : text = []
      · rw [empty] at member
        cases member
      · rw [lines_clean clean empty, List.mem_singleton] at member
        exact member ▸ List.Subset.refl _
  | cons text rest clean induction =>
      rw [lines_line_append clean] at member
      rcases List.mem_cons.mp member with first | later
      · rw [first]
        intro char inLine
        rw [List.mem_append, List.mem_singleton] at inLine
        rw [List.mem_append, List.mem_cons]
        rcases inLine with inText | isNewline
        · exact .inl inText
        · exact .inr (.inl isNewline)
      · intro char inLine
        exact List.mem_append_right _ (List.mem_cons_of_mem _ (induction later inLine))

theorem lines_flatten (stream : List α) : (lines newline stream).flatten = stream := by
  induction stream using @line_induction _ _ newline with
  | last text clean =>
      by_cases empty : text = []
      · rw [empty]
        rfl
      · rw [lines_clean clean empty, List.flatten_singleton]
  | cons text rest clean induction =>
      rw [lines_line_append clean, List.flatten_cons, induction, List.append_assoc]
      rfl

theorem lines_terminated {stream line : List α} {front more : List (List α)}
    (split : lines newline stream = front ++ line :: more) :
    ∀ other ∈ front, ∃ text, other = text ++ [newline] ∧ newline ∉ text := by
  induction stream using @line_induction _ _ newline generalizing front with
  | last text clean =>
      intro other member
      cases front with
      | nil => cases member
      | cons first front =>
          by_cases empty : text = []
          · rw [empty] at split
            cases split
          · rw [lines_clean clean empty] at split
            simp at split
  | cons text rest clean induction =>
      intro other member
      rw [lines_line_append clean] at split
      cases front with
      | nil => cases member
      | cons first front =>
          rcases List.cons.inj split with ⟨equal, tail⟩
          rcases List.mem_cons.mp member with isFirst | later
          · exact ⟨text, isFirst.trans equal.symm, clean⟩
          · exact induction tail other later

theorem reads_eq_flatMap_lines {size : Nat} (room : 2 ≤ size) (stream : List α) :
    reads newline size stream = (lines newline stream).flatMap (reads newline size) := by
  induction stream using @line_induction _ _ newline with
  | last line clean =>
      by_cases empty : line = []
      · rw [empty]
        rfl
      · rw [lines_clean clean empty, List.flatMap_singleton]
  | cons line rest clean induction =>
      rw [lines_line_append clean, List.flatMap_cons, reads_line_append room clean, induction]

omit [DecidableEq α] in
theorem exists_unlines {lines : List (List α)}
    (terminated : ∀ line ∈ lines, ∃ text, line = text ++ [newline] ∧ newline ∉ text) :
    ∃ texts, (∀ text ∈ texts, newline ∉ text) ∧ lines.flatten = unlines newline texts ∧
      lines = texts.map fun text => text ++ [newline] := by
  induction lines with
  | nil => exact ⟨[], nofun, rfl, rfl⟩
  | cons line lines induction =>
      rcases terminated line List.mem_cons_self with ⟨text, rfl, clean⟩
      rcases induction fun other member => terminated other (List.mem_cons_of_mem _ member) with
        ⟨texts, others, whole, rfl⟩
      refine ⟨text :: texts, ?_, ?_, rfl⟩
      · intro other member
        rcases List.mem_cons.mp member with rfl | later
        · exact clean
        · exact others other later
      · rw [List.flatten_cons, whole, unlines_cons, List.append_assoc]
        rfl

omit [DecidableEq α] in
theorem drop_unlines {text : List (List α)} (clean : ∀ line ∈ text, newline ∉ line)
    (count : Nat) :
    ∃ left, (unlines newline text).drop count = unlines newline left ∧
      ∀ line ∈ left, newline ∉ line := by
  induction text generalizing count with
  | nil => exact ⟨[], List.drop_nil, nofun⟩
  | cons line text induction =>
      have others : ∀ other ∈ text, newline ∉ other := fun other member =>
        clean other (List.mem_cons_of_mem _ member)
      rw [unlines_cons]
      by_cases inside : count ≤ line.length
      · refine ⟨line.drop count :: text, ?_, ?_⟩
        · rw [List.drop_append_of_le_length inside, unlines_cons]
        · intro other member
          rcases List.mem_cons.mp member with rfl | later
          · exact fun found => clean line List.mem_cons_self (List.mem_of_mem_drop found)
          · exact others other later
      · rcases Nat.exists_eq_add_of_lt (Nat.lt_of_not_le inside) with ⟨more, rfl⟩
        rcases induction others more with ⟨left, same, leftClean⟩
        refine ⟨left, ?_, leftClean⟩
        rw [Nat.add_assoc, ← List.drop_drop, List.drop_left, List.drop_succ_cons, same]

theorem reads_drop {size : Nat} (room : 2 ≤ size) {stream : List α} {front rest : List (List α)}
    (split : reads newline size stream = front ++ rest) :
    reads newline size (stream.drop front.flatten.length) = rest := by
  induction front generalizing stream with
  | nil => exact split
  | cons piece front induction =>
      have nonempty : stream ≠ [] := by
        intro empty
        rw [empty] at split
        cases split
      rw [reads_cons room nonempty, List.cons_append] at split
      rcases List.cons.inj split with ⟨first, others⟩
      have behind : stream.drop piece.length = (takeLine newline (size - 1) stream).2 := by
        have whole := takeLine_append newline (size - 1) stream
        rw [first] at whole
        rw [← whole, List.drop_left, whole]
      rw [List.flatten_cons, List.length_append, ← List.drop_drop, behind]
      exact induction others

/-- The pieces that are left of a text of lines with an end are those of such a text. -/
theorem exists_unlines_behind {size : Nat} (room : 2 ≤ size) {text front later : List (List α)}
    (clean : ∀ line ∈ text, newline ∉ line)
    (split : reads newline size (unlines newline text) = front ++ later) :
    ∃ left, unlines newline text = front.flatten ++ unlines newline left ∧
      (∀ line ∈ left, newline ∉ line) ∧ reads newline size (unlines newline left) = later := by
  rcases drop_unlines clean front.flatten.length with ⟨left, dropped, leftClean⟩
  have whole := @reads_flatten _ _ newline _ room (unlines newline text)
  rw [split, List.flatten_append] at whole
  have behind : later.flatten = unlines newline left := by
    rw [← dropped, ← whole, List.drop_left]
  refine ⟨left, ?_, leftClean, ?_⟩
  · rw [← behind, whole]
  · rw [← dropped]
    exact reads_drop room split

/-! ## The pieces of a line -/

/-- A piece of a line is its end, with the newline, or fills the buffer. -/
theorem piece_shape {size : Nat} (room : 2 ≤ size) {line piece : List α} (clean : newline ∉ line)
    (member : piece ∈ reads newline size (line ++ [newline])) :
    (∃ text, piece = text ++ [newline] ∧ newline ∉ text) ∨
      (piece.length = size - 1 ∧ newline ∉ piece) := by
  induction length : line.length using Nat.strongRecOn generalizing line with
  | ind bound induction =>
      by_cases fits : line.length < size - 1
      · rw [reads_line clean (by omega), List.mem_singleton] at member
        exact .inl ⟨line, member, clean⟩
      · have long : size - 1 ≤ line.length := Nat.le_of_not_lt fits
        rw [reads_long_line room clean long] at member
        rcases List.mem_cons.mp member with first | later
        · rw [first]
          refine .inr ⟨?_, fun inPiece => clean (List.mem_of_mem_take inPiece)⟩
          rw [List.length_take, Nat.min_eq_left long]
        · exact induction _ (by rw [List.length_drop]; omega)
            (fun member => clean (List.mem_of_mem_drop member)) later rfl

/-- The text at the end of a line is a piece of its own when it starts where the buffer
has been filled some number of times. -/
theorem end_piece_mem_iff {size : Nat} (room : 2 ≤ size) {line text : List α}
    (clean : newline ∉ line) (nonempty : text ≠ []) (short : text.length < size - 1) :
    text ++ [newline] ∈ reads newline size (line ++ [newline]) ↔
      ∃ count, line.drop (count * (size - 1)) = text := by
  induction length : line.length using Nat.strongRecOn generalizing line with
  | ind bound induction =>
      by_cases fits : line.length < size - 1
      · rw [reads_line clean (by omega), List.mem_singleton]
        constructor
        · intro equal
          exact ⟨0, by simpa using (List.append_cancel_right equal).symm⟩
        · intro found
          rcases found with ⟨count, dropped⟩
          cases count with
          | zero => simpa using dropped.symm
          | succ count =>
              rw [drop_succ_mul, List.drop_of_length_le (Nat.le_of_lt fits), List.drop_nil]
                at dropped
              exact absurd dropped.symm nonempty
      · have long : size - 1 ≤ line.length := Nat.le_of_not_lt fits
        rw [reads_long_line room clean long, List.mem_cons, or_iff_right,
          induction _ (by rw [List.length_drop]; omega)
            (fun member => clean (List.mem_of_mem_drop member)) rfl]
        · constructor
          · intro found
            rcases found with ⟨count, dropped⟩
            exact ⟨count + 1, by rwa [drop_succ_mul]⟩
          · intro found
            rcases found with ⟨count, dropped⟩
            cases count with
            | zero =>
                rw [Nat.zero_mul, List.drop_zero] at dropped
                rw [dropped] at long
                omega
            | succ count => exact ⟨count, by rwa [drop_succ_mul] at dropped⟩
        · intro equal
          have inLine : newline ∈ line.take (size - 1) := by
            rw [← equal]
            simp
          exact clean (List.mem_of_mem_take inLine)

end SystemsRepository.Foundation.Text
