import SystemsRepository.Foundation.Framing
import Mathlib.Logic.Function.Iterate

/-! # Loops over the lines of a stream

A loop that reads a stream with `fgets` until an input makes it leave. It goes by
what `fgets` stores, which need not be a line.
-/

namespace SystemsRepository.Foundation.Text

variable {α : Type u}

/-! ## The windows of a line -/

/-- What a buffer gets of a line after it has been filled so many times. -/
def window (width index : Nat) (line : List α) : List α := (line.drop (index * width)).take width

theorem window_zero (width : Nat) (line : List α) : window width 0 line = line.take width := by
  rw [window, Nat.zero_mul, List.drop_zero]

theorem window_succ (width index : Nat) (line : List α) :
    window width (index + 1) line = window width index (line.drop width) := by
  rw [window, window, drop_succ_mul]

theorem window_of_short {width : Nat} {line : List α} (short : line.length ≤ width) {index : Nat}
    (later : index ≠ 0) : window width index line = [] := by
  rcases Nat.exists_eq_succ_of_ne_zero later with ⟨fewer, rfl⟩
  rw [Nat.succ_eq_add_one, window_succ, List.drop_of_length_le short, window, List.drop_nil,
    List.take_nil]

theorem all_but_one_of_first {values : Nat → Bool} (first : values 0 = true) :
    (∃ count, ∀ index, index ≠ count → values index = false) ↔
      ∀ index, values (index + 1) = false := by
  constructor
  · intro found index
    rcases found with ⟨count, others⟩
    have here : count = 0 := by
      apply Classical.byContradiction
      intro later
      rw [others 0 (Ne.symm later)] at first
      cases first
    exact others (index + 1) (by omega)
  · intro others
    refine ⟨0, fun index later => ?_⟩
    rcases Nat.exists_eq_succ_of_ne_zero later with ⟨fewer, rfl⟩
    exact others fewer

theorem all_but_one_of_later {values : Nat → Bool} (first : values 0 = false) :
    (∃ count, ∀ index, index ≠ count → values index = false) ↔
      ∃ count, ∀ index, index ≠ count → values (index + 1) = false := by
  constructor
  · intro found
    rcases found with ⟨count, others⟩
    exact ⟨count - 1, fun index different => others (index + 1) (by omega)⟩
  · intro found
    rcases found with ⟨count, others⟩
    refine ⟨count + 1, fun index different => ?_⟩
    cases index with
    | zero => exact first
    | succ index => exact others index (by omega)

section Pieces

variable [DecidableEq α] {newline : α} {size : Nat} {works : List α → Bool}

theorem filter_pieces_eq_nil_iff (room : 2 ≤ size)
    (ending : ∀ text, newline ∉ text → works (text ++ [newline]) = works text)
    (nothing : works [] = false) {line : List α} (clean : newline ∉ line) :
    (reads newline size (line ++ [newline])).filter works = [] ↔
      ∀ index, works (window (size - 1) index line) = false := by
  induction length : line.length using Nat.strongRecOn generalizing line with
  | ind bound induction =>
      by_cases fits : line.length < size - 1
      · have first := window_zero (size - 1) line
        rw [List.take_of_length_le (Nat.le_of_lt fits)] at first
        rw [reads_line clean (by omega), List.filter_eq_nil_iff]
        simp only [List.mem_singleton, forall_eq, Bool.not_eq_true, ending line clean]
        constructor
        · intro quiet index
          by_cases later : index = 0
          · rw [later, first, quiet]
          · rw [window_of_short (Nat.le_of_lt fits) later, nothing]
        · intro quiet
          rw [← first, quiet]
      · have long : size - 1 ≤ line.length := Nat.le_of_not_lt fits
        have rest := induction (line.drop (size - 1)).length (by rw [List.length_drop]; omega)
          (fun member => clean (List.mem_of_mem_drop member)) rfl
        rw [reads_long_line room clean long]
        constructor
        · intro quiet index
          have parts := List.filter_eq_nil_iff.mp quiet
          cases index with
          | zero =>
              rw [window_zero]
              simpa using parts _ List.mem_cons_self
          | succ index =>
              rw [window_succ]
              apply rest.mp
              apply List.filter_eq_nil_iff.mpr
              exact fun piece member => parts piece (List.mem_cons_of_mem _ member)
        · intro quiet
          have first := quiet 0
          rw [window_zero] at first
          rw [List.filter_cons_of_neg (by rw [first]; exact Bool.false_ne_true)]
          apply rest.mpr
          intro index
          rw [← window_succ]
          exact quiet (index + 1)

/-- Of the pieces of a line at most one does something exactly when all windows but one do
nothing. -/
theorem filter_pieces_le_one_iff (room : 2 ≤ size)
    (ending : ∀ text, newline ∉ text → works (text ++ [newline]) = works text)
    (nothing : works [] = false) {line : List α} (clean : newline ∉ line) :
    ((reads newline size (line ++ [newline])).filter works).length ≤ 1 ↔
      ∃ count, ∀ index, index ≠ count → works (window (size - 1) index line) = false := by
  induction length : line.length using Nat.strongRecOn generalizing line with
  | ind bound induction =>
      by_cases fits : line.length < size - 1
      · rw [reads_line clean (by omega)]
        apply iff_of_true
        · exact Nat.le_trans (List.length_filter_le _ _) (Nat.le_refl 1)
        · refine ⟨0, fun index later => ?_⟩
          rw [window_of_short (Nat.le_of_lt fits) later, nothing]
      · have long : size - 1 ≤ line.length := Nat.le_of_not_lt fits
        have restClean : newline ∉ line.drop (size - 1) :=
          fun member => clean (List.mem_of_mem_drop member)
        rw [reads_long_line room clean long]
        cases first : works (line.take (size - 1)) with
        | true =>
            have here : works (window (size - 1) 0 line) = true := by rw [window_zero, first]
            rw [List.filter_cons_of_pos first, List.length_cons, Nat.succ_le_succ_iff,
              Nat.le_zero, List.length_eq_zero_iff,
              filter_pieces_eq_nil_iff room ending nothing restClean,
              @all_but_one_of_first (fun index => works (window (size - 1) index line)) here]
            simp only [window_succ]
        | false =>
            have here : works (window (size - 1) 0 line) = false := by rw [window_zero, first]
            rw [List.filter_cons_of_neg (by rw [first]; exact Bool.false_ne_true),
              induction _ (by rw [List.length_drop]; omega) restClean rfl,
              @all_but_one_of_later (fun index => works (window (size - 1) index line)) here]
            simp only [window_succ]

/-- In front of a piece that does something no piece shows anything, exactly when this is true
of the windows. -/
theorem pairwise_pieces_iff (room : 2 ≤ size) {shows : List α → Bool}
    (ending : ∀ text, newline ∉ text → works (text ++ [newline]) = works text)
    (nothing : works [] = false) {line : List α} (clean : newline ∉ line) :
    (reads newline size (line ++ [newline])).Pairwise
        (fun earlier later => works later = true → shows earlier = false) ↔
      ∀ earlier later, earlier < later → works (window (size - 1) later line) = true →
        shows (window (size - 1) earlier line) = false := by
  induction length : line.length using Nat.strongRecOn generalizing line with
  | ind bound induction =>
      by_cases fits : line.length < size - 1
      · rw [reads_line clean (by omega)]
        apply iff_of_true (List.pairwise_singleton _ _)
        intro earlier later order acts
        rw [window_of_short (Nat.le_of_lt fits) (Nat.ne_of_gt (Nat.zero_lt_of_lt order)),
          nothing] at acts
        cases acts
      · have long : size - 1 ≤ line.length := Nat.le_of_not_lt fits
        have restClean : newline ∉ line.drop (size - 1) :=
          fun member => clean (List.mem_of_mem_drop member)
        have quiet := filter_pieces_eq_nil_iff room ending nothing restClean
        have further := induction (line.drop (size - 1)).length (by rw [List.length_drop]; omega)
          restClean rfl
        simp only [List.filter_eq_nil_iff, Bool.not_eq_true] at quiet
        rw [reads_long_line room clean long, List.pairwise_cons, further]
        constructor
        · intro parts earlier later order acts
          rcases Nat.exists_eq_add_of_lt order with ⟨between, rfl⟩
          rw [window_succ] at acts
          cases earlier with
          | zero =>
              rw [window_zero]
              cases shown : shows (line.take (size - 1)) with
              | false => rfl
              | true =>
                  have still := quiet.mp (fun piece member => by
                    cases moves : works piece with
                    | false => rfl
                    | true =>
                        have hidden := parts.1 piece member moves
                        rw [shown] at hidden
                        cases hidden) (0 + between)
                  rw [acts] at still
                  cases still
          | succ earlier =>
              rw [window_succ]
              exact parts.2 earlier _ (by omega) acts
        · intro windows
          constructor
          · intro piece member acts
            cases shown : shows (line.take (size - 1)) with
            | false => rfl
            | true =>
                have still := quiet.mpr (fun index => by
                  cases moves : works (window (size - 1) index (line.drop (size - 1))) with
                  | false => rfl
                  | true =>
                      rw [← window_succ] at moves
                      have hidden := windows 0 (index + 1) (Nat.succ_pos _) moves
                      rw [window_zero, shown] at hidden
                      cases hidden) piece member
                rw [acts] at still
                cases still
          · intro earlier later order acts
            rw [← window_succ] at acts ⊢
            exact windows (earlier + 1) (later + 1) (Nat.succ_lt_succ order) acts

end Pieces

/-! ## Marked characters -/

def Unmarked (marked : α → Bool) (text : List α) : Prop := ∀ char ∈ text, marked char = false

theorem any_eq_false_iff {marked : α → Bool} {text : List α} :
    text.any marked = false ↔ Unmarked marked text := by
  simp [Unmarked]

theorem mem_window_iff {width : Nat} (positive : 0 < width) {index : Nat} {text : List α}
    {char : α} :
    char ∈ window width index text ↔ ∃ place, place / width = index ∧ text[place]? = some char := by
  rw [List.mem_iff_getElem?]
  simp only [window, List.getElem?_take, List.getElem?_drop]
  constructor
  · intro found
    rcases found with ⟨offset, found⟩
    split at found
    next inside =>
      refine ⟨index * width + offset, ?_, found⟩
      rw [Nat.mul_comm, Nat.mul_add_div positive, Nat.div_eq_of_lt inside, Nat.add_zero]
    next => cases found
  · intro found
    rcases found with ⟨place, rfl, found⟩
    refine ⟨place % width, ?_⟩
    rw [if_pos (Nat.mod_lt _ positive), Nat.div_add_mod']
    exact found

theorem unmarked_windows_iff {width : Nat} (positive : 0 < width) {marked : α → Bool}
    {text : List α} {count : Nat} :
    (∀ index, index ≠ count → Unmarked marked (window width index text)) ↔
      Unmarked marked (text.take (count * width)) ∧
        Unmarked marked (text.drop ((count + 1) * width)) := by
  constructor
  · intro windows
    have elsewhere : ∀ place char, place / width ≠ count → text[place]? = some char →
        marked char = false := fun place char other found =>
      windows _ other char ((mem_window_iff positive).mpr ⟨place, rfl, found⟩)
    constructor
    · intro char member
      rcases List.mem_iff_getElem?.mp member with ⟨place, found⟩
      rw [List.getElem?_take] at found
      split at found
      next before =>
        have smaller := (Nat.div_lt_iff_lt_mul positive).mpr before
        exact elsewhere place char (Nat.ne_of_lt smaller) found
      next => cases found
    · intro char member
      rcases List.mem_iff_getElem?.mp member with ⟨offset, found⟩
      rw [List.getElem?_drop] at found
      have behind : count + 1 ≤ ((count + 1) * width + offset) / width :=
        (Nat.le_div_iff_mul_le positive).mpr (Nat.le_add_right _ _)
      exact elsewhere _ char (Nat.ne_of_gt behind) found
  · intro sides index other char member
    rcases (mem_window_iff positive).mp member with ⟨place, rfl, found⟩
    rcases Nat.lt_or_gt_of_ne other with earlier | later
    · apply sides.1
      apply List.mem_iff_getElem?.mpr
      refine ⟨place, ?_⟩
      rw [List.getElem?_take, if_pos ((Nat.div_lt_iff_lt_mul positive).mp earlier)]
      exact found
    · apply sides.2
      apply List.mem_iff_getElem?.mpr
      refine ⟨place - (count + 1) * width, ?_⟩
      rw [List.getElem?_drop, Nat.add_sub_of_le ((Nat.le_div_iff_mul_le positive).mp later)]
      exact found

/-- Of the pieces of a line at most one has a mark exactly when all marks lie in one
window of the size of a piece. -/
theorem marked_pieces_le_one_iff [DecidableEq α] {newline : α} {size : Nat} (room : 2 ≤ size)
    {marked : α → Bool} (newlineUnmarked : marked newline = false) {line : List α}
    (clean : newline ∉ line) :
    ((reads newline size (line ++ [newline])).filter fun piece => piece.any marked).length ≤ 1 ↔
      ∃ count, Unmarked marked (line.take (count * (size - 1))) ∧
        Unmarked marked (line.drop ((count + 1) * (size - 1))) := by
  have ending : ∀ text, newline ∉ text → (text ++ [newline]).any marked = text.any marked := by
    intro text _
    simp [newlineUnmarked]
  rw [filter_pieces_le_one_iff room ending rfl clean]
  apply exists_congr
  intro count
  rw [← unmarked_windows_iff (by omega)]
  simp only [any_eq_false_iff]

/-! ## The loop -/

/-- `handled` has what `fgets` stored in the rounds so far. -/
inductive Loop (α : Type u)
  | reading (stream : List α) (handled : List (List α))
  | halted (handled : List (List α))
  deriving DecidableEq, Repr

section Rounds

variable [DecidableEq α] (newline : α) (size : Nat) (leaves : List α → Bool)

/-- One round. At the end of the stream the loop goes on reading. -/
def round : Loop α → Loop α
  | .reading stream handled =>
      match fgets newline size stream with
      | none => .reading stream handled
      | some (input, rest) =>
          if leaves input then .halted handled else .reading rest (handled ++ [input])
  | .halted handled => .halted handled

def rounds (count : Nat) : Loop α → Loop α := (round newline size leaves)^[count]

/-- The lines in front of the first one that makes the loop leave. -/
def linesBefore (stream : List α) : List (List α) :=
  (lines newline stream).takeWhile fun line => !leaves line

/-- The loop leaves, and has then handled the lines in front of the first one that makes it
leave. -/
def LeavesAtLine (stream : List α) : Prop :=
  ∃ count, rounds newline size leaves count (.reading stream []) =
    .halted ((linesBefore newline leaves stream).flatMap (reads newline size))

variable {newline size leaves}

theorem rounds_halted (count : Nat) (handled : List (List α)) :
    rounds newline size leaves count (.halted handled) = .halted handled :=
  Function.iterate_fixed rfl count

theorem rounds_end (count : Nat) (handled : List (List α)) :
    rounds newline size leaves count (.reading [] handled) = .reading [] handled :=
  Function.iterate_fixed rfl count

theorem rounds_reading {stream : List α} {handled final : List (List α)} :
    (∃ count, rounds newline size leaves count (.reading stream handled) = .halted final) ↔
      ∃ count, rounds newline size leaves count
        (round newline size leaves (.reading stream handled)) = .halted final := by
  constructor
  · intro halts
    rcases halts with ⟨count, halts⟩
    cases count with
    | zero => cases halts
    | succ count => exact ⟨count, halts⟩
  · intro halts
    rcases halts with ⟨count, halts⟩
    exact ⟨count + 1, halts⟩

/-- The loop halts at the first piece that makes it leave, and has then handled the pieces
before it. -/
theorem rounds_halt_iff (room : 2 ≤ size) {stream : List α} {handled final : List (List α)} :
    (∃ count, rounds newline size leaves count (.reading stream handled) = .halted final) ↔
      final = handled ++ (reads newline size stream).takeWhile (fun piece => !leaves piece) ∧
        ∃ piece ∈ reads newline size stream, leaves piece = true := by
  induction pieces : reads newline size stream generalizing stream handled with
  | nil =>
      cases read : fgets newline size stream with
      | none =>
          rw [eq_nil_of_fgets read]
          simp [rounds_end]
      | some found =>
          rw [reads_of_fgets room read] at pieces
          cases pieces
  | cons piece later induction =>
      cases read : fgets newline size stream with
      | none =>
          rw [eq_nil_of_fgets read] at pieces
          cases pieces
      | some found =>
          rcases found with ⟨first, rest⟩
          rw [reads_of_fgets room read] at pieces
          rcases List.cons.inj pieces with ⟨rfl, restPieces⟩
          rw [rounds_reading]
          cases leaving : leaves first with
          | true =>
              have halted : round newline size leaves (.reading stream handled) =
                  .halted handled := by
                simp [round, read, leaving]
              rw [halted, List.takeWhile_cons_of_neg (by simp [leaving]), List.append_nil]
              simp only [rounds_halted, exists_const, Loop.halted.injEq]
              constructor
              · exact fun equal => ⟨equal.symm, first, List.mem_cons_self, leaving⟩
              · exact fun found => found.1.symm
          | false =>
              have next : round newline size leaves (.reading stream handled) =
                  .reading rest (handled ++ [first]) := by
                simp [round, read, leaving]
              rw [next, induction restPieces]
              simp [leaving]

theorem rounds_ne_halted (room : 2 ≤ size) {stream : List α}
    (stays : ∀ piece ∈ reads newline size stream, leaves piece = false) (count : Nat)
    (handled final : List (List α)) :
    rounds newline size leaves count (.reading stream handled) ≠ .halted final := by
  intro halted
  rcases ((rounds_halt_iff room).mp ⟨count, halted⟩).2 with ⟨piece, member, leaving⟩
  rw [stays piece member] at leaving
  cases leaving

/-! ## Lines and pieces -/

theorem stays_of_mem_linesBefore {stream line : List α}
    (member : line ∈ linesBefore newline leaves stream) : leaves line = false := by
  have stays := List.all_eq_true.mp List.all_takeWhile line member
  simpa using stays

theorem lines_split_at_leaving {stream : List α}
    (left : ∃ line ∈ lines newline stream, leaves line = true) :
    ∃ first more, lines newline stream = linesBefore newline leaves stream ++ first :: more ∧
      leaves first = true := by
  have split := List.takeWhile_append_dropWhile (p := fun line => !leaves line)
    (l := lines newline stream)
  cases later : (lines newline stream).dropWhile (fun line => !leaves line) with
  | nil =>
      rcases left with ⟨line, member, leaving⟩
      rw [later, List.append_nil] at split
      rw [← split] at member
      rw [stays_of_mem_linesBefore member] at leaving
      cases leaving
  | cons first more =>
      have stopped := List.head_dropWhile_not (fun line => !leaves line)
        (by rw [later]; exact List.cons_ne_nil _ _)
      rw [later] at split
      exact ⟨first, more, split.symm, by simpa [later] using stopped⟩

theorem leaving_line_of_handled (room : 2 ≤ size) {stream piece : List α}
    (handled : (linesBefore newline leaves stream).flatMap (reads newline size) =
      (reads newline size stream).takeWhile fun piece => !leaves piece)
    (member : piece ∈ reads newline size stream) (leaving : leaves piece = true) :
    ∃ line ∈ lines newline stream, leaves line = true := by
  apply Classical.byContradiction
  intro none
  have stays : ∀ line ∈ lines newline stream, (!leaves line) = true := by
    intro line inLines
    cases leavesLine : leaves line with
    | true => exact absurd ⟨line, inLines, leavesLine⟩ none
    | false => rfl
  have all := @List.takeWhile_append_of_pos _ _ _ [] stays
  rw [List.append_nil, List.takeWhile_nil, List.append_nil] at all
  rw [linesBefore, all, ← reads_eq_flatMap_lines room] at handled
  rw [handled] at member
  have kept := List.all_eq_true.mp List.all_takeWhile piece member
  simp [leaving] at kept

/-- When a leaving line is always read whole, the loop leaves at the first one exactly if no
piece of a line before it makes the loop leave. -/
theorem leavesAtLine_iff (room : 2 ≤ size) {stream : List α}
    (whole : ∀ line ∈ lines newline stream, leaves line = true →
      reads newline size line = [line]) :
    LeavesAtLine newline size leaves stream ↔
      (∃ line ∈ lines newline stream, leaves line = true) ∧
        ∀ line ∈ linesBefore newline leaves stream,
          ∀ piece ∈ reads newline size line, leaves piece = false := by
  rw [LeavesAtLine, rounds_halt_iff room, List.nil_append]
  constructor
  · intro halts
    rcases halts with ⟨handled, piece, member, leaving⟩
    refine ⟨leaving_line_of_handled room handled member leaving, ?_⟩
    intro line before other inLine
    have inHandled := List.mem_flatMap.mpr ⟨line, before, inLine⟩
    rw [handled] at inHandled
    have stays := List.all_eq_true.mp List.all_takeWhile other inHandled
    simpa using stays
  · intro framed
    rcases framed with ⟨left, quiet⟩
    rcases lines_split_at_leaving left with ⟨first, more, split, leaving⟩
    have firstMember : first ∈ lines newline stream := by
      rw [split]
      simp
    have pieces : reads newline size stream =
        (linesBefore newline leaves stream).flatMap (reads newline size) ++
          first :: more.flatMap (reads newline size) := by
      rw [reads_eq_flatMap_lines room, split, List.flatMap_append, List.flatMap_cons,
        whole first firstMember leaving]
      rfl
    have stays : ∀ piece ∈ (linesBefore newline leaves stream).flatMap (reads newline size),
        (!leaves piece) = true := by
      intro piece member
      rcases List.mem_flatMap.mp member with ⟨line, before, inLine⟩
      rw [quiet line before piece inLine]
      rfl
    rw [pieces, List.takeWhile_append_of_pos stays,
      List.takeWhile_cons_of_neg (by simp [leaving]), List.append_nil]
    exact ⟨rfl, first, by simp, leaving⟩

end Rounds

end SystemsRepository.Foundation.Text
