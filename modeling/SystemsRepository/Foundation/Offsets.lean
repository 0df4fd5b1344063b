/-! # Files written at an offset

The contents of a file as a list. A write overlays what is there from its offset
on; behind the end of the file the gap is filled with zeros.
-/

namespace SystemsRepository.Foundation

def writeAt (zero : α) (content : List α) (offset : Nat) (written : List α) : List α :=
  if written = [] then content
  else
    content.take offset ++ List.replicate (offset - content.length) zero ++
      (written ++ content.drop (offset + written.length))

variable {zero : α} {content written : List α} {offset position : Nat}

theorem writeAt_length_le {limit : Nat} (room : offset + written.length ≤ limit)
    (fits : content.length ≤ limit) : (writeAt zero content offset written).length ≤ limit := by
  unfold writeAt
  split
  · exact fits
  · simp only [List.length_append, List.length_take, List.length_replicate, List.length_drop]
    omega

private theorem length_before :
    (content.take offset ++ List.replicate (offset - content.length) zero).length = offset := by
  rw [List.length_append, List.length_take, List.length_replicate]
  omega

theorem writeAt_getElem?_lt (before : position < offset) (inside : position < content.length) :
    (writeAt zero content offset written)[position]? = content[position]? := by
  unfold writeAt
  split
  · rfl
  · rw [List.getElem?_append_left (by rw [length_before]; exact before),
      List.getElem?_append_left (by rw [List.length_take]; omega), List.getElem?_take,
      if_pos before]

theorem writeAt_getElem?_written (reached : offset ≤ position)
    (inside : position < offset + written.length) :
    (writeAt zero content offset written)[position]? = written[position - offset]? := by
  rw [writeAt, if_neg (by rintro rfl; rw [List.length_nil] at inside; omega),
    List.getElem?_append_right (by rw [length_before]; exact reached), length_before,
    List.getElem?_append_left (by omega)]

theorem writeAt_getElem?_ge (behind : offset + written.length ≤ position) :
    (writeAt zero content offset written)[position]? = content[position]? := by
  unfold writeAt
  split
  · rfl
  · rw [List.getElem?_append_right (by rw [length_before]; omega), length_before,
      List.getElem?_append_right (by omega), List.getElem?_drop]
    congr 1
    omega

theorem writeAt_end (zero : α) (content written : List α) :
    writeAt zero content content.length written = content ++ written := by
  unfold writeAt
  split
  next nothing => rw [nothing, List.append_nil]
  next =>
    rw [List.take_length, Nat.sub_self, List.replicate_zero, List.append_nil,
      List.drop_of_length_le (Nat.le_add_right _ _), List.append_nil]

end SystemsRepository.Foundation
