import SystemsRepository.TcpChat.Connection

/-! # Messages and their answers

The client takes what one `recv` returns for the answer to its message. It is the
answer when the whole message has been echoed and the call returns all of it.
-/

namespace SystemsRepository.TcpChat

open SystemsRepository.Foundation

def inputLines (stdin : List Byte) : List (List Byte) := Text.reads newline bufferSize stdin

namespace Connection

def Faulted (connection : Connection) : Prop :=
  connection.client.phase = .faulted ∨ connection.service = .faulted

/-- The texts printed after the lines that have been sent are these lines, and until
there are as many as lines nobody has left a buffer. -/
structure Lockstep (lines : List (List Byte)) (connection : Connection) : Prop where
  texts : connection.client.echoed.take lines.length =
    lines.take connection.client.echoed.length
  defined : connection.client.echoed.length < lines.length → ¬connection.Faulted

/-- Where the client waits for the answer to a line, `recv` is called when the server
has read everything, and returns everything that it has sent. -/
def AnswersWhole (lines : List (List Byte)) (connection : Connection) : Event → Prop
  | .receive (.bytes count) =>
      connection.client.echoed.length < lines.length →
        connection.toServer = [] ∧ count = connection.toClient.length
  | _ => True

instance (lines : List (List Byte)) (connection : Connection) :
    ∀ event, Decidable (connection.AnswersWhole lines event)
  | .send _ => .isTrue trivial
  | .serve _ => .isTrue trivial
  | .receive .closed => .isTrue trivial
  | .receive .failed => .isTrue trivial
  | .receive (.bytes _) => inferInstanceAs (Decidable (_ → _ ∧ _))

/-! ## The invariant -/

/-- One line is in flight at a time, until all lines have been answered. -/
inductive Aligned (lines : List (List Byte)) (connection : Connection) : Prop
  | prompting (phase : connection.client.phase = .prompting)
      (sound : connection.service ≠ .faulted)
      (rest : lines = connection.client.echoed ++ inputLines connection.client.stdin)
      (served : connection.toServer = []) (received : connection.toClient = [])
  | receiving (line : List Byte) (phase : connection.client.phase = .receiving)
      (sound : connection.service ≠ .faulted)
      (rest : lines = connection.client.echoed ++ line :: inputLines connection.client.stdin)
      (flight : connection.toClient ++ connection.toServer = line)
  | left (message : String) (phase : connection.client.phase = .left message)
      (sound : connection.service ≠ .faulted)
      (answered : connection.client.echoed <+: lines)
      (short : connection.toServer.length < bufferSize)
  | answered (all : lines <+: connection.client.echoed)

variable {lines : List (List Byte)} {connection next : Connection}

private theorem Lockstep.ofPrefix (answered : connection.client.echoed <+: lines)
    (sound : ¬connection.Faulted) : Lockstep lines connection where
  texts := by
    rw [List.take_of_length_le answered.length_le]
    exact List.prefix_iff_eq_take.mp answered
  defined _ := sound

theorem Aligned.lockstep (aligned : Aligned lines connection) : Lockstep lines connection := by
  cases aligned with
  | prompting phase sound rest _ _ =>
      exact .ofPrefix ⟨_, rest.symm⟩ (by simp [Faulted, phase, sound])
  | receiving line phase sound rest _ =>
      exact .ofPrefix ⟨_, rest.symm⟩ (by simp [Faulted, phase, sound])
  | left message phase sound answered _ =>
      exact .ofPrefix answered (by simp [Faulted, phase, sound])
  | answered all =>
      refine ⟨?_, fun fewer => absurd all.length_le (Nat.not_le_of_lt fewer)⟩
      rw [List.take_of_length_le all.length_le]
      exact (List.prefix_iff_eq_take.mp all).symm

/-! ## What a step preserves -/

namespace Aligned

/-- The lines that `fgets` delivers. -/
structure Plain (line : List Byte) : Prop where
  clean : nul ∉ line
  short : line.length < bufferSize

theorem plain_inputLines {stdin : List Byte} (clean : nul ∉ stdin) :
    ∀ line ∈ inputLines stdin, Plain line := by
  intro line member
  refine ⟨?_, Text.reads_length_lt (by decide) member⟩
  intro inside
  rw [← @Text.reads_flatten _ _ newline bufferSize (by decide) stdin] at clean
  exact clean (List.mem_flatten_of_mem member inside)

private theorem ofAnswered (all : lines <+: connection.client.echoed) {event : Event}
    (stepped : connection.step event = some next) : Aligned lines next := by
  rcases step_echoed stepped with ⟨more, grown⟩
  refine .answered ?_
  rw [grown]
  exact all.trans (List.prefix_append _ _)

private theorem toServer_short {line : List Byte} (plain : Plain line)
    (flight : connection.toClient ++ connection.toServer = line) :
    connection.toServer.length < bufferSize := by
  have lengths := congrArg List.length flight
  rw [List.length_append] at lengths
  exact Nat.lt_of_le_of_lt (by omega) plain.short

theorem send (plain : ∀ line ∈ lines, Plain line)
    (sound : connection.service ≠ .faulted)
    (rest : lines = connection.client.echoed ++ inputLines connection.client.stdin)
    (served : connection.toServer = []) (received : connection.toClient = [])
    {succeeds : Bool} (stepped : connection.step (.send succeeds) = some next) :
    Aligned lines next := by
  simp only [step] at stepped
  split at stepped
  next =>
    cases stepped
    cases read : Text.fgets newline bufferSize connection.client.stdin with
    | none =>
        refine .answered ?_
        rw [rest, Client.send_echoed, Text.eq_nil_of_fgets read]
        simp [inputLines]
    | some piece =>
        rcases piece with ⟨line, stdin⟩
        have first : inputLines connection.client.stdin = line :: inputLines stdin :=
          Text.reads_of_fgets (by decide) read
        have here := plain line (by simp [rest, first])
        rcases @Client.send_line _ line stdin succeeds read here.clean with ⟨buffer, sent⟩
        rw [first] at rest
        rw [sent]
        cases succeeds with
        | true => exact .receiving line rfl sound rest (by simp [served, received])
        | false => exact .left _ rfl sound ⟨_, rest.symm⟩ (by simp [served])
  next => cases stepped

theorem serve (plain : ∀ line ∈ lines, Plain line) (aligned : Aligned lines connection)
    {delivery : Delivery} (stepped : connection.step (.serve delivery) = some next) :
    Aligned lines next := by
  cases aligned with
  | prompting phase sound rest served received =>
      rcases serve_cases stepped (by simp [served]) sound with ⟨same, nextSound, idle | taken⟩
      · exact .prompting (by rw [same, phase]) nextSound (by rw [same]; exact rest)
          (by rw [idle.1, served]) (by rw [idle.2, received])
      · rcases taken with ⟨chunk, text, _, split, _⟩
        rw [served] at split
        have positive := chunk.positive
        rw [(List.append_eq_nil_iff.mp split).1] at positive
        cases positive
  | receiving line phase sound rest flight =>
      have here := plain line (by simp [rest])
      have short := toServer_short here flight
      rcases serve_cases stepped short sound with ⟨same, nextSound, idle | taken⟩
      · exact .receiving line (by rw [same, phase]) nextSound (by rw [same]; exact rest)
          (by rw [idle.1, idle.2, flight])
      · rcases taken with ⟨chunk, text, echoed, split, sent⟩
        have clean : nul ∉ chunk.bytes := fun inside =>
          here.clean (by simp [← flight, ← split, inside])
        have few : chunk.bytes.length < bufferSize := by
          have parts := congrArg List.length split
          rw [List.length_append] at parts
          omega
        rw [echo_whole few clean] at echoed
        cases echoed
        refine .receiving line (by rw [same, phase]) nextSound (by rw [same]; exact rest) ?_
        rw [sent, List.append_assoc, split, flight]
  | left message phase sound answered short =>
      rcases serve_cases stepped short sound with ⟨same, nextSound, idle | taken⟩
      · exact .left message (by rw [same, phase]) nextSound (by rw [same]; exact answered)
          (by rw [idle.1]; exact short)
      · rcases taken with ⟨chunk, text, _, split, _⟩
        have parts := congrArg List.length split
        rw [List.length_append] at parts
        exact .left message (by rw [same, phase]) nextSound (by rw [same]; exact answered)
          (by omega)
  | answered all => exact ofAnswered all stepped

theorem receive (plain : ∀ line ∈ lines, Plain line) (aligned : Aligned lines connection)
    {delivery : Delivery} (stepped : connection.step (.receive delivery) = some next)
    (whole : connection.AnswersWhole lines (.receive delivery)) : Aligned lines next := by
  rcases receive_cases stepped with ⟨receives, outcome⟩
  cases aligned with
  | prompting phase _ _ _ _ =>
      rw [phase] at receives
      cases receives
  | left message phase _ _ _ =>
      rw [phase] at receives
      cases receives
  | receiving line phase sound rest flight =>
      have here := plain line (by simp [rest])
      rcases outcome with ⟨_, message, rfl⟩ | ⟨count, chunk, rfl, bytes, _, rfl⟩
      · exact .left message rfl sound ⟨_, rest.symm⟩ (toServer_short here flight)
      · have pending : connection.client.echoed.length < lines.length := by simp [rest]
        rcases whole pending with ⟨served, all⟩
        have text : chunk.bytes = line := by
          rw [bytes, all, List.take_length, ← flight, served, List.append_nil]
        rcases @Client.receive_text connection.client chunk (text ▸ here.short)
          (text ▸ here.clean) with ⟨buffer, printed⟩
        rw [printed, text]
        exact .prompting rfl sound (by simp [rest]) served (by simp [all])
  | answered all => exact ofAnswered all stepped

/-- Every step keeps the invariant, unless an answer is not taken whole. -/
theorem keeps (plain : ∀ line ∈ lines, Plain line) (aligned : Aligned lines connection)
    {event : Event} (stepped : connection.step event = some next)
    (whole : connection.AnswersWhole lines event) : Aligned lines next := by
  cases event with
  | serve delivery => exact aligned.serve plain stepped
  | receive delivery => exact aligned.receive plain stepped whole
  | send succeeds =>
      cases aligned with
      | prompting phase sound rest served received =>
          exact send plain sound rest served received stepped
      | receiving line phase _ _ _ => simp [step, phase] at stepped
      | left message phase _ _ _ => simp [step, phase] at stepped
      | answered all => exact ofAnswered all stepped

theorem breaks (plain : ∀ line ∈ lines, Plain line) (aligned : Aligned lines connection)
    {event : Event} (stepped : connection.step event = some next)
    (cut : ¬connection.AnswersWhole lines event) : ¬Lockstep lines next := by
  cases event with
  | send succeeds => exact absurd trivial cut
  | serve delivery => exact absurd trivial cut
  | receive delivery =>
      rcases receive_cases stepped with
        ⟨receives, ⟨failed, _⟩ | ⟨count, chunk, rfl, bytes, room, rfl⟩⟩
      · cases delivery with
        | closed => exact absurd trivial cut
        | failed => exact absurd trivial cut
        | bytes count => exact absurd rfl (failed count)
      simp only [AnswersWhole, Classical.not_imp] at cut
      rcases cut with ⟨fewer, cut⟩
      cases aligned with
      | prompting phase _ _ _ _ =>
          rw [phase] at receives
          cases receives
      | left message phase _ _ _ =>
          rw [phase] at receives
          cases receives
      | answered all => exact absurd all.length_le (Nat.not_le_of_lt fewer)
      | receiving line phase sound rest flight =>
          have here := plain line (by simp [rest])
          have lengths := congrArg List.length flight
          have taken := congrArg List.length bytes
          rw [List.length_append] at lengths
          rw [List.length_take_of_le room] at taken
          have clean : nul ∉ chunk.bytes := by
            rw [bytes]
            exact fun inside => here.clean (by simp [← flight, List.mem_of_mem_take inside])
          rcases @Client.receive_text connection.client chunk
            (Nat.lt_of_le_of_lt (by omega) here.short) clean with ⟨buffer, printed⟩
          intro lockstep
          have texts := lockstep.texts
          rw [printed] at texts
          have same : chunk.bytes = line := by
            simpa [rest, List.take_append] using texts
          rw [same] at taken
          exact cut ⟨List.eq_nil_of_length_eq_zero (by omega), by omega⟩

end Aligned

/-! ## Runs -/

theorem aligned_start (stdin buffer : List Byte) :
    Aligned (inputLines stdin) (start stdin buffer) :=
  .prompting rfl (by simp [start]) rfl rfl rfl

end Connection

/-- Every text the client prints is the line it has sent, and nobody leaves a buffer,
exactly when each answer to a line is received after the server has read the line and
in one piece. -/
theorem lockstep_iff {stdin : List Byte} (clean : nul ∉ stdin) (buffer : List Byte)
    {events : List Event} {final : Connection}
    (ran : Connection.machine.run events (Connection.start stdin buffer) = some final) :
    Connection.machine.Always (Connection.Lockstep (inputLines stdin))
        (Connection.start stdin buffer) events ↔
      Connection.machine.Permits (fun connection => connection.AnswersWhole (inputLines stdin))
        (Connection.start stdin buffer) events := by
  have plain := Connection.Aligned.plain_inputLines clean
  apply Machine.always_iff_permits Connection.machine (Connection.Aligned (inputLines stdin))
  · intro connection aligned
    exact aligned.lockstep
  · intro connection event next aligned stepped whole
    exact aligned.keeps plain stepped whole
  · intro connection event next aligned stepped cut
    exact aligned.breaks plain stepped cut
  · exact Connection.aligned_start stdin buffer
  · exact ran

def unset : List Byte := List.replicate bufferSize 0

theorem lockstep_iff_of_greeting :
    (Connection.machine.run
        [.send true, .serve (.bytes 2), .serve (.bytes 1), .receive (.bytes 3)]
        (Connection.start [104, 105, 10] unset)).map (fun final => final.client.echoed) =
      some [[104, 105, 10]] ∧
      Connection.machine.Always (Connection.Lockstep (inputLines [104, 105, 10]))
        (Connection.start [104, 105, 10] unset)
        [.send true, .serve (.bytes 2), .serve (.bytes 1), .receive (.bytes 3)] := by
  have echoed : (Connection.machine.run
      [.send true, .serve (.bytes 2), .serve (.bytes 1), .receive (.bytes 3)]
      (Connection.start [104, 105, 10] unset)).map (fun final => final.client.echoed) =
      some [[104, 105, 10]] := by decide +kernel
  rcases Option.map_eq_some_iff.mp echoed with ⟨final, ran, _⟩
  exact ⟨echoed, (lockstep_iff (by decide) unset ran).mpr (by decide +kernel)⟩

def longLine : List Byte := List.replicate 1000 97 ++ [newline]

/-- The server sends `a` before it has read the rest of the line `ab`. When two long
lines are answered late, the terminator is written behind the buffer. -/
theorem answer_cut_short :
    (Connection.machine.run [.send true, .serve (.bytes 1), .receive (.bytes 1)]
        (Connection.start [97, 98, 10] unset)).map (fun final => final.client.echoed) =
      some [[97]] ∧
      inputLines [97, 98, 10] = [[97, 98, 10]] ∧
      (Connection.machine.run
        [.send true, .serve (.bytes 1001), .receive (.bytes 1),
          .send true, .serve (.bytes 1001), .receive (.bytes 1024)]
        (Connection.start (longLine ++ longLine) unset)).map (fun final => final.client.phase) =
      some .faulted ∧
      ¬∀ final, Connection.machine.run [.send true, .serve (.bytes 1), .receive (.bytes 1)]
          (Connection.start [97, 98, 10] unset) = some final →
        Connection.Lockstep (inputLines [97, 98, 10]) final := by
  have echoed : (Connection.machine.run [.send true, .serve (.bytes 1), .receive (.bytes 1)]
      (Connection.start [97, 98, 10] unset)).map (fun final => final.client.echoed) =
      some [[97]] := by decide +kernel
  refine ⟨echoed, by decide +kernel, by decide +kernel, ?_⟩
  intro lockstep
  rcases Option.map_eq_some_iff.mp echoed with ⟨final, ran, printed⟩
  have texts := (lockstep final ran).texts
  rw [printed] at texts
  exact absurd texts (by decide +kernel)

end SystemsRepository.TcpChat
