import Mathlib

/-! # The echo of `server.c`

`handle_client` sends back the string it finds in its buffer, not the bytes that
`recv` has counted. A function is `none` where it reads past the end of a buffer.
-/

namespace SystemsRepository.TcpChat

abbrev Byte := UInt8

def nul : Byte := 0

abbrev bufferSize : Nat := 1024

/-! ## Strings in buffers -/

def strlen : List Byte → Option Nat
  | [] => none
  | byte :: buffer => if byte = nul then some 0 else (strlen buffer).map (· + 1)

def string (buffer : List Byte) : Option (List Byte) :=
  (strlen buffer).map fun length => buffer.take length

private theorem strlen_append {text : List Byte} (clean : nul ∉ text) (behind : List Byte) :
    strlen (text ++ nul :: behind) = some text.length := by
  induction text with
  | nil => rfl
  | cons byte text induction =>
      have different : byte ≠ nul := fun same => clean (by simp [same])
      have rest := induction fun member => clean (List.mem_cons_of_mem _ member)
      simp [strlen, different, rest]

theorem string_append {text : List Byte} (clean : nul ∉ text) (behind : List Byte) :
    string (text ++ nul :: behind) = some text := by
  simp [string, strlen_append clean]

private theorem strlen_eq_none {buffer : List Byte} (clean : nul ∉ buffer) :
    strlen buffer = none := by
  induction buffer with
  | nil => rfl
  | cons byte buffer induction =>
      have different : byte ≠ nul := fun same => clean (by simp [same])
      have rest := induction fun member => clean (List.mem_cons_of_mem _ member)
      simp [strlen, different, rest]

/-! ## Receiving -/

/-- What a call of `recv` has stored in a buffer. -/
structure Chunk where
  bytes : List Byte
  positive : 0 < bytes.length
  fits : bytes.length ≤ bufferSize
  deriving DecidableEq, Repr

/-- The outcome of `recv`: it returns the number of bytes, 0, or -1. -/
inductive Received
  | stored (chunk : Chunk)
  | closed
  | failed
  deriving DecidableEq, Repr

/-- The buffer of `handle_client`, cleared before the call. -/
def receivedBuffer (chunk : Chunk) : List Byte :=
  chunk.bytes ++ List.replicate (bufferSize - chunk.bytes.length) nul

/-- What is sent back for a chunk. -/
def echo (chunk : Chunk) : Option (List Byte) := string (receivedBuffer chunk)

/-- The texts printed as received, what each `send` is given, and the message with
which the loop ended. -/
structure Session where
  received : List (List Byte)
  sent : List (List Byte)
  ended : Option String
  deriving DecidableEq, Repr

/-- `handle_client`, as far as these calls of `recv` take it. -/
def handleClient : List Received → Option Session
  | [] => some { received := [], sent := [], ended := none }
  | .closed :: _ =>
      some { received := [], sent := [], ended := some "[#] Client disconnected\n" }
  | .failed :: _ => some { received := [], sent := [], ended := some "[$] recv FAILED" }
  | .stored chunk :: results => do
      let text ← echo chunk
      let session ← handleClient results
      return { session with
        received := text :: session.received
        sent := text :: session.sent }

def chunks : List Received → List Chunk
  | .stored chunk :: results => chunk :: chunks results
  | _ => []

def stream (results : List Received) : List Byte := (chunks results).flatMap Chunk.bytes

/-! ## One chunk -/

private theorem echo_cut {chunk : Chunk} {text behind : List Byte}
    (split : chunk.bytes = text ++ nul :: behind) (clean : nul ∉ text) :
    echo chunk = some text := by
  rw [echo, receivedBuffer, split, List.append_assoc, List.cons_append, string_append clean]

theorem echo_whole {chunk : Chunk} (short : chunk.bytes.length < bufferSize)
    (clean : nul ∉ chunk.bytes) : echo chunk = some chunk.bytes := by
  rcases Nat.exists_eq_add_of_lt short with ⟨room, size⟩
  have zeros : bufferSize - chunk.bytes.length = room + 1 := by omega
  rw [echo, receivedBuffer, zeros, List.replicate_succ, string_append clean]

private theorem echo_full {chunk : Chunk} (full : chunk.bytes.length = bufferSize)
    (clean : nul ∉ chunk.bytes) : echo chunk = none := by
  rw [echo, string, receivedBuffer, full, Nat.sub_self, List.replicate_zero, List.append_nil,
    strlen_eq_none clean, Option.map_none]

theorem exists_echo {chunk : Chunk} (short : chunk.bytes.length < bufferSize) :
    ∃ text, echo chunk = some text ∧ text.length ≤ chunk.bytes.length := by
  by_cases member : nul ∈ chunk.bytes
  · rcases List.eq_append_cons_of_mem member with ⟨text, behind, split, clean⟩
    exact ⟨text, echo_cut split clean, by simp [split]⟩
  · exact ⟨chunk.bytes, echo_whole short member, Nat.le_refl _⟩

private theorem echo_length_le {chunk : Chunk} {text : List Byte}
    (echoed : echo chunk = some text) : text.length ≤ chunk.bytes.length := by
  by_cases member : nul ∈ chunk.bytes
  · rcases List.eq_append_cons_of_mem member with ⟨front, behind, split, clean⟩
    rw [echo_cut split clean] at echoed
    cases echoed
    simp [split]
  · rcases Nat.lt_or_eq_of_le chunk.fits with short | full
    · rw [echo_whole short member] at echoed
      cases echoed
      exact Nat.le_refl _
    · rw [echo_full full member] at echoed
      cases echoed

private theorem echo_eq_bytes_iff {chunk : Chunk} :
    echo chunk = some chunk.bytes ↔ chunk.bytes.length < bufferSize ∧ nul ∉ chunk.bytes := by
  constructor
  · intro echoed
    have clean : nul ∉ chunk.bytes := by
      intro member
      rcases List.eq_append_cons_of_mem member with ⟨text, behind, split, clean⟩
      rw [echo_cut split clean, split] at echoed
      have lengths := congrArg List.length (Option.some.inj echoed)
      simp at lengths
    refine ⟨Nat.lt_of_le_of_ne chunk.fits fun full => ?_, clean⟩
    rw [echo_full full clean] at echoed
    cases echoed
  · intro room
    exact echo_whole room.1 room.2

/-! ## Streams -/

private theorem sent_length_le : ∀ {results : List Received} {session : Session},
    handleClient results = some session →
    session.sent.flatten.length ≤ (stream results).length
  | [], _, ran => by
      cases ran
      simp
  | .closed :: _, _, ran => by
      cases ran
      simp
  | .failed :: _, _, ran => by
      cases ran
      simp
  | .stored chunk :: results, session, ran => by
      simp only [handleClient, Option.bind_eq_bind, Option.bind_eq_some_iff] at ran
      rcases ran with ⟨text, echoed, rest, handled, ran⟩
      cases ran
      have here := echo_length_le echoed
      have later := sent_length_le handled
      simp only [stream, chunks, List.flatMap_cons, List.flatten_cons, List.length_append]
        at later ⊢
      omega

/-- The stream comes back exactly when every chunk leaves room for its terminator and
has no zero byte. -/
theorem stream_echoed_iff (results : List Received) :
    (∃ session, handleClient results = some session ∧
        session.sent.flatten = stream results) ↔
      ∀ chunk ∈ chunks results, chunk.bytes.length < bufferSize ∧ nul ∉ chunk.bytes := by
  induction results with
  | nil => simp [handleClient, stream, chunks]
  | cons result results induction =>
      cases result with
      | closed => simp [handleClient, stream, chunks]
      | failed => simp [handleClient, stream, chunks]
      | stored chunk =>
          rw [chunks, List.forall_mem_cons, ← induction, ← echo_eq_bytes_iff]
          constructor
          · intro whole
            rcases whole with ⟨session, ran, sent⟩
            simp only [handleClient, Option.bind_eq_bind, Option.bind_eq_some_iff] at ran
            rcases ran with ⟨text, echoed, rest, handled, ran⟩
            cases ran
            have here := echo_length_le echoed
            have later := sent_length_le handled
            simp only [stream, chunks, List.flatMap_cons, List.flatten_cons] at sent later
            have lengths := congrArg List.length sent
            rw [List.length_append, List.length_append] at lengths
            rcases List.append_inj sent (by omega) with ⟨same, others⟩
            exact ⟨by rw [echoed, same], rest, handled, others⟩
          · intro parts
            rcases parts with ⟨echoed, session, handled, sent⟩
            refine ⟨{ session with
              received := chunk.bytes :: session.received
              sent := chunk.bytes :: session.sent }, ?_, ?_⟩
            · simp [handleClient, echoed, handled]
            · rw [List.flatten_cons, sent]
              simp [stream, chunks]

/-- A full buffer has no end, and behind a zero byte nothing is sent. -/
theorem bytes_not_echoed :
    handleClient [.stored ⟨List.replicate bufferSize 65, by simp, by simp⟩] = none ∧
      handleClient [.stored ⟨[65, 0, 66], by decide, by decide⟩] =
        some { received := [[65]], sent := [[65]], ended := none } ∧
      stream [.stored ⟨[65, 0, 66], by decide, by decide⟩] = [65, 0, 66] := by
  refine ⟨?_, by decide, by decide⟩
  have clean : nul ∉ List.replicate bufferSize (65 : Byte) := by
    intro member
    exact absurd (List.eq_of_mem_replicate member) (by decide)
  have endless := @echo_full ⟨List.replicate bufferSize 65, by simp, by simp⟩ (by simp) clean
  simp [handleClient, endless]

end SystemsRepository.TcpChat
