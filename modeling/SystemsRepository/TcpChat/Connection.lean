import SystemsRepository.Foundation.Execution
import SystemsRepository.Foundation.Text
import SystemsRepository.TcpChat.Server

/-! # The connection of `client.c` and `server.c`

The loop of the client and that of `handle_client`, with a stream of bytes in each
direction. Every `recv` returns some of the bytes that are pending, or ends the loop
that has called it.
-/

namespace SystemsRepository.TcpChat

open SystemsRepository.Foundation

/-! ## The client -/

/-- The client is about to prompt for a message, is in `recv`, has left its loop with
this message, or has accessed a byte outside its buffer. -/
inductive Phase
  | prompting
  | receiving
  | left (message : String)
  | faulted
  deriving DecidableEq, Repr

/-- `stdin` is what is left of it, and `echoed` are the texts printed as echoed. -/
structure Client where
  stdin : List Byte
  buffer : List Byte
  phase : Phase
  echoed : List (List Byte)
  deriving DecidableEq, Repr

def newline : Byte := 10

def overwrite (bytes buffer : List Byte) : List Byte := bytes ++ buffer.drop bytes.length

namespace Client

/-- `fgets(buffer, sizeof(buffer), stdin)`; at the end of `stdin` the buffer keeps what
it holds. -/
def fgets (client : Client) : Client :=
  match Text.fgets newline bufferSize client.stdin with
  | none => client
  | some (line, rest) =>
      { client with stdin := rest, buffer := overwrite (line ++ [nul]) client.buffer }

/-- The loop up to `recv`, and the bytes sent, where the call of `send` succeeds or not. -/
def send (client : Client) (succeeds : Bool) : Client × List Byte :=
  let client := client.fgets
  match string client.buffer with
  | none => ({ client with phase := .faulted }, [])
  | some text =>
      if succeeds then ({ client with phase := .receiving }, text)
      else ({ client with phase := .left "Send failed!" }, [])

def receive (client : Client) : Received → Client
  | .stored chunk =>
      if chunk.bytes.length < bufferSize then
        let buffer := overwrite (chunk.bytes ++ [nul]) client.buffer
        match string buffer with
        | none => { client with buffer, phase := .faulted }
        | some text =>
            { client with buffer, phase := .prompting, echoed := client.echoed ++ [text] }
      else { client with phase := .faulted }
  | .closed => { client with phase := .left "Server disconnected or error!\n" }
  | .failed => { client with phase := .left "Server disconnected or error!\n" }

end Client

/-! ## The connection -/

/-- `handle_client` is in `recv`, has closed the socket, or has read outside its buffer. -/
inductive Service
  | serving
  | left
  | faulted
  deriving DecidableEq, Repr

structure Connection where
  client : Client
  service : Service
  toServer : List Byte
  toClient : List Byte
  deriving DecidableEq, Repr

/-- What a call of `recv` does: it returns so many bytes, 0 for a closed connection,
or -1. -/
inductive Delivery
  | bytes (count : Nat)
  | closed
  | failed
  deriving DecidableEq, Repr

/-- The outcome of `recv`, and the bytes that stay pending. -/
def recv (pending : List Byte) : Delivery → Option (Received × List Byte)
  | .bytes count =>
      if possible : 0 < count ∧ count ≤ bufferSize ∧ count ≤ pending.length then
        some (.stored ⟨pending.take count,
          by rw [List.length_take_of_le possible.2.2]; exact possible.1,
          by rw [List.length_take_of_le possible.2.2]; exact possible.2.1⟩,
          pending.drop count)
      else none
  | .closed => some (.closed, pending)
  | .failed => some (.failed, pending)

inductive Event
  | send (succeeds : Bool)
  | serve (delivery : Delivery)
  | receive (delivery : Delivery)
  deriving DecidableEq, Repr

namespace Connection

def start (stdin buffer : List Byte) : Connection where
  client := { stdin, buffer, phase := .prompting, echoed := [] }
  service := .serving
  toServer := []
  toClient := []

/-- One iteration of the loop in `handle_client`. Its `send` is taken to go through. To a client
that has closed the connection it may raise `SIGPIPE`, which ends the server: that is the end of a
run. -/
def serve (connection : Connection) : Received → Connection
  | .stored chunk =>
      match echo chunk with
      | none => { connection with service := .faulted }
      | some text => { connection with toClient := connection.toClient ++ text }
  | .closed => { connection with service := .left }
  | .failed => { connection with service := .left }

def step (connection : Connection) : Event → Option Connection
  | .send succeeds =>
      if connection.client.phase = .prompting then
        some { connection with
          client := (connection.client.send succeeds).1
          toServer := connection.toServer ++ (connection.client.send succeeds).2 }
      else none
  | .serve delivery =>
      if connection.service = .serving then
        (recv connection.toServer delivery).map fun outcome =>
          { connection with toServer := outcome.2 }.serve outcome.1
      else none
  | .receive delivery =>
      if connection.client.phase = .receiving then
        (recv connection.toClient delivery).map fun outcome =>
          { connection with
            client := connection.client.receive outcome.1
            toClient := outcome.2 }
      else none

def machine : Machine Connection Event where
  execute event connection := connection.step event

end Connection

/-! ## Steps of the client -/

private theorem recv_bytes {pending rest : List Byte} {count : Nat} {received : Received}
    (returned : recv pending (.bytes count) = some (received, rest)) :
    ∃ chunk, received = .stored chunk ∧ chunk.bytes = pending.take count ∧
      rest = pending.drop count ∧ count ≤ pending.length := by
  simp only [recv] at returned
  split at returned
  next possible =>
    cases returned
    exact ⟨_, rfl, rfl, rfl, possible.2.2⟩
  next => cases returned

private theorem overwrite_terminated (text buffer : List Byte) :
    ∃ behind, overwrite (text ++ [nul]) buffer = text ++ nul :: behind :=
  ⟨buffer.drop (text.length + 1), by simp [overwrite]⟩

namespace Client

variable {client : Client}

theorem send_line {line rest : List Byte} {succeeds : Bool}
    (read : Text.fgets newline bufferSize client.stdin = some (line, rest))
    (clean : nul ∉ line) :
    ∃ buffer, client.send succeeds =
      if succeeds then ({ client with stdin := rest, buffer, phase := .receiving }, line)
      else ({ client with stdin := rest, buffer, phase := .left "Send failed!" }, []) := by
  rcases overwrite_terminated line client.buffer with ⟨behind, split⟩
  refine ⟨line ++ nul :: behind, ?_⟩
  simp only [send, fgets, read, split, string_append clean]

theorem send_echoed (succeeds : Bool) : (client.send succeeds).1.echoed = client.echoed := by
  have same : client.fgets.echoed = client.echoed := by
    unfold fgets
    split <;> rfl
  cases found : string client.fgets.buffer with
  | none => simp [send, found, same]
  | some text => cases succeeds <;> simp [send, found, same]

theorem receive_text {chunk : Chunk} (short : chunk.bytes.length < bufferSize)
    (clean : nul ∉ chunk.bytes) :
    ∃ buffer, client.receive (.stored chunk) =
      { client with buffer, phase := .prompting, echoed := client.echoed ++ [chunk.bytes] } := by
  rcases overwrite_terminated chunk.bytes client.buffer with ⟨behind, split⟩
  refine ⟨chunk.bytes ++ nul :: behind, ?_⟩
  simp only [receive, short, if_true, split, string_append clean]

private theorem receive_echoed (received : Received) :
    ∃ more, (client.receive received).echoed = client.echoed ++ more := by
  cases received with
  | closed => exact ⟨[], by simp [receive]⟩
  | failed => exact ⟨[], by simp [receive]⟩
  | stored chunk =>
      by_cases short : chunk.bytes.length < bufferSize
      · cases found : string (overwrite (chunk.bytes ++ [nul]) client.buffer) with
        | none => exact ⟨[], by simp [receive, short, found]⟩
        | some text => exact ⟨[text], by simp [receive, short, found]⟩
      · exact ⟨[], by simp [receive, short]⟩

end Client

/-! ## Steps of the connection -/

namespace Connection

variable {connection next : Connection}

private theorem serve_client (received : Received) :
    (connection.serve received).client = connection.client := by
  unfold serve
  split
  next => split <;> rfl
  next => rfl
  next => rfl

theorem step_echoed {event : Event} (stepped : connection.step event = some next) :
    ∃ more, next.client.echoed = connection.client.echoed ++ more := by
  cases event with
  | send succeeds =>
      simp only [step] at stepped
      split at stepped
      next =>
        cases stepped
        exact ⟨[], by simp [Client.send_echoed]⟩
      next => cases stepped
  | serve delivery =>
      simp only [step] at stepped
      split at stepped
      next =>
        rcases Option.map_eq_some_iff.mp stepped with ⟨outcome, _, rfl⟩
        exact ⟨[], by simp [serve_client]⟩
      next => cases stepped
  | receive delivery =>
      simp only [step] at stepped
      split at stepped
      next =>
        rcases Option.map_eq_some_iff.mp stepped with ⟨outcome, _, rfl⟩
        exact Client.receive_echoed outcome.1
      next => cases stepped

theorem serve_cases {delivery : Delivery} (stepped : connection.step (.serve delivery) = some next)
    (short : connection.toServer.length < bufferSize) (sound : connection.service ≠ .faulted) :
    next.client = connection.client ∧ next.service ≠ .faulted ∧
      (next.toServer = connection.toServer ∧ next.toClient = connection.toClient ∨
        ∃ chunk text, echo chunk = some text ∧
          chunk.bytes ++ next.toServer = connection.toServer ∧
          next.toClient = connection.toClient ++ text) := by
  simp only [step] at stepped
  split at stepped
  next =>
    rcases Option.map_eq_some_iff.mp stepped with ⟨⟨received, pending⟩, returned, rfl⟩
    refine ⟨serve_client _, ?_⟩
    cases delivery with
    | closed =>
        cases returned
        exact ⟨by simp [serve], .inl ⟨rfl, rfl⟩⟩
    | failed =>
        cases returned
        exact ⟨by simp [serve], .inl ⟨rfl, rfl⟩⟩
    | bytes count =>
        rcases recv_bytes returned with ⟨chunk, rfl, bytes, rfl, _⟩
        have few : chunk.bytes.length < bufferSize := by
          rw [bytes, List.length_take]
          omega
        rcases exists_echo few with ⟨text, echoed, _⟩
        have whole : chunk.bytes ++ connection.toServer.drop count = connection.toServer := by
          rw [bytes, List.take_append_drop]
        simp only [serve, echoed]
        exact ⟨sound, .inr ⟨chunk, text, echoed, whole, rfl⟩⟩
  next => cases stepped

theorem receive_cases {delivery : Delivery}
    (stepped : connection.step (.receive delivery) = some next) :
    connection.client.phase = .receiving ∧
      (((∀ count, delivery ≠ .bytes count) ∧ ∃ message, next = { connection with
          client := { connection.client with phase := .left message } }) ∨
        ∃ count chunk, delivery = .bytes count ∧ chunk.bytes = connection.toClient.take count ∧
          count ≤ connection.toClient.length ∧ next = { connection with
            client := connection.client.receive (.stored chunk)
            toClient := connection.toClient.drop count }) := by
  simp only [step] at stepped
  split at stepped
  next phase =>
    refine ⟨phase, ?_⟩
    rcases Option.map_eq_some_iff.mp stepped with ⟨⟨received, pending⟩, returned, rfl⟩
    cases delivery with
    | closed =>
        cases returned
        exact .inl ⟨by simp, _, rfl⟩
    | failed =>
        cases returned
        exact .inl ⟨by simp, _, rfl⟩
    | bytes count =>
        rcases recv_bytes returned with ⟨chunk, rfl, bytes, rfl, room⟩
        exact .inr ⟨count, chunk, rfl, bytes, room, rfl⟩
  next => cases stepped

end Connection

end SystemsRepository.TcpChat
