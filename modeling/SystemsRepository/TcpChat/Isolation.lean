import SystemsRepository.TcpChat.Handing

/-! # Every client has the server to itself

What happens on a connection of a server with many clients, and how far it has come, is
what could have happened to a server that nobody else uses.
-/

namespace SystemsRepository.TcpChat

open SystemsRepository.Foundation

/-- The steps of one connection, where these are the clients that are accepted. -/
def onConnection (accepted : List ClientData) (number : Nat) (events : List ServerEvent) :
    List Event :=
  events.filterMap fun event => (event.moved accepted).bind fun moved =>
    if moved.1 = number then some moved.2 else none

/-- What `accept` returns in the course of these events. -/
def acceptances (events : List ServerEvent) : List ClientData :=
  events.flatMap ServerEvent.accepted

def clients (events : List ServerEvent) : List (List Byte × List Byte) :=
  events.flatMap ServerEvent.connected

def alone (ends : List Byte × List Byte) (events : List Event) : Option Connection :=
  Connection.machine.run events (Connection.start ends.1 ends.2)

section Steps

variable {accepted more : List ClientData} {number : Nat} {events : List ServerEvent}
  {event : ServerEvent}

private theorem onConnection_append (later : List ServerEvent) :
    onConnection accepted number (events ++ later) =
      onConnection accepted number events ++ onConnection accepted number later :=
  List.filterMap_append

private theorem onConnection_settled
    (settled : ∀ event ∈ events, event.moved (accepted ++ more) = event.moved accepted) :
    onConnection (accepted ++ more) number events = onConnection accepted number events := by
  apply List.filterMap_congr
  intro event member
  rw [settled event member]

private theorem onConnection_quiet (quiet : event.moved accepted = none) :
    onConnection accepted number [event] = [] := by
  rw [onConnection, List.filterMap_cons_none]
  · rfl
  · rw [quiet]
    rfl

private theorem onConnection_same {moved : Event}
    (moves : event.moved accepted = some (number, moved)) :
    onConnection accepted number [event] = [moved] := by
  rw [onConnection, List.filterMap_cons_some]
  · rfl
  · rw [moves, Option.bind_some, if_pos rfl]

private theorem onConnection_other {other : Nat} {moved : Event}
    (moves : event.moved accepted = some (other, moved)) (different : other ≠ number) :
    onConnection accepted number [event] = [] := by
  rw [onConnection, List.filterMap_cons_none]
  · rfl
  · rw [moves, Option.bind_some, if_neg different]

private theorem alone_step (ends : List Byte × List Byte) (events : List Event) (event : Event) :
    alone ends (events ++ [event]) =
      (alone ends events).bind fun connection => connection.step event := by
  rw [alone, Machine.run_append]
  congr 1
  funext connection
  exact Machine.run_singleton _ _ _

end Steps

/-- The connections have come as far as their own steps take them. -/
structure Separate (events : List ServerEvent) (server : Server) : Prop where
  orderly : server.Orderly
  accepted : server.accepted = acceptances events
  count : server.connections.length = (clients events).length
  settled : ∀ event ∈ events, ∀ more,
    event.moved (server.accepted ++ more) = event.moved server.accepted
  known : ∀ event ∈ events, ∀ (number : Nat) (moved : Event),
    event.moved server.accepted = some (number, moved) → number < server.connections.length
  connections : ∀ number : Nat, server.connections[number]? =
    (clients events)[number]?.bind fun ends =>
      alone ends (onConnection server.accepted number events)

namespace Separate

variable {events : List ServerEvent} {event : ServerEvent} {server next : Server}

theorem ofStart (clientSock client : Nat) : Separate [] (.start clientSock client) where
  orderly := .ofStart clientSock client
  accepted := rfl
  count := rfl
  settled := fun event member => by cases member
  known := fun event member => by cases member
  connections := fun number => rfl

private theorem nothing_yet (separate : Separate events server) {number : Nat}
    (beyond : server.connections.length ≤ number) :
    onConnection server.accepted number events = [] := by
  apply List.filterMap_eq_nil_iff.mpr
  intro event member
  cases moves : event.moved server.accepted with
  | none => rfl
  | some moved =>
      have inside := separate.known event member moved.1 moved.2 moves
      exact if_neg (Nat.ne_of_lt (Nat.lt_of_lt_of_le inside beyond))

private theorem onConnection_next (separate : Separate events server)
    (effect : Server.Effect server next event) (number : Nat) :
    onConnection next.accepted number (events ++ [event]) =
      onConnection server.accepted number events ++
        onConnection server.accepted number [event] := by
  rw [effect.accepted, onConnection_append]
  congr 1
  · exact onConnection_settled fun earlier member => separate.settled earlier member _
  · apply onConnection_settled
    intro same member
    rw [List.mem_singleton.mp member]
    exact effect.settled _

theorem clients_append : clients (events ++ [event]) = clients events ++ event.connected := by
  rw [clients, List.flatMap_append, List.flatMap_singleton]
  rfl

private theorem connected_of_moved {accepted : List ClientData} {moved : Nat × Event}
    (moves : event.moved accepted = some moved) : event.connected = [] := by
  cases event <;> first | rfl | cases moves

private theorem length_next (effect : Server.Effect server next event) :
    next.connections.length = server.connections.length + event.connected.length := by
  have moves := effect.moves
  rw [Server.Moves] at moves
  cases isMoved : event.moved server.accepted with
  | none =>
      rw [isMoved] at moves
      rw [moves, List.length_append, List.length_map]
  | some moved =>
      rw [isMoved] at moves
      rcases moves with ⟨connection, after, _, _, isNext⟩
      rw [isNext, List.length_set, connected_of_moved isMoved]
      rfl

private theorem connections_quiet (separate : Separate events server)
    (quiet : event.moved server.accepted = none)
    (isNext : next.connections = server.connections ++
      event.connected.map fun ends => Connection.start ends.1 ends.2) (number : Nat) :
    next.connections[number]? = (clients events ++ event.connected)[number]?.bind fun ends =>
      alone ends (onConnection server.accepted number events ++
        onConnection server.accepted number [event]) := by
  rw [isNext, onConnection_quiet quiet, List.append_nil]
  by_cases old : number < server.connections.length
  · rw [List.getElem?_append_left old,
      List.getElem?_append_left (separate.count ▸ old), separate.connections]
  · have beyond := Nat.le_of_not_lt old
    rw [List.getElem?_append_right beyond,
      List.getElem?_append_right (separate.count ▸ beyond), separate.nothing_yet beyond,
      separate.count, List.getElem?_map]
    cases event.connected[number - (clients events).length]? <;> rfl

private theorem connections_moved (separate : Separate events server) {target : Nat} {moved : Event}
    {connection after : Connection}
    (isMoved : event.moved server.accepted = some (target, moved))
    (present : server.connections[target]? = some connection)
    (stepped : connection.step moved = some after)
    (isNext : next.connections = server.connections.set target after) (number : Nat) :
    next.connections[number]? = (clients events ++ event.connected)[number]?.bind fun ends =>
      alone ends (onConnection server.accepted number events ++
        onConnection server.accepted number [event]) := by
  rw [isNext, connected_of_moved isMoved, List.append_nil]
  by_cases same : number = target
  · subst same
    have before := separate.connections number
    rw [present] at before
    rcases Option.bind_eq_some_iff.mp before.symm with ⟨ends, isClient, ran⟩
    rw [List.getElem?_set_self (List.getElem?_eq_some_iff.mp present).1, isClient,
      onConnection_same isMoved, Option.bind_some, alone_step, ran, Option.bind_some, stepped]
  · rw [List.getElem?_set_ne (Ne.symm same), onConnection_other isMoved (Ne.symm same),
      List.append_nil]
    exact separate.connections number

theorem step (separate : Separate events server) (effect : Server.Effect server next event) :
    Separate (events ++ [event]) next := by
  have movedNext : ∀ earlier ∈ events ++ [event], ∀ more,
      earlier.moved (server.accepted ++ more) = earlier.moved server.accepted := by
    intro earlier member
    rcases List.mem_append.mp member with old | new
    · exact separate.settled earlier old
    · rw [List.mem_singleton.mp new]
      exact effect.settled
  have longer : server.connections.length ≤ next.connections.length := by
    rw [length_next effect]
    exact Nat.le_add_right _ _
  have moves := effect.moves
  rw [Server.Moves] at moves
  refine ⟨effect.orderly, ?_, ?_, ?_, ?_, ?_⟩
  · rw [effect.accepted, separate.accepted, acceptances, acceptances, List.flatMap_append,
      List.flatMap_singleton]
  · rw [length_next effect, clients_append, List.length_append, separate.count]
  · intro earlier member more
    rw [effect.accepted, List.append_assoc, movedNext earlier member, movedNext earlier member]
  · intro earlier member number moved isMoved
    rw [effect.accepted, movedNext earlier member] at isMoved
    rcases List.mem_append.mp member with old | new
    · exact Nat.lt_of_lt_of_le (separate.known earlier old number moved isMoved) longer
    · rw [List.mem_singleton.mp new] at isMoved
      rw [isMoved] at moves
      rcases moves with ⟨connection, after, present, _⟩
      exact Nat.lt_of_lt_of_le (List.getElem?_eq_some_iff.mp present).1 longer
  · intro number
    rw [separate.onConnection_next effect, clients_append]
    cases isMoved : event.moved server.accepted with
    | none =>
        rw [isMoved] at moves
        exact separate.connections_quiet isMoved moves number
    | some moved =>
        rw [isMoved] at moves
        rcases moves with ⟨connection, after, present, stepped, isNext⟩
        exact separate.connections_moved isMoved present stepped isNext number

end Separate

/-! ## Runs -/

private theorem separate_of_run {clientSock client : Nat} {events : List ServerEvent}
    {final : Server} (ran : Server.machine.run events (.start clientSock client) = some final) :
    Separate events final := by
  refine Server.machine.run_induction (.ofStart clientSock client) ?_ ran
  intro calls server event next separate executed
  simp only [Server.machine] at executed
  split at executed
  next sound => exact separate.step (separate.orderly.step_effect sound executed)
  next => cases executed

/-- Thread number `index` serves the client that `accept` has returned as number `index`, and
nobody else does: in every run each connection is as its own steps alone would have left it. -/
theorem clients_isolated {clientSock client : Nat} {events : List ServerEvent} {final : Server}
    (ran : Server.machine.run events (.start clientSock client) = some final) (number : Nat) :
    final.connections[number]? = (clients events)[number]?.bind fun ends =>
      Connection.machine.run (onConnection (acceptances events) number events)
        (Connection.start ends.1 ends.2) := by
  have separate := separate_of_run ran
  rw [← separate.accepted]
  exact separate.connections number

/-- The first client has left when the second one is accepted, with its descriptor and its
block used again, while the third one is served. -/
def sessions : List ServerEvent :=
  [.connect [97, 10] unset, .connect [98, 10] unset, .connect [99, 10] unset, .send 1 true,
    .accept 4 0, .malloc (some 100), .create true, .send 0 true, .accept 5 2, .begin 0,
    .serve 0 (.bytes 2), .malloc (some 101), .create true, .receive 0 (.bytes 2), .begin 1,
    .serve 0 .closed, .close 0, .free 0, .send 2 true, .accept 4 1, .malloc (some 100),
    .create true, .begin 2, .serve 2 (.bytes 2), .serve 1 (.bytes 2), .receive 1 (.bytes 2),
    .receive 2 (.bytes 2)]

theorem clients_isolated_of_sessions :
    ∃ final, Server.machine.run sessions (.start 0 0) = some final ∧
      final.connections[1]? = Connection.machine.run
        [.send true, .serve (.bytes 2), .receive (.bytes 2)] (Connection.start [98, 10] unset) := by
  have finishes : (Server.machine.run sessions (.start 0 0)).isSome = true := by decide +kernel
  rcases Option.isSome_iff_exists.mp finishes with ⟨final, ran⟩
  refine ⟨final, ran, ?_⟩
  rw [clients_isolated ran 1]
  rfl

/-- However many clients there are, a client whose answers arrive whole prints the lines it has
sent, and none of another client. -/
theorem clients_lockstep {clientSock client : Nat} {events : List ServerEvent} {final : Server}
    (ran : Server.machine.run events (.start clientSock client) = some final)
    {number : Nat} {stdin buffer : List Byte}
    (connected : (clients events)[number]? = some (stdin, buffer)) (clean : nul ∉ stdin)
    (whole : Connection.machine.Permits
      (fun connection => connection.AnswersWhole (inputLines stdin))
      (Connection.start stdin buffer) (onConnection (acceptances events) number events)) :
    ∃ connection, final.connections[number]? = some connection ∧
      Connection.Lockstep (inputLines stdin) connection := by
  have separate := separate_of_run ran
  rcases List.getElem?_eq_some_iff.mp connected with ⟨inside, _⟩
  rw [← separate.count] at inside
  have alone := separate.connections number
  rw [connected, Option.bind_some, separate.accepted, List.getElem?_eq_getElem inside] at alone
  refine ⟨_, List.getElem?_eq_getElem inside, Connection.Aligned.lockstep ?_⟩
  refine Connection.machine.finished_of_invariant ?_ (Connection.aligned_start stdin buffer) whole
    alone.symm
  intro connection event next aligned stepped allowed
  exact aligned.keeps (Connection.Aligned.plain_inputLines clean) stepped allowed

theorem clients_lockstep_of_sessions :
    ∃ final connection, Server.machine.run sessions (.start 0 0) = some final ∧
      final.connections[1]? = some connection ∧
      Connection.Lockstep (inputLines [98, 10]) connection := by
  have finishes : (Server.machine.run sessions (.start 0 0)).isSome = true := by decide +kernel
  rcases Option.isSome_iff_exists.mp finishes with ⟨final, ran⟩
  rcases @clients_lockstep 0 0 sessions final ran 1 [98, 10] unset rfl (by decide)
    (by decide +kernel) with ⟨connection, present, lockstep⟩
  exact ⟨final, connection, ran, present, lockstep⟩

end SystemsRepository.TcpChat
