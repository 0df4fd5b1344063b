import SystemsRepository.TcpChat.AcceptLoop

/-! # What the threads of the server hold

Every client that has been accepted has a descriptor and a block of its own, from
`accept` and `malloc` to `close` and `free`, whoever else comes and goes.
-/

namespace SystemsRepository.TcpChat

open SystemsRepository.Foundation

/-! ## What is held for a client -/

structure Stage where
  block : Option Nat
  opens : Bool
  deriving DecidableEq, Repr

def Stage.idle : Stage := { block := none, opens := false }

def Main.stage : Main → Stage
  | .accepting => .idle
  | .accepted => { block := none, opens := true }
  | .allocated data => { block := some data, opens := true }

/-- Nobody has what was meant for a thread that was not made, but it stays in use. -/
def Thread.stage : Thread → Stage
  | .failed data => { block := some data, opens := true }
  | .created data => { block := some data, opens := true }
  | .serving data _ => { block := some data, opens := true }
  | .leaving data _ => { block := some data, opens := true }
  | .closed data => { block := some data, opens := false }
  | .returned => .idle

def Thread.sock? : Thread → Option Nat
  | .serving _ sock => some sock
  | .leaving _ sock => some sock
  | _ => none

/-- The thread has not left the loop of `handle_client`. -/
def Thread.Stays : Thread → Prop
  | .failed _ => True
  | .created _ => True
  | .serving _ _ => True
  | _ => False

namespace Server

variable {server next : Server} {index other : Nat} {thread old : Thread}

def stage (server : Server) (index : Nat) : Stage :=
  match server.threads[index]? with
  | some thread => thread.stage
  | none => if index = server.threads.length then server.main.stage else .idle

def blockHeld (server : Server) (index : Nat) : Option (Nat × ClientData) :=
  (server.stage index).block.bind fun block => server.accepted[index]?.map fun data => (block, data)

def socketHeld (server : Server) (index : Nat) : Option (Nat × Nat) :=
  if (server.stage index).opens then
    server.accepted[index]?.map fun data => (data.clientSocket, data.clientAddress)
  else none

private theorem stage_of_thread (here : server.threads[index]? = some thread) :
    server.stage index = thread.stage := by
  rw [stage, here]

private theorem stage_of_main : server.stage server.threads.length = server.main.stage := by
  rw [stage, List.getElem?_eq_none (Nat.le_refl _), if_pos rfl]

theorem stage_setThread_self (here : server.threads[index]? = some old) :
    (server.setThread index thread).stage index = thread.stage := by
  rcases List.getElem?_eq_some_iff.mp here with ⟨inside, _⟩
  rw [stage, setThread, List.getElem?_set_self inside]

private theorem stage_setThread_other (different : other ≠ index) :
    (server.setThread index thread).stage other = server.stage other := by
  rw [stage, stage, setThread, List.getElem?_set_ne (Ne.symm different), List.length_set]

private theorem stage_setThread (here : server.threads[index]? = some old)
    (same : thread.stage = old.stage) : (server.setThread index thread).stage = server.stage := by
  funext other
  by_cases mine : other = index
  · rw [mine, stage_setThread_self here, same, stage_of_thread here]
  · exact stage_setThread_other mine

private theorem stage_main_other (same : next.threads = server.threads)
    (different : other ≠ server.threads.length) : next.stage other = server.stage other := by
  rw [stage, stage, same, if_neg different, if_neg different]

/-! ## The invariant -/

/-- No thread that serves the connection has left its loop. -/
def Waits (server : Server) (number : Nat) : Prop :=
  ∀ (index : Nat) (data : ClientData) (thread : Thread),
    server.accepted[index]? = some data → data.clientAddress = number →
      server.threads[index]? = some thread → thread.Stays

/-- The threads serve the clients in the order in which `accept` has returned them, `main`
has the next one, and each has a descriptor and a block that nobody else has. -/
structure Orderly (server : Server) : Prop where
  count : server.accepted.length =
    server.threads.length + if server.main = .accepting then 0 else 1
  known : ∀ data ∈ server.accepted, data.clientAddress < server.connections.length
  distinct : (server.accepted.map ClientData.clientAddress).Nodup
  current : server.main ≠ .accepting → server.accepted[server.threads.length]? =
    some { clientSocket := server.clientSock, clientAddress := server.client }
  descriptor : ∀ (index : Nat) (thread : Thread) (sock : Nat),
    server.threads[index]? = some thread → thread.sock? = some sock →
      server.accepted[index]?.map ClientData.clientSocket = some sock
  blocks : Owned server.blocks server.blockHeld
  sockets : Owned server.sockets server.socketHeld
  served : server.fault = none → ∀ (number : Nat) (connection : Connection),
    server.connections[number]? = some connection →
      server.Waits number → connection.service = .serving

theorem socketHeld_eq {data : ClientData} (here : server.accepted[index]? = some data)
    (opens : (server.stage index).opens = true) :
    server.socketHeld index = some (data.clientSocket, data.clientAddress) := by
  rw [socketHeld, if_pos opens, here]
  rfl

theorem blockHeld_eq {data : ClientData} (here : server.accepted[index]? = some data)
    {block : Nat} (has : (server.stage index).block = some block) :
    server.blockHeld index = some (block, data) := by
  rw [blockHeld, has, here]
  rfl

theorem held_congr (stages : ∀ index, next.stage index = server.stage index)
    (same : next.accepted = server.accepted) :
    next.blockHeld = server.blockHeld ∧ next.socketHeld = server.socketHeld := by
  constructor
  · funext index
    rw [blockHeld, blockHeld, stages, same]
  · funext index
    rw [socketHeld, socketHeld, stages, same]

namespace Orderly

theorem ofStart (clientSock client : Nat) : (start clientSock client).Orderly where
  count := rfl
  known := by simp [start]
  distinct := List.nodup_nil
  current := fun behind => absurd rfl behind
  descriptor := by simp [start]
  blocks := by
    have nothing : (start clientSock client).blockHeld = fun _ => none := by
      funext index
      simp [blockHeld, start]
    rw [nothing]
    exact .empty
  sockets := by
    have nothing : (start clientSock client).socketHeld = fun _ => none := by
      funext index
      simp [socketHeld, start]
    rw [nothing]
    exact .empty
  served := by simp [start]

private theorem withConnections (orderly : server.Orderly) {connections : List Connection}
    (longer : server.connections.length ≤ connections.length)
    (served : server.fault = none → ∀ (number : Nat) (connection : Connection),
      connections[number]? = some connection → server.Waits number →
        connection.service = .serving) :
    ({ server with connections } : Server).Orderly where
  count := orderly.count
  known := fun data member => Nat.lt_of_lt_of_le (orderly.known data member) longer
  distinct := orderly.distinct
  current := orderly.current
  descriptor := orderly.descriptor
  blocks := orderly.blocks
  sockets := orderly.sockets
  served := served

theorem faulted (orderly : server.Orderly) (fault : Fault) : (server.faulted fault).Orderly where
  count := orderly.count
  known := orderly.known
  distinct := orderly.distinct
  current := orderly.current
  descriptor := orderly.descriptor
  blocks := orderly.blocks
  sockets := orderly.sockets
  served := fun sound => by cases sound

private theorem exists_accepted (orderly : server.Orderly)
    (here : server.threads[index]? = some thread) :
    ∃ data, server.accepted[index]? = some data := by
  rcases List.getElem?_eq_some_iff.mp here with ⟨inside, _⟩
  have count := orderly.count
  exact ⟨_, List.getElem?_eq_getElem (by omega)⟩

private theorem socket_of_thread (orderly : server.Orderly) {sock : Nat}
    (here : server.threads[index]? = some thread) (has : thread.sock? = some sock) :
    ∃ data, server.accepted[index]? = some data ∧
      server.socketHeld index = some (sock, data.clientAddress) := by
  rcases Option.map_eq_some_iff.mp (orderly.descriptor index thread sock here has) with
    ⟨data, given, rfl⟩
  refine ⟨data, given, socketHeld_eq given ?_⟩
  rw [stage_of_thread here]
  cases thread <;> first | rfl | cases has

private theorem block_of_thread (orderly : server.Orderly) {block : Nat}
    (here : server.threads[index]? = some thread) (has : thread.stage.block = some block) :
    ∃ data, server.accepted[index]? = some data ∧
      server.blockHeld index = some (block, data) := by
  rcases orderly.exists_accepted here with ⟨data, given⟩
  exact ⟨data, given, blockHeld_eq given (by rw [stage_of_thread here, has])⟩

private theorem moveThread (orderly : server.Orderly) {blocks : Nat → Option ClientData}
    {sockets : Nat → Option Nat} (here : server.threads[index]? = some old)
    (descriptor : ∀ sock, thread.sock? = some sock →
      server.accepted[index]?.map ClientData.clientSocket = some sock)
    (stays : thread.Stays → old.Stays)
    (ownedBlocks : Owned blocks (server.setThread index thread).blockHeld)
    (ownedSockets : Owned sockets (server.setThread index thread).socketHeld) :
    ({ server.setThread index thread with blocks, sockets } : Server).Orderly where
  count := by
    rw [setThread, List.length_set]
    exact orderly.count
  known := orderly.known
  distinct := orderly.distinct
  current := by
    rw [setThread, List.length_set]
    exact orderly.current
  descriptor := by
    intro other found sock there has
    by_cases mine : other = index
    · rw [mine, setThread, List.getElem?_set_self (List.getElem?_eq_some_iff.mp here).1] at there
      cases there
      rw [mine]
      exact descriptor sock has
    · rw [setThread, List.getElem?_set_ne (Ne.symm mine)] at there
      exact orderly.descriptor other found sock there has
  blocks := ownedBlocks
  sockets := ownedSockets
  served := by
    intro sound number connection present waits
    apply orderly.served sound number connection present
    intro other data found given address there
    by_cases mine : other = index
    · rw [mine, here] at there
      cases there
      rw [mine] at given
      exact stays (waits index data thread given address
        (List.getElem?_set_self (List.getElem?_eq_some_iff.mp here).1))
    · refine waits other data found given address ?_
      rw [setThread, List.getElem?_set_ne (Ne.symm mine)]
      exact there

theorem setThread (orderly : server.Orderly) (here : server.threads[index]? = some old)
    (descriptor : ∀ sock, thread.sock? = some sock →
      server.accepted[index]?.map ClientData.clientSocket = some sock)
    (stays : thread.Stays → old.Stays) (same : thread.stage = old.stage) :
    (server.setThread index thread).Orderly := by
  have held := @held_congr server (server.setThread index thread)
    (fun other => congrFun (stage_setThread here same) other) rfl
  refine orderly.moveThread here descriptor stays ?_ ?_
  · rw [held.1]
    exact orderly.blocks
  · rw [held.2]
    exact orderly.sockets

/-- `handle_client` finds its client in the block it has been given. -/
theorem begin (orderly : server.Orderly) {data : Nat}
    (here : server.threads[index]? = some (.created data)) :
    ∃ contents, server.accepted[index]? = some contents ∧ server.blocks data = some contents ∧
      (server.setThread index (.serving data contents.clientSocket)).Orderly := by
  rcases orderly.block_of_thread here rfl with ⟨contents, given, has⟩
  refine ⟨contents, given, orderly.blocks.here has, orderly.setThread here ?_ id rfl⟩
  intro sock own
  cases own
  rw [given]
  rfl

theorem close (orderly : server.Orderly) {data sock : Nat}
    (here : server.threads[index]? = some (.leaving data sock)) :
    (∃ number, server.sockets sock = some number) ∧
      ({ server.setThread index (.closed data) with
        sockets := Function.update server.sockets sock none } : Server).Orderly := by
  rcases orderly.socket_of_thread here rfl with ⟨contents, given, has⟩
  refine ⟨⟨_, orderly.sockets.here has⟩, orderly.moveThread here (fun _ own => by cases own)
    id ?_ (orderly.sockets.release has ?_ ?_)⟩
  · have same : (server.setThread index (.closed data)).blockHeld = server.blockHeld := by
      funext other
      by_cases mine : other = index
      · rw [mine, blockHeld, blockHeld, stage_setThread_self here, stage_of_thread here]
        rfl
      · rw [blockHeld, blockHeld, stage_setThread_other mine]
        rfl
    rw [same]
    exact orderly.blocks
  · rw [socketHeld, stage_setThread_self here]
    rfl
  · intro other different
    rw [socketHeld, socketHeld, stage_setThread_other different]
    rfl

theorem free (orderly : server.Orderly) {data : Nat}
    (here : server.threads[index]? = some (.closed data)) :
    (∃ contents, server.blocks data = some contents) ∧
      ({ server.setThread index .returned with
        blocks := Function.update server.blocks data none } : Server).Orderly := by
  rcases orderly.block_of_thread here rfl with ⟨contents, given, has⟩
  refine ⟨⟨_, orderly.blocks.here has⟩, orderly.moveThread here (fun _ own => by cases own)
    id (orderly.blocks.release has ?_ ?_) ?_⟩
  · rw [blockHeld, stage_setThread_self here]
    rfl
  · intro other different
    rw [blockHeld, blockHeld, stage_setThread_other different]
    rfl
  · have same : (server.setThread index .returned).socketHeld = server.socketHeld := by
      funext other
      by_cases mine : other = index
      · rw [mine, socketHeld, socketHeld, stage_setThread_self here, stage_of_thread here]
        rfl
      · rw [socketHeld, socketHeld, stage_setThread_other mine]
        rfl
    rw [same]
    exact orderly.sockets

theorem connect (orderly : server.Orderly) (stdin buffer : List Byte) :
    ({ server with
      connections := server.connections ++ [Connection.start stdin buffer] } : Server).Orderly := by
  refine orderly.withConnections (by simp) ?_
  intro sound number connection present waits
  by_cases old : number < server.connections.length
  · rw [List.getElem?_append_left old] at present
    exact orderly.served sound number connection present waits
  · rw [List.getElem?_append_right (Nat.le_of_not_lt old)] at present
    have new := List.mem_of_getElem? present
    rw [List.mem_singleton.mp new]
    rfl

theorem accepting (orderly : server.Orderly) {sock number : Nat}
    (idle : server.main = .accepting) (unused : server.sockets sock = none)
    (known : number < server.connections.length)
    (new : number ∉ server.accepted.map ClientData.clientAddress) :
    (server.accepting sock number).Orderly := by
  have count : server.accepted.length = server.threads.length := by
    rw [orderly.count, if_pos idle]
    rfl
  have earlier : ∀ other, other ≠ server.threads.length →
      (server.accepting sock number).accepted[other]? = server.accepted[other]? := by
    intro other different
    rcases Nat.lt_or_gt_of_ne different with less | more
    · exact List.getElem?_append_left (by omega)
    · rw [Server.accepting, List.getElem?_eq_none (by simp; omega),
        List.getElem?_eq_none (by omega)]
  have last : (server.accepting sock number).accepted[server.threads.length]? =
      some { clientSocket := sock, clientAddress := number } := by
    rw [← count]
    exact List.getElem?_concat_length
  have here : (server.accepting sock number).stage server.threads.length =
      { block := none, opens := true } := stage_of_main
  have before : server.stage server.threads.length = .idle := by
    rw [stage_of_main, idle]
    rfl
  have others : ∀ other, other ≠ server.threads.length →
      (server.accepting sock number).stage other = server.stage other :=
    fun other different => stage_main_other rfl different
  refine ⟨?_, ?_, ?_, fun _ => last, ?_, ?_,
    orderly.sockets.acquire server.threads.length unused ?_ ?_ ?_, ?_⟩
  · simp [Server.accepting, count]
  · intro data member
    rcases List.mem_append.mp member with old | same
    · exact orderly.known data old
    · rw [List.mem_singleton.mp same]
      exact known
  · rw [Server.accepting, List.map_append, List.map_singleton, ← List.concat_eq_append,
      List.nodup_concat]
    exact ⟨new, orderly.distinct⟩
  · intro other thread own there has
    rw [earlier other (Nat.ne_of_lt (List.getElem?_eq_some_iff.mp there).1)]
    exact orderly.descriptor other thread own there has
  · have same : (server.accepting sock number).blockHeld = server.blockHeld := by
      funext other
      by_cases mine : other = server.threads.length
      · rw [mine, blockHeld, blockHeld, here, before]
        rfl
      · rw [blockHeld, blockHeld, others other mine, earlier other mine]
    rw [same]
    exact orderly.blocks
  · rw [socketHeld, before]
    rfl
  · rw [socketHeld, here, last]
    rfl
  · intro other different
    rw [socketHeld, socketHeld, others other different, earlier other different]
  · intro sound target connection present waits
    apply orderly.served sound target connection present
    intro other data thread given address there
    refine waits other data thread ?_ address there
    rw [earlier other (Nat.ne_of_lt (List.getElem?_eq_some_iff.mp there).1), given]

/-- `main` has a block that nobody else has, with the client it has accepted in it. -/
theorem filling (orderly : server.Orderly) {data : Nat} (ready : server.main = .accepted)
    (unused : server.blocks data = none) : (server.filling data).Orderly := by
  have current := orderly.current (by rw [ready]; intro same; cases same)
  have here : (server.filling data).stage server.threads.length =
      { block := some data, opens := true } := stage_of_main
  have before : server.stage server.threads.length = { block := none, opens := true } := by
    rw [stage_of_main, ready]
    rfl
  have others : ∀ other, other ≠ server.threads.length →
      (server.filling data).stage other = server.stage other :=
    fun other different => stage_main_other rfl different
  refine ⟨?_, orderly.known, orderly.distinct, fun _ => current, orderly.descriptor,
    orderly.blocks.acquire server.threads.length unused ?_ ?_ ?_, ?_, orderly.served⟩
  · have count := orderly.count
    rw [ready] at count
    exact count
  · rw [blockHeld, before]
    rfl
  · exact @blockHeld_eq (server.filling data) _ _ current _ (congrArg Stage.block here)
  · intro other different
    rw [blockHeld, blockHeld, others other different]
    rfl
  · have same : (server.filling data).socketHeld = server.socketHeld := by
      funext other
      by_cases mine : other = server.threads.length
      · rw [mine, socketHeld, socketHeld, here, before]
        rfl
      · rw [socketHeld, socketHeld, others other mine]
        rfl
    rw [same]
    exact orderly.sockets

theorem handing (orderly : server.Orderly) {data : Nat} (ready : server.main = .allocated data)
    (stage : thread.stage = { block := some data, opens := true })
    (without : thread.sock? = none) : (server.handing thread).Orderly := by
  have stages : ∀ other, (server.handing thread).stage other = server.stage other := by
    intro other
    rcases Nat.lt_trichotomy other server.threads.length with less | same | more
    · have there : (server.handing thread).threads[other]? = server.threads[other]? :=
        List.getElem?_append_left less
      rw [Server.stage, Server.stage, there, List.getElem?_eq_getElem less]
    · have there : (server.handing thread).threads[other]? = some thread := by
        rw [same]
        exact List.getElem?_concat_length
      rw [stage_of_thread there, stage, same, stage_of_main, ready]
      rfl
    · have outside : server.threads[other]? = none := List.getElem?_eq_none (by omega)
      have beyond : (server.handing thread).threads[other]? = none :=
        List.getElem?_eq_none (by simp [Server.handing]; omega)
      rw [Server.stage, Server.stage, outside, beyond]
      simp [Server.handing, Main.stage, Nat.ne_of_gt more]
  have held := held_congr stages rfl
  have old : ∀ (other : Nat) (found : Thread), server.threads[other]? = some found →
      (server.handing thread).threads[other]? = some found := by
    intro other found there
    rw [Server.handing, List.getElem?_append_left (List.getElem?_eq_some_iff.mp there).1, there]
  refine ⟨?_, orderly.known, orderly.distinct, fun behind => absurd rfl behind, ?_, ?_, ?_, ?_⟩
  · have count := orderly.count
    rw [ready] at count
    simp [Server.handing, count]
  · intro other found sock there has
    rw [Server.handing, List.getElem?_append] at there
    split at there
    next => exact orderly.descriptor other found sock there has
    next =>
      rw [List.mem_singleton.mp (List.mem_of_getElem? there), without] at has
      cases has
  · rw [held.1]
    exact orderly.blocks
  · rw [held.2]
    exact orderly.sockets
  · intro sound number connection present waits
    apply orderly.served sound number connection present
    intro other contents found given address there
    exact waits other contents found given address (old other found there)

theorem advanced (orderly : server.Orderly) {number : Nat} {connection after : Connection}
    (present : server.connections[number]? = some connection)
    (served : server.fault = none → server.Waits number → connection.service = .serving →
      after.service = .serving) :
    ({ server with connections := server.connections.set number after } : Server).Orderly := by
  refine orderly.withConnections (Nat.le_of_eq List.length_set.symm) ?_
  intro sound target found there waits
  by_cases mine : target = number
  · rw [mine, List.getElem?_set_self (List.getElem?_eq_some_iff.mp present).1] at there
    cases there
    rw [mine] at waits
    exact served sound waits (orderly.served sound number connection present waits)
  · rw [List.getElem?_set_ne (Ne.symm mine)] at there
    exact orderly.served sound target found there waits

end Orderly

/-! ## Steps -/

def Moves (server next : Server) (event : ServerEvent) : Prop :=
  match event.moved server.accepted with
  | none => next.connections =
      server.connections ++ event.connected.map fun ends => Connection.start ends.1 ends.2
  | some (number, moved) => ∃ connection after,
      server.connections[number]? = some connection ∧ connection.step moved = some after ∧
        next.connections = server.connections.set number after

/-- Of the faults, the server knows two. -/
structure Effect (server next : Server) (event : ServerEvent) : Prop where
  orderly : next.Orderly
  accepted : next.accepted = server.accepted ++ event.accepted
  settled : ∀ more, event.moved (server.accepted ++ more) = event.moved server.accepted
  moves : Moves server next event
  fault : next.fault = none ∨ next.fault = some .nullData ∨ next.fault = some .overrun

private theorem advance_cases {number : Nat} {event : Event} {outcome : Connection × Server}
    (advanced : server.advance number event = some outcome) :
    ∃ connection, server.connections[number]? = some connection ∧
      connection.step event = some outcome.1 ∧
      outcome.2 = { server with connections := server.connections.set number outcome.1 } := by
  rcases Option.bind_eq_some_iff.mp advanced with ⟨connection, present, rest⟩
  rcases Option.bind_eq_some_iff.mp rest with ⟨after, stepped, done⟩
  cases done
  exact ⟨connection, present, stepped, rfl⟩

private theorem send_service {connection after : Connection} {succeeds : Bool}
    (stepped : connection.step (.send succeeds) = some after) :
    after.service = connection.service := by
  simp only [Connection.step] at stepped
  split at stepped
  next =>
    cases stepped
    rfl
  next => cases stepped

private theorem receive_service {connection after : Connection} {delivery : Delivery}
    (stepped : connection.step (.receive delivery) = some after) :
    after.service = connection.service := by
  rcases Connection.receive_cases stepped with
    ⟨_, ⟨_, message, rfl⟩ | ⟨count, chunk, _, _, _, rfl⟩⟩
  · rfl
  · rfl

theorem Effect.quiet {event : ServerEvent} (tidy : next.Orderly)
    (isMoved : ∀ accepted, event.moved accepted = none) (noConnect : event.connected = [])
    (accepted : next.accepted = server.accepted ++ event.accepted)
    (connections : next.connections = server.connections)
    (fault : next.fault = none ∨ next.fault = some .nullData ∨ next.fault = some .overrun) :
    Effect server next event := by
  refine ⟨tidy, accepted, fun more => by rw [isMoved, isMoved], ?_, fault⟩
  rw [Moves, isMoved, noConnect, connections]
  exact (List.append_nil _).symm

private theorem Orderly.client_effect (orderly : server.Orderly) (sound : server.fault = none)
    {number : Nat} {moved : Event} {event : ServerEvent}
    (isMoved : ∀ accepted, event.moved accepted = some (number, moved))
    (noAccept : event.accepted = [])
    (service : ∀ {connection after : Connection}, connection.step moved = some after →
      after.service = connection.service)
    (advanced : (server.advance number moved).map Prod.snd = some next) :
    Effect server next event := by
  rcases Option.map_eq_some_iff.mp advanced with ⟨outcome, moves, rfl⟩
  rcases advance_cases moves with ⟨connection, present, stepped, isNext⟩
  rw [isNext]
  refine ⟨orderly.advanced present fun _ _ same => by rw [service stepped, same], ?_, ?_, ?_,
    .inl sound⟩
  · rw [noAccept, List.append_nil]
  · intro more
    rw [isMoved, isMoved]
  · rw [Moves, isMoved]
    exact ⟨connection, outcome.1, present, stepped, rfl⟩

private theorem Orderly.serve_effect (orderly : server.Orderly) (sound : server.fault = none)
    {delivery : Delivery}
    (served : server.serve index delivery = some next) :
    Effect server next (.serve index delivery) := by
  rw [serve] at served
  split at served
  next data sock here =>
    rcases orderly.socket_of_thread here rfl with ⟨contents, given, has⟩
    rw [orderly.sockets.here has] at served
    rcases Option.map_eq_some_iff.mp served with ⟨outcome, moves, rfl⟩
    rcases advance_cases moves with ⟨connection, present, stepped, isNext⟩
    have isMoved : (ServerEvent.serve index delivery).moved server.accepted =
        some (contents.clientAddress, .serve delivery) := by
      rw [ServerEvent.moved, given]
      rfl
    have result : ∀ final : Server, final.Orderly → final.accepted = server.accepted →
        final.connections = server.connections.set contents.clientAddress outcome.1 →
          final.fault = none ∨ final.fault = some .nullData ∨ final.fault = some .overrun →
            Effect server final (.serve index delivery) := by
      intro final tidy same connections fault
      refine ⟨tidy, by rw [same]; exact (List.append_nil _).symm, ?_, ?_, fault⟩
      · intro more
        rw [ServerEvent.moved, ServerEvent.moved,
          List.getElem?_append_left (List.getElem?_eq_some_iff.mp given).1]
      · rw [Moves, isMoved]
        exact ⟨connection, outcome.1, present, stepped, connections⟩
    rw [isNext]
    split
    next service =>
      exact result _ (orderly.advanced present fun _ _ _ => service) rfl rfl (.inl sound)
    next service =>
      have left : (server.setThread index (.leaving data sock)).Orderly := by
        refine orderly.setThread here ?_ (fun stays => stays.elim) rfl
        intro own isOwn
        exact orderly.descriptor index _ own here isOwn
      refine result _ (left.advanced present ?_) rfl rfl (.inl sound)
      intro _ waits _
      exact (waits index contents (.leaving data sock) given rfl
        (List.getElem?_set_self (List.getElem?_eq_some_iff.mp here).1)).elim
    next service =>
      refine result _ ((orderly.faulted .overrun).advanced present ?_) rfl rfl (.inr (.inr rfl))
      intro unfaulted
      cases unfaulted
  next => cases served

theorem Orderly.step_effect (orderly : server.Orderly) (sound : server.fault = none)
    {event : ServerEvent} (stepped : server.step event = some next) :
    Effect server next event := by
  have same : server.accepted = server.accepted ++ [] := (List.append_nil _).symm
  cases event with
  | connect stdin buffer =>
      cases stepped
      exact ⟨orderly.connect stdin buffer, same, fun _ => rfl, rfl, .inl sound⟩
  | send number succeeds =>
      exact orderly.client_effect sound (fun _ => rfl) rfl send_service stepped
  | receive number delivery =>
      exact orderly.client_effect sound (fun _ => rfl) rfl receive_service stepped
  | acceptFails =>
      rw [Server.step] at stepped
      split at stepped
      next =>
        cases stepped
        exact .quiet orderly (fun _ => rfl) rfl same rfl (.inl sound)
      next => cases stepped
  | accept sock number =>
      rw [Server.step, Server.accept] at stepped
      split at stepped
      next possible =>
        cases stepped
        exact .quiet (orderly.accepting possible.1 possible.2.1 possible.2.2.1 possible.2.2.2)
          (fun _ => rfl) rfl rfl rfl (.inl sound)
      next => cases stepped
  | malloc data =>
      cases data with
      | none =>
          rw [Server.step, Server.malloc] at stepped
          split at stepped
          next =>
            cases stepped
            exact .quiet (orderly.faulted .nullData) (fun _ => rfl) rfl same rfl (.inr (.inl rfl))
          next => cases stepped
      | some data =>
          rw [Server.step, Server.malloc] at stepped
          split at stepped
          next possible =>
            cases stepped
            exact .quiet (orderly.filling possible.1 possible.2) (fun _ => rfl) rfl same rfl
              (.inl sound)
          next => cases stepped
  | create succeeds =>
      rw [Server.step, Server.create] at stepped
      split at stepped
      next data ready =>
        cases stepped
        refine .quiet (orderly.handing ready ?_ ?_) (fun _ => rfl) rfl same rfl (.inl sound)
        · cases succeeds <;> rfl
        · cases succeeds <;> rfl
      next => cases stepped
  | begin index =>
      rw [Server.step, Server.begin] at stepped
      split at stepped
      next data here =>
        rcases orderly.begin here with ⟨contents, _, present, tidy⟩
        rw [present] at stepped
        cases stepped
        exact .quiet tidy (fun _ => rfl) rfl same rfl (.inl sound)
      next => cases stepped
  | serve index delivery => exact orderly.serve_effect sound stepped
  | close index =>
      rw [Server.step, Server.close] at stepped
      split at stepped
      next data sock here =>
        rcases orderly.close here with ⟨⟨number, isOpen⟩, tidy⟩
        rw [isOpen] at stepped
        cases stepped
        exact .quiet tidy (fun _ => rfl) rfl same rfl (.inl sound)
      next => cases stepped
  | free index =>
      rw [Server.step, Server.free] at stepped
      split at stepped
      next data here =>
        rcases orderly.free here with ⟨⟨contents, present⟩, tidy⟩
        rw [present] at stepped
        cases stepped
        exact .quiet tidy (fun _ => rfl) rfl same rfl (.inl sound)
      next => cases stepped

private theorem Orderly.serving_of_thread (orderly : server.Orderly) (sound : server.fault = none)
    {data sock : Nat} (here : server.threads[index]? = some (.serving data sock)) :
    ∃ contents connection, server.accepted[index]? = some contents ∧
      server.sockets sock = some contents.clientAddress ∧
      server.connections[contents.clientAddress]? = some connection ∧
      connection.service = .serving := by
  rcases orderly.socket_of_thread here rfl with ⟨contents, given, has⟩
  have inside := orderly.known contents (List.mem_of_getElem? given)
  refine ⟨contents, _, given, orderly.sockets.here has, List.getElem?_eq_getElem inside,
    orderly.served sound _ _ (List.getElem?_eq_getElem inside) ?_⟩
  intro other found thread alsoGiven address there
  have same : other = index := by
    have addresses : (server.accepted.map ClientData.clientAddress)[other]? =
        (server.accepted.map ClientData.clientAddress)[index]? := by
      rw [List.getElem?_map, List.getElem?_map, alsoGiven, given]
      exact congrArg some address
    rw [List.getElem?_inj _ orderly.distinct] at addresses
    · exact addresses
    · rw [List.length_map]
      exact (List.getElem?_eq_some_iff.mp alsoGiven).1
  rw [same, here] at there
  cases there
  trivial

/-! ## Runs -/

/-- `main` waits for a client, and every thread that was made has returned. -/
def AtRest (server : Server) : Prop :=
  server.main = .accepting ∧
    ∀ thread ∈ server.threads, thread = .returned ∨ ∃ data, thread = .failed data

private theorem AtRest.stage_cases (rest : server.AtRest) (index : Nat) :
    (server.stage index = .idle ∧ ∀ data, server.threads[index]? ≠ some (.failed data)) ∨
      ∃ data, server.threads[index]? = some (.failed data) ∧
        server.stage index = { block := some data, opens := true } := by
  cases here : server.threads[index]? with
  | none =>
      refine .inl ⟨?_, fun data same => by cases same⟩
      rw [stage, here, rest.1]
      simp [Main.stage]
  | some thread =>
      rcases rest.2 thread (List.mem_of_getElem? here) with rfl | ⟨data, rfl⟩
      · exact .inl ⟨stage_of_thread here, fun data same => by cases same⟩
      · exact .inr ⟨data, rfl, stage_of_thread here⟩

private theorem AtRest.sockets_iff (rest : server.AtRest) (orderly : server.Orderly) (sock : Nat) :
    (∃ number, server.sockets sock = some number) ↔
      ∃ (index data : Nat), server.threads[index]? = some (.failed data) ∧
        server.accepted[index]?.map ClientData.clientSocket = some sock := by
  constructor
  · rintro ⟨number, isOpen⟩
    rcases (orderly.sockets.held sock number).mp isOpen with ⟨index, has⟩
    rw [socketHeld] at has
    rcases rest.stage_cases index with ⟨idle, _⟩ | ⟨data, failed, stage⟩
    · rw [idle] at has
      cases has
    · rw [stage, if_pos rfl] at has
      rcases Option.map_eq_some_iff.mp has with ⟨contents, given, same⟩
      cases same
      exact ⟨index, data, failed, by rw [given]; rfl⟩
  · rintro ⟨index, data, failed, same⟩
    rcases Option.map_eq_some_iff.mp same with ⟨contents, given, rfl⟩
    exact ⟨_, orderly.sockets.here (socketHeld_eq given (by rw [stage_of_thread failed]; rfl))⟩

private theorem AtRest.blocks_iff (rest : server.AtRest) (orderly : server.Orderly) (block : Nat) :
    (∃ contents, server.blocks block = some contents) ↔ .failed block ∈ server.threads := by
  constructor
  · rintro ⟨contents, inUse⟩
    rcases (orderly.blocks.held block contents).mp inUse with ⟨index, has⟩
    rw [blockHeld] at has
    rcases rest.stage_cases index with ⟨idle, _⟩ | ⟨data, failed, stage⟩
    · rw [idle] at has
      cases has
    · rw [stage] at has
      rcases Option.map_eq_some_iff.mp has with ⟨found, given, same⟩
      cases same
      exact List.mem_of_getElem? failed
  · intro failed
    rcases List.mem_iff_getElem?.mp failed with ⟨index, here⟩
    rcases orderly.block_of_thread here rfl with ⟨contents, _, has⟩
    exact ⟨contents, orderly.blocks.here has⟩

end Server

open Server in
/-- In every run a thread uses only what it has been given and has not given back: each
descriptor that is open and each block that is in use belongs to one client that has been
accepted, and a thread in its loop has the descriptor of its client. When all threads are
done, what is left belongs to threads that could not be made. -/
theorem server_resources {clientSock client : Nat} {events : List ServerEvent} {final : Server}
    (ran : Server.machine.run events (start clientSock client) = some final) :
    (final.fault = none ∨ final.fault = some .nullData ∨ final.fault = some .overrun) ∧
      Owned final.sockets final.socketHeld ∧ Owned final.blocks final.blockHeld ∧
      (final.fault = none → ∀ (index data sock : Nat),
        final.threads[index]? = some (.serving data sock) →
          ∃ contents connection, final.accepted[index]? = some contents ∧
            final.sockets sock = some contents.clientAddress ∧
            final.connections[contents.clientAddress]? = some connection ∧
            connection.service = .serving) ∧
      (final.AtRest →
        (∀ sock, (∃ number, final.sockets sock = some number) ↔
          ∃ (index data : Nat), final.threads[index]? = some (.failed data) ∧
            final.accepted[index]?.map ClientData.clientSocket = some sock) ∧
        ∀ block, (∃ contents, final.blocks block = some contents) ↔
          .failed block ∈ final.threads) := by
  have reached : final.Orderly ∧
      (final.fault = none ∨ final.fault = some .nullData ∨ final.fault = some .overrun) := by
    refine @Machine.run_induction _ _ Server.machine _ (fun _ server => server.Orderly ∧
      (server.fault = none ∨ server.fault = some .nullData ∨ server.fault = some .overrun))
      ⟨.ofStart clientSock client, .inl rfl⟩ ?_ _ _ ran
    intro calls server event next reached executed
    simp only [Server.machine] at executed
    split at executed
    next sound =>
      have effect := reached.1.step_effect sound executed
      exact ⟨effect.orderly, effect.fault⟩
    next => cases executed
  exact ⟨reached.2, reached.1.sockets, reached.1.blocks,
    fun sound _ _ _ here => reached.1.serving_of_thread sound here,
    fun rest => ⟨AtRest.sockets_iff rest reached.1,
      AtRest.blocks_iff rest reached.1⟩⟩

/-- Two clients connect; the thread for the first one serves it to the end, and the thread
for the second one cannot be made. -/
def visits : List ServerEvent :=
  [.connect [104, 105, 10] unset, .connect [104, 111, 10] unset, .accept 4 1, .malloc (some 100),
    .create true, .begin 0, .send 1 true, .serve 0 (.bytes 3), .accept 5 0, .malloc (some 101),
    .serve 0 .closed, .create false, .close 0, .acceptFails, .free 0]

theorem server_resources_of_visits :
    ∃ final, Server.machine.run visits (.start 0 0) = some final ∧
      final.threads = [.returned, .failed 101] ∧
      ∀ block, (∃ contents, final.blocks block = some contents) ↔ block = 101 := by
  have ends : (Server.machine.run visits (.start 0 0)).map
      (fun final => (final.main, final.threads)) =
        some (.accepting, [.returned, .failed 101]) := by decide +kernel
  rcases Option.map_eq_some_iff.mp ends with ⟨final, ran, same⟩
  have accepting : final.main = .accepting := congrArg Prod.fst same
  have threads : final.threads = [.returned, .failed 101] := congrArg Prod.snd same
  have rest : final.AtRest := by
    refine ⟨accepting, ?_⟩
    rw [threads]
    simp
  refine ⟨final, ran, threads, ?_⟩
  intro block
  rw [((server_resources ran).2.2.2.2 rest).2 block, threads]
  simp

end SystemsRepository.TcpChat
