import SystemsRepository.Foundation.Ownership
import SystemsRepository.TcpChat.Lockstep

/-! # The accept loop of `server.c`

`main` accepts clients and hands each to a thread of its own, in a block of memory that
the thread frees. The system numbers descriptors and blocks as it likes, and uses the
numbers again that are free.
-/

namespace SystemsRepository.TcpChat

open SystemsRepository.Foundation

/-! ## The server -/

/-- `client_data`; the address of a client is the number of its connection. -/
structure ClientData where
  clientSocket : Nat
  clientAddress : Nat
  deriving DecidableEq, Repr

/-- The loop of `main` is at `accept`, behind it, or behind the stores to `data`. -/
inductive Main
  | accepting
  | accepted
  | allocated (data : Nat)
  deriving DecidableEq, Repr

/-- A thread that `pthread_create` was asked for: it was not made, it is about to read
`data`, it is in the loop of `handle_client`, at `close`, at `free`, or has returned. -/
inductive Thread
  | failed (data : Nat)
  | created (data : Nat)
  | serving (data sock : Nat)
  | leaving (data sock : Nat)
  | closed (data : Nat)
  | returned
  deriving DecidableEq, Repr

/-- The server has stored through a null pointer, has used a block that it had freed or a
descriptor that it had closed, or has read past the end of a buffer. -/
inductive Fault
  | nullData
  | freedData
  | closedSocket
  | overrun
  deriving DecidableEq, Repr

/-- The open descriptors say which connection they are, `client_sock` and `client` are the
variables of `main`, and `accepted` is what `accept` has returned so far. -/
structure Server where
  main : Main
  clientSock : Nat
  client : Nat
  sockets : Nat → Option Nat
  blocks : Nat → Option ClientData
  threads : List Thread
  connections : List Connection
  accepted : List ClientData
  fault : Option Fault

/-- A client connects or takes a step of its own; `main` takes the step it is at; or a
thread does. -/
inductive ServerEvent
  | connect (stdin buffer : List Byte)
  | send (number : Nat) (succeeds : Bool)
  | receive (number : Nat) (delivery : Delivery)
  | acceptFails
  | accept (sock number : Nat)
  | malloc (data : Option Nat)
  | create (succeeds : Bool)
  | begin (index : Nat)
  | serve (index : Nat) (delivery : Delivery)
  | close (index : Nat)
  | free (index : Nat)
  deriving DecidableEq, Repr

namespace Server

/-- The variables hold what happens to be there. -/
def start (clientSock client : Nat) : Server where
  main := .accepting
  clientSock := clientSock
  client := client
  sockets _ := none
  blocks _ := none
  threads := []
  connections := []
  accepted := []
  fault := none

def advance (server : Server) (number : Nat) (event : Event) : Option (Connection × Server) := do
  let connection ← server.connections[number]?
  let next ← connection.step event
  return (next, { server with connections := server.connections.set number next })

def setThread (server : Server) (index : Nat) (thread : Thread) : Server :=
  { server with threads := server.threads.set index thread }

def faulted (server : Server) (fault : Fault) : Server := { server with fault := some fault }

def accepting (server : Server) (sock number : Nat) : Server :=
  { server with
    main := .accepted
    clientSock := sock
    client := number
    sockets := Function.update server.sockets sock (some number)
    accepted := server.accepted ++ [{ clientSocket := sock, clientAddress := number }] }

/-- The descriptor is one that is not open, the address that of a client that has connected. -/
def accept (server : Server) (sock number : Nat) : Option Server :=
  if server.main = .accepting ∧ server.sockets sock = none ∧
      number < server.connections.length ∧
        number ∉ server.accepted.map ClientData.clientAddress then
    some (server.accepting sock number)
  else none

def filling (server : Server) (data : Nat) : Server :=
  { server with
    main := .allocated data
    blocks := Function.update server.blocks data
      (some { clientSocket := server.clientSock, clientAddress := server.client }) }

def malloc (server : Server) : Option Nat → Option Server
  | none => if server.main = .accepted then some (server.faulted .nullData) else none
  | some data =>
      if server.main = .accepted ∧ server.blocks data = none then some (server.filling data)
      else none

def handing (server : Server) (thread : Thread) : Server :=
  { server with main := .accepting, threads := server.threads ++ [thread] }

def create (server : Server) (succeeds : Bool) : Option Server :=
  match server.main with
  | .allocated data => some (server.handing (if succeeds then .created data else .failed data))
  | _ => none

def begin (server : Server) (index : Nat) : Option Server :=
  match server.threads[index]? with
  | some (.created data) =>
      match server.blocks data with
      | none => some (server.faulted .freedData)
      | some contents => some (server.setThread index (.serving data contents.clientSocket))
  | _ => none

/-- One iteration of the loop in `handle_client`, with the descriptor it has. -/
def serve (server : Server) (index : Nat) (delivery : Delivery) : Option Server :=
  match server.threads[index]? with
  | some (.serving data sock) =>
      match server.sockets sock with
      | none => some (server.faulted .closedSocket)
      | some number =>
          (server.advance number (.serve delivery)).map fun outcome =>
            match outcome.1.service with
            | .serving => outcome.2
            | .left => outcome.2.setThread index (.leaving data sock)
            | .faulted => outcome.2.faulted .overrun
  | _ => none

def close (server : Server) (index : Nat) : Option Server :=
  match server.threads[index]? with
  | some (.leaving data sock) =>
      match server.sockets sock with
      | none => some (server.faulted .closedSocket)
      | some _ =>
          some { server.setThread index (.closed data) with
            sockets := Function.update server.sockets sock none }
  | _ => none

def free (server : Server) (index : Nat) : Option Server :=
  match server.threads[index]? with
  | some (.closed data) =>
      match server.blocks data with
      | none => some (server.faulted .freedData)
      | some _ =>
          some { server.setThread index .returned with
            blocks := Function.update server.blocks data none }
  | _ => none

def step (server : Server) : ServerEvent → Option Server
  | .connect stdin buffer =>
      some { server with connections := server.connections ++ [Connection.start stdin buffer] }
  | .send number succeeds => (server.advance number (.send succeeds)).map Prod.snd
  | .receive number delivery => (server.advance number (.receive delivery)).map Prod.snd
  | .acceptFails => if server.main = .accepting then some server else none
  | .accept sock number => server.accept sock number
  | .malloc data => server.malloc data
  | .create succeeds => server.create succeeds
  | .begin index => server.begin index
  | .serve index delivery => server.serve index delivery
  | .close index => server.close index
  | .free index => server.free index

/-- Nothing is said about what happens after a fault. -/
def machine : Machine Server ServerEvent where
  execute event server := if server.fault = none then server.step event else none

end Server

/-! ## What the steps are about -/

def ServerEvent.accepted : ServerEvent → List ClientData
  | .accept sock number => [{ clientSocket := sock, clientAddress := number }]
  | _ => []

def ServerEvent.connected : ServerEvent → List (List Byte × List Byte)
  | .connect stdin buffer => [(stdin, buffer)]
  | _ => []

/-- The step of a connection. Thread number `index` is there for the client that `accept`
has returned as number `index`. -/
def ServerEvent.moved (accepted : List ClientData) : ServerEvent → Option (Nat × Event)
  | .send number succeeds => some (number, .send succeeds)
  | .receive number delivery => some (number, .receive delivery)
  | .serve index delivery =>
      accepted[index]?.map fun data => (data.clientAddress, .serve delivery)
  | _ => none

end SystemsRepository.TcpChat
