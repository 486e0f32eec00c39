import OsborneX.ServerRunModel

/-! # Sockets — who closes which descriptor

    The kernel hands out descriptors and takes them back, and the number of a
    closed one can be handed out again.  A `SocketHandle` owns the descriptor it
    holds: it closes it when it is reset or destroyed. -/

namespace OsxSocket

open OsxListener (ThreadId)

/-- A native socket, other than `kInvalidSocket`. -/
abbrev NativeSocket := Nat

inductive Fault where
  /-- a call on a descriptor that is not open -/
  | badDescriptor
  /-- an answer the kernel does not give -/
  | impossible
  | server (fault : OsxServerRun.Fault)
  deriving DecidableEq, Repr

/-- The descriptors that are open. -/
abbrev Descriptors := Finset NativeSocket

namespace Descriptors

/-- `::socket` and `::accept` hand out one that is not open. -/
def handOut (d : Descriptors) (socket : NativeSocket) :
    Except Fault Descriptors :=
  if socket ∈ d then .error .impossible else .ok (insert socket d)

/-- `close_native_socket` -/
def closeNativeSocket (d : Descriptors) (socket : NativeSocket) :
    Except Fault Descriptors :=
  if socket ∈ d then .ok (d.erase socket) else .error .badDescriptor

/-- Any other call on a socket; `none` is `kInvalidSocket`. -/
def use (d : Descriptors) (socket : Option NativeSocket) :
    Except Fault Descriptors :=
  match socket with
  | none => .error .badDescriptor
  | some socket => if socket ∈ d then .ok d else .error .badDescriptor

end Descriptors

/-- `SocketHandle`; without a descriptor it holds `kInvalidSocket`. -/
structure SocketHandle where
  native : Option NativeSocket
  deriving DecidableEq, Repr

namespace SocketHandle

/-- `SocketHandle()` -/
def invalid : SocketHandle := ⟨none⟩

def valid (s : SocketHandle) : Bool := s.native.isSome

/-- `reset` -/
def reset (s : SocketHandle) (handle : Option NativeSocket) (d : Descriptors) :
    Except Fault (SocketHandle × Descriptors) :=
  match s.native with
  | none => .ok (⟨handle⟩, d)
  | some socket => do
      let d ← d.closeNativeSocket socket
      return (⟨handle⟩, d)

/-- `~SocketHandle` -/
def destroy (s : SocketHandle) (d : Descriptors) : Except Fault Descriptors :=
  (s.reset none d).map Prod.snd

/-- The move constructor: the new handle, and what is left of the other. -/
def move (other : SocketHandle) : SocketHandle × SocketHandle :=
  (⟨other.native⟩, invalid)

end SocketHandle

/-! ## The client -/

/-- `OrderEntryClient` -/
structure OrderEntryClient where
  socket : SocketHandle
  deriving DecidableEq, Repr

/-- What the kernel answers for an address: to `::socket`, and to
    `::connect`. -/
structure Candidate where
  socket : Option NativeSocket
  connects : Bool
  deriving DecidableEq, Repr

namespace OrderEntryClient

def new : OrderEntryClient := ⟨.invalid⟩

def disconnect (c : OrderEntryClient) (d : Descriptors) :
    Except Fault (OrderEntryClient × Descriptors) := do
  let (socket, d) ← c.socket.reset none d
  return (⟨socket⟩, d)

/-- The loop over the addresses. -/
def connectLoop (c : OrderEntryClient) :
    List Candidate → Descriptors → Except Fault (OrderEntryClient × Descriptors)
  | [], d => .ok (c, d)
  | candidate :: candidates, d =>
      match candidate.socket with
      | none => c.connectLoop candidates d
      | some handle => do
          let d ← d.handOut handle
          let d ← d.use handle
          if candidate.connects then
            let (socket, d) ← c.socket.reset handle d
            return (⟨socket⟩, d)
          else
            let d ← d.closeNativeSocket handle
            c.connectLoop candidates d

/-- `connect`; `none` when `getaddrinfo` fails. -/
def connect (c : OrderEntryClient) (candidates : Option (List Candidate))
    (d : Descriptors) : Except Fault ((OrderEntryClient × Descriptors) × Bool) := do
  let (c, d) ← c.disconnect d
  match candidates with
  | none => return ((c, d), false)
  | some candidates =>
      let (c, d) ← c.connectLoop candidates d
      return ((c, d), c.socket.valid)

/-- The socket calls of `send`; `sent` is whether they took all the bytes. -/
def send (c : OrderEntryClient) (sent : Bool) (d : Descriptors) :
    Except Fault (Descriptors × Bool) :=
  if c.socket.valid then do
    let d ← d.use c.socket.native
    return (d, sent)
  else .ok (d, false)

end OrderEntryClient

/-- A call on a client, and what the kernel answers in it. -/
inductive Call where
  | connect (candidates : Option (List Candidate))
  | disconnect
  | send (sent : Bool)
  deriving DecidableEq, Repr

/-- The clients of a process, and its descriptors. -/
structure Clients (I : Type) where
  clients : I → OrderEntryClient
  descriptors : Descriptors

namespace Clients

variable {I : Type} [DecidableEq I]

def new (I : Type) : Clients I := ⟨fun _ => .new, ∅⟩

/-- A call on one of the clients, and what it returns. -/
def call (p : Clients I) : I × Call → Except Fault (Clients I × Option Bool)
  | (i, .connect candidates) => do
      let ((c, d), connected) ← (p.clients i).connect candidates p.descriptors
      return (⟨Function.update p.clients i c, d⟩, some connected)
  | (i, .disconnect) => do
      let (c, d) ← (p.clients i).disconnect p.descriptors
      return (⟨Function.update p.clients i c, d⟩, none)
  | (i, .send sent) => do
      let (d, sent) ← (p.clients i).send sent p.descriptors
      return ({ p with descriptors := d }, some sent)

end Clients

/-! ## The server -/

/-- The server with the descriptors of its process: the listening socket, and
    the `client` of each `connection_loop`. -/
structure Server (count : Nat) where
  core : OsxServerRun.Server count
  descriptors : Descriptors
  listenSocket : SocketHandle
  clients : ThreadId → SocketHandle

/-- A turn, and what the kernel answers when a socket is asked for in it. -/
structure Action (count : Nat) where
  turn : OsxServerRun.Action count
  socket : Option NativeSocket
  deriving DecidableEq, Repr

namespace Server

variable {count : Nat}

def new (count inboundCapacity inboundQueueCapacity : Nat) : Server count where
  core := .new count inboundCapacity inboundQueueCapacity
  descriptors := ∅
  listenSocket := .invalid
  clients := fun _ => .invalid

/-- The calls of `OrderEntryListener::start`; `binds` is whether a socket is
    made, bound and listened on. -/
def startListener (s : Server count) (binds : Bool)
    (socket : Option NativeSocket) : Except Fault (Server count) :=
  if s.core.listener.running then .ok s
  else
    match socket with
    | none => if binds then .error .impossible else .ok s
    | some handle => do
        let d ← s.descriptors.handOut handle
        let (listenSocket, d) ← s.listenSocket.reset handle d
        let d ← d.use listenSocket.native
        if binds then
          return { s with descriptors := d, listenSocket := listenSocket }
        else
          let (listenSocket, d) ← listenSocket.reset none d
          return { s with descriptors := d, listenSocket := listenSocket }

/-- `listen_socket_.reset()`, when `stop` has joined all connections. -/
def stopListener (s : Server count) : Except Fault (Server count) := do
  let (listenSocket, d) ← s.listenSocket.reset none s.descriptors
  return { s with descriptors := d, listenSocket := listenSocket }

/-- A pass of `accept_loop`: the handle is moved into the new thread, and what
    is left of it destroyed. -/
def accept (s : Server count) (client : Bool) (socket : Option NativeSocket) :
    Except Fault (Server count) := do
  let d ← s.descriptors.use s.listenSocket.native
  if client then
    match socket with
    | none => .error .impossible
    | some handle =>
        let d ← d.handOut handle
        let (moved, left) := SocketHandle.move ⟨handle⟩
        let d ← left.destroy d
        return { s with
          descriptors := d
          clients := Function.update s.clients s.core.listener.next moved }
  else return { s with descriptors := d }

/-- `recv_all` on a connection. -/
def receive (s : Server count) (id : ThreadId) : Except Fault (Server count) := do
  let d ← s.descriptors.use (s.clients id).native
  return { s with descriptors := d }

/-- `connection_loop` returns, and `client` with it. -/
def leave (s : Server count) (id : ThreadId) : Except Fault (Server count) := do
  let d ← (s.clients id).destroy s.descriptors
  return { s with
    descriptors := d, clients := Function.update s.clients id .invalid }

/-- The socket calls of a turn. -/
def sockets (s : Server count) (action : Action count) :
    Except Fault (Server count) :=
  match action.turn with
  | .owner =>
      match s.core.owner with
      | .startingListener binds => s.startListener binds action.socket
      | .joiningConnections [] => s.stopListener
      | _ => .ok s
  | .accept client =>
      match s.core.listener.acceptThread with
      | .waiting => s.accept client action.socket
      | _ => .ok s
  | .connection id =>
      match s.core.listener.threads id with
      | .loading => if s.core.listener.running then .ok s else s.leave id
      | _ => .ok s
  | .receive id _ => s.receive id
  | .hangUp id => do
      let s ← s.receive id
      s.leave id
  | _ => .ok s

/-- One turn; a turn that cannot be taken makes no calls. -/
def step (hash : OsxShard.SymbolId → Nat) [NeZero count] (s : Server count)
    (action : Action count) :
    Except Fault (Server count × OsxServerRun.Event count) :=
  match s.core.step hash action.turn with
  | .error fault => .error (.server fault)
  | .ok (core, event) => do
      let s ← s.sockets action
      return ({ s with core := core }, event)

end Server

end OsxSocket
