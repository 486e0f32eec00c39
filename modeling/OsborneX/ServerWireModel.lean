import OsborneX.OrderEntryLoopModel
import OsborneX.ServerRunModel

/-! # The server on its sockets — connections read bytes

    `ServerRunModel` lets a connection's thread come by an order.  Here it reads
    the order off its socket: what the kernel will answer on each connection is
    given, and one turn of the thread is one pass of `connection_loop` up to the
    handler, the waiting included. -/

namespace OsxServerWire

open OsxShard OsxOrderEntry
open OsxListener (ThreadId)
open OsxServerRun (Fault Event)

/-- The server, and what is still to come on the socket of each connection. -/
structure Server (count : Nat) where
  core : OsxServerRun.Server count
  streams : ThreadId → List Readiness

inductive Action (count : Nat) where
  /-- any turn but those in `recv_all` -/
  | server (action : OsxServerRun.Action count)
  /-- a connection's thread reads a header and a payload -/
  | read (id : ThreadId)
  /-- it finds `running_` reset while it waits -/
  | giveUp (id : ThreadId)
  deriving DecidableEq, Repr

/-- What `connection_loop` reads in one pass; `none` where it breaks. -/
def readFrame (events : List Readiness) :
    Option (OrderMessage × List Readiness) :=
  match recvAll headerSize events with
  | none => none
  | some (bytes, events) =>
      let header := readHeader bytes
      -- not a peer speaking this protocol
      if header.magic ≠ frameMagic ∨ header.version ≠ frameVersion then none
      else if header.messageType ≠ .orderEntry ∨
          header.payloadLength ≠ wireSize then none
      else
        match recvAll wireSize events with
        | none => none
        | some (payload, events) => some (decode (receive payload), events)

namespace Server

variable {count : Nat}

/-- `Server(options)`, and what its clients will send. -/
def new (count inboundCapacity inboundQueueCapacity : Nat)
    (streams : ThreadId → List Readiness) : Server count where
  core := .new count inboundCapacity inboundQueueCapacity
  streams := streams

/-- The turn of the server without its sockets, and what is left of them. -/
def turnOf (s : Server count) :
    Action count → Except Fault (OsxServerRun.Action count ×
      (ThreadId → List Readiness))
  | .server (.receive _ _) | .server (.hangUp _) => .error .blocked
  | .server action => .ok (action, s.streams)
  | .read id =>
      match readFrame (s.streams id) with
      | none => .ok (.hangUp id, s.streams)
      | some (message, events) =>
          .ok (.receive id message, Function.update s.streams id events)
  | .giveUp id =>
      if s.core.listener.running then .error .blocked
      else .ok (.hangUp id, s.streams)

/-- One step. -/
def step (hash : SymbolId → Nat) [NeZero count] (s : Server count)
    (action : Action count) : Except Fault (Server count × Event count) := do
  let (action, streams) ← s.turnOf action
  let (core, event) ← s.core.step hash action
  return ({ core := core, streams := streams }, event)

end Server

end OsxServerWire
