import OsborneX.ListenerModel
import OsborneX.MpscQueueModel
import OsborneX.SimulationModel

/-! # The running server — every thread, one turn at a time

    The owner calls `Server::start` and `Server::stop`.  Between the two the
    accept thread starts a thread for each client, which reads orders and hands
    them to `MpscQueue::push`; the pump takes them out and submits them; the
    shards' workers process them.  `stop` brings the stages down one after the
    other and joins the threads of each before it goes on.

    As in the simulation, one step lets one thread take its next turn, and a
    thread that has to wait makes none.  The broadcaster only reads what the
    shards publish, and is left out: in `OsxBroadcast` its threads and its
    `start` and `stop` are put around the same steps.  `OsxServer`, where a call
    is one step, is about calls of `start` and `stop` in any number; here they
    go on turn by turn. -/

namespace OsxServerRun

open OsxShard OsxThread OsxListener

inductive Fault where
  /-- a thread that has to wait, or is not there -/
  | blocked
  /-- assigning to a joinable `std::thread` -/
  | terminate
  | listener (fault : OsxListener.Fault)
  | simulation (fault : OsxSimulation.Fault)
  deriving DecidableEq, Repr

/-! ## The threads -/

/-- Where a connection's thread is in `connection_loop`. -/
inductive ConnectionThread where
  | absent
  /-- about to load `running_` -/
  | loading
  /-- in `recv_all` -/
  | receiving
  /-- in the handler, about to push -/
  | handling (message : OrderMessage)
  /-- `finished` is set -/
  | finished
  deriving DecidableEq, Repr

/-- Where the listener's thread is in `accept_loop`. -/
inductive AcceptThread where
  | absent
  /-- about to load `running_` -/
  | loading
  /-- waiting for a client -/
  | waiting
  | finished
  deriving DecidableEq, Repr

/-- Where the pump's thread is in `IngressPump::run`. -/
inductive Pump where
  | absent
  | popping
  /-- about to submit what it popped -/
  | submitting (message : OrderMessage)
  | finished
  deriving DecidableEq, Repr

/-- `OrderEntryListener`, with the threads it started; `next` is the one it
    starts next. -/
structure Listener where
  running : Bool
  acceptThread : AcceptThread
  connections : List Connection
  threads : ThreadId → ConnectionThread
  next : ThreadId

namespace Listener

def new : Listener where
  running := false
  acceptThread := .absent
  connections := []
  threads := fun _ => .absent
  next := 0

/-- `connection.finished`; a thread and its flag share their number. -/
def flags (l : Listener) (id : FlagId) : Bool :=
  decide (l.threads id = .finished)

def setThread (l : Listener) (id : ThreadId) (thread : ConnectionThread) :
    Listener :=
  { l with threads := Function.update l.threads id thread }

@[simp] theorem setThread_self (l : Listener) (id : ThreadId)
    (thread : ConnectionThread) :
    (l.setThread id thread).threads id = thread :=
  Function.update_self ..

theorem setThread_other (l : Listener) {id id' : ThreadId}
    (thread : ConnectionThread) (h : id' ≠ id) :
    (l.setThread id thread).threads id' = l.threads id' :=
  Function.update_of_ne h ..

/-- `accept_loop`, with a client: reap, and start a thread. -/
def accept (l : Listener) : Except Fault Listener :=
  match reapFinishedConnections l.flags l.connections with
  | .error fault => .error (.listener fault)
  | .ok (connections, _) =>
      .ok { l.setThread l.next .loading with
        acceptThread := .loading
        connections := connections ++ [Accepted.connection ⟨l.next, l.next⟩]
        next := l.next + 1 }

end Listener

/-- Where the owner is in `Server::start` or `Server::stop`. -/
inductive Owner where
  | idle
  /-- in `Simulation::start`; `binds` is whether the port can be bound -/
  | startingSimulation (binds : Bool)
  /-- about to call `OrderEntryListener::start` -/
  | startingListener (binds : Bool)
  /-- about to call `OrderEntryListener::stop` -/
  | stoppingListener
  | joiningAccept
  | joiningConnections (connections : List Connection)
  /-- about to call `IngressPump::stop` -/
  | stoppingPump
  | joiningPump
  /-- about to call `Simulation::stop` -/
  | stoppingSimulation
  /-- in `Simulation::stop` -/
  | drainingSimulation
  deriving DecidableEq, Repr

/-! ## The server -/

/-- `Server`. -/
structure Server (count : Nat) where
  simulation : OsxSimulation.Simulation count
  inboundQueue : MpscQueue OrderMessage
  pump : Pump
  listener : Listener
  running : Bool
  owner : Owner

inductive Action (count : Nat) where
  /-- the owner calls `start` -/
  | start (binds : Bool)
  /-- the owner calls `stop` -/
  | stop
  /-- the owner's next turn in the call -/
  | owner
  /-- the accept thread's next turn, and whether a client is there -/
  | accept (client : Bool)
  /-- the next turn of a connection's thread, outside `recv_all` -/
  | connection (id : ThreadId)
  /-- an order was read whole, and decoded -/
  | receive (id : ThreadId) (message : OrderMessage)
  /-- `recv_all` gave up, or read a header that is not accepted -/
  | hangUp (id : ThreadId)
  /-- the pump's next turn, the steady clock showing `now` -/
  | pump (now : Nat)
  /-- the next turn of a shard's worker -/
  | worker (shard : Fin count)
  deriving DecidableEq, Repr

/-- What a step did that concerns a message. -/
inductive Event (count : Nat) where
  | quiet
  /-- the handler was invoked -/
  | invoked (id : ThreadId) (message : OrderMessage)
  | pushed (id : ThreadId) (message : OrderMessage)
  /-- the queue was closed -/
  | dropped (id : ThreadId) (message : OrderMessage)
  | popped (message : OrderMessage)
  | simulation (event : OsxSimulation.Event count)
  deriving DecidableEq, Repr

namespace Server

variable {count : Nat}

/-- `Server(options)`. -/
def new (count inboundCapacity inboundQueueCapacity : Nat) : Server count where
  simulation := .new count inboundCapacity
  inboundQueue := .new inboundQueueCapacity
  pump := .absent
  listener := .new
  running := false
  owner := .idle

/-- A step of the simulation. -/
def simulate (hash : SymbolId → Nat) [NeZero count] (s : Server count)
    (action : OsxSimulation.Action count) :
    Except Fault (Server count × Event count) :=
  match s.simulation.step hash action with
  | .error fault => .error (.simulation fault)
  | .ok (simulation, event) =>
      .ok ({ s with simulation := simulation }, .simulation event)

/-- `start`, up to the loop of `simulation_.start()`. -/
def start (hash : SymbolId → Nat) [NeZero count] (s : Server count)
    (binds : Bool) : Except Fault (Server count × Event count) :=
  match s.owner with
  | .idle =>
      if s.running then .ok (s, .quiet)
      else do
        let (s, event) ← s.simulate hash .start
        return ({ s with
          running := true, owner := .startingSimulation binds }, event)
  | _ => .error .blocked

/-- `stop`, up to `listener_.stop()`. -/
def stop (s : Server count) : Except Fault (Server count × Event count) :=
  match s.owner with
  | .idle =>
      if s.running then
        .ok ({ s with running := false, owner := .stoppingListener }, .quiet)
      else .ok (s, .quiet)
  | _ => .error .blocked

/-- The owner's next turn; `broadcaster_.start()` and `broadcaster_.stop()` are
    not among them. -/
def ownerStep (hash : SymbolId → Nat) [NeZero count] (s : Server count) :
    Except Fault (Server count × Event count) :=
  match s.owner with
  | .idle => .error .blocked
  | .startingSimulation binds =>
      match s.simulation.owner with
      | .idle =>
          -- `simulation_.start()` has returned: `pump_.start()`
          match s.pump with
          | .absent => .ok ({ s with
              pump := .popping, owner := .startingListener binds }, .quiet)
          | _ => .error .terminate
      | _ => s.simulate hash .owner
  | .startingListener binds =>
      if s.listener.running then .ok ({ s with owner := .idle }, .quiet)
      else if binds then
        match s.listener.acceptThread with
        | .absent => .ok ({ s with
            listener := { s.listener with
              running := true, acceptThread := .loading }
            owner := .idle }, .quiet)
        | _ => .error .terminate
      else .ok ({ s with owner := .stoppingPump }, .quiet)
  | .stoppingListener =>
      if s.listener.running then .ok ({ s with
        listener := { s.listener with running := false }
        owner := .joiningAccept }, .quiet)
      else .ok ({ s with owner := .stoppingPump }, .quiet)
  | .joiningAccept =>
      match s.listener.acceptThread with
      | .absent | .finished => .ok ({ s with
          listener := { s.listener with
            acceptThread := .absent, connections := [] }
          owner := .joiningConnections s.listener.connections }, .quiet)
      | _ => .error .blocked
  | .joiningConnections [] => .ok ({ s with owner := .stoppingPump }, .quiet)
  | .joiningConnections (c :: connections) =>
      match c.thread with
      | none =>
          .ok ({ s with owner := .joiningConnections connections }, .quiet)
      | some id =>
          match s.listener.threads id with
          | .finished =>
              .ok ({ s with owner := .joiningConnections connections }, .quiet)
          | _ => .error .blocked
  | .stoppingPump => .ok ({ s with
      inboundQueue := s.inboundQueue.close, owner := .joiningPump }, .quiet)
  | .joiningPump =>
      match s.pump with
      | .absent | .finished => .ok ({ s with
          pump := .absent, owner := .stoppingSimulation }, .quiet)
      | _ => .error .blocked
  | .stoppingSimulation => do
      let (s, event) ← s.simulate hash .stop
      return ({ s with owner := .drainingSimulation }, event)
  | .drainingSimulation =>
      match s.simulation.owner with
      -- a `start` that could not bind resets the flag only here
      | .idle => .ok ({ s with running := false, owner := .idle }, .quiet)
      | _ => s.simulate hash .owner

/-- The accept thread's next turn. -/
def acceptStep (s : Server count) (client : Bool) :
    Except Fault (Server count × Event count) :=
  match s.listener.acceptThread with
  | .absent | .finished => .error .blocked
  | .loading =>
      let next := if s.listener.running then .waiting else .finished
      .ok ({ s with
        listener := { s.listener with acceptThread := next } }, .quiet)
  | .waiting =>
      if client then do
        let listener ← s.listener.accept
        return ({ s with listener := listener }, .quiet)
      else .ok ({ s with
        listener := { s.listener with acceptThread := .loading } }, .quiet)

/-- The next turn of a connection's thread. -/
def connectionStep (s : Server count) (id : ThreadId) :
    Except Fault (Server count × Event count) :=
  match s.listener.threads id with
  | .loading =>
      let next := if s.listener.running then .receiving else .finished
      .ok ({ s with listener := s.listener.setThread id next }, .quiet)
  | .handling message =>
      match s.inboundQueue.push message with
      | none => .error .blocked
      | some inbound =>
          let event := if s.inboundQueue.closed then Event.dropped id message
            else .pushed id message
          .ok ({ s with
            inboundQueue := inbound
            listener := s.listener.setThread id .loading }, event)
  | _ => .error .blocked

/-- The pump's next turn. -/
def pumpStep (hash : SymbolId → Nat) [NeZero count] (s : Server count)
    (now : Nat) : Except Fault (Server count × Event count) :=
  match s.pump with
  | .absent | .finished => .error .blocked
  | .popping =>
      match s.inboundQueue.popBlocking with
      | none => .error .blocked
      | some (none, _) => .ok ({ s with pump := .finished }, .quiet)
      | some (some message, inbound) => .ok ({ s with
          inboundQueue := inbound, pump := .submitting message },
          .popped message)
  | .submitting message => do
      let (s, event) ← s.simulate hash (.submit message now)
      return ({ s with pump := .popping }, event)

/-- One step. -/
def step (hash : SymbolId → Nat) [NeZero count] (s : Server count) :
    Action count → Except Fault (Server count × Event count)
  | .start binds => s.start hash binds
  | .stop => s.stop
  | .owner => s.ownerStep hash
  | .accept client => s.acceptStep client
  | .connection id => s.connectionStep id
  | .receive id message =>
      match s.listener.threads id with
      | .receiving => .ok ({ s with
          listener := s.listener.setThread id (.handling message) },
          .invoked id message)
      | _ => .error .blocked
  | .hangUp id =>
      match s.listener.threads id with
      | .receiving => .ok ({ s with
          listener := s.listener.setThread id .finished }, .quiet)
      | _ => .error .blocked
  | .pump now => s.pumpStep hash now
  | .worker shard => s.simulate hash (.worker shard)

/-- The server is down: `simulation_.stop()` has returned, the last call of
    `stop` but for `broadcaster_.stop()`. -/
def Stopped (s : Server count) : Prop :=
  s.owner = .idle ∧ s.running = false

instance (s : Server count) : Decidable s.Stopped :=
  inferInstanceAs (Decidable (_ ∧ _))

end Server

/-! ## What a run did -/

variable {count : Nat}

/-- The messages of a connection that the handler was invoked with: those
    decoded on it, in order. -/
def invokedBy (id : ThreadId) (log : List (Event count)) : List OrderMessage :=
  log.filterMap fun
    | .invoked id' message => if id' = id then some message else none
    | _ => none

/-- What the handler was invoked with, with the connection it came from. -/
def invoked (log : List (Event count)) : List (ThreadId × OrderMessage) :=
  log.filterMap fun
    | .invoked id message => some (id, message)
    | _ => none

/-- What was pushed to the queue, with the connection it came from. -/
def pushed (log : List (Event count)) : List (ThreadId × OrderMessage) :=
  log.filterMap fun
    | .pushed id message => some (id, message)
    | _ => none

/-- What the pump popped. -/
def popped (log : List (Event count)) : List OrderMessage :=
  log.filterMap fun
    | .popped message => some message
    | _ => none

/-- What the simulation did. -/
def simulationLog (log : List (Event count)) :
    List (OsxSimulation.Event count) :=
  log.filterMap fun
    | .simulation event => some event
    | _ => none

end OsxServerRun
