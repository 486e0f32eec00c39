import OsborneX.MpscQueueModel

/-! # The server's lifecycle — starting, stopping, and starting again

    `Server::start` and `Server::stop` over the five components they bring up
    and down.  A call is one step; between calls the connection handlers push
    and the pump thread pops, in any order.

    What a call waits for, the threads of the connections and what the shards
    do with a message are left out; `OsxServerRun` has them, for one call of
    `start`. -/

namespace OsxServer

open OsxThread

variable {M : Type}

/-! ## The simulation and the broadcaster -/

/-- `Simulation`, as far as its lifecycle goes: `submitted` is what
    `Simulation::submit` was handed. -/
structure Simulation (M : Type) where
  running : Bool
  frozen : Bool
  shards : List Worker
  submitted : List M

namespace Simulation

/-- `Simulation(options)`. -/
def new (shardCount : Nat) : Simulation M where
  running := false
  frozen := false
  shards := List.replicate shardCount .idle
  submitted := []

def start (s : Simulation M) : Except Fault (Simulation M) :=
  if s.running then .ok s
  else (s.shards.mapM Worker.start).map (fun shards =>
    { s with running := true, frozen := true, shards := shards })

def stop (s : Simulation M) : Simulation M :=
  if s.running then
    { s with running := false, shards := s.shards.map Worker.stop }
  else s

def submit (s : Simulation M) (message : M) : Simulation M :=
  { s with submitted := s.submitted ++ [message] }

end Simulation

structure MarketDataBroadcaster where
  topOfBookSubscriber : Worker
  tradeReader : Worker
  deriving DecidableEq, Repr

namespace MarketDataBroadcaster

def idle : MarketDataBroadcaster := ⟨.idle, .idle⟩

def busy : MarketDataBroadcaster := ⟨.busy, .busy⟩

def start (b : MarketDataBroadcaster) :
    Except Fault MarketDataBroadcaster := do
  let topOfBookSubscriber ← b.topOfBookSubscriber.start
  let tradeReader ← b.tradeReader.start
  return ⟨topOfBookSubscriber, tradeReader⟩

def stop (b : MarketDataBroadcaster) : MarketDataBroadcaster :=
  ⟨b.topOfBookSubscriber.stop, b.tradeReader.stop⟩

end MarketDataBroadcaster

/-! ## The listener and the pump -/

/-- `OrderEntryListener::start`; `binds` is whether the port could be bound and
    listened on. -/
def startListener (w : Worker) (binds : Bool) : Except Fault (Worker × Bool) :=
  if w.running then .ok (w, true)
  else if binds then
    w.thread.launch.map (fun thread => (⟨true, thread⟩, true))
  else .ok (w, false)

/-- `IngressPump::run`, once the queue is closed: to the end. -/
def drain (inbound : MpscQueue M) (simulation : Simulation M) :
    MpscQueue M × Simulation M :=
  match _h : inbound.popBlocking with
  | some (some message, inbound') =>
      drain inbound' (simulation.submit message)
  | _ => (inbound, simulation)
termination_by inbound.items.length
decreasing_by
  rw [(MpscQueue.popBlocking_some _h).1]
  exact Nat.lt_succ_self _

/-! ## The server -/

/-- `Server`. -/
structure Server (M : Type) where
  simulation : Simulation M
  inboundQueue : MpscQueue M
  pump : Thread
  broadcaster : MarketDataBroadcaster
  listener : Worker
  running : Bool

/-- What happens to a server: its owner calls it, a connection thread invokes
    the handler, or the pump thread goes round its loop. -/
inductive Action (M : Type) where
  | start (binds : Bool)
  | stop
  | handle (message : M)
  | pump
  deriving DecidableEq, Repr

namespace Server

/-- `Server(options)`. -/
def new (shardCount inboundQueueCapacity : Nat) : Server M where
  simulation := .new shardCount
  inboundQueue := .new inboundQueueCapacity
  pump := .none
  broadcaster := .idle
  listener := .idle
  running := false

/-- `pump_.stop()`: closes the queue; a thread at work drains it, and is
    joined. -/
def stopPump (s : Server M) : Server M :=
  let inbound := s.inboundQueue.close
  match s.pump with
  | .none => { s with inboundQueue := inbound }
  | .running =>
      let (inbound, simulation) := drain inbound s.simulation
      { s with
        inboundQueue := inbound, simulation := simulation, pump := .none }
  | .returned => { s with inboundQueue := inbound, pump := .none }

/-- `start`. -/
def start (s : Server M) (binds : Bool) : Except Fault (Server M × Bool) := do
  if s.running then
    return (s, true)
  let simulation ← s.simulation.start
  let broadcaster ← s.broadcaster.start
  let pump ← s.pump.launch
  let (listener, bound) ← startListener s.listener binds
  let s : Server M := { s with
    simulation := simulation, broadcaster := broadcaster, pump := pump
    listener := listener, running := true }
  if bound then
    return (s, true)
  let s := s.stopPump
  return ({ s with
    simulation := s.simulation.stop, broadcaster := s.broadcaster.stop
    running := false }, false)

/-- `stop`. -/
def stop (s : Server M) : Server M :=
  if s.running then
    let s := { s with running := false, listener := s.listener.stop }
    let s := s.stopPump
    { s with
      simulation := s.simulation.stop, broadcaster := s.broadcaster.stop }
  else s

/-- One pass of the loop of `IngressPump::run`. -/
def pumpOnce (s : Server M) : Except Fault (Server M) :=
  match s.pump with
  | .running =>
      match s.inboundQueue.popBlocking with
      | none => .error .blocked
      | some (none, _) => .ok { s with pump := .returned }
      | some (some message, inbound) =>
          .ok { s with
            inboundQueue := inbound
            simulation := s.simulation.submit message }
  | _ => .error .blocked

/-- The handler, on a connection thread of the running listener. -/
def handle (s : Server M) (message : M) : Except Fault (Server M) :=
  if s.listener.running then
    match s.inboundQueue.push message with
    | none => .error .blocked
    | some inbound => .ok { s with inboundQueue := inbound }
  else .error .blocked

/-- One action; the output is what `start` returned. -/
def step (s : Server M) : Action M → Except Fault (Server M × Option Bool)
  | .start binds => (s.start binds).map (fun r => (r.1, some r.2))
  | .stop => .ok (s.stop, none)
  | .handle message => (s.handle message).map (·, none)
  | .pump => s.pumpOnce.map (·, none)

end Server

/-- What the last `start` of a run returned. -/
def lastStart (returned : List (Option Bool)) : Option Bool :=
  (returned.filterMap id).getLast?

/-- The server takes orders: the queue is open, the pump is in its loop, what a
    handler pushes is appended, and what is queued goes to the simulation. -/
structure Serving (s : Server M) : Prop where
  isOpen : s.inboundQueue.closed = false
  popping : s.pump = .running
  appends : ∀ message,
    s.inboundQueue.items.length < s.inboundQueue.capacity →
    ∃ s', s.step (.handle message) = .ok (s', none) ∧
      s'.inboundQueue.items = s.inboundQueue.items ++ [message]
  submits : ∃ s' returned,
    Execution.execute Server.step s
      (List.replicate s.inboundQueue.items.length .pump) = .ok (s', returned) ∧
    s'.inboundQueue.items = [] ∧
    s'.simulation.submitted
      = s.simulation.submitted ++ s.inboundQueue.items

end OsxServer
