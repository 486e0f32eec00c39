import OsborneX.SimulationModel
import OsborneX.RingCallProofs

/-! # The market-data feed — subscribers on the shards' outbound buffers

    Every shard pushes its top-of-book updates to a ring buffer of its own,
    overwriting.  A `Subscriber` has a Lossy cursor on each of them and reads
    them in turn, on its own thread and, once that is joined, on the thread that
    stops it.

    A push and a read are one step each, so that no push comes between the
    accesses of a read; processing a message and pushing the update it makes
    are one step of the shard. -/

namespace OsxMarketFeed

open OsxShard OsxRingBuffer OsxRingCall

inductive Fault where
  /-- a thread that has to wait, or is not there -/
  | blocked
  /-- assigning to a joinable `std::thread` -/
  | terminate
  /-- the assertion of `add_subscriber`: the topology is closed -/
  | frozen
  | simulation (fault : OsxSimulation.Fault)
  | ring (fault : OsxRingBuffer.Fault)
  deriving DecidableEq, Repr

instance : Inhabited TopOfBookUpdate := ⟨{}⟩

/-! ## The subscriber -/

/-- Where the subscriber's thread is in `Subscriber::run`. -/
inductive Poller where
  /-- `thread_` is not joinable -/
  | absent
  /-- about to load `running_` -/
  | loading
  /-- in `poll_all_sources_once`, about to read the source `next` -/
  | polling (next : Nat) (progressed : Bool)
  /-- returned, and not joined yet -/
  | finished
  deriving DecidableEq, Repr

/-- Where the caller of `Subscriber::stop` is. -/
inductive Stopper where
  | idle
  | joining
  /-- in the last `poll_all_sources_once` calls -/
  | polling (next : Nat) (progressed : Bool)
  deriving DecidableEq, Repr

/-- `Subscriber`; a source is a cursor on the buffer of a shard. -/
structure Subscriber (count : Nat) where
  running : Bool
  thread : Poller
  stopper : Stopper
  sources : List (Fin count × ConsumerId)
  events : List TopOfBookUpdate

namespace Subscriber

variable {count : Nat}

/-- `Subscriber()`, with the sources it is registered on. -/
def new (sources : List (Fin count × ConsumerId)) : Subscriber count where
  running := false
  thread := .absent
  stopper := .idle
  sources := sources
  events := []

/-- `start`. -/
def start (subscriber : Subscriber count) :
    Except Fault (Subscriber count) :=
  match subscriber.stopper with
  | .idle =>
      if subscriber.running then .ok subscriber
      else match subscriber.thread with
        | .absent =>
            .ok { subscriber with running := true, thread := .loading }
        | _ => .error .terminate
  | _ => .error .blocked

/-- `stop`, up to the join. -/
def stop (subscriber : Subscriber count) : Except Fault (Subscriber count) :=
  match subscriber.stopper with
  | .idle =>
      if subscriber.running then
        .ok { subscriber with running := false, stopper := .joining }
      else .ok subscriber
  | _ => .error .blocked

end Subscriber

/-! ## The feed -/

/-- The outbound buffers of the shards. -/
abbrev Buffers (count : Nat) := Fin count → RingBuffer TopOfBookUpdate

structure Market (count : Nat) where
  simulation : OsxSimulation.Simulation count
  outbound : Buffers count
  subscribers : List (Subscriber count)

inductive Action (count : Nat) where
  | simulation (action : OsxSimulation.Action count)
  /-- `Simulation::add_subscriber` -/
  | addSubscriber
  | startSubscriber (id : Nat)
  | stopSubscriber (id : Nat)
  /-- the next turn of a subscriber's thread -/
  | poll (id : Nat)
  /-- the next turn of a call of `Subscriber::stop` -/
  | stopper (id : Nat)
  deriving DecidableEq, Repr

inductive Event (count : Nat) where
  | quiet
  | simulation (event : OsxSimulation.Event count)
  /-- `Subscriber::handle`, for an update read from the buffer of a shard -/
  | handled (id : Nat) (shard : Fin count) (update : TopOfBookUpdate)
  deriving DecidableEq, Repr

/-- `source->try_read(event)`. -/
def readSource {count : Nat} (outbound : Buffers count)
    (source : Fin count × ConsumerId) :
    Except Fault (Buffers count × ReadResult TopOfBookUpdate) :=
  let owner := outbound source.1
  match owner.consumers[source.2]? with
  | none => .error .blocked
  | some cursor =>
      match tryRead owner cursor with
      | .error fault => .error (.ring fault)
      | .ok (cursor, result) =>
          .ok (Function.update outbound source.1 { owner with
            consumers := owner.consumers.set source.2 cursor }, result)

namespace Market

variable {count : Nat}

/-- `Simulation(options)`: no subscriber yet. -/
def new (count inboundCapacity outboundCapacity : Nat) : Market count where
  simulation := .new count inboundCapacity
  outbound := fun _ => .new outboundCapacity []
  subscribers := []

/-- `MarketDataPublisher::add_subscriber`: a Lossy cursor on every buffer. -/
def addSubscriber (s : Market count) : Except Fault (Market count) :=
  if s.simulation.frozen then .error .frozen
  else .ok { s with
    outbound := fun shard => (s.outbound shard).addConsumer .lossy
    subscribers := s.subscribers ++ [.new ((List.finRange count).map
      fun shard => (shard, (s.outbound shard).consumers.length))] }

/-- What an event of the simulation pushes to the outbound buffers. -/
def publish (outbound : Buffers count) :
    OsxSimulation.Event count → Buffers count
  | .processed shard _ published =>
      match published.top with
      | none => outbound
      | some update => Function.update outbound shard
          (pushOverwrite (outbound shard) update)
  | _ => outbound

/-- A step of the simulation. -/
def simulationStep (hash : SymbolId → Nat) [NeZero count] (s : Market count)
    (action : OsxSimulation.Action count) :
    Except Fault (Market count × Event count) :=
  match s.simulation.step hash action with
  | .error fault => .error (.simulation fault)
  | .ok (simulation, event) =>
      .ok ({ s with
        simulation := simulation
        outbound := publish s.outbound event }, .simulation event)

/-- One source of `poll_all_sources_once`, for one subscriber: what the call
    goes on with, and what it handled. -/
def readNext (s : Market count) (id : Nat) (subscriber : Subscriber count)
    (source : Fin count × ConsumerId) (progressed : Bool) :
    Except Fault (Buffers count × List TopOfBookUpdate × Bool × Event count) :=
  match readSource s.outbound source with
  | .error fault => .error fault
  | .ok (outbound, .empty) =>
      .ok (outbound, subscriber.events, progressed, .quiet)
  | .ok (outbound, .dropped _) =>
      .ok (outbound, subscriber.events, true, .quiet)
  | .ok (outbound, .ok _ update) =>
      .ok (outbound, subscriber.events ++ [update], true,
        .handled id source.1 update)

/-- One subscriber replaced. -/
def setSubscriber (s : Market count) (id : Nat)
    (subscriber : Subscriber count) : Market count :=
  { s with subscribers := s.subscribers.set id subscriber }

/-- The next turn of the loop of `Subscriber::run`. -/
def pollStep (s : Market count) (id : Nat) (subscriber : Subscriber count) :
    Except Fault (Market count × Event count) :=
  match subscriber.thread with
  | .absent | .finished => .error .blocked
  | .loading =>
      let next := if subscriber.running then .polling 0 false else .finished
      .ok (s.setSubscriber id { subscriber with thread := next }, .quiet)
  | .polling next progressed =>
      match subscriber.sources[next]? with
      | none =>
          .ok (s.setSubscriber id { subscriber with thread := .loading }, .quiet)
      | some source =>
          match s.readNext id subscriber source progressed with
          | .error fault => .error fault
          | .ok (outbound, events, progressed, event) =>
              .ok ({ s with outbound := outbound }.setSubscriber id
                { subscriber with
                  thread := .polling (next + 1) progressed
                  events := events }, event)

/-- The next turn of `Subscriber::stop`. -/
def stopperStep (s : Market count) (id : Nat) (subscriber : Subscriber count) :
    Except Fault (Market count × Event count) :=
  match subscriber.stopper with
  | .idle => .error .blocked
  | .joining =>
      match subscriber.thread with
      | .absent | .finished =>
          .ok (s.setSubscriber id { subscriber with
            thread := .absent, stopper := .polling 0 false }, .quiet)
      | _ => .error .blocked
  | .polling next progressed =>
      match subscriber.sources[next]? with
      | none =>
          -- `while (poll_all_sources_once())`
          let stopper := if progressed then .polling 0 false else .idle
          .ok (s.setSubscriber id { subscriber with stopper := stopper }, .quiet)
      | some source =>
          match s.readNext id subscriber source progressed with
          | .error fault => .error fault
          | .ok (outbound, events, progressed, event) =>
              .ok ({ s with outbound := outbound }.setSubscriber id
                { subscriber with
                  stopper := .polling (next + 1) progressed
                  events := events }, event)

/-- A call or a turn of one subscriber. -/
def subscriberStep (s : Market count) (id : Nat)
    (turn : Subscriber count → Except Fault (Market count × Event count)) :
    Except Fault (Market count × Event count) :=
  match s.subscribers[id]? with
  | none => .error .blocked
  | some subscriber => turn subscriber

/-- One step. -/
def step (hash : SymbolId → Nat) [NeZero count] (s : Market count) :
    Action count → Except Fault (Market count × Event count)
  | .simulation action => s.simulationStep hash action
  | .addSubscriber => s.addSubscriber.map (·, .quiet)
  | .startSubscriber id => s.subscriberStep id fun subscriber =>
      subscriber.start.map fun subscriber =>
        (s.setSubscriber id subscriber, .quiet)
  | .stopSubscriber id => s.subscriberStep id fun subscriber =>
      subscriber.stop.map fun subscriber =>
        (s.setSubscriber id subscriber, .quiet)
  | .poll id => s.subscriberStep id (s.pollStep id)
  | .stopper id => s.subscriberStep id (s.stopperStep id)

/-- `Subscriber::dropped_count`. -/
def droppedCount (s : Market count) (subscriber : Subscriber count) : Nat :=
  subscriber.sources.foldl (fun total source =>
    match (s.outbound source.1).consumers[source.2]? with
    | none => total
    | some cursor => addSequence total cursor.dropped) 0

end Market

/-! ## What a run did -/

variable {count : Nat}

/-- The steps of the simulation. -/
def simulationActions (actions : List (Action count)) :
    List (OsxSimulation.Action count) :=
  actions.filterMap fun
    | .simulation action => some action
    | _ => none

def simulationLog (log : List (Event count)) :
    List (OsxSimulation.Event count) :=
  log.filterMap fun
    | .simulation event => some event
    | _ => none

/-- The updates a shard pushed. -/
def pushedBy (shard : Fin count) (log : List (Event count)) :
    List TopOfBookUpdate :=
  (OsxSimulation.processedAt shard (simulationLog log)).filterMap (·.2.top)

/-- The updates a subscriber handled that it read from a shard's buffer. -/
def handledFrom (id : Nat) (shard : Fin count) (log : List (Event count)) :
    List TopOfBookUpdate :=
  log.filterMap fun
    | .handled id' shard' update =>
        if id' = id ∧ shard' = shard then some update else none
    | _ => none

/-- The updates a subscriber handled. -/
def handledBy (id : Nat) (log : List (Event count)) : List TopOfBookUpdate :=
  log.filterMap fun
    | .handled id' _ update => if id' = id then some update else none
    | _ => none

end OsxMarketFeed
