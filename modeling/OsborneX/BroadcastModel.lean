import OsborneX.ServerRunModel
import OsborneX.StreamReaderModel

/-! # The server with its broadcaster — from the shards to the datagrams

    Processing a message leaves a shard's thread with the trades, and with an
    update when the top of the book changed; it pushes them one after the other
    to its two outbound buffers before it goes on.  The `MarketDataBroadcaster`
    reads the buffers on two threads of its own and sends every item it reads.
    As in `OsxStream` a push and a read are one step each.

    `Server::start` starts the broadcaster between the simulation and the pump;
    `Server::stop` stops it after the simulation.  The other steps are those of
    the running server (`core`). -/

namespace OsxBroadcast

open OsxShard
open OsxStream (StreamReader)

inductive Fault where
  /-- a thread that has to wait, or is not there -/
  | blocked
  | server (fault : OsxServerRun.Fault)
  | stream (fault : OsxStream.Fault)
  deriving DecidableEq, Repr

/-- What a shard's thread still has to push. -/
inductive Item where
  | trade (execution : TradeExecution)
  | topOfBook (update : TopOfBookUpdate)
  deriving DecidableEq, Repr

/-- Where the owner is with the broadcaster. -/
inductive Broadcaster where
  | down
  /-- in `start`, about to start the trade reader -/
  | startingTrades
  | up
  /-- in `stop`, stopping the subscriber -/
  | stoppingTopOfBook
  /-- in `stop`, stopping the trade reader -/
  | stoppingTrades
  deriving DecidableEq, Repr

instance : Inhabited TradeExecution :=
  ⟨⟨0, 0, 0, 0, ⟨0⟩, 0, ⟨0⟩, 0⟩⟩

/-- `Server`. -/
structure Server (count : Nat) where
  core : OsxServerRun.Server count
  publishing : Fin count → List Item
  topOfBook : StreamReader TopOfBookUpdate count
  trades : StreamReader TradeExecution count
  broadcaster : Broadcaster

inductive Action (count : Nat) where
  | server (action : OsxServerRun.Action count)
  /-- the next push of the thread that processed for the shard -/
  | publish (shard : Fin count)
  /-- the next turn of the subscriber's thread -/
  | pollTopOfBook
  /-- the next turn of the trade reader's thread -/
  | pollTrades
  deriving DecidableEq, Repr

/-- The handlers send what they are called with: a `delivered` is a datagram. -/
inductive Event (count : Nat) where
  | server (event : OsxServerRun.Event count)
  | topOfBook (event : OsxStream.Event TopOfBookUpdate count)
  | trades (event : OsxStream.Event TradeExecution count)
  deriving DecidableEq, Repr

/-- What `Shard::process` pushes, in order. -/
def itemsOf (published : Published) : List Item :=
  published.trades.map .trade ++ published.top.toList.map .topOfBook

namespace Server

variable {count : Nat}

/-- `Server(options)`: a cursor on each outbound buffer of each shard. -/
def new (count inboundCapacity outboundCapacity inboundQueueCapacity : Nat) :
    Server count where
  core := .new count inboundCapacity inboundQueueCapacity
  publishing := fun _ => []
  topOfBook := (StreamReader.new count outboundCapacity).registerAll
  trades := (StreamReader.new count 1024).registerAll
  broadcaster := .down

/-- What processing leaves to be pushed. -/
def handOver (publishing : Fin count → List Item) :
    OsxServerRun.Event count → Fin count → List Item
  | .simulation (.processed shard _ published) =>
      Function.update publishing shard (itemsOf published)
  | _ => publishing

/-- A step of the server without its broadcaster. -/
def serve (hash : SymbolId → Nat) [NeZero count] (s : Server count)
    (action : OsxServerRun.Action count) :
    Except Fault (Server count × Event count) :=
  match s.core.step hash action with
  | .error fault => .error (.server fault)
  | .ok (core, event) =>
      .ok ({ s with
        core := core
        publishing := handOver s.publishing event }, .server event)

/-- A step of the subscriber. -/
def subscribe (s : Server count)
    (action : OsxStream.Action TopOfBookUpdate count) :
    Except Fault (Server count × Event count) :=
  match s.topOfBook.step action with
  | .error fault => .error (.stream fault)
  | .ok (reader, event) => .ok ({ s with topOfBook := reader }, .topOfBook event)

/-- A step of the trade reader. -/
def readTrades (s : Server count)
    (action : OsxStream.Action TradeExecution count) :
    Except Fault (Server count × Event count) :=
  match s.trades.step action with
  | .error fault => .error (.stream fault)
  | .ok (reader, event) => .ok ({ s with trades := reader }, .trades event)

/-- The thread whose turn it is has not pushed all it has to. -/
def Busy (s : Server count) : OsxServerRun.Action count → Prop
  | .worker shard => s.publishing shard ≠ []
  | .owner => ∃ shard, s.core.simulation.owner = .draining shard ∧
      s.publishing shard ≠ []
  | _ => False

instance (s : Server count) :
    (action : OsxServerRun.Action count) → Decidable (s.Busy action)
  | .worker _ => inferInstanceAs (Decidable (_ ≠ []))
  | .owner => inferInstanceAs (Decidable (∃ _, _ ∧ _))
  | .start _ | .stop | .accept _ | .connection _ | .receive _ _ | .hangUp _
  | .pump _ => inferInstanceAs (Decidable False)

/-- The owner's next turn: `broadcaster_.start()` comes after
    `simulation_.start()`, `broadcaster_.stop()` after `simulation_.stop()`. -/
def ownerStep (hash : SymbolId → Nat) [NeZero count] (s : Server count) :
    Except Fault (Server count × Event count) :=
  match s.core.owner, s.core.simulation.owner with
  | .startingSimulation _, .idle =>
      match s.broadcaster with
      | .down => do
          let (s, event) ← s.subscribe .start
          return ({ s with broadcaster := .startingTrades }, event)
      | .startingTrades => do
          let (s, event) ← s.readTrades .start
          return ({ s with broadcaster := .up }, event)
      | _ => s.serve hash .owner
  | .drainingSimulation, .idle =>
      match s.broadcaster with
      | .up => do
          let (s, event) ← s.subscribe .stop
          return ({ s with broadcaster := .stoppingTopOfBook }, event)
      | .stoppingTopOfBook =>
          match s.topOfBook.stopper with
          | .idle => do
              let (s, event) ← s.readTrades .stop
              return ({ s with broadcaster := .stoppingTrades }, event)
          | _ => s.subscribe .stopper
      | .stoppingTrades =>
          match s.trades.stopper with
          | .idle => do
              let (s, event) ← s.serve hash .owner
              return ({ s with broadcaster := .down }, event)
          | _ => s.readTrades .stopper
      | _ => s.serve hash .owner
  | _, _ => s.serve hash .owner

/-- The next `push_overwrite`. -/
def publishStep (s : Server count) (shard : Fin count) :
    Except Fault (Server count × Event count) :=
  match s.publishing shard with
  | [] => .error .blocked
  | item :: items =>
      let s := { s with publishing := Function.update s.publishing shard items }
      match item with
      | .trade execution => s.readTrades (.push shard execution)
      | .topOfBook update => s.subscribe (.push shard update)

/-- One step. -/
def step (hash : SymbolId → Nat) [NeZero count] (s : Server count) :
    Action count → Except Fault (Server count × Event count)
  | .server action =>
      if s.Busy action then .error .blocked
      else match action with
        | .owner => s.ownerStep hash
        | action => s.serve hash action
  | .publish shard => s.publishStep shard
  | .pollTopOfBook => s.subscribe .poll
  | .pollTrades => s.readTrades .poll

end Server

/-! ## What a run did -/

variable {count : Nat}

/-- What the server without its broadcaster did. -/
def serverLog (log : List (Event count)) : List (OsxServerRun.Event count) :=
  log.filterMap fun
    | .server event => some event
    | _ => none

/-- What happened to the top-of-book buffers. -/
def topOfBookLog (log : List (Event count)) :
    List (OsxStream.Event TopOfBookUpdate count) :=
  log.filterMap fun
    | .topOfBook event => some event
    | _ => none

/-- What happened to the trade buffers. -/
def tradesLog (log : List (Event count)) :
    List (OsxStream.Event TradeExecution count) :=
  log.filterMap fun
    | .trades event => some event
    | _ => none

/-- What a shard processed. -/
def processedAt (shard : Fin count) (log : List (Event count)) :
    List (OrderMessage × Published) :=
  OsxSimulation.processedAt shard (OsxServerRun.simulationLog (serverLog log))

/-- The trades a shard's messages made. -/
def tradesOf (shard : Fin count) (log : List (Event count)) :
    List TradeExecution :=
  (processedAt shard log).flatMap (·.2.trades)

/-- The updates a shard's messages made. -/
def topsOf (shard : Fin count) (log : List (Event count)) :
    List TopOfBookUpdate :=
  (processedAt shard log).filterMap (·.2.top)

/-- The trades of a shard that were sent. -/
def sentTrades (shard : Fin count) (log : List (Event count)) :
    List TradeExecution :=
  OsxStream.deliveredFrom shard (tradesLog log)

/-- The updates of a shard that were sent. -/
def sentTops (shard : Fin count) (log : List (Event count)) :
    List TopOfBookUpdate :=
  OsxStream.deliveredFrom shard (topOfBookLog log)

end OsxBroadcast
