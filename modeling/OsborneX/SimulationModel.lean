import OsborneX.ShardModel
import OsborneX.RingBufferModel

/-! # The simulation — one thread submits, every shard has its worker

    `Ingress` stamps the messages one thread submits and `Router` hands each to
    the shard of its symbol.  A shard's worker reads its inbound buffer and
    processes; `Simulation::stop`, on the owner's thread, lets the workers
    return one after the other and processes what they left behind.

    Every thread's place is explicit, and one step lets one thread take its
    next turn: a load of the flag, a push or a read of a ring buffer, the
    processing of a message.  A list of actions is an interleaving. -/

namespace OsxSimulation

open OsxShard

inductive Fault where
  /-- a thread that has to wait, or is not there -/
  | blocked
  /-- assigning to a joinable `std::thread` -/
  | terminate
  | process (fault : OsxOrderbook.Fault)
  deriving DecidableEq, Repr

/-! ## A shard and its worker -/

/-- The inbound `RingBuffer` with its one Lossless cursor, at the grain of
    whole pushes and reads: what is published and not read yet.  It has no
    sequences, and stands for the buffer below 2^64 messages
    (`OsxInbound.inbound_linearizes`); past them the cursor of the code finds
    nothing any more. -/
structure Inbound where
  items : List OrderMessage
  capacity : Nat
  bounded : items.length ≤ capacity

namespace Inbound

/-- `RingBuffer(capacity)`. -/
def new (capacity : Nat) : Inbound where
  items := []
  capacity := OsxRingBuffer.bitCeil (if capacity = 0 then 1 else capacity)
  bounded := Nat.zero_le _

/-- `push_blocking`: waits for a slot. -/
def pushBlocking (b : Inbound) (message : OrderMessage) : Option Inbound :=
  if h : b.items.length < b.capacity then
    some { b with
      items := b.items ++ [message]
      bounded := by rw [List.length_append]; exact h }
  else none

/-- `try_read`; `none` is `Empty`. -/
def tryRead (b : Inbound) : Option (OrderMessage × Inbound) :=
  match h : b.items with
  | [] => none
  | message :: items =>
      some (message, { b with
        items := items
        bounded := by
          have := b.bounded
          rw [h, List.length_cons] at this
          omega })

theorem pushBlocking_some {b b' : Inbound} {message : OrderMessage}
    (h : b.pushBlocking message = some b') :
    b'.items = b.items ++ [message] := by
  rw [pushBlocking] at h
  split at h
  · cases h
    rfl
  · cases h

theorem tryRead_some {b b' : Inbound} {message : OrderMessage}
    (h : b.tryRead = some (message, b')) : b.items = message :: b'.items := by
  rw [tryRead] at h
  split at h
  · cases h
  · rename_i hitems
    cases h
    exact hitems

theorem tryRead_none {b : Inbound} (h : b.tryRead = none) : b.items = [] := by
  rw [tryRead] at h
  split at h
  · assumption
  · cases h

end Inbound

/-- Where a shard's worker is in `Shard::run`. -/
inductive Worker where
  /-- `thread_` is not joinable -/
  | absent
  /-- about to load `running_` -/
  | loading
  /-- about to read the inbound buffer -/
  | reading
  /-- about to process what it read -/
  | holding (message : OrderMessage)
  /-- returned, and not joined yet -/
  | finished
  deriving DecidableEq, Repr

/-- `Shard` with its threads; `books_` and `last_top_` are `shard`. -/
structure Lane where
  shard : Shard
  inbound : Inbound
  running : Bool
  worker : Worker

namespace Lane

/-- `Shard(inbound_capacity, ..)`. -/
def new (inboundCapacity : Nat) : Lane where
  shard := .empty
  inbound := .new inboundCapacity
  running := false
  worker := .absent

/-- `Shard::start`. -/
def start (lane : Lane) : Except Fault Lane :=
  if lane.running then .ok lane
  else match lane.worker with
    | .absent => .ok { lane with running := true, worker := .loading }
    | _ => .error .terminate

/-- `Shard::process`, on either thread. -/
def process (lane : Lane) (message : OrderMessage) :
    Except Fault (Lane × Published) :=
  match lane.shard.process message with
  | .error fault => .error (.process fault)
  | .ok (shard, published) => .ok ({ lane with shard := shard }, published)

/-- The worker's next turn in `Shard::run`; with what it processed. -/
def work (lane : Lane) :
    Except Fault (Lane × Option (OrderMessage × Published)) :=
  match lane.worker with
  | .absent | .finished => .error .blocked
  | .loading =>
      let next := if lane.running then .reading else .finished
      .ok ({ lane with worker := next }, none)
  | .reading =>
      match lane.inbound.tryRead with
      | none => .ok ({ lane with worker := .loading }, none)
      | some (message, inbound) =>
          .ok ({ lane with inbound := inbound, worker := .holding message },
            none)
  | .holding message => do
      let (lane, published) ← lane.process message
      return ({ lane with worker := .loading }, some (message, published))

end Lane

/-! ## The simulation -/

/-- Where the owner's thread is in `Simulation::start` or `Simulation::stop`. -/
inductive Owner (count : Nat) where
  | idle
  /-- starting the shards from this one on -/
  | starting (next : Nat)
  /-- stopping the shards from this one on -/
  | stopping (next : Nat)
  /-- in `Shard::stop`, about to join -/
  | joining (shard : Fin count)
  /-- in `Shard::drain`, about to read -/
  | draining (shard : Fin count)
  /-- in `Shard::drain`, about to process what it read -/
  | applying (shard : Fin count) (message : OrderMessage)
  deriving DecidableEq, Repr

/-- `Simulation`, with its `Router` and its `Ingress`. -/
structure Simulation (count : Nat) where
  lanes : Fin count → Lane
  nextSequence : Nat
  running : Bool
  frozen : Bool
  owner : Owner count

inductive Action (count : Nat) where
  /-- `submit`, the steady clock showing `now` -/
  | submit (message : OrderMessage) (now : Nat)
  /-- the owner calls `start` -/
  | start
  /-- the owner calls `stop` -/
  | stop
  /-- the owner's next turn in the call -/
  | owner
  /-- the next turn of a shard's worker -/
  | worker (shard : Fin count)
  deriving DecidableEq, Repr

/-- What a step did that concerns a message. -/
inductive Event (count : Nat) where
  | quiet
  /-- stamped, and pushed to the inbound buffer of the shard -/
  | accepted (shard : Fin count) (message : OrderMessage)
  | processed (shard : Fin count) (message : OrderMessage)
      (published : Published)
  deriving DecidableEq, Repr

/-- `Router::shard_for_symbol`, for a `std::hash<SymbolId>`. -/
def shardForSymbol (hash : SymbolId → Nat) (count : Nat) [NeZero count]
    (symbol : SymbolId) : Fin count :=
  Fin.ofNat count (hash symbol)

namespace Simulation

variable {count : Nat}

/-- `Simulation(options)`. -/
def new (count inboundCapacity : Nat) : Simulation count where
  lanes := fun _ => .new inboundCapacity
  nextSequence := 0
  running := false
  frozen := false
  owner := .idle

/-- The lane of one shard replaced. -/
def setLane (s : Simulation count) (shard : Fin count) (lane : Lane) :
    Simulation count :=
  { s with lanes := Function.update s.lanes shard lane }

/-- `Ingress::receive`, `Router::route` and `Shard::enqueue`. -/
def submit (hash : SymbolId → Nat) [NeZero count] (s : Simulation count)
    (message : OrderMessage) (now : Nat) :
    Except Fault (Simulation count × Event count) :=
  let stamped := { message with
    ingressTimestamp := now, ingressSequence := s.nextSequence }
  let shard := shardForSymbol hash count message.symbol
  let lane := s.lanes shard
  match lane.inbound.pushBlocking stamped with
  | none => .error .blocked
  | some inbound =>
      .ok ({ s.setLane shard { lane with inbound := inbound } with
        nextSequence := OsxRingBuffer.addSequence s.nextSequence 1 },
        .accepted shard stamped)

/-- `start`, up to its loop. -/
def start (s : Simulation count) : Except Fault (Simulation count) :=
  match s.owner with
  | .idle =>
      if s.running then .ok s
      else .ok { s with
        running := true, frozen := true, owner := .starting 0 }
  | _ => .error .blocked

/-- `stop`, up to its loop. -/
def stop (s : Simulation count) : Except Fault (Simulation count) :=
  match s.owner with
  | .idle =>
      if s.running then
        .ok { s with running := false, owner := .stopping 0 }
      else .ok s
  | _ => .error .blocked

/-- The owner's next turn. -/
def ownerStep (s : Simulation count) :
    Except Fault (Simulation count × Event count) :=
  match s.owner with
  | .idle => .error .blocked
  | .starting next =>
      if h : next < count then do
        let lane ← (s.lanes ⟨next, h⟩).start
        return ({ s.setLane ⟨next, h⟩ lane with
          owner := .starting (next + 1) }, .quiet)
      else .ok ({ s with owner := .idle }, .quiet)
  | .stopping next =>
      if h : next < count then
        let lane := s.lanes ⟨next, h⟩
        if lane.running then
          .ok ({ s.setLane ⟨next, h⟩ { lane with running := false } with
            owner := .joining ⟨next, h⟩ }, .quiet)
        else .ok ({ s with owner := .stopping (next + 1) }, .quiet)
      else .ok ({ s with owner := .idle }, .quiet)
  | .joining shard =>
      let lane := s.lanes shard
      match lane.worker with
      | .absent => .ok ({ s with owner := .draining shard }, .quiet)
      | .finished =>
          .ok ({ s.setLane shard { lane with worker := .absent } with
            owner := .draining shard }, .quiet)
      | _ => .error .blocked
  | .draining shard =>
      let lane := s.lanes shard
      match lane.inbound.tryRead with
      | none => .ok ({ s with owner := .stopping (shard + 1) }, .quiet)
      | some (message, inbound) =>
          .ok ({ s.setLane shard { lane with inbound := inbound } with
            owner := .applying shard message }, .quiet)
  | .applying shard message => do
      let (lane, published) ← (s.lanes shard).process message
      return ({ s.setLane shard lane with owner := .draining shard },
        .processed shard message published)

/-- The next turn of a worker. -/
def workerStep (s : Simulation count) (shard : Fin count) :
    Except Fault (Simulation count × Event count) := do
  let (lane, done) ← (s.lanes shard).work
  return (s.setLane shard lane, match done with
    | none => .quiet
    | some (message, published) => .processed shard message published)

/-- One step. -/
def step (hash : SymbolId → Nat) [NeZero count] (s : Simulation count) :
    Action count → Except Fault (Simulation count × Event count)
  | .submit message now => s.submit hash message now
  | .start => s.start.map (·, .quiet)
  | .stop => s.stop.map (·, .quiet)
  | .owner => s.ownerStep
  | .worker shard => s.workerStep shard

end Simulation

/-! ## What a run did -/

variable {count : Nat}

/-- The messages that were submitted, in order. -/
def submissions (actions : List (Action count)) : List OrderMessage :=
  actions.filterMap fun
    | .submit message _ => some message
    | _ => none

/-- The messages a shard was handed, as stamped. -/
def acceptedAt (shard : Fin count) (log : List (Event count)) :
    List OrderMessage :=
  log.filterMap fun
    | .accepted shard' message => if shard' = shard then some message else none
    | _ => none

/-- The messages a shard processed, and what it pushed. -/
def processedAt (shard : Fin count) (log : List (Event count)) :
    List (OrderMessage × Published) :=
  log.filterMap fun
    | .processed shard' message published =>
        if shard' = shard then some (message, published) else none
    | _ => none

/-- Everything accepted, in the order it was stamped. -/
def accepted (log : List (Event count)) : List OrderMessage :=
  log.filterMap fun
    | .accepted _ message => some message
    | _ => none

/-- Everything processed, by whichever shard. -/
def processed (log : List (Event count)) : List (OrderMessage × Published) :=
  log.filterMap fun
    | .processed _ message published => some (message, published)
    | _ => none

/-- The trades pushed to the outbound buffers. -/
def tradesPushed (log : List (Event count)) : List TradeExecution :=
  (processed log).flatMap (·.2.trades)

/-- The updates pushed to the outbound buffers. -/
def topsPushed (log : List (Event count)) : List TopOfBookUpdate :=
  (processed log).filterMap (·.2.top)

/-- What the ingress makes of the messages, from this sequence on; the clock
    aside. -/
def stampedFrom (sequence : Nat) : List OrderMessage → List OrderMessage
  | [] => []
  | message :: messages =>
      { message with ingressTimestamp := 0, ingressSequence := sequence } ::
        stampedFrom (OsxRingBuffer.addSequence sequence 1) messages

/-- A message without the time it was stamped. -/
def untimed (message : OrderMessage) : OrderMessage :=
  { message with ingressTimestamp := 0 }

end OsxSimulation
