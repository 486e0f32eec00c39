import OsborneX.MarketFeedModel

/-! # The stream reader — one thread reads every producer's buffer in turn

    A `TradeStreamReader` has a Lossy cursor on the trade buffer of each shard.
    Its thread reads one item of each buffer in a pass, and `stop` reads, on the
    calling thread, what is left once the thread is joined.  Each item read is
    given to the handler.

    A push and a read are one step each, so that no push comes between the
    accesses of a read.  The turns of a `Subscriber` are the same but for the
    item (`subscriber_reader`), so the reader is over any. -/

namespace OsxStream

open OsxRingBuffer OsxRingCall
open OsxMarketFeed (Poller Stopper)

inductive Fault where
  /-- a thread that has to wait, or is not there -/
  | blocked
  /-- assigning to a joinable `std::thread` -/
  | terminate
  | ring (fault : OsxRingBuffer.Fault)
  deriving DecidableEq, Repr

/-- `TradeStreamReader`, with the buffers it reads; a source is a cursor on one
    of them. -/
structure StreamReader (T : Type) (count : Nat) where
  buffers : Fin count → RingBuffer T
  sources : List (Fin count × ConsumerId)
  running : Bool
  thread : Poller
  stopper : Stopper

inductive Action (T : Type) (count : Nat) where
  /-- the producer of a buffer overwrites its oldest slot -/
  | push (producer : Fin count) (item : T)
  | start
  | stop
  /-- the next turn of the reader's thread -/
  | poll
  /-- the next turn of a call of `stop` -/
  | stopper
  deriving DecidableEq, Repr

inductive Event (T : Type) (count : Nat) where
  | quiet
  | pushed (producer : Fin count) (item : T)
  /-- the handler was called with an item of this producer -/
  | delivered (producer : Fin count) (item : T)
  deriving DecidableEq, Repr

variable {T : Type} {count : Nat}

namespace StreamReader

/-- `TradeStreamReader(handler)`, on buffers nothing was pushed to. -/
def new [Inhabited T] (count capacity : Nat) : StreamReader T count where
  buffers := fun _ => .new capacity []
  sources := []
  running := false
  thread := .absent
  stopper := .idle

/-- `register_producer`. -/
def registerProducer (s : StreamReader T count) (producer : Fin count) :
    StreamReader T count :=
  { s with
    buffers := Function.update s.buffers producer
      ((s.buffers producer).addConsumer .lossy)
    sources := s.sources ++
      [(producer, (s.buffers producer).consumers.length)] }

/-- The loop over the shards that registers each. -/
def registerAll (s : StreamReader T count) : StreamReader T count :=
  (List.finRange count).foldl registerProducer s

/-- `push_overwrite`, on the buffer of one producer. -/
def push (s : StreamReader T count) (producer : Fin count) (item : T) :
    StreamReader T count :=
  { s with
    buffers := Function.update s.buffers producer
      (pushOverwrite (s.buffers producer) item) }

/-- `start`. -/
def start (s : StreamReader T count) : Except Fault (StreamReader T count) :=
  match s.stopper with
  | .idle =>
      if s.running then .ok s
      else match s.thread with
        | .absent => .ok { s with running := true, thread := .loading }
        | _ => .error .terminate
  | _ => .error .blocked

/-- `stop`, up to the join. -/
def stop (s : StreamReader T count) : Except Fault (StreamReader T count) :=
  match s.stopper with
  | .idle =>
      if s.running then .ok { s with running := false, stopper := .joining }
      else .ok s
  | _ => .error .blocked

/-- `source->try_read(trade)`: the buffers, what the handler is called with, and
    whether the pass has progressed. -/
def read (s : StreamReader T count) (source : Fin count × ConsumerId)
    (progressed : Bool) :
    Except Fault ((Fin count → RingBuffer T) × Bool × Event T count) :=
  let owner := s.buffers source.1
  match owner.consumers[source.2]? with
  | none => .error .blocked
  | some cursor =>
      match tryRead owner cursor with
      | .error fault => .error (.ring fault)
      | .ok (cursor, result) =>
          let buffers := Function.update s.buffers source.1 { owner with
            consumers := owner.consumers.set source.2 cursor }
          match result with
          | .empty => .ok (buffers, progressed, .quiet)
          | .dropped _ => .ok (buffers, true, .quiet)
          | .ok _ item => .ok (buffers, true, .delivered source.1 item)

/-- The next turn of `run`. -/
def poll (s : StreamReader T count) :
    Except Fault (StreamReader T count × Event T count) :=
  match s.thread with
  | .absent | .finished => .error .blocked
  | .loading =>
      let next := if s.running then .polling 0 false else .finished
      .ok ({ s with thread := next }, .quiet)
  | .polling next progressed =>
      match s.sources[next]? with
      | none => .ok ({ s with thread := .loading }, .quiet)
      | some source => do
          let (buffers, progressed, event) ← s.read source progressed
          return ({ s with
            buffers := buffers
            thread := .polling (next + 1) progressed }, event)

/-- The next turn of `stop`. -/
def stopperStep (s : StreamReader T count) :
    Except Fault (StreamReader T count × Event T count) :=
  match s.stopper with
  | .idle => .error .blocked
  | .joining =>
      match s.thread with
      | .absent | .finished =>
          .ok ({ s with thread := .absent, stopper := .polling 0 false },
            .quiet)
      | _ => .error .blocked
  | .polling next progressed =>
      match s.sources[next]? with
      | none =>
          -- `while (poll_all_sources_once())`
          let stopper := if progressed then .polling 0 false else .idle
          .ok ({ s with stopper := stopper }, .quiet)
      | some source => do
          let (buffers, progressed, event) ← s.read source progressed
          return ({ s with
            buffers := buffers
            stopper := .polling (next + 1) progressed }, event)

/-- One step. -/
def step (s : StreamReader T count) :
    Action T count → Except Fault (StreamReader T count × Event T count)
  | .push producer item => .ok (s.push producer item, .pushed producer item)
  | .start => s.start.map (·, .quiet)
  | .stop => s.stop.map (·, .quiet)
  | .poll => s.poll
  | .stopper => s.stopperStep

/-- `dropped_count` of a source. -/
def droppedAt (s : StreamReader T count) (source : Fin count × ConsumerId) :
    Nat :=
  match (s.buffers source.1).consumers[source.2]? with
  | none => 0
  | some cursor => cursor.dropped

end StreamReader

/-! ## What a run did -/

/-- What a producer pushed. -/
def pushedTo (producer : Fin count) (log : List (Event T count)) : List T :=
  log.filterMap fun
    | .pushed producer' item =>
        if producer' = producer then some item else none
    | _ => none

/-- What the handler was called with that a producer had pushed. -/
def deliveredFrom (producer : Fin count) (log : List (Event T count)) :
    List T :=
  log.filterMap fun
    | .delivered producer' item =>
        if producer' = producer then some item else none
    | _ => none

/-- All the handler was called with, in order. -/
def delivered (log : List (Event T count)) : List T :=
  log.filterMap fun
    | .delivered _ item => some item
    | _ => none

end OsxStream
