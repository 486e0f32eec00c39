import OsborneX.MpscQueueModel

/-! # Threads on a `MpscQueue` — critical sections in any order

    Any number of threads push, one pops, and any number call `close`.  A call
    begins, makes its critical section, and returns; each is a step of its own.
    A critical section that finds its predicate false goes back to waiting: a
    notification, or a spurious wakeup, has the predicate checked again at any
    time. -/

namespace OsxMpscRun

open OsxThread

variable {T : Type}

/-- Where a thread is that calls `push`. -/
inductive Pusher (T : Type) where
  | idle
  /-- about to check the predicate, under the mutex -/
  | waiting (value : T)
  /-- past the critical section -/
  | returning (value : T)
  deriving DecidableEq, Repr

/-- Where the consumer is. -/
inductive Popper (T : Type) where
  | idle
  | waiting
  | returning (result : Option T)
  deriving DecidableEq, Repr

/-- Where a thread is that calls `close`. -/
inductive Closer where
  | idle
  | waiting
  | returning
  deriving DecidableEq, Repr

structure Threads (T : Type) where
  queue : MpscQueue T
  pushers : Nat → Pusher T
  popper : Popper T
  closers : Nat → Closer

inductive Action (T : Type) where
  /-- a thread calls `push` -/
  | push (id : Nat) (value : T)
  /-- the next turn of a thread in `push` -/
  | pusher (id : Nat)
  /-- the consumer calls `pop_blocking` -/
  | pop
  /-- the next turn of the consumer -/
  | popper
  /-- a thread calls `close` -/
  | close (id : Nat)
  /-- the next turn of a thread in `close` -/
  | closer (id : Nat)
  deriving DecidableEq, Repr

inductive Event (T : Type) where
  /-- a predicate was found false -/
  | slept
  | pushBegan (id : Nat) (value : T)
  | accepted (id : Nat) (value : T)
  /-- the queue was closed -/
  | dropped (id : Nat) (value : T)
  | pushReturned (id : Nat) (value : T)
  | popBegan
  | popped (value : T)
  /-- closed, and nothing left -/
  | drained
  | popReturned (result : Option T)
  | closeBegan (id : Nat)
  | closed (id : Nat)
  | closeReturned (id : Nat)
  deriving DecidableEq, Repr

namespace Threads

/-- A queue that no thread has called. -/
def new (capacity : Nat) : Threads T where
  queue := .new capacity
  pushers := fun _ => .idle
  popper := .idle
  closers := fun _ => .idle

/-- A thread in `push`. -/
def pusherStep (s : Threads T) (id : Nat) :
    Except Fault (Threads T × Event T) :=
  match s.pushers id with
  | .idle => .error .blocked
  | .waiting value =>
      match s.queue.push value with
      | none => .ok (s, .slept)
      | some queue =>
          let event := if s.queue.closed then Event.dropped id value
            else .accepted id value
          .ok ({ s with
            queue := queue
            pushers := Function.update s.pushers id (.returning value) }, event)
  | .returning value =>
      .ok ({ s with pushers := Function.update s.pushers id .idle },
        .pushReturned id value)

/-- The consumer in `pop_blocking`. -/
def popperStep (s : Threads T) : Except Fault (Threads T × Event T) :=
  match s.popper with
  | .idle => .error .blocked
  | .waiting =>
      match s.queue.popBlocking with
      | none => .ok (s, .slept)
      | some (none, queue) =>
          .ok ({ s with queue := queue, popper := .returning none }, .drained)
      | some (some value, queue) =>
          .ok ({ s with queue := queue, popper := .returning (some value) },
            .popped value)
  | .returning result =>
      .ok ({ s with popper := .idle }, .popReturned result)

/-- A thread in `close`. -/
def closerStep (s : Threads T) (id : Nat) :
    Except Fault (Threads T × Event T) :=
  match s.closers id with
  | .idle => .error .blocked
  | .waiting =>
      .ok ({ s with
        queue := s.queue.close
        closers := Function.update s.closers id .returning }, .closed id)
  | .returning =>
      .ok ({ s with closers := Function.update s.closers id .idle },
        .closeReturned id)

/-- One step.  A thread is in one call at a time. -/
def step (s : Threads T) : Action T → Except Fault (Threads T × Event T)
  | .push id value =>
      match s.pushers id with
      | .idle => .ok ({ s with
          pushers := Function.update s.pushers id (.waiting value) },
          .pushBegan id value)
      | _ => .error .blocked
  | .pusher id => s.pusherStep id
  | .pop =>
      match s.popper with
      | .idle => .ok ({ s with popper := .waiting }, .popBegan)
      | _ => .error .blocked
  | .popper => s.popperStep
  | .close id =>
      match s.closers id with
      | .idle => .ok ({ s with
          closers := Function.update s.closers id .waiting }, .closeBegan id)
      | _ => .error .blocked
  | .closer id => s.closerStep id

end Threads

/-! ## What a run did -/

/-- The values accepted, in order. -/
def acceptedValues (log : List (Event T)) : List T :=
  log.filterMap fun
    | .accepted _ value => some value
    | _ => none

/-- The values the consumer took out. -/
def poppedValues (log : List (Event T)) : List T :=
  log.filterMap fun
    | .popped value => some value
    | _ => none

/-- The values `pop_blocking` returned. -/
def returnedValues (log : List (Event T)) : List T :=
  log.filterMap fun
    | .popReturned result => result
    | _ => none

/-- The values a thread called `push` with. -/
def pushesBegun (id : Nat) (log : List (Event T)) : List T :=
  log.filterMap fun
    | .pushBegan id' value => if id' = id then some value else none
    | _ => none

/-- The values of a thread that were accepted. -/
def acceptedOf (id : Nat) (log : List (Event T)) : List T :=
  log.filterMap fun
    | .accepted id' value => if id' = id then some value else none
    | _ => none

/-- The values of a thread that were dropped. -/
def droppedOf (id : Nat) (log : List (Event T)) : List T :=
  log.filterMap fun
    | .dropped id' value => if id' = id then some value else none
    | _ => none

/-- The values of a thread's pushes that returned. -/
def pushesReturned (id : Nat) (log : List (Event T)) : List T :=
  log.filterMap fun
    | .pushReturned id' value => if id' = id then some value else none
    | _ => none

end OsxMpscRun
