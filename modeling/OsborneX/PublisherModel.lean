import OsborneX.MarketFeedModel

/-! # The publisher — wiring producers to subscribers

    `MarketDataPublisher` does its work at setup time only: every subscriber it
    is given gets a Lossy cursor on every buffer it has or will be given.  The
    publisher holds pointers, so the objects they reach are part of its state:
    the sources of each subscriber, a source being a cursor on a buffer, and
    the buffers with their registered consumers. -/

namespace OsxPublisher

open OsxRingBuffer

inductive Fault where
  /-- the assertions of `add_subscriber` and `add_producer` -/
  | frozen
  deriving DecidableEq, Repr

/-- The publisher and what it points to, for subscribers and buffers known by
    their addresses. -/
structure Topology (S B T : Type) where
  frozen : Bool
  subscribers : List S
  producers : List B
  sources : S → List (B × ConsumerId)
  buffers : B → RingBuffer T

/-- The calls that wire. -/
inductive Call (S B : Type) where
  | addSubscriber (subscriber : S)
  | addProducer (producer : B)
  deriving DecidableEq, Repr

namespace Topology

variable {S B T : Type} [DecidableEq S] [DecidableEq B]

/-- A new publisher, new subscribers, and new buffers of these capacities. -/
def new [Inhabited T] (capacity : B → Nat) : Topology S B T where
  frozen := false
  subscribers := []
  producers := []
  sources := fun _ => []
  buffers := fun producer => .new (capacity producer) []

/-- `Subscriber::register_producer`; `add_consumer` returns the cursor at the
    end of the buffer's consumers. -/
def registerProducer (t : Topology S B T) (subscriber : S) (buffer : B) :
    Topology S B T :=
  { t with
    sources := Function.update t.sources subscriber
      (t.sources subscriber ++ [(buffer, (t.buffers buffer).consumers.length)])
    buffers := Function.update t.buffers buffer
      ((t.buffers buffer).addConsumer .lossy) }

/-- `MarketDataPublisher::add_subscriber`. -/
def addSubscriber (t : Topology S B T) (subscriber : S) :
    Except Fault (Topology S B T) :=
  if t.frozen then .error .frozen
  else
    let t := { t with subscribers := t.subscribers ++ [subscriber] }
    .ok (t.producers.foldl
      (fun t producer => t.registerProducer subscriber producer) t)

/-- `MarketDataPublisher::add_producer`. -/
def addProducer (t : Topology S B T) (producer : B) :
    Except Fault (Topology S B T) :=
  if t.frozen then .error .frozen
  else
    let t := { t with producers := t.producers ++ [producer] }
    .ok (t.subscribers.foldl
      (fun t subscriber => t.registerProducer subscriber producer) t)

/-- `MarketDataPublisher::freeze`. -/
def freeze (t : Topology S B T) : Topology S B T := { t with frozen := true }

def call (t : Topology S B T) : Call S B → Except Fault (Topology S B T)
  | .addSubscriber subscriber => t.addSubscriber subscriber
  | .addProducer producer => t.addProducer producer

def run (t : Topology S B T) (calls : List (Call S B)) :
    Except Fault (Topology S B T) :=
  calls.foldlM call t

end Topology

end OsxPublisher
