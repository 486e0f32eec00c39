import OsborneX.StrategyModel

/-! # The participants — bots and Python clients that hand out order ids

    A `RandomStrategy` takes the local part of an order id from an atomic
    counter; a Python `Client` takes it from a plain one, under `_send_lock`.
    Both can be called from any number of threads, so a thread's place inside
    `make_random_order`, `_add` or `cancel` is an explicit phase that holds its
    locals, and one turn lets one thread of one participant make its next
    access. -/

namespace OsxParticipant

open OsxOrderbook OsxPrice OsxShard OsxStrategy OsxOrderEntry

/-- What an order says besides who sends it and under which id; drawn by a
    bot, passed to a client. -/
structure Terms where
  symbol : SymbolId
  side : Side
  price : Double
  quantity : Nat
  deriving DecidableEq, Repr

/-- The order a participant generates. -/
def orderOf (source : Nat) (sourceTimestamp : Nat) (orderId : OrderId)
    (terms : Terms) : OrderMessage where
  sourceTimestamp := sourceTimestamp
  ingressTimestamp := 0
  ingressSequence := 0
  source := source
  symbol := terms.symbol
  orderId := orderId
  side := terms.side
  price := terms.price
  quantity := terms.quantity
  type := .goodTillCancel
  action := .add

/-- What a thread's turn is: a call it begins, or the next access of the call
    it is in. -/
inductive Turn where
  /-- `make_random_order`, or `buy` or `sell` -/
  | add (terms : Terms)
  | cancel (now : Nat) (orderId : OrderId)
  | disconnect
  /-- `now` is the clock `_send` reads, `delivered` whether `sendall` returns -/
  | go (now : Nat) (delivered : Bool)
  deriving DecidableEq, Repr

/-- What a turn did, as far as order ids go. -/
inductive Event where
  | quiet
  /-- the counter was incremented -/
  | counted
  | generated (message : OrderMessage)
  deriving DecidableEq, Repr

/-! ## The bot -/

/-- Where a thread is in `RandomStrategy::make_random_order`. -/
inductive Making where
  | idle
  /-- `fetch_add` returned -/
  | counted (terms : Terms) (counter : UInt64)
  deriving DecidableEq, Repr

/-- `RandomStrategy`, with its callers. -/
structure Bot (C : Type) where
  source : UInt16
  nextOrderId : UInt64
  making : C → Making

/-- The id of `make_random_order`, from what `fetch_add` returned. -/
def randomOrderId (source : UInt16) (counter : UInt64) : UInt64 :=
  let localIdBits : UInt64 := 48
  let localIdMask : UInt64 := (1 <<< localIdBits) - 1
  let localId := counter &&& localIdMask
  (source.toUInt64 <<< localIdBits) ||| localId

variable {ι C : Type} [DecidableEq C]

namespace Bot

/-- `RandomStrategy(order_client, options)`. -/
def new (source : UInt16) : Bot C := ⟨source, 1, fun _ => .idle⟩

def turn (b : Bot C) (c : C) (turn : Turn) : Bot C × Event :=
  match b.making c, turn with
  | .idle, .add terms =>
      ({ b with
          nextOrderId := b.nextOrderId + 1
          making := Function.update b.making c (.counted terms b.nextOrderId) },
        .counted)
  | .counted terms counter, .go _ _ =>
      ({ b with making := Function.update b.making c .idle },
        .generated (orderOf b.source.toNat 0
          (randomOrderId b.source counter).toNat terms))
  | _, _ => (b, .quiet)

end Bot

/-! ## The Python client -/

/-- Where a thread is in `Client._add` or `Client.cancel`. -/
inductive Calling where
  | idle
  /-- before `with self._send_lock` -/
  | entering (terms : Terms)
  /-- about to read `_next_local_id` -/
  | reading (terms : Terms)
  /-- about to load it once more, for `+= 1` -/
  | loading (terms : Terms) (localId : Nat)
  /-- about to store the sum -/
  | storing (terms : Terms) (localId value : Nat)
  /-- about to leave the `with` -/
  | leaving (terms : Terms) (localId : Nat)
  /-- about to make the id -/
  | making (terms : Terms) (localId : Nat)
  /-- in `_send`, before the checks -/
  | sending (message : OrderMessage)
  /-- in `_send`, before `with self._send_lock` -/
  | waiting (message : OrderMessage)
  /-- in `sendall` -/
  | holding (message : OrderMessage)
  /-- `_send` returned -/
  | sent (message : OrderMessage)
  deriving DecidableEq, Repr

/-- `Client`, with who holds its `_send_lock`, and its callers. -/
structure SharedClient (C : Type) where
  client : OsxStrategy.Client
  sendLock : Option C
  calling : C → Calling

namespace SharedClient

/-- `Client(source=...)`, connected. -/
def new (source : Nat) : SharedClient C :=
  ⟨.connect source, none, fun _ => .idle⟩

/-- A thread goes on to another place. -/
def goTo (s : SharedClient C) (c : C) (calling : Calling) : SharedClient C :=
  { s with calling := Function.update s.calling c calling }

/-- Entering `with self._send_lock`: a thread waits while another is in. -/
def acquire (s : SharedClient C) (c : C) (inside : Calling) :
    SharedClient C :=
  match s.sendLock with
  | some _ => s
  | none => { s with sendLock := some c }.goTo c inside

/-- Leaving it. -/
def release (s : SharedClient C) (c : C) (outside : Calling) :
    SharedClient C :=
  { s with sendLock := none }.goTo c outside

/-- `cancel`, up to its call of `_send`; an id without an order raises. -/
def cancel (s : SharedClient C) (c : C) (now : Nat) (orderId : OrderId) :
    SharedClient C :=
  match s.client.orderSymbols.find? orderId with
  | none => s
  | some symbol => s.goTo c (.sending
      { orderOf s.client.source now orderId ⟨symbol, .buy, ⟨0⟩, 0⟩ with
        action := .cancel })

def turn (s : SharedClient C) (c : C) (turn : Turn) :
    SharedClient C × Event :=
  match s.calling c, turn with
  | .idle, .add terms => (s.goTo c (.entering terms), .quiet)
  | .idle, .cancel now orderId => (s.cancel c now orderId, .quiet)
  | .idle, .disconnect =>
      ({ s with client := { s.client with connected := false } }, .quiet)
  | .entering terms, .go _ _ => (s.acquire c (.reading terms), .quiet)
  | .reading terms, .go _ _ =>
      (s.goTo c (.loading terms s.client.nextLocalId), .quiet)
  | .loading terms localId, .go _ _ =>
      (s.goTo c (.storing terms localId s.client.nextLocalId), .quiet)
  | .storing terms localId value, .go _ _ =>
      ({ s with client := { s.client with nextLocalId := value + 1 } }.goTo c
        (.leaving terms localId), .counted)
  | .leaving terms localId, .go _ _ =>
      (s.release c (.making terms localId), .quiet)
  | .making terms localId, .go now _ =>
      let message := orderOf s.client.source now
        (makeOrderId s.client.source localId) terms
      (s.goTo c (.sending message), .generated message)
  | .sending message, .go _ _ =>
      if s.client.connected ∧ (pythonFrame message).isSome then
        (s.goTo c (.waiting message), .quiet)
      else (s.goTo c .idle, .quiet)
  | .waiting message, .go _ _ => (s.acquire c (.holding message), .quiet)
  | .holding message, .go _ delivered =>
      (s.release c (if delivered ∧ message.action = .add then .sent message
        else .idle), .quiet)
  | .sent message, .go _ _ =>
      ({ s with client := { s.client with
          orderSymbols := s.client.orderSymbols.upsert message.orderId
            (fun _ => message.symbol) } }.goTo c .idle, .quiet)
  | _, _ => (s, .quiet)

end SharedClient

/-! ## All of them -/

/-- A participant as it is set up. -/
inductive Setup where
  | bot (source : UInt16)
  | client (source : Nat)
  deriving DecidableEq, Repr

def Setup.source : Setup → Nat
  | .bot source => source.toNat
  | .client source => source

inductive Participant (C : Type) where
  | bot (bot : Bot C)
  | client (client : SharedClient C)

namespace Participant

def new : Setup → Participant C
  | .bot source => .bot (.new source)
  | .client source => .client (.new source)

def turn : Participant C → C → Turn → Participant C × Event
  | .bot b, c, turn =>
      let (b, event) := b.turn c turn
      (.bot b, event)
  | .client s, c, turn =>
      let (s, event) := s.turn c turn
      (.client s, event)

end Participant

/-- One turn after the other, each of one thread of one participant; what they
    did, and whose turn it was. -/
def run [DecidableEq ι] : (ι → Participant C) → List (ι × C × Turn) →
    (ι → Participant C) × List (ι × Event)
  | w, [] => (w, [])
  | w, (i, c, turn) :: turns =>
      let (participant, event) := (w i).turn c turn
      let (w, events) := run (Function.update w i participant) turns
      (w, (i, event) :: events)

/-- The orders generated, in the order they were generated in. -/
def generated : List (ι × Event) → List (ι × OrderMessage)
  | [] => []
  | (i, .generated message) :: log => (i, message) :: generated log
  | _ :: log => generated log

/-- How many local ids a participant has taken. -/
def taken [DecidableEq ι] (i : ι) (log : List (ι × Event)) : Nat :=
  log.count (i, .counted)

end OsxParticipant
