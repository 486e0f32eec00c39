import OsborneX.ExecutionProofs

/-! # The ring buffer — one producer, independent consumer cursors

    The shared memory of a `RingBuffer`, and its threads cut at their atomic
    accesses.  A thread's place inside `try_read`, `push_blocking` or
    `push_overwrite` is an explicit phase that holds what the thread has loaded
    so far; one `step` lets one thread make its next access, so a schedule is a
    list of threads and every interleaving is a schedule.

    A sequence is a 64-bit unsigned number, and wraps. -/

namespace OsxRingBuffer

abbrev ConsumerId := Nat

/-- Unsigned 64-bit addition. -/
def addSequence (a b : Nat) : Nat := (a + b) % 2 ^ 64

/-- Unsigned 64-bit subtraction. -/
def subSequence (a b : Nat) : Nat :=
  (a + (2 ^ 64 - b % 2 ^ 64)) % 2 ^ 64

inductive ConsumerPolicy where
  | lossless
  | lossy
  deriving DecidableEq, Repr

/-- A slot: the sequence last published in it, and the value. -/
structure Slot (T : Type) where
  seq : Nat
  value : T

/-- Where a consumer is in `try_read`, with the locals it will still use. -/
inductive Reading (T : Type) where
  /-- between two calls -/
  | idle
  /-- `sequence_` loaded -/
  | wanting (want : Nat)
  /-- `producer_sequence_` loaded, and a Lossy cursor moved up -/
  | claimed (want : Nat)
  /-- the slot's sequence checked a first time -/
  | checked (want : Nat)
  /-- the slot's value copied -/
  | copied (want : Nat) (out : T)
  /-- the slot's sequence checked a second time -/
  | confirmed (want : Nat) (out : T)
  /-- in `report_stale_slot`, past the assertion -/
  | stale (want : Nat)
  deriving DecidableEq, Repr

/-- `RingBuffer::Consumer`. -/
structure Consumer (T : Type) where
  policy : ConsumerPolicy
  sequence : Nat
  dropped : Nat
  reading : Reading T

/-- What a `try_read` returned; with the cursor and `out` where they moved. -/
inductive ReadResult (T : Type) where
  | empty
  | ok (position : Nat) (out : T)
  | dropped (position : Nat)
  deriving DecidableEq, Repr

/-- A call the producer makes. -/
inductive Push (T : Type) where
  | blocking (value : T)
  | overwrite (value : T)
  deriving DecidableEq, Repr

/-- Where the producer is in its push. -/
inductive Pushing where
  /-- in the gating loop of `claim_blocking`, at the `next`-th Lossless
      consumer; past its end, the slot is claimed -/
  | claiming (next : Nat)
  /-- the slot's value assigned -/
  | assigned (sequence : Nat)
  /-- in `publish`, the slot's sequence stored -/
  | stored (sequence : Nat)
  deriving DecidableEq, Repr

/-- The buffer, its registered consumers, and the pushes still to come. -/
structure RingBuffer (T : Type) where
  mask : Nat
  slots : Fin (mask + 1) → Slot T
  producerSequence : Nat
  nextToClaim : Nat
  consumers : List (Consumer T)
  losslessConsumers : List ConsumerId
  pushing : Pushing
  pushes : List (Push T)

/-- The threads. -/
inductive Thread where
  | producer
  | consumer (id : ConsumerId)
  deriving DecidableEq, Repr

/-- What stops a thread. -/
inductive Fault where
  /-- the assertion of `report_stale_slot` -/
  | gatingBroken
  deriving DecidableEq, Repr

variable {T : Type}

/-- `std::bit_ceil`. -/
def bitCeil (n : Nat) : Nat := if n ≤ 1 then 1 else 2 ^ ((n - 1).log2 + 1)

namespace RingBuffer

/-- `RingBuffer(capacity)`, for a producer that will make these pushes. -/
def new [Inhabited T] (capacity : Nat) (pushes : List (Push T)) :
    RingBuffer T where
  mask := bitCeil (if capacity = 0 then 1 else capacity) - 1
  slots := fun _ => ⟨0, default⟩
  producerSequence := 0
  nextToClaim := 0
  consumers := []
  losslessConsumers := []
  pushing := .claiming 0
  pushes := pushes

def capacity (b : RingBuffer T) : Nat := b.mask + 1

def producedCount (b : RingBuffer T) : Nat := b.producerSequence

/-- `sequence & mask_`. -/
def index (b : RingBuffer T) (sequence : Nat) : Fin (b.mask + 1) :=
  ⟨sequence &&& b.mask, Nat.lt_succ_of_le Nat.and_le_right⟩

/-- `slots_[sequence & mask_]`. -/
def slotOf (b : RingBuffer T) (sequence : Nat) : Slot T :=
  b.slots (b.index sequence)

def addConsumer (b : RingBuffer T) (policy : ConsumerPolicy) : RingBuffer T :=
  { b with
    consumers := b.consumers ++ [⟨policy, 0, 0, .idle⟩]
    losslessConsumers :=
      if policy = .lossless then b.losslessConsumers ++ [b.consumers.length]
      else b.losslessConsumers }

end RingBuffer

/-! ## The consumer -/

namespace Consumer

/-- `position`. -/
def position (c : Consumer T) : Nat := c.sequence

/-- `report_stale_slot`, up to its position store. -/
def reportStaleSlot (c : Consumer T) (want : Nat) :
    Except Fault (Consumer T × Option (ReadResult T)) :=
  if c.policy = .lossy then
    .ok ({ c with
      dropped := addSequence c.dropped 1
      reading := .stale want }, none)
  else .error .gatingBroken

/-- The next access of `try_read`, and its result when it returns. -/
def tryRead (c : Consumer T) (owner : RingBuffer T) :
    Except Fault (Consumer T × Option (ReadResult T)) :=
  match c.reading with
  | .idle => .ok ({ c with reading := .wanting c.sequence }, none)
  | .wanting want =>
      let produced := owner.producerSequence
      if want ≥ produced then
        .ok ({ c with reading := .idle }, some .empty)
      else if c.policy = .lossy ∧
          subSequence produced want > owner.capacity then
        let target := subSequence produced owner.capacity
        .ok ({ c with
          dropped := addSequence c.dropped (subSequence target want)
          reading := .claimed target }, none)
      else .ok ({ c with reading := .claimed want }, none)
  | .claimed want =>
      if (owner.slotOf want).seq ≠ want then c.reportStaleSlot want
      else .ok ({ c with reading := .checked want }, none)
  | .checked want =>
      .ok ({ c with reading := .copied want (owner.slotOf want).value }, none)
  | .copied want out =>
      if (owner.slotOf want).seq ≠ want then c.reportStaleSlot want
      else .ok ({ c with reading := .confirmed want out }, none)
  | .confirmed want out =>
      let position := addSequence want 1
      .ok ({ c with sequence := position, reading := .idle },
        some (.ok position out))
  | .stale want =>
      let position := addSequence want 1
      .ok ({ c with sequence := position, reading := .idle },
        some (.dropped position))

end Consumer

/-! ## The producer -/

namespace RingBuffer

/-- The consumer the gating loop looks at, if it is not past its end. -/
def gate (b : RingBuffer T) (next : Nat) : Option (Consumer T) :=
  b.losslessConsumers[next]?.bind (b.consumers[·]?)

/-- `slot(sequence) = value`, the push being taken up. -/
def assign (b : RingBuffer T) (sequence : Nat) (value : T)
    (pushes : List (Push T)) : RingBuffer T :=
  { b with
    slots := Function.update b.slots (b.index sequence)
      { b.slotOf sequence with value := value }
    pushing := .assigned sequence
    pushes := pushes }

/-- The producer's next access. -/
def push (b : RingBuffer T) : RingBuffer T :=
  match b.pushing with
  | .claiming next =>
      let sequence := b.nextToClaim
      match b.pushes with
      | [] => b
      | .overwrite value :: pushes => b.assign sequence value pushes
      | .blocking value :: pushes =>
          match b.gate next with
          | some consumer =>
              if subSequence sequence consumer.sequence ≥ b.capacity then b
              else { b with pushing := .claiming (next + 1) }
          | none => b.assign sequence value pushes
  | .assigned sequence =>
      { b with
        slots := Function.update b.slots (b.index sequence)
          { b.slotOf sequence with seq := sequence }
        nextToClaim := addSequence sequence 1
        pushing := .stored sequence }
  | .stored sequence =>
      { b with
        producerSequence := addSequence sequence 1
        pushing := .claiming 0 }

/-! ## Interleaving -/

/-- One thread makes its next access. -/
def step (b : RingBuffer T) :
    Thread → Except Fault (RingBuffer T × Option (ConsumerId × ReadResult T))
  | .producer => .ok (b.push, none)
  | .consumer id =>
      match b.consumers[id]? with
      | none => .ok (b, none)
      | some consumer =>
          (consumer.tryRead b).map fun r =>
            ({ b with consumers := b.consumers.set id r.1 },
              r.2.map (id, ·))

/-- The buffer once every consumer is registered. -/
def start [Inhabited T] (capacity : Nat) (policies : List ConsumerPolicy)
    (pushes : List (Push T)) : RingBuffer T :=
  policies.foldl addConsumer (.new capacity pushes)

end RingBuffer

end OsxRingBuffer
