import OsborneX.ExecutionProofs

/-! # Threads and the queue between them

    What the server is put together from: the bounded queue that several
    threads push to and one pops from, and components that own a thread and
    guard it with a flag.

    A call that would wait is `none` here, so a schedule in which it is made is
    no schedule. -/

namespace OsxThread

/-! ## The queue -/

/-- `Queue::MpscQueue`. -/
structure MpscQueue (T : Type) where
  items : List T
  capacity : Nat
  closed : Bool
  positive : 0 < capacity
  bounded : items.length ≤ capacity

namespace MpscQueue

variable {T : Type}

/-- `MpscQueue(capacity)`. -/
def new (capacity : Nat) : MpscQueue T where
  items := []
  capacity := if capacity = 0 then 1 else capacity
  closed := false
  positive := by split <;> omega
  bounded := Nat.zero_le _

/-- `push`: waits for room, or for the queue to be closed, and then drops the
    value. -/
def push (q : MpscQueue T) (value : T) : Option (MpscQueue T) :=
  if q.closed then some q
  else if h : q.items.length < q.capacity then
    some { q with
      items := q.items ++ [value]
      bounded := by rw [List.length_append]; exact h }
  else none

/-- `pop_blocking`: waits for an item, or for the queue to be closed. -/
def popBlocking (q : MpscQueue T) : Option (Option T × MpscQueue T) :=
  match h : q.items with
  | value :: items =>
      some (some value, { q with
        items := items
        bounded := by
          have := q.bounded
          rw [h, List.length_cons] at this
          omega })
  | [] => if q.closed then some (none, q) else none

def close (q : MpscQueue T) : MpscQueue T := { q with closed := true }

@[simp] theorem close_items (q : MpscQueue T) : q.close.items = q.items := rfl

@[simp] theorem close_closed (q : MpscQueue T) : q.close.closed = true := rfl

@[simp] theorem close_capacity (q : MpscQueue T) :
    q.close.capacity = q.capacity := rfl

/-- A push to an open queue appends, and the queue stays open. -/
theorem push_open {q q' : MpscQueue T} {value : T} (hopen : q.closed = false)
    (h : q.push value = some q') :
    q.items.length < q.capacity ∧ q'.items = q.items ++ [value] ∧
      q'.capacity = q.capacity ∧ q'.closed = false := by
  rw [push, hopen] at h
  by_cases hroom : q.items.length < q.capacity
  · rw [if_neg Bool.false_ne_true, dif_pos hroom] at h
    cases h
    exact ⟨hroom, rfl, rfl, rfl⟩
  · rw [if_neg Bool.false_ne_true, dif_neg hroom] at h
    cases h

/-- There is room: the push does not wait. -/
theorem push_room {q : MpscQueue T} (value : T) (hopen : q.closed = false)
    (hroom : q.items.length < q.capacity) : ∃ q', q.push value = some q' := by
  rw [push, hopen, if_neg Bool.false_ne_true, dif_pos hroom]
  exact ⟨_, rfl⟩

/-- A push to a closed queue is silently dropped. -/
theorem push_closed {q : MpscQueue T} (value : T) (h : q.closed = true) :
    q.push value = some q := by
  rw [push, if_pos h]

/-- What a pop took off the front. -/
theorem popBlocking_some {q q' : MpscQueue T} {value : T}
    (h : q.popBlocking = some (some value, q')) :
    q.items = value :: q'.items ∧ q'.capacity = q.capacity ∧
      q'.closed = q.closed := by
  rw [popBlocking] at h
  split at h
  · rename_i value' items hitems
    cases h
    exact ⟨hitems, rfl, rfl⟩
  · split at h <;> cases h

/-- A pop that found nothing: closed and drained. -/
theorem popBlocking_none {q q' : MpscQueue T}
    (h : q.popBlocking = some (none, q')) :
    q.items = [] ∧ q.closed = true ∧ q' = q := by
  rw [popBlocking] at h
  split at h
  · cases h
  · rename_i hitems
    split at h
    · rename_i hclosed
      cases h
      exact ⟨hitems, hclosed, rfl⟩
    · cases h

/-- An item is there: the pop does not wait. -/
theorem popBlocking_cons {q : MpscQueue T} {value : T} {items : List T}
    (h : q.items = value :: items) :
    ∃ q', q.popBlocking = some (some value, q') ∧ q'.items = items := by
  rw [popBlocking]
  split
  · rename_i value' items' h'
    obtain ⟨rfl, rfl⟩ := List.cons.inj (h'.symm.trans h)
    exact ⟨_, rfl, rfl⟩
  · rename_i h'
    rw [h'] at h
    cases h

end MpscQueue

/-! ## Components with a thread -/

/-- A `std::thread` that is a member: not joinable, at work, or at its end and
    not joined yet. -/
inductive Thread where
  | none
  | running
  | returned
  deriving DecidableEq, Repr

inductive Fault where
  /-- assigning to a joinable `std::thread` -/
  | terminate
  /-- a call that has to wait, or a thread that is not there -/
  | blocked
  deriving DecidableEq, Repr

/-- `thread_ = std::thread(..)`. -/
def Thread.launch : Thread → Except Fault Thread
  | .none => .ok .running
  | _ => .error .terminate

/-- `running_` and `thread_`, as `Shard`, `Subscriber`, `TradeStreamReader` and
    `OrderEntryListener` have them. -/
structure Worker where
  running : Bool
  thread : Thread
  deriving DecidableEq, Repr

namespace Worker

def idle : Worker := ⟨false, .none⟩

def busy : Worker := ⟨true, .running⟩

/-- `if (running_.exchange(true)) return; thread_ = ..` -/
def start (w : Worker) : Except Fault Worker :=
  if w.running then .ok w
  else w.thread.launch.map (fun thread => ⟨true, thread⟩)

/-- `if (!running_.exchange(false)) return; thread_.join()` -/
def stop (w : Worker) : Worker :=
  if w.running then ⟨false, .none⟩ else w

@[simp] theorem start_idle : idle.start = .ok busy := rfl

@[simp] theorem stop_busy : busy.stop = idle := rfl

@[simp] theorem stop_idle : idle.stop = idle := rfl

/-- A row of idle components all start. -/
theorem mapM_start (n : Nat) :
    (List.replicate n idle).mapM start = .ok (List.replicate n busy) := by
  induction n with
  | zero => rfl
  | succ n ih =>
      rw [List.replicate_succ, List.mapM_cons, ih]
      rfl

end Worker

end OsxThread
