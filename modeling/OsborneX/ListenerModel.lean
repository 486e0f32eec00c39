import OsborneX.ExecutionProofs

/-! # The listener's connections — a vector of owned threads

    `OrderEntryListener` keeps one `Connection` for each client it accepted, and
    reaps the finished ones when the next client comes.  A `std::thread` is a
    handle that is joinable or empty; assigning to a joinable one, or
    destroying it, ends the process.

    Only what the standard library says of `std::remove_if` is modelled: the
    first removed element is looked for, and every kept element after it is
    move-assigned to the next free slot before it. -/

namespace OsxListener

/-- A thread of execution. -/
abbrev ThreadId := Nat

/-- The address of a `std::atomic<bool>`. -/
abbrev FlagId := Nat

inductive Fault where
  /-- `std::terminate` -/
  | terminate
  /-- a null pointer is dereferenced -/
  | nullPointer
  deriving DecidableEq, Repr

/-- `Connection`: a moved-from one has no thread and no flag. -/
structure Connection where
  thread : Option ThreadId
  finished : Option FlagId
  deriving DecidableEq, Repr

namespace Connection

/-- `thread.joinable()` -/
def joinable (c : Connection) : Bool := c.thread.isSome

/-- `c.finished->load()` -/
def isFinished (flags : FlagId → Bool) (c : Connection) : Except Fault Bool :=
  match c.finished with
  | none => .error .nullPointer
  | some id => .ok (flags id)

def movedFrom : Connection := ⟨none, none⟩

end Connection

/-- `connections[dest] = std::move(connections[src])` -/
def moveAssign (connections : List Connection) (dest src : Nat) :
    Except Fault (List Connection) :=
  match connections[dest]?, connections[src]? with
  | some old, some c =>
      if old.joinable then .error .terminate
      else .ok ((connections.set dest c).set src .movedFrom)
  | _, _ => .error .nullPointer

/-- The search of `std::remove_if`: the index of the first element to
    remove. -/
def findFinished (flags : FlagId → Bool) :
    List Connection → Nat → Except Fault Nat
  | [], index => .ok index
  | c :: connections, index => do
      if ← c.isFinished flags then return index
      findFinished flags connections (index + 1)

/-- The loop of `std::remove_if`, over the indices after that one. -/
def compact (flags : FlagId → Bool) :
    List Connection → Nat → List Nat → Except Fault (List Connection × Nat)
  | connections, dest, [] => .ok (connections, dest)
  | connections, dest, index :: indices =>
      match connections[index]? with
      | none => .error .nullPointer
      | some c => do
          if ← c.isFinished flags then compact flags connections dest indices
          else
            let connections ← moveAssign connections dest index
            compact flags connections (dest + 1) indices

/-- `std::remove_if` -/
def removeIf (flags : FlagId → Bool) (connections : List Connection) :
    Except Fault (List Connection × Nat) := do
  let first ← findFinished flags connections 0
  compact flags connections first
    (List.range' (first + 1) (connections.length - (first + 1)))

/-- The loop that joins: the threads it joined, and what is left of the
    elements. -/
def joinEach : List Connection → List Connection × List ThreadId
  | [] => ([], [])
  | c :: connections =>
      let (rest, joined) := joinEach connections
      match c.thread with
      | none => (c :: rest, joined)
      | some thread => ({ c with thread := none } :: rest, thread :: joined)

/-- `connections_.erase(..)`: destroys the elements. -/
def eraseTail (kept tail : List Connection) : Except Fault (List Connection) :=
  if tail.any Connection.joinable then .error .terminate else .ok kept

/-- `reap_finished_connections`: what is left, and which threads were
    joined. -/
def reapFinishedConnections (flags : FlagId → Bool)
    (connections : List Connection) :
    Except Fault (List Connection × List ThreadId) := do
  let (connections, firstFinished) ← removeIf flags connections
  let (tail, joined) := joinEach (connections.drop firstFinished)
  let connections ← eraseTail (connections.take firstFinished) tail
  return (connections, joined)

/-- What `accept_loop` puts into the vector: a thread, and the flag it sets
    when it is done. -/
structure Accepted where
  thread : ThreadId
  finished : FlagId
  deriving DecidableEq, Repr

/-- The element of the vector. -/
def Accepted.connection (a : Accepted) : Connection :=
  ⟨some a.thread, some a.finished⟩

end OsxListener
