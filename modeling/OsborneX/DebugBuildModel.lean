import OsborneX.SimulationModel

/-! # The debug build — one producer for each buffer, checked

    Without `NDEBUG` an `Ingress` remembers the thread that first called
    `receive`, and a `RingBuffer` the thread that first pushed; a call from any
    other thread is an assertion failure.  `Shard::start` and `Shard::stop` let
    go of the producer of the two outbound buffers, so that the worker and,
    after it, the thread that stops it can push.

    The `Simulation` is that of `SimulationModel`; what the debug build keeps
    besides is here. -/

namespace OsxDebugBuild

open OsxShard
open OsxSimulation (Action Event Simulation)

/-- `std::thread::id`. -/
abbrev ThreadId := Nat

/-- The threads of a program: the one that starts and stops, the one that
    submits, and the `n`-th worker of each shard.  The system may give an id
    again once its thread is joined. -/
structure Threads (count : Nat) where
  owner : ThreadId
  submitter : ThreadId
  worker : Fin count → Nat → ThreadId

inductive Fault where
  | simulation (fault : OsxSimulation.Fault)
  /-- an assertion on the calling thread -/
  | assertion
  deriving DecidableEq, Repr

/-- `assert_producer_thread`, and `Ingress::assert_caller_thread`. -/
def assertThread (recorded : Option ThreadId) (id : ThreadId) :
    Except Fault (Option ThreadId) :=
  let recorded := recorded.getD id
  if recorded = id then .ok (some recorded) else .error .assertion

/-- The simulation, and the recorded threads. -/
structure DebugBuild (count : Nat) where
  simulation : Simulation count
  /-- `caller_thread_` -/
  caller : Option ThreadId
  /-- `producer_thread_` of each shard's buffers -/
  inbound : Fin count → Option ThreadId
  outbound : Fin count → Option ThreadId
  tradeOutbound : Fin count → Option ThreadId
  /-- how often each shard's `thread_` was started -/
  started : Fin count → Nat

namespace DebugBuild

variable {count : Nat}

def new (count inboundCapacity : Nat) : DebugBuild count where
  simulation := .new count inboundCapacity
  caller := none
  inbound := fun _ => none
  outbound := fun _ => none
  tradeOutbound := fun _ => none
  started := fun _ => 0

/-- `reset_producer_thread` on both outbound buffers. -/
def resetProducers (d : DebugBuild count) (shard : Fin count) :
    DebugBuild count :=
  { d with
    outbound := Function.update d.outbound shard none
    tradeOutbound := Function.update d.tradeOutbound shard none }

/-- The resets the owner's next turn makes. -/
def reset (d : DebugBuild count) : DebugBuild count :=
  match d.simulation.owner with
  | .starting next =>
      if h : next < count then
        if (d.simulation.lanes ⟨next, h⟩).running then d
        else { d.resetProducers ⟨next, h⟩ with
          started := Function.update d.started ⟨next, h⟩
            (d.started ⟨next, h⟩ + 1) }
      else d
  | .joining shard => d.resetProducers shard
  | _ => d

/-- The pushes of `Shard::process`, made by a thread. -/
def publish (d : DebugBuild count) (shard : Fin count) (id : ThreadId)
    (published : Published) : Except Fault (DebugBuild count) := do
  let trades ← published.trades.foldlM (fun recorded _ =>
    assertThread recorded id) (d.tradeOutbound shard)
  let tops ← published.top.toList.foldlM (fun recorded _ =>
    assertThread recorded id) (d.outbound shard)
  return { d with
    tradeOutbound := Function.update d.tradeOutbound shard trades
    outbound := Function.update d.outbound shard tops }

/-- What the debug build does besides in a step. -/
def check (t : Threads count) (d : DebugBuild count) (action : Action count) :
    Event count → Except Fault (DebugBuild count)
  | .accepted shard _ => do
      let caller ← assertThread d.caller t.submitter
      let inbound ← assertThread (d.inbound shard) t.submitter
      return { d with
        caller := caller
        inbound := Function.update d.inbound shard inbound }
  | .processed shard _ published =>
      match action with
      | .worker _ => d.publish shard (t.worker shard (d.started shard)) published
      | _ => d.publish shard t.owner published
  | .quiet =>
      match action with
      | .owner => .ok d.reset
      | _ => .ok d

/-- One step. -/
def step (t : Threads count) (hash : SymbolId → Nat) [NeZero count]
    (d : DebugBuild count) (action : Action count) :
    Except Fault (DebugBuild count × Event count) := do
  let (simulation, event) ←
    (d.simulation.step hash action).mapError .simulation
  let d ← d.check t action event
  return ({ d with simulation := simulation }, event)

end DebugBuild

end OsxDebugBuild
