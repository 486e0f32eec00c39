import OsborneX.RankingProofs
import OsborneX.ServerTurnProofs

/-! # Shutting down — every turn brings the end nearer

    Once `stop` has reset the listener's flag no thread can go on for ever: each
    order still has a fixed way to go, each thread comes to its end at the next
    look at its flag, and the owner's calls are counted.  `Server.rank` adds this
    up.  No turn raises it, and only the turns of a worker that finds nothing
    while its shard still runs leave it where it is (`shut_step`). -/

namespace OsxServerRun

open OsxShard OsxThread OsxListener Execution
open OsxSimulation (Simulation Lane Worker Controlled)

variable {count : Nat}

/-! ## The ranks -/

/-- A connection's thread: an order it holds is worth a push. -/
def ConnectionThread.rank : ConnectionThread → Nat
  | .absent | .finished => 0
  | .loading => 1
  | .handling _ => 7
  | .receiving => 8

/-- The accept thread: a client it waits for is worth a connection. -/
def AcceptThread.rank : AcceptThread → Nat
  | .absent | .finished => 0
  | .loading => 1
  | .waiting => 4

/-- The pump: an order it holds is worth a submission. -/
def Pump.rank : Pump → Nat
  | .absent | .finished => 0
  | .popping => 1
  | .submitting _ => 5

/-- A shard: three for each message in its buffer, and its worker's place.  A
    worker that was told to return goes round its loop once at most. -/
def laneRank (lane : Lane) : Nat :=
  3 * lane.inbound.items.length + match lane.worker with
    | .absent | .finished => 0
    | .loading => 1
    | .reading =>
        if lane.running then if lane.inbound.items = [] then 1 else 0 else 2
    | .holding _ => 2

/-- The owner in `Simulation::stop`: what is left of the shards. -/
def stopRank (count : Nat) : OsxSimulation.Owner count → Nat
  | .idle | .starting _ => 0
  | .stopping next => 8 * (count - next) + 1
  | .joining shard => 8 * (count - shard) - 3
  | .draining shard => 8 * (count - shard) - 5
  | .applying shard _ => 8 * (count - shard) - 4

def simulationRank (s : Simulation count) : Nat :=
  stopRank count s.owner + ∑ shard, laneRank (s.lanes shard)

/-- The owner in `Server::stop`: what is left of the stages. -/
def Owner.rank (count : Nat) (connections : List Connection) : Owner → Nat
  | .joiningAccept => 8 * count + 7 + connections.length
  | .joiningConnections unjoined => 8 * count + 6 + unjoined.length
  | .stoppingPump => 8 * count + 5
  | .joiningPump => 8 * count + 4
  | .stoppingSimulation => 8 * count + 3
  | .drainingSimulation => 1
  | _ => 0

def Listener.rank (l : Listener) : Nat :=
  l.acceptThread.rank + ∑ id ∈ Finset.range l.next, (l.threads id).rank

/-- **WHAT IS LEFT TO DO.** -/
def Server.rank (s : Server count) : Nat :=
  s.owner.rank count s.listener.connections + s.listener.rank +
    5 * s.inboundQueue.items.length + s.pump.rank + simulationRank s.simulation

/-- The turn of a worker that finds nothing, while its shard runs. -/
def LaneIdles (lane : Lane) : Prop :=
  lane.running = true ∧ lane.inbound.items = [] ∧
    (lane.worker = .loading ∨ lane.worker = .reading)

instance (lane : Lane) : Decidable (LaneIdles lane) :=
  inferInstanceAs (Decidable (_ ∧ _ ∧ (_ ∨ _)))

/-- A turn that does nothing: a worker's that finds nothing, or a call of `stop`
    when the server is down. -/
def Server.Idles (s : Server count) : Action count → Prop
  | .worker shard => LaneIdles (s.simulation.lanes shard)
  | .stop => True
  | _ => False

instance (s : Server count) :
    (action : Action count) → Decidable (s.Idles action)
  | .worker _ => inferInstanceAs (Decidable (LaneIdles _))
  | .stop => isTrue trivial
  | .start _ | .owner | .accept _ | .connection _ | .receive _ _ | .hangUp _
  | .pump _ => isFalse id

/-! ## The simulation's turns -/

section Simulation

variable {s s' : Simulation count} {event : OsxSimulation.Event count}

theorem simulationRank_setLane (s : Simulation count) (shard : Fin count)
    (lane : Lane) :
    ∑ i, laneRank ((s.setLane shard lane).lanes i)
        + laneRank (s.lanes shard)
      = ∑ i, laneRank (s.lanes i) + laneRank lane := by
  have hsum := sum_update (Finset.mem_univ shard)
    (fun i => laneRank (s.lanes i)) (laneRank lane)
  have hsame : ∀ i, laneRank ((s.setLane shard lane).lanes i)
      = Function.update (fun i => laneRank (s.lanes i)) shard (laneRank lane) i := by
    intro i
    by_cases heq : i = shard
    · subst heq
      rw [OsxSimulation.setLane_self, Function.update_self]
    · rw [OsxSimulation.setLane_other s shard lane heq, Function.update_of_ne heq]
  simp only [hsame]
  exact hsum

/-- The owner goes on, and a lane is replaced: the ranks of the two add up. -/
theorem rank_replaced {shard : Fin count} {owner : OsxSimulation.Owner count}
    {lane : Lane} {spent : Nat}
    (hle : stopRank count owner + laneRank lane + spent
      ≤ stopRank count s.owner + laneRank (s.lanes shard)) :
    simulationRank { s.setLane shard lane with owner := owner } + spent
      ≤ simulationRank s := by
  have hsum := simulationRank_setLane s shard lane
  show stopRank count owner + ∑ i, laneRank ((s.setLane shard lane).lanes i)
    + spent ≤ stopRank count s.owner + ∑ i, laneRank (s.lanes i)
  omega

/-- The owner goes on. -/
theorem rank_goes_on {owner : OsxSimulation.Owner count}
    (hle : stopRank count owner + 1 ≤ stopRank count s.owner) :
    simulationRank { s with owner := owner } + 1 ≤ simulationRank s := by
  show stopRank count owner + ∑ i, laneRank (s.lanes i) + 1
    ≤ stopRank count s.owner + ∑ i, laneRank (s.lanes i)
  omega

/-- A turn of a worker. -/
theorem work_rank {lane lane' : Lane} {done : Option (OrderMessage × Published)}
    (h : lane.work = .ok (lane', done)) :
    laneRank lane' + (if LaneIdles lane then 0 else 1) ≤ laneRank lane := by
  rw [Lane.work] at h
  cases hworker : lane.worker with
  | absent | finished =>
      rw [hworker] at h
      cases h
  | loading =>
      rw [hworker] at h
      cases h
      cases hrunning : lane.running with
      | false =>
          simp only [laneRank, LaneIdles, hworker, hrunning]
          simp
      | true =>
          by_cases hitems : lane.inbound.items = []
          · simp [laneRank, LaneIdles, hworker, hrunning, hitems]
          · simp [laneRank, LaneIdles, hworker, hrunning, hitems]
  | reading =>
      rw [hworker] at h
      dsimp only at h
      split at h
      · rename_i hread
        have hitems := OsxSimulation.Inbound.tryRead_none hread
        cases h
        cases hrunning : lane.running with
        | false => simp [laneRank, LaneIdles, hworker, hrunning, hitems]
        | true => simp [laneRank, LaneIdles, hworker, hrunning, hitems]
      · rename_i message inbound hread
        have hitems := OsxSimulation.Inbound.tryRead_some hread
        cases h
        simp only [laneRank, LaneIdles, hworker, hitems, List.length_cons,
          reduceCtorEq, false_and, and_false, if_false]
        split <;> omega
  | holding message =>
      rw [hworker] at h
      obtain ⟨⟨lane₁, published⟩, hprocess, heq⟩ := bind_ok h
      cases heq
      obtain ⟨shard, -, rfl⟩ := OsxSimulation.process_ok hprocess
      simp [laneRank, LaneIdles, hworker]

/-- A step of a worker. -/
theorem workerStep_rank {shard : Fin count}
    (h : s.workerStep shard = .ok (s', event)) :
    simulationRank s' + (if LaneIdles (s.lanes shard) then 0 else 1)
      ≤ simulationRank s := by
  obtain ⟨⟨lane, done⟩, hwork, heq⟩ := bind_ok h
  cases heq
  have hlane := work_rank hwork
  refine rank_replaced ?_
  rw [Nat.add_assoc]
  exact Nat.add_le_add_left hlane _

/-- One message more in a buffer. -/
theorem submit_rank {hash : SymbolId → Nat} [NeZero count]
    {message : OrderMessage} {now : Nat}
    (h : s.submit hash message now = .ok (s', event)) :
    simulationRank s' ≤ simulationRank s + 3 := by
  obtain ⟨stamped, inbound, -, hitems, -, rfl⟩ := OsxSimulation.submit_ok h
  generalize hshard : OsxSimulation.shardForSymbol hash count message.symbol
    = shard at hitems
  have hlane : laneRank { s.lanes shard with inbound := inbound }
      ≤ laneRank (s.lanes shard) + 3 := by
    have hlength := congrArg List.length hitems
    rw [List.length_append, List.length_singleton] at hlength
    simp only [laneRank, hlength]
    cases (s.lanes shard).worker with
    | reading =>
        dsimp only
        split
        · have hne : inbound.items ≠ [] := by
            rw [hitems]
            exact List.append_ne_nil_of_right_ne_nil _ (List.cons_ne_nil _ _)
          rw [if_neg hne]
          split <;> omega
        · omega
    | _ => dsimp only; omega
  have hsum := simulationRank_setLane s shard
    { s.lanes shard with inbound := inbound }
  show stopRank count s.owner + ∑ i, laneRank ((s.setLane shard _).lanes i) ≤ _
  rw [simulationRank]
  omega

/-- The lane told to return: its worker goes round once more at most. -/
theorem laneRank_reset (lane : Lane) :
    laneRank { lane with running := false } ≤ laneRank lane + 2 := by
  simp only [laneRank, Bool.false_eq_true, if_false]
  cases lane.worker with
  | reading => dsimp only; omega
  | _ => dsimp only; omega

/-- **THE OWNER'S TURN** in `Simulation::stop`. -/
theorem ownerStep_rank (hc : Controlled s) (hstarting : ∀ next, s.owner ≠ .starting next)
    (h : s.ownerStep = .ok (s', event)) :
    simulationRank s' + 1 ≤ simulationRank s := by
  cases OsxSimulation.ownerStep_turn h with
  | starts next hlt lane howner hstart => exact absurd howner (hstarting next)
  | started next hge howner => exact absurd howner (hstarting next)
  | stops next hlt howner hrunning =>
      refine rank_replaced ?_
      have hreset := laneRank_reset (s.lanes ⟨next, hlt⟩)
      have hplace : stopRank count (.joining ⟨next, hlt⟩) + 3
          ≤ stopRank count s.owner := by
        rw [howner]
        simp only [stopRank]
        omega
      refine Nat.le_trans (Nat.add_le_add_right
        (Nat.add_le_add_left hreset _) 1) ?_
      omega
  | passes next hlt howner hrunning | stopped next hge howner =>
      refine rank_goes_on ?_
      rw [howner]
      simp only [stopRank]
      omega
  | joinsNone shard howner habsent | drained shard howner hread =>
      have hlt := shard.isLt
      refine rank_goes_on ?_
      rw [howner]
      simp only [stopRank]
      omega
  | joins shard howner hfinished =>
      have hlt := shard.isLt
      refine rank_replaced ?_
      rw [howner]
      simp only [stopRank, laneRank, hfinished]
      omega
  | reads shard message inbound howner hread =>
      have hlt := shard.isLt
      have hdown := hc.lane_at howner shard
      simp only [Simulation.phase, Nat.le_refl, if_true] at hdown
      refine rank_replaced ?_
      rw [howner]
      simp only [stopRank, laneRank, hdown.2,
        OsxSimulation.Inbound.tryRead_some hread, List.length_cons]
      omega
  | applies shard message lane published howner hprocess =>
      have hlt := shard.isLt
      obtain ⟨other, -, rfl⟩ := OsxSimulation.process_ok hprocess
      refine rank_replaced ?_
      rw [howner]
      simp only [stopRank, laneRank]
      omega

end Simulation

/-! ## The server's turns -/

section Server

variable {s s' : Server count} {event : Event count}

/-- A live thread is one of those that were started. -/
theorem StagedAt.started {unjoined : List Connection} {stage : Nat}
    (h : StagedAt s unjoined stage) {id : ThreadId}
    (hlive : (s.listener.threads id).Live) : id < s.listener.next := by
  by_contra hge
  rw [h.listener.fresh id (Nat.le_of_not_lt hge)] at hlive
  exact hlive

/-- A thread goes on: the ranks of its places add up. -/
theorem rank_setThread (l : Listener) {id : ThreadId} (hlt : id < l.next)
    (thread : ConnectionThread) :
    (l.setThread id thread).rank + (l.threads id).rank
      = l.rank + thread.rank := by
  have hsum : ∑ id' ∈ Finset.range l.next, Function.update
        (fun id => (l.threads id).rank) id thread.rank id' + (l.threads id).rank
      = ∑ id' ∈ Finset.range l.next, (l.threads id').rank + thread.rank :=
    sum_update (Finset.mem_range.mpr hlt) _ _
  have hsame : ∀ id', ((l.setThread id thread).threads id').rank
      = Function.update (fun id => (l.threads id).rank) id thread.rank id' := by
    intro id'
    by_cases heq : id' = id
    · subst heq
      rw [Listener.setThread_self, Function.update_self]
    · rw [Listener.setThread_other l thread heq, Function.update_of_ne heq]
  show l.acceptThread.rank + ∑ id' ∈ Finset.range l.next,
    ((l.setThread id thread).threads id').rank + _ = _
  simp only [hsame, Listener.rank]
  omega

/-- A client was accepted: one thread more, and one connection at most. -/
theorem rank_accept {l l' : Listener} {unjoined : List Connection} {stage : Nat}
    (h : ListenerAt l unjoined stage) (hwaiting : l.acceptThread = .waiting)
    (haccept : l.accept = .ok l') :
    l'.rank + 2 = l.rank ∧ l'.connections.length ≤ l.connections.length + 1 := by
  obtain ⟨started, hstarted, -⟩ := h.own
  rw [Listener.accept, hstarted] at haccept
  cases hreap : reapFinishedConnections l.flags
      (started.map Accepted.connection) with
  | error fault =>
      rw [hreap] at haccept
      cases haccept
  | ok r =>
      obtain ⟨kept, joined⟩ := r
      rw [hreap] at haccept
      cases haccept
      constructor
      · have hthreads : ∀ id ∈ Finset.range l.next,
            ((l.setThread l.next .loading).threads id).rank
              = (l.threads id).rank := by
          intro id hmem
          rw [Listener.setThread_other l .loading
            (Nat.ne_of_lt (Finset.mem_range.mp hmem))]
        show AcceptThread.loading.rank + ∑ id ∈ Finset.range (l.next + 1),
          ((l.setThread l.next .loading).threads id).rank + 2 = _
        rw [Finset.sum_range_succ, Finset.sum_congr rfl hthreads,
          Listener.setThread_self, Listener.rank, hwaiting]
        simp only [AcceptThread.rank, ConnectionThread.rank]
        omega
      · have hkept := reap_ok hreap
        rw [hstarted, List.length_map, List.length_append, List.length_singleton,
          hkept, List.length_map]
        exact Nat.succ_le_succ (List.length_filter_le ..)

variable {hash : SymbolId → Nat} [NeZero count]

/-- The owner's turn in `stop`, past the listener's flag. -/
theorem ownerStep_shut (hs : Staged s) (hshut : 4 ≤ s.owner.stage s.running)
    (h : s.ownerStep hash = .ok (s', event)) :
    4 ≤ s'.owner.stage s'.running ∧ s'.rank + 1 ≤ s.rank := by
  rw [Server.ownerStep] at h
  cases howner : s.owner with
  | idle =>
      rw [howner] at h
      cases h
  | startingSimulation binds | startingListener binds | stoppingListener =>
      rw [howner] at hshut
      exact absurd hshut (by simp [Owner.stage])
  | joiningAccept =>
      rw [howner] at h
      dsimp only at h
      split at h
      · rename_i hthread
        cases h
        simp only [Server.rank, Owner.rank, Owner.stage, Listener.rank, howner,
          hthread, AcceptThread.rank]
        omega
      · rename_i hthread
        cases h
        simp only [Server.rank, Owner.rank, Owner.stage, Listener.rank, howner,
          hthread, AcceptThread.rank]
        omega
      · cases h
  | joiningConnections connections =>
      rw [howner] at h
      cases connections with
      | nil =>
          cases h
          simp only [Server.rank, Owner.rank, Owner.stage, howner]
          omega
      | cons c connections =>
          dsimp only at h
          split at h
          · cases h
            simp only [Server.rank, Owner.rank, Owner.stage, howner,
              List.length_cons]
            omega
          · split at h <;> cases h
            simp only [Server.rank, Owner.rank, Owner.stage, howner,
              List.length_cons]
            omega
  | stoppingPump =>
      rw [howner] at h
      cases h
      simp only [Server.rank, Owner.rank, Owner.stage, howner,
        MpscQueue.close_items]
      omega
  | joiningPump =>
      rw [howner] at h
      dsimp only at h
      split at h
      · rename_i hpump
        cases h
        simp only [Server.rank, Owner.rank, Owner.stage, howner, hpump, Pump.rank]
        omega
      · rename_i hpump
        cases h
        simp only [Server.rank, Owner.rank, Owner.stage, howner, hpump, Pump.rank]
        omega
      · cases h
  | stoppingSimulation =>
      have hsimulation := (hs.at_place howner).simulation
      obtain ⟨hup, hidle⟩ := hsimulation.up (by simp [Owner.stage])
        (by simp [Owner.stage])
      rw [howner] at h
      obtain ⟨⟨s₁, event₁⟩, hsim, heq⟩ := bind_ok h
      obtain ⟨simulation, event', hstop, rfl, rfl⟩ := simulate_ok hsim
      cases heq
      obtain ⟨rfl, -⟩ := stop_place hidle hup hstop
      simp only [Server.rank, Owner.rank, Owner.stage, howner, simulationRank,
        stopRank, hidle]
      omega
  | drainingSimulation =>
      have hsimulation := (hs.at_place howner).simulation
      have hdown := hsimulation.falling rfl
      rw [howner] at h
      dsimp only at h
      split at h
      · cases h
        simp only [Server.rank, Owner.rank, Owner.stage, howner,
          Bool.false_eq_true, if_false]
        omega
      · obtain ⟨simulation, event', hturn, rfl, -⟩ := simulate_ok h
        have hstarting : ∀ next, s.simulation.owner ≠ .starting next := by
          intro next heq
          have hup : s.simulation.running = true :=
            hsimulation.controlled.flag_at heq
          rw [hdown] at hup
          cases hup
        have hrank := ownerStep_rank hsimulation.controlled hstarting hturn
        simp only [Server.rank, Owner.stage, howner]
        omega

omit [NeZero count] in
theorem rank_spent {action : Action count} (h : s'.rank + 1 ≤ s.rank) :
    s'.rank + (if s.Idles action then 0 else 1) ≤ s.rank := by
  split <;> omega

/-- **NO TURN BRINGS THE END FARTHER**, and every turn but an idle one brings it
    nearer. -/
theorem shut_step (hs : Staged s) (hshut : 4 ≤ s.owner.stage s.running)
    {action : Action count} (hno : ∀ binds, action ≠ .start binds)
    (h : s.step hash action = .ok (s', event)) :
    4 ≤ s'.owner.stage s'.running ∧
      s'.rank + (if s.Idles action then 0 else 1) ≤ s.rank := by
  have hsilent : s.listener.running = false := by
    cases hlistening : s.listener.running with
    | false => rfl
    | true =>
        have := hs.listener.listening.mp hlistening
        omega
  cases action with
  | start binds => exact absurd rfl (hno binds)
  | stop =>
      rw [Server.step, Server.stop] at h
      split at h
      · rename_i hidle
        split at h
        · rename_i hrunning
          rw [hidle, hrunning] at hshut
          exact absurd hshut (by simp [Owner.stage])
        · cases h
          exact ⟨hshut, Nat.le_refl _⟩
      · cases h
  | owner =>
      obtain ⟨hstage, hrank⟩ := ownerStep_shut hs hshut h
      exact ⟨hstage, rank_spent hrank⟩
  | accept client =>
      rw [Server.step, Server.acceptStep] at h
      split at h
      · cases h
      · cases h
      · rename_i hthread
        rw [hsilent] at h
        cases h
        refine ⟨hshut, rank_spent ?_⟩
        simp only [Server.rank, Listener.rank, hthread, Bool.false_eq_true,
          if_false, AcceptThread.rank]
        omega
      · rename_i hthread
        split at h
        · obtain ⟨l', haccept, heq⟩ := bind_ok h
          cases heq
          obtain ⟨hrank, hlength⟩ := rank_accept hs.listener hthread haccept
          refine ⟨hshut, rank_spent ?_⟩
          have howner : s.owner.rank count l'.connections
              ≤ s.owner.rank count s.listener.connections + 1 := by
            cases s.owner with
            | joiningAccept => simp only [Owner.rank]; omega
            | _ => exact Nat.le_succ _
          simp only [Server.rank]
          omega
        · cases h
          refine ⟨hshut, rank_spent ?_⟩
          simp only [Server.rank, Listener.rank, hthread,
            AcceptThread.rank]
          omega
  | connection id =>
      rw [Server.step, Server.connectionStep] at h
      split at h
      · rename_i hthread
        have hlt := hs.started (Listener.live_at hthread trivial)
        rw [hsilent] at h
        cases h
        refine ⟨hshut, rank_spent ?_⟩
        have hrank := rank_setThread s.listener hlt .finished
        rw [hthread] at hrank
        simp only [ConnectionThread.rank] at hrank
        simp only [Server.rank, Listener.setThread, Bool.false_eq_true,
          if_false] at hrank ⊢
        omega
      · rename_i message hthread
        have hlive := Listener.live_at hthread trivial
        have hlt := hs.started hlive
        have hstage := hs.listener.live_stage hlive
        have hopen : s.inboundQueue.closed = false := by
          cases hclosed : s.inboundQueue.closed with
          | false => rfl
          | true =>
              have := hs.pump.closed hclosed
              omega
        split at h
        · cases h
        · rename_i inbound hpush
          obtain ⟨-, hitems, -, -⟩ := MpscQueue.push_open hopen hpush
          cases h
          refine ⟨hshut, rank_spent ?_⟩
          have hrank := rank_setThread s.listener hlt .loading
          rw [hthread] at hrank
          simp only [ConnectionThread.rank] at hrank
          simp only [Server.rank, Listener.setThread,
            hitems, List.length_append, List.length_singleton] at hrank ⊢
          omega
      · cases h
  | receive id message =>
      rw [Server.step] at h
      split at h
      · rename_i hthread
        have hlt := hs.started (Listener.live_at hthread trivial)
        cases h
        refine ⟨hshut, rank_spent ?_⟩
        have hrank := rank_setThread s.listener hlt (.handling message)
        rw [hthread] at hrank
        simp only [ConnectionThread.rank] at hrank
        simp only [Server.rank, Listener.setThread]
          at hrank ⊢
        omega
      · cases h
  | hangUp id =>
      rw [Server.step] at h
      split at h
      · rename_i hthread
        have hlt := hs.started (Listener.live_at hthread trivial)
        cases h
        refine ⟨hshut, rank_spent ?_⟩
        have hrank := rank_setThread s.listener hlt .finished
        rw [hthread] at hrank
        simp only [ConnectionThread.rank] at hrank
        simp only [Server.rank, Listener.setThread]
          at hrank ⊢
        omega
      · cases h
  | pump now =>
      rw [Server.step, Server.pumpStep] at h
      split at h
      · cases h
      · cases h
      · rename_i hpump
        split at h
        · cases h
        · cases h
          refine ⟨hshut, rank_spent ?_⟩
          simp only [Server.rank, hpump, Pump.rank]
          omega
        · rename_i message queue hpop
          obtain ⟨hitems, -, -⟩ := MpscQueue.popBlocking_some hpop
          cases h
          refine ⟨hshut, rank_spent ?_⟩
          simp only [Server.rank, hpump, Pump.rank, hitems, List.length_cons]
          omega
      · rename_i message hpump
        obtain ⟨⟨s₁, event₁⟩, hsim, heq⟩ := bind_ok h
        obtain ⟨simulation, event', hsubmit, rfl, rfl⟩ := simulate_ok hsim
        cases heq
        refine ⟨hshut, rank_spent ?_⟩
        have hrank := submit_rank hsubmit
        simp only [Server.rank, hpump, Pump.rank]
        omega
  | worker shard =>
      obtain ⟨simulation, event', hwork, rfl, rfl⟩ := simulate_ok h
      refine ⟨hshut, ?_⟩
      have hrank := workerStep_rank hwork
      show Server.rank { s with simulation := simulation }
        + (if LaneIdles (s.simulation.lanes shard) then 0 else 1) ≤ s.rank
      simp only [Server.rank]
      omega

end Server

end OsxServerRun
