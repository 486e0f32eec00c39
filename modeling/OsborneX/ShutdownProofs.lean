import OsborneX.RingSlotProofs
import OsborneX.ServerEngineProofs
import OsborneX.ShutdownRankProofs

/-! # Shutting down — `stop` gets through to its last call

    Once `stop` has reset the listener's flag the server waits for none of its
    clients.  Whatever the owner is about to join has a turn to take, or waits
    for a thread that has one (`progress`), and such a turn brings the end
    nearer (`shut_step`).  So no schedule goes on for ever, and none is stuck
    before `simulation_.stop()` has returned (`stop_returns`).  The readers that
    `broadcaster_.stop()` joins after it have no part in this server. -/

namespace OsxServerRun

open OsxShard OsxThread OsxListener Execution
open OsxSimulation (Simulation Lane Inbound Controlled submissions accepted
  acceptedAt shardForSymbol)
open OsxSharding (Sound Faulting)

variable {count : Nat}

/-! ## What may happen -/

/-- What may happen after `start`: orders are sound, and it is not called
    again. -/
def Action.Allowed : Action count → Prop
  | .start _ => False
  | .receive _ message => Sound message
  | _ => True

instance : (action : Action count) → Decidable action.Allowed
  | .start _ => isFalse id
  | .receive _ message => inferInstanceAs (Decidable (Sound message))
  | .stop | .owner | .accept _ | .connection _ | .hangUp _ | .pump _
  | .worker _ => isTrue trivial

/-- A turn of the server's own: no client connects, and none sends an order. -/
def Action.Own : Action count → Prop
  | .start _ | .accept true | .receive _ _ => False
  | _ => True

theorem Action.Allowed.no_start {action : Action count} (h : action.Allowed)
    (binds : Bool) : action ≠ .start binds := by
  rintro rfl
  exact h

theorem Action.Own.allowed {action : Action count} (h : action.Own) :
    action.Allowed := by
  cases action with
  | start binds => exact h
  | receive id message => exact h.elim
  | _ => trivial

/-! ## What the joins rely on -/

section Capacity

variable {s s' : Simulation count} {event : OsxSimulation.Event count}

theorem pushBlocking_capacity {b b' : Inbound} {message : OrderMessage}
    (h : b.pushBlocking message = some b') : b'.capacity = b.capacity := by
  rw [Inbound.pushBlocking] at h
  split at h <;> cases h
  rfl

theorem pushBlocking_none {b : Inbound} {message : OrderMessage}
    (h : b.pushBlocking message = none) : b.capacity ≤ b.items.length := by
  rw [Inbound.pushBlocking] at h
  split at h
  · cases h
  · rename_i hfull
    exact Nat.le_of_not_lt hfull

theorem tryRead_capacity {b b' : Inbound} {message : OrderMessage}
    (h : b.tryRead = some (message, b')) : b'.capacity = b.capacity := by
  rw [Inbound.tryRead] at h
  split at h <;> cases h
  rfl

/-- The capacities of the buffers, all the same after a lane was replaced. -/
theorem capacity_setLane {shard : Fin count} {lane : Lane}
    (h : lane.inbound.capacity = (s.lanes shard).inbound.capacity)
    (shard' : Fin count) :
    ((s.setLane shard lane).lanes shard').inbound.capacity
      = (s.lanes shard').inbound.capacity := by
  by_cases heq : shard' = shard
  · subst heq
    rw [OsxSimulation.setLane_self, h]
  · rw [OsxSimulation.setLane_other s shard lane heq]

theorem work_capacity {lane lane' : Lane}
    {done : Option (OrderMessage × Published)}
    (h : lane.work = .ok (lane', done)) :
    lane'.inbound.capacity = lane.inbound.capacity := by
  rw [Lane.work] at h
  cases hworker : lane.worker with
  | absent | finished =>
      rw [hworker] at h
      cases h
  | loading =>
      rw [hworker] at h
      cases h
      rfl
  | reading =>
      rw [hworker] at h
      dsimp only at h
      split at h
      · cases h
        rfl
      · rename_i message inbound hread
        cases h
        exact tryRead_capacity hread
  | holding message =>
      rw [hworker] at h
      obtain ⟨⟨lane₁, published⟩, hprocess, heq⟩ := bind_ok h
      cases heq
      obtain ⟨shard, -, rfl⟩ := OsxSimulation.process_ok hprocess
      rfl

/-- **NO STEP CHANGES A CAPACITY.** -/
theorem step_capacity {hash : SymbolId → Nat} [NeZero count]
    {action : OsxSimulation.Action count}
    (h : s.step hash action = .ok (s', event)) (shard : Fin count) :
    (s'.lanes shard).inbound.capacity = (s.lanes shard).inbound.capacity := by
  cases action with
  | submit message now =>
      rw [Simulation.step, Simulation.submit] at h
      dsimp only at h
      split at h
      · cases h
      · rename_i inbound hpush
        cases h
        exact capacity_setLane (pushBlocking_capacity hpush) shard
  | start =>
      obtain ⟨s₁, hstart, heq⟩ := map_ok h
      cases heq
      rw [Simulation.start] at hstart
      split at hstart
      · split at hstart <;> cases hstart <;> rfl
      · cases hstart
  | stop =>
      obtain ⟨s₁, hstop, heq⟩ := map_ok h
      cases heq
      rw [Simulation.stop] at hstop
      split at hstop
      · split at hstop <;> cases hstop <;> rfl
      · cases hstop
  | owner =>
      cases OsxSimulation.ownerStep_turn h with
      | starts next hlt lane howner hstart =>
          refine capacity_setLane ?_ shard
          rw [Lane.start] at hstart
          split at hstart
          · cases hstart
            rfl
          · split at hstart <;> cases hstart
            rfl
      | started | passes | stopped | joinsNone | drained => rfl
      | stops next hlt howner hrunning => exact capacity_setLane (by rfl) shard
      | joins shard' howner hfinished => exact capacity_setLane (by rfl) shard
      | reads shard' message inbound howner hread =>
          exact capacity_setLane (tryRead_capacity hread) shard
      | applies shard' message lane published howner hprocess =>
          obtain ⟨other, -, rfl⟩ := OsxSimulation.process_ok hprocess
          exact capacity_setLane (by rfl) shard
  | worker shard' =>
      obtain ⟨⟨lane, done⟩, hwork, heq⟩ := bind_ok h
      cases heq
      exact capacity_setLane (work_capacity hwork) shard

end Capacity

/-- Every connection that is still to be joined has a thread that was started. -/
def Launched (l : Listener) (unjoined : List Connection) : Prop :=
  ∀ c ∈ l.connections ++ unjoined, ∀ id, c.thread = some id →
    l.threads id ≠ .absent

/-- What the owner's joins rely on, besides the stages. -/
structure Ready (s : Server count) : Prop where
  launched : Launched s.listener s.owner.unjoined
  closed : s.owner = .joiningPump → s.inboundQueue.closed = true
  roomy : ∀ shard, 0 < (s.simulation.lanes shard).inbound.capacity

section Ready

variable {s s' : Server count} {event : Event count}

/-- A thread that was started stays so. -/
theorem Launched.turn {l : Listener} {unjoined : List Connection}
    (h : Launched l unjoined) (id : ThreadId) {thread : ConnectionThread}
    (hthere : thread ≠ .absent) : Launched (l.setThread id thread) unjoined := by
  intro c hc id' hid'
  by_cases heq : id' = id
  · subst heq
    rw [Listener.setThread_self]
    exact hthere
  · rw [Listener.setThread_other l thread heq]
    exact h c hc id' hid'

theorem Launched.accept {l l' : Listener} {unjoined : List Connection}
    {stage : Nat} (h : Launched l unjoined) (hl : ListenerAt l unjoined stage)
    (haccept : l.accept = .ok l') : Launched l' unjoined := by
  obtain ⟨started, hstarted, -⟩ := hl.own
  rw [Listener.accept, hstarted] at haccept
  cases hreap : reapFinishedConnections l.flags
      (started.map Accepted.connection) with
  | error fault =>
      rw [hreap] at haccept
      cases haccept
  | ok r =>
      obtain ⟨kept, joined⟩ := r
      rw [hreap] at haccept
      cases haccept
      have hkept := reap_ok hreap
      have hthere : ConnectionThread.loading ≠ .absent := by decide
      intro c hc id hid
      rcases List.mem_append.mp hc with hc | hc
      · rcases List.mem_append.mp hc with hc | hc
        · -- it was there, and was not reaped
          rw [hkept] at hc
          obtain ⟨a, ha, rfl⟩ := List.mem_map.mp hc
          refine h.turn l.next hthere _ (List.mem_append_left _ ?_) id hid
          show a.connection ∈ l.connections
          rw [hstarted]
          exact List.mem_map_of_mem (List.mem_of_mem_filter ha)
        · rw [List.mem_singleton.mp hc] at hid
          cases hid
          show (l.setThread l.next .loading).threads l.next ≠ .absent
          rw [Listener.setThread_self]
          exact hthere
      · exact h.turn l.next hthere c (List.mem_append_right _ hc) id hid

/-- The owner takes no connection in. -/
theorem Launched.shrinks {l l' : Listener} {unjoined unjoined' : List Connection}
    (h : Launched l unjoined) (hthreads : l'.threads = l.threads)
    (hsub : l'.connections ++ unjoined' ⊆ l.connections ++ unjoined) :
    Launched l' unjoined' := by
  intro c hc id hid
  rw [hthreads]
  exact h c (hsub hc) id hid

variable {hash : SymbolId → Nat} [NeZero count]

/-- The simulation's turns. -/
theorem Ready.simulates (h : Ready s) {action : OsxSimulation.Action count}
    (hstep : s.simulate hash action = .ok (s', event)) :
    Ready s' ∧ s'.owner = s.owner := by
  obtain ⟨simulation, event', hsim, rfl, rfl⟩ := simulate_ok hstep
  refine ⟨⟨h.launched, h.closed, fun shard => ?_⟩, rfl⟩
  show 0 < (simulation.lanes shard).inbound.capacity
  rw [step_capacity hsim shard]
  exact h.roomy shard

theorem Ready.owner (h : Ready s) (hstep : s.ownerStep hash = .ok (s', event)) :
    Ready s' := by
  have hlaunched := h.launched
  rw [Server.ownerStep] at hstep
  cases howner : s.owner with
  | idle =>
      rw [howner] at hstep
      cases hstep
  | startingSimulation binds =>
      rw [howner] at hstep hlaunched
      dsimp only at hstep
      split at hstep
      · split at hstep <;> cases hstep
        exact ⟨hlaunched, (fun heq => by cases heq), h.roomy⟩
      · exact (h.simulates hstep).1
  | startingListener binds =>
      rw [howner] at hstep hlaunched
      dsimp only at hstep
      split at hstep
      · cases hstep
        exact ⟨hlaunched, (fun heq => by cases heq), h.roomy⟩
      · split at hstep
        · split at hstep <;> cases hstep
          exact ⟨hlaunched, (fun heq => by cases heq), h.roomy⟩
        · cases hstep
          exact ⟨hlaunched, (fun heq => by cases heq), h.roomy⟩
  | stoppingListener =>
      rw [howner] at hstep hlaunched
      dsimp only at hstep
      split at hstep <;> cases hstep
      · exact ⟨hlaunched, (fun heq => by cases heq), h.roomy⟩
      · exact ⟨hlaunched, (fun heq => by cases heq), h.roomy⟩
  | joiningAccept =>
      rw [howner] at hstep hlaunched
      have hswap : Launched { s.listener with
          acceptThread := .absent, connections := [] } s.listener.connections := by
        refine hlaunched.shrinks rfl (fun c hc => ?_)
        exact List.mem_append_left _ hc
      dsimp only at hstep
      split at hstep <;> cases hstep
      · exact ⟨hswap, (fun heq => by cases heq), h.roomy⟩
      · exact ⟨hswap, (fun heq => by cases heq), h.roomy⟩
  | joiningConnections connections =>
      rw [howner] at hstep hlaunched
      cases connections with
      | nil =>
          cases hstep
          exact ⟨hlaunched, (fun heq => by cases heq), h.roomy⟩
      | cons c connections =>
          have hrest : Launched s.listener connections := by
            refine hlaunched.shrinks rfl (fun c' hc' => ?_)
            rcases List.mem_append.mp hc' with hc' | hc'
            · exact List.mem_append_left _ hc'
            · exact List.mem_append_right _ (List.mem_cons_of_mem c hc')
          dsimp only at hstep
          split at hstep
          · cases hstep
            exact ⟨hrest, (fun heq => by cases heq), h.roomy⟩
          · split at hstep <;> cases hstep
            exact ⟨hrest, (fun heq => by cases heq), h.roomy⟩
  | stoppingPump =>
      rw [howner] at hstep hlaunched
      cases hstep
      exact ⟨hlaunched, fun _ => rfl, h.roomy⟩
  | joiningPump =>
      rw [howner] at hstep hlaunched
      dsimp only at hstep
      split at hstep <;> cases hstep
      · exact ⟨hlaunched, (fun heq => by cases heq), h.roomy⟩
      · exact ⟨hlaunched, (fun heq => by cases heq), h.roomy⟩
  | stoppingSimulation =>
      rw [howner] at hstep hlaunched
      obtain ⟨⟨s₁, event₁⟩, hsim, heq⟩ := bind_ok hstep
      cases heq
      have hroomy := (h.simulates hsim).1.roomy
      obtain ⟨simulation, event', -, rfl, -⟩ := simulate_ok hsim
      exact ⟨hlaunched, (fun heq => by cases heq), hroomy⟩
  | drainingSimulation =>
      rw [howner] at hstep hlaunched
      dsimp only at hstep
      split at hstep
      · cases hstep
        exact ⟨hlaunched, (fun heq => by cases heq), h.roomy⟩
      · exact (h.simulates hstep).1

/-- **EVERY STEP KEEPS IT.** -/
theorem Ready.step (hs : Staged s) (h : Ready s) {action : Action count}
    (hno : ∀ binds, action ≠ .start binds)
    (hstep : s.step hash action = .ok (s', event)) : Ready s' := by
  have hthread : ∀ {id : ThreadId} {thread : ConnectionThread},
      thread ≠ .absent →
      Ready { s with listener := s.listener.setThread id thread } :=
    fun hthere => ⟨h.launched.turn _ hthere, h.closed, h.roomy⟩
  cases action with
  | start binds => exact absurd rfl (hno binds)
  | stop =>
      rw [Server.step, Server.stop] at hstep
      split at hstep
      · rename_i howner
        have hlaunched := h.launched
        rw [howner] at hlaunched
        split at hstep <;> cases hstep
        · exact ⟨hlaunched, (fun heq => by cases heq), h.roomy⟩
        · exact h
      · cases hstep
  | owner => exact h.owner hstep
  | accept client =>
      rw [Server.step, Server.acceptStep] at hstep
      split at hstep
      · cases hstep
      · cases hstep
      · cases hstep
        exact ⟨h.launched, h.closed, h.roomy⟩
      · split at hstep
        · obtain ⟨l', haccept, heq⟩ := bind_ok hstep
          cases heq
          exact ⟨h.launched.accept hs.listener haccept, h.closed, h.roomy⟩
        · cases hstep
          exact ⟨h.launched, h.closed, h.roomy⟩
  | connection id =>
      rw [Server.step, Server.connectionStep] at hstep
      split at hstep
      · cases hstep
        refine hthread ?_
        split <;> decide
      · rename_i message hhandling
        have hlive := Listener.live_at hhandling trivial
        have hstage := hs.listener.live_stage hlive
        split at hstep <;> cases hstep
        refine ⟨h.launched.turn _ (by decide), fun howner => ?_, h.roomy⟩
        have howner : s.owner = .joiningPump := howner
        rw [howner] at hstage
        simp only [Owner.stage] at hstage
        omega
      · cases hstep
  | receive id message =>
      rw [Server.step] at hstep
      split at hstep <;> cases hstep
      exact hthread (fun heq => by cases heq)
  | hangUp id =>
      rw [Server.step] at hstep
      split at hstep <;> cases hstep
      exact hthread (by decide)
  | pump now =>
      rw [Server.step, Server.pumpStep] at hstep
      split at hstep
      · cases hstep
      · cases hstep
      · split at hstep
        · cases hstep
        · cases hstep
          exact ⟨h.launched, h.closed, h.roomy⟩
        · rename_i message queue hpop
          obtain ⟨-, -, hclosed⟩ := MpscQueue.popBlocking_some hpop
          cases hstep
          exact ⟨h.launched, fun howner => hclosed.trans (h.closed howner),
            h.roomy⟩
      · obtain ⟨⟨s₁, event₁⟩, hsim, heq⟩ := bind_ok hstep
        cases heq
        obtain ⟨hready, -⟩ := h.simulates hsim
        exact ⟨hready.launched, hready.closed, hready.roomy⟩
  | worker shard => exact (h.simulates hstep).1

end Ready

/-! ## Somebody can go on -/

section Progress

/-- A worker in its loop has a turn to take. -/
theorem worker_goes_on {s : Simulation count} (hc : Controlled s)
    (hsound : ∀ fault, ¬ Faulting s fault) {shard : Fin count}
    (hthere : (s.lanes shard).worker ≠ .absent)
    (hloop : (s.lanes shard).worker ≠ .finished) :
    ∃ r, s.workerStep shard = .ok r := by
  cases hstep : s.workerStep shard with
  | ok r => exact ⟨r, rfl⟩
  | error e =>
      rcases OsxSharding.worker_error hc hstep with rfl | ⟨fault, -, hfault⟩
      · -- only a thread that is not there waits
        rcases bind_error hstep with hwork | ⟨r, -, hr⟩
        · rw [Lane.work] at hwork
          cases hworker : (s.lanes shard).worker with
          | absent => exact absurd hworker hthere
          | finished => exact absurd hworker hloop
          | loading =>
              rw [hworker] at hwork
              cases hwork
          | reading =>
              rw [hworker] at hwork
              dsimp only at hwork
              split at hwork <;> cases hwork
          | holding message =>
              rw [hworker] at hwork
              rcases bind_error hwork with hprocess | ⟨r, -, hr⟩
              · obtain ⟨fault, heq, -⟩ := OsxSharding.process_error hprocess
                cases heq
              · cases hr
        · cases hr
      · exact absurd hfault (hsound fault)

/-- A submission is made, or the shard's buffer is full. -/
theorem submit_goes_on (hash : SymbolId → Nat) [NeZero count]
    (s : Simulation count) (message : OrderMessage) (now : Nat)
    (hroomy : ∀ shard, 0 < (s.lanes shard).inbound.capacity) :
    (∃ r, s.submit hash message now = .ok r) ∨
      (s.lanes (shardForSymbol hash count message.symbol)).inbound.items
        ≠ [] := by
  rw [Simulation.submit]
  dsimp only
  generalize hpush : Inbound.pushBlocking _ _ = pushed
  cases pushed with
  | some inbound => exact Or.inl ⟨_, rfl⟩
  | none =>
      refine Or.inr (fun hempty => ?_)
      have hfull := pushBlocking_none hpush
      rw [hempty] at hfull
      exact absurd (hroomy _) (Nat.not_lt_of_le hfull)

/-- Some thread of the server has a turn that is not idle. -/
def Goes (hash : SymbolId → Nat) [NeZero count] (s : Server count) : Prop :=
  ∃ action, action.Own ∧ ¬ s.Idles action ∧ ∃ r, s.step hash action = .ok r

variable {hash : SymbolId → Nat} [NeZero count] {s : Server count}

theorem Goes.owner (h : ∃ r, s.ownerStep hash = .ok r) : Goes hash s :=
  ⟨.owner, trivial, id, h⟩

/-- A worker with something to do. -/
theorem Goes.worker (hc : Controlled s.simulation)
    (hsound : ∀ fault, ¬ Faulting s.simulation fault) {shard : Fin count}
    (hthere : (s.simulation.lanes shard).worker ≠ .absent)
    (hloop : (s.simulation.lanes shard).worker ≠ .finished)
    (hbusy : ¬ LaneIdles (s.simulation.lanes shard)) : Goes hash s := by
  obtain ⟨⟨simulation, event⟩, hwork⟩ := worker_goes_on hc hsound hthere hloop
  have hstep : s.simulation.step hash (.worker shard)
    = .ok (simulation, event) := hwork
  refine ⟨.worker shard, trivial, hbusy, ?_⟩
  rw [Server.step, Server.simulate, hstep]
  exact ⟨_, rfl⟩

/-- The pump with something to do: it pops, submits, or waits for a worker. -/
theorem Goes.pump {unjoined : List Connection} {stage : Nat}
    (hs : StagedAt s unjoined stage) (hr : Ready s)
    (hsound : ∀ fault, ¬ Faulting s.simulation fault)
    (hstage : 1 ≤ stage ∧ stage ≤ 7) (hloop : s.pump ≠ .finished)
    (hwork : s.inboundQueue.items ≠ [] ∨ s.inboundQueue.closed = true) :
    Goes hash s := by
  cases hpump : s.pump with
  | absent =>
      have := hs.pump.absent hpump
      omega
  | finished => exact absurd hpump hloop
  | popping =>
      have hpops : ∃ r, s.pumpStep hash 0 = .ok r := by
        rw [Server.pumpStep, hpump]
        dsimp only
        cases hpop : s.inboundQueue.popBlocking with
        | some popped =>
            obtain ⟨message, queue⟩ := popped
            cases message with
            | none => exact ⟨_, rfl⟩
            | some message => exact ⟨_, rfl⟩
        | none =>
            rw [MpscQueue.popBlocking] at hpop
            split at hpop
            · cases hpop
            · rename_i hitems
              split at hpop
              · cases hpop
              · rename_i hopen
                rcases hwork with hwork | hwork
                · exact absurd hitems hwork
                · exact absurd hwork hopen
      exact ⟨.pump 0, trivial, id, hpops⟩
  | submitting message =>
      rcases submit_goes_on hash s.simulation message 0 hr.roomy with
        ⟨⟨simulation, event⟩, hsubmit⟩ | hitems
      · have hstep : s.simulation.step hash (.submit message 0)
          = .ok (simulation, event) := hsubmit
        refine ⟨.pump 0, trivial, id, ?_⟩
        rw [Server.step, Server.pumpStep, hpump]
        dsimp only
        rw [Server.simulate, hstep]
        exact ⟨_, rfl⟩
      · -- the buffer is full, so its worker has a message to read
        obtain ⟨hup, hidle⟩ := hs.simulation.up hstage.1 (by omega)
        have hlane := hs.simulation.controlled.lane_at hidle
          (shardForSymbol hash count message.symbol)
        simp only [Simulation.phase, hup, if_true] at hlane
        exact .worker hs.simulation.controlled hsound hlane.2.1 hlane.2.2
          (fun hidles => hitems hidles.2.1)

omit [NeZero count] in
/-- The simulation's owner waits only to join a worker. -/
theorem owner_waits {s : Simulation count} (hc : Controlled s)
    (hbusy : s.owner ≠ .idle) (h : s.ownerStep = .error .blocked) :
    ∃ shard, s.owner = .joining shard ∧ (s.lanes shard).worker ≠ .absent ∧
      (s.lanes shard).worker ≠ .finished := by
  rw [Simulation.ownerStep] at h
  cases howner : s.owner with
  | idle => exact absurd howner hbusy
  | starting next =>
      rw [howner] at h
      dsimp only at h
      split at h
      · rename_i hlt
        have hdown := hc.lane_at howner ⟨next, hlt⟩
        simp only [Simulation.phase, Nat.lt_irrefl, if_false] at hdown
        rw [OsxSimulation.start_down hdown] at h
        cases h
      · cases h
  | stopping next =>
      rw [howner] at h
      dsimp only at h
      split at h
      · split at h <;> cases h
      · cases h
  | joining shard =>
      rw [howner] at h
      dsimp only at h
      split at h
      · cases h
      · cases h
      · rename_i habsent hfinished
        exact ⟨shard, rfl, habsent, hfinished⟩
  | draining shard =>
      rw [howner] at h
      dsimp only at h
      split at h <;> cases h
  | applying shard message =>
      rw [howner] at h
      rcases bind_error h with hprocess | ⟨r, -, hr⟩
      · obtain ⟨fault, heq, -⟩ := OsxSharding.process_error hprocess
        cases heq
      · cases hr

/-- A connection's thread that is not at its end: it goes on, or waits for the
    pump to make room. -/
theorem Goes.connection {unjoined : List Connection}
    (hs : StagedAt s unjoined 5) (hr : Ready s)
    (hsound : ∀ fault, ¬ Faulting s.simulation fault) (id : ThreadId)
    (hthere : s.listener.threads id ≠ .absent)
    (hend : s.listener.threads id = .finished → Goes hash s) :
    Goes hash s := by
  cases hthread : s.listener.threads id with
  | absent => exact absurd hthread hthere
  | finished => exact hend hthread
  | loading =>
      refine ⟨.connection id, trivial, not_false, ?_⟩
      rw [Server.step, Server.connectionStep, hthread]
      exact ⟨_, rfl⟩
  | receiving =>
      refine ⟨.hangUp id, trivial, not_false, ?_⟩
      rw [Server.step]
      rw [hthread]
      exact ⟨_, rfl⟩
  | handling message =>
      cases hpush : s.inboundQueue.push message with
      | some queue =>
          refine ⟨.connection id, trivial, not_false, ?_⟩
          rw [Server.step, Server.connectionStep, hthread]
          dsimp only
          rw [hpush]
          exact ⟨_, rfl⟩
      | none =>
          -- the queue is full, so the pump has something to pop
          have hitems : s.inboundQueue.items ≠ [] := by
            intro hempty
            have hopen : s.inboundQueue.closed = false := by
              cases hclosed : s.inboundQueue.closed with
              | false => rfl
              | true =>
                  have := hs.pump.closed hclosed
                  omega
            have hroom : s.inboundQueue.items.length
                < s.inboundQueue.capacity := by
              rw [hempty]
              exact s.inboundQueue.positive
            obtain ⟨queue, hroom⟩ := MpscQueue.push_room message hopen hroom
            rw [hpush] at hroom
            cases hroom
          refine .pump hs hr hsound ⟨by omega, by omega⟩ ?_ (Or.inl hitems)
          intro hfinished
          have := hs.pump.closed (hs.pump.finished hfinished)
          omega

/-- The owner joins a shard's worker, which was told to return. -/
theorem Goes.draining (hs : StagedAt s [] 9) (howner : s.owner = .drainingSimulation)
    (hsound : ∀ fault, ¬ Faulting s.simulation fault) : Goes hash s := by
  have hc := hs.simulation.controlled
  by_cases hidle : s.simulation.owner = .idle
  · refine .owner ?_
    rw [Server.ownerStep, howner]
    dsimp only
    rw [hidle]
    exact ⟨_, rfl⟩
  · cases hturn : s.simulation.ownerStep with
    | ok r =>
        obtain ⟨simulation, event⟩ := r
        have hstep : s.simulation.step hash .owner = .ok (simulation, event) :=
          hturn
        refine .owner ?_
        rw [Server.ownerStep, howner]
        dsimp only
        split
        · exact absurd ‹_› hidle
        · rw [Server.simulate, hstep]
          exact ⟨_, rfl⟩
    | error e =>
        rcases OsxSharding.owner_error hc hturn with rfl | ⟨fault, -, hfault⟩
        · -- the owner waits only to join a worker
          obtain ⟨shard, hjoining, hthere, hloop⟩ := owner_waits hc hidle hturn
          have hleaving := hc.lane_at hjoining shard
          simp only [Simulation.phase, Nat.lt_irrefl, if_false, if_true]
            at hleaving
          refine .worker hc hsound hthere hloop (fun hidles => ?_)
          exact Bool.false_ne_true (hleaving.1.symm.trans hidles.1)
        · exact absurd hfault (hsound fault)

/-- **SOMEBODY CAN GO ON** until `stop` has returned. -/
theorem progress (hs : Staged s) (hr : Ready s)
    (hsound : ∀ fault, ¬ Faulting s.simulation fault)
    (hshut : 4 ≤ s.owner.stage s.running) (hup : ¬ s.Stopped) : Goes hash s := by
  cases howner : s.owner with
  | idle =>
      rw [howner] at hshut
      simp only [Owner.stage] at hshut
      cases hrunning : s.running with
      | true =>
          rw [hrunning] at hshut
          exact absurd hshut (by decide)
      | false => exact absurd ⟨howner, hrunning⟩ hup
  | startingSimulation binds | startingListener binds | stoppingListener =>
      rw [howner] at hshut
      exact absurd hshut (by simp [Owner.stage])
  | joiningAccept =>
      cases hthread : s.listener.acceptThread with
      | absent | finished =>
          refine .owner ?_
          rw [Server.ownerStep, howner]
          dsimp only
          rw [hthread]
          exact ⟨_, rfl⟩
      | loading | waiting =>
          refine ⟨.accept false, trivial, id, ?_⟩
          rw [Server.step, Server.acceptStep, hthread]
          exact ⟨_, rfl⟩
  | joiningConnections connections =>
      have ha : StagedAt s connections 5 := hs.at_place howner
      cases connections with
      | nil =>
          refine .owner ?_
          rw [Server.ownerStep, howner]
          exact ⟨_, rfl⟩
      | cons c connections =>
          cases hthread : c.thread with
          | none =>
              refine .owner ?_
              rw [Server.ownerStep, howner]
              dsimp only
              rw [hthread]
              exact ⟨_, rfl⟩
          | some id =>
              refine .connection ha hr hsound id ?_ ?_
              · intro habsent
                refine hr.launched c (List.mem_append_right _ ?_) id hthread habsent
                rw [howner]
                exact List.mem_cons_self
              · intro hfinished
                refine .owner ?_
                rw [Server.ownerStep, howner]
                dsimp only
                rw [hthread]
                dsimp only
                rw [hfinished]
                exact ⟨_, rfl⟩
  | stoppingPump =>
      refine .owner ?_
      rw [Server.ownerStep, howner]
      exact ⟨_, rfl⟩
  | joiningPump =>
      have ha : StagedAt s [] 7 := hs.at_place howner
      cases hpump : s.pump with
      | absent | finished =>
          refine .owner ?_
          rw [Server.ownerStep, howner]
          dsimp only
          rw [hpump]
          exact ⟨_, rfl⟩
      | popping | submitting message =>
          refine .pump ha hr hsound ⟨by omega, by omega⟩ ?_
            (Or.inr (hr.closed howner))
          rw [hpump]
          exact (fun heq => by cases heq)
  | stoppingSimulation =>
      have ha : StagedAt s [] 8 := hs.at_place howner
      obtain ⟨hrunning, hidle⟩ := ha.simulation.up (by omega) (by omega)
      refine .owner ?_
      rw [Server.ownerStep, howner]
      dsimp only
      have hstop : s.simulation.step hash .stop = .ok
          ({ s.simulation with running := false, owner := .stopping 0 },
            .quiet) := by
        rw [Simulation.step, Simulation.stop, hidle, hrunning]
        rfl
      rw [Server.simulate, hstop]
      exact ⟨_, rfl⟩
  | drainingSimulation => exact .draining (hs.at_place howner) howner hsound

end Progress

/-! ## Runs that were allowed -/

/-- A server that was started, and not again, and was sent sound orders. -/
def Reached (hash : SymbolId → Nat) [NeZero count]
    (inboundCapacity inboundQueueCapacity : Nat) (s : Server count) : Prop :=
  ∃ binds actions log, (∀ action ∈ actions, action.Allowed) ∧
    execute (Server.step hash)
      (.new count inboundCapacity inboundQueueCapacity)
      (.start binds :: actions) = .ok (s, log)

section Allowed

variable {hash : SymbolId → Nat} [NeZero count] {s s' : Server count}
  {event : Event count}

/-- What the handler is invoked with is sound. -/
theorem step_allowed {action : Action count} (hallowed : action.Allowed)
    (h : s.step hash action = .ok (s', event)) :
    ∀ d ∈ invoked [event], Sound d.2 := by
  intro d hd
  rw [step_invoked h] at hd
  cases action with
  | receive id message =>
      rw [List.mem_singleton.mp hd]
      exact hallowed
  | _ => cases hd

/-- What a run hands to a shard was submitted by it. -/
theorem run_sound {actions : List (OsxSimulation.Action count)}
    (hsound : ∀ message ∈ submissions actions, Sound message)
    {s t : Simulation count} {log : List (OsxSimulation.Event count)}
    (hrun : execute (Simulation.step hash) s actions = .ok (t, log))
    (shard : Fin count) :
    ∀ message ∈ acceptedAt shard log, Sound message := by
  have hkeeps := execute_trace
    (I := fun actions _ log =>
      (∀ message ∈ submissions actions, Sound message) →
      ∀ message ∈ acceptedAt shard log, Sound message) ?_
    (fun _ message hmem => absurd hmem List.not_mem_nil) hrun
  · exact hkeeps hsound
  · intro actions s log action s' event ih hstep hsound message hmem
    rw [submissions_snoc] at hsound
    have hmem : message ∈ acceptedAt shard log ++ acceptedAt shard [event] := by
      rw [← OsxSimulation.acceptedAt_append]
      exact hmem
    rcases List.mem_append.mp hmem with hmem | hmem
    · exact ih (fun m hm => hsound m (List.mem_append_left _ hm)) message hmem
    · exact OsxSharding.step_sound (fun m hm =>
        hsound m (List.mem_append_right _ hm)) hstep shard message hmem

/-- A new server is ready to start. -/
theorem ready_new (count inboundCapacity inboundQueueCapacity : Nat) :
    Ready (Server.new count inboundCapacity inboundQueueCapacity) := by
  refine ⟨fun c hc => absurd hc List.not_mem_nil, (fun heq => by cases heq),
    fun shard => ?_⟩
  obtain ⟨k, hk⟩ := OsxRingSlot.bitCeil_pow
    (if inboundCapacity = 0 then 1 else inboundCapacity)
  show 0 < OsxRingBuffer.bitCeil _
  rw [hk]
  exact Nat.two_pow_pos k

/-- `start` leaves it so. -/
theorem Ready.start {binds : Bool} (h : Ready s) (hidle : s.owner = .idle)
    (hstep : s.step hash (.start binds) = .ok (s', event)) : Ready s' := by
  have hlaunched := h.launched
  rw [hidle] at hlaunched
  rw [Server.step, Server.start, hidle] at hstep
  dsimp only at hstep
  split at hstep
  · cases hstep
    exact h
  · obtain ⟨⟨s₁, event₁⟩, hsim, heq⟩ := bind_ok hstep
    cases heq
    have hroomy := (h.simulates hsim).1.roomy
    obtain ⟨simulation, event', -, rfl, -⟩ := simulate_ok hsim
    exact ⟨hlaunched, (fun heq => by cases heq), hroomy⟩

variable {inboundCapacity inboundQueueCapacity : Nat}

theorem Reached.step (h : Reached hash inboundCapacity inboundQueueCapacity s)
    {action : Action count} (hallowed : action.Allowed)
    (hstep : s.step hash action = .ok (s', event)) :
    Reached hash inboundCapacity inboundQueueCapacity s' := by
  obtain ⟨binds, actions, log, hactions, hrun⟩ := h
  refine ⟨binds, actions ++ [action], log ++ [event], fun a ha => ?_,
    execute_snoc hrun hstep⟩
  rcases List.mem_append.mp ha with ha | ha
  · exact hactions a ha
  · rw [List.mem_singleton.mp ha]
    exact hallowed

theorem Reached.staged
    (h : Reached hash inboundCapacity inboundQueueCapacity s) : Staged s := by
  obtain ⟨binds, actions, log, hactions, hrun⟩ := h
  exact (run_account (fun a ha => (hactions a ha).no_start) hrun).1

theorem Reached.ready
    (h : Reached hash inboundCapacity inboundQueueCapacity s) : Ready s := by
  obtain ⟨binds, actions, log, hactions, hrun⟩ := h
  obtain ⟨s₁, event, log', hstart, hrest, -⟩ := execute_cons_ok hrun
  have hfirst := (ready_new count inboundCapacity inboundQueueCapacity).start
    rfl hstart
  have hstaged := (start_turn hstart).1
  have hkeeps := execute_trace
    (I := fun actions s _ => (∀ action ∈ actions, action.Allowed) →
      Staged s ∧ Ready s) ?_ (fun _ => ⟨hstaged, hfirst⟩) hrest
  · exact (hkeeps hactions).2
  · intro actions s log action s' event ih hstep hactions
    obtain ⟨hs, hr⟩ := ih (fun a ha => hactions a (List.mem_append_left _ ha))
    have hno := (hactions action
      (List.mem_append_right _ List.mem_cons_self)).no_start
    exact ⟨(step_turn hs hno hstep).1, hr.step hs hno hstep⟩

/-- What the simulation was handed is sound, so it faults on none of it. -/
theorem Reached.sound
    (h : Reached hash inboundCapacity inboundQueueCapacity s)
    (fault : OsxOrderbook.Fault) : ¬ Faulting s.simulation fault := by
  obtain ⟨binds, actions, log, hactions, hrun⟩ := h
  obtain ⟨-, haccount⟩ := run_account
    (fun a ha => (hactions a ha).no_start) hrun
  have hinvoked : ∀ d ∈ invoked log, Sound d.2 := by
    obtain ⟨s₁, event, log', hstart, hrest, rfl⟩ := execute_cons_ok hrun
    have hfirst : invoked [event] = [] := by
      obtain ⟨⟨s₂, event₂⟩, hsim, heq⟩ := bind_ok hstart
      cases heq
      exact simulate_event hsim
    have hkeeps := execute_trace
      (I := fun actions _ log => (∀ action ∈ actions, action.Allowed) →
        ∀ d ∈ invoked log, Sound d.2) ?_
      (fun _ d hd => absurd hd List.not_mem_nil) hrest hactions
    · intro d hd
      have hd : d ∈ invoked ([event] ++ log') := hd
      rw [invoked_append, hfirst] at hd
      exact hkeeps d hd
    · intro actions s log action s' event ih hstep hactions d hd
      rw [invoked_append] at hd
      rcases List.mem_append.mp hd with hd | hd
      · exact ih (fun a ha => hactions a (List.mem_append_left _ ha)) d hd
      · exact step_allowed (hactions action
          (List.mem_append_right _ List.mem_cons_self)) hstep d hd
  obtain ⟨submitted, hsim, hpopped⟩ := haccount.simulated
  have hsubmitted : ∀ message ∈ submissions submitted, Sound message := by
    intro message hmem
    have hpop : message ∈ popped log := by
      rw [hpopped]
      exact List.mem_append_left _ hmem
    have hpush : message ∈ (pushed log).map Prod.snd := by
      rw [haccount.queued]
      exact List.mem_append_left _ hpop
    obtain ⟨d, hd, rfl⟩ := List.mem_map.mp hpush
    have hby : d.2 ∈ invokedBy d.1 log := by
      rw [haccount.handled]
      refine List.mem_append_left _ (List.mem_map_of_mem
        (List.mem_filter.mpr ⟨hd, ?_⟩))
      exact decide_eq_true rfl
    rw [invokedBy_eq] at hby
    obtain ⟨d', hd', heq⟩ := List.mem_map.mp hby
    rw [← heq]
    exact hinvoked d' (List.mem_of_mem_filter hd')
  obtain ⟨-, hat⟩ := OsxSimulation.run_account
    (OsxSimulation.controlled_new inboundCapacity)
    (OsxSimulation.account_new inboundCapacity) hsim
  refine OsxSharding.not_faulting hat (fun shard message hmem => ?_) fault
  exact run_sound hsubmitted hsim shard message hmem

end Allowed

/-! ## `stop` returns -/

/-- **`stop` GETS THROUGH TO `broadcaster_.stop()`.**  Once the listener's flag
    is reset every run takes only so many turns that are not idle; and as long
    as `simulation_.stop()` has not returned some thread has such a turn to
    take, whatever the clients do.  So some run needs nothing from them and
    brings the server down. -/
theorem stop_returns (hash : SymbolId → Nat)
    (count inboundCapacity inboundQueueCapacity : Nat) [NeZero count]
    (binds : Bool) (actions : List (Action count)) (s : Server count)
    (log : List (Event count))
    (hallowed : ∀ action ∈ actions, action.Allowed)
    (hrun : execute (Server.step hash)
      (.new count inboundCapacity inboundQueueCapacity)
      (.start binds :: actions) = .ok (s, log))
    (hshut : 4 ≤ s.owner.stage s.running) :
    (∀ rest t log', (∀ action ∈ rest, action.Allowed) →
      execute (Server.step hash) s rest = .ok (t, log') →
      busySteps (Server.step hash) Server.Idles s rest + t.rank ≤ s.rank ∧
        (t.Stopped ∨ Goes hash t)) ∧
    ∃ rest t log', (∀ action ∈ rest, action.Own) ∧
      execute (Server.step hash) s rest = .ok (t, log') ∧ t.Stopped := by
  have hreached : Reached hash inboundCapacity inboundQueueCapacity s :=
    ⟨binds, actions, log, hallowed, hrun⟩
  have hstep : ∀ (s : Server count) action s' event,
      Reached hash inboundCapacity inboundQueueCapacity s ∧
        4 ≤ s.owner.stage s.running → action.Allowed →
      s.step hash action = .ok (s', event) →
      (Reached hash inboundCapacity inboundQueueCapacity s' ∧
        4 ≤ s'.owner.stage s'.running) ∧
      s'.rank + (if s.Idles action then 0 else 1) ≤ s.rank := by
    rintro s action s' event ⟨hs, hshut⟩ hallowed h
    obtain ⟨hshut', hrank⟩ := shut_step hs.staged hshut hallowed.no_start h
    exact ⟨⟨hs.step hallowed h, hshut'⟩, hrank⟩
  have hgoes : ∀ s : Server count,
      Reached hash inboundCapacity inboundQueueCapacity s ∧
        4 ≤ s.owner.stage s.running → ¬ s.Stopped → Goes hash s :=
    fun s hs hup => progress hs.1.staged hs.1.ready hs.1.sound hs.2 hup
  constructor
  · intro rest t log' hrest hrun'
    obtain ⟨ht, hle⟩ := busySteps_le hstep ⟨hreached, hshut⟩ hrest hrun'
    exact ⟨hle, Decidable.or_iff_not_imp_left.mpr (hgoes t ht)⟩
  · have hprogress : ∀ s : Server count,
        (Reached hash inboundCapacity inboundQueueCapacity s ∧
          4 ≤ s.owner.stage s.running) → ¬ s.Stopped →
        ∃ action s' event, action.Own ∧ s.step hash action = .ok (s', event) ∧
          (Reached hash inboundCapacity inboundQueueCapacity s' ∧
            4 ≤ s'.owner.stage s'.running) ∧ s'.rank < s.rank := by
      intro s hs hup
      obtain ⟨action, hown, hbusy, ⟨s', event⟩, h⟩ := hgoes s hs hup
      obtain ⟨hs', hle⟩ := hstep s action s' event hs hown.allowed h
      rw [if_neg hbusy] at hle
      exact ⟨action, s', event, hown, h, hs', hle⟩
    exact reaches hprogress s ⟨hreached, hshut⟩

/-- Orders are on their way when the listener's flag is reset. -/
theorem stop_returns_two :
    ∃ s log, execute (Server.step id) (.new 2 4 1)
        (.start true :: sampleRun.take 20) = .ok (s, log) ∧ ¬ s.Stopped ∧
      ∃ rest t log', (∀ action ∈ rest, action.Own) ∧
        execute (Server.step id) s rest = .ok (t, log') ∧ t.Stopped := by
  have heval : (execute (Server.step id) (.new 2 4 1)
      (.start true :: sampleRun.take 20)).toOption.map (fun r =>
        decide (4 ≤ r.1.owner.stage r.1.running ∧ ¬ r.1.Stopped))
      = some true := by
    decide +kernel
  cases hrun : execute (Server.step id) (.new 2 4 1)
      (.start true :: sampleRun.take 20) with
  | error e =>
      rw [hrun] at heval
      cases heval
  | ok r =>
      obtain ⟨s, log⟩ := r
      rw [hrun] at heval
      obtain ⟨hshut, hup⟩ := of_decide_eq_true (Option.some.inj heval)
      exact ⟨s, log, rfl, hup, (stop_returns id 2 4 1 true (sampleRun.take 20) s
        log (by decide) hrun hshut).2⟩

end OsxServerRun
