import OsborneX.ListenerProofs
import OsborneX.ServerRunModel
import OsborneX.ShardingProofs

/-! # The server's run — nothing accepted is lost on the way down

    How far `stop` has come says which threads can still be there (`Staged`):
    every thread that may push is joined before the queue is closed, the pump
    is joined before the simulation is stopped, and a shard that has been
    stopped is empty.  So no push is dropped, no order is submitted to a shard
    that will not look again, and when `stop` returns the log of the simulation
    is that of a run of its own with nothing pending. -/

namespace OsxServerRun

open OsxShard OsxThread OsxListener Execution
open OsxSimulation (Simulation Controlled shardForSymbol submissions accepted
  processed)

variable {count : Nat}

/-! ## The simulation comes down empty -/

section Simulation

variable {s s' : Simulation count} {event : OsxSimulation.Event count}

/-- `Simulation::stop` has done with the shard. -/
def Behind (s : Simulation count) (shard : Fin count) : Prop :=
  match s.owner with
  | .idle => s.running = false
  | .starting _ => False
  | .stopping next => shard.val < next
  | .joining shard' | .draining shard' | .applying shard' _ =>
      shard.val < shard'.val

/-- Nothing is pending at the shards that are done with. -/
def Emptied (s : Simulation count) : Prop :=
  ∀ shard, Behind s shard → s.pending shard = []

/-- Only a message handed to it makes a shard's queue longer. -/
theorem moves_empty {shard : Fin count}
    (h : OsxSimulation.Moves s s' event shard) (hnone : accepted [event] = [])
    (hpending : s.pending shard = []) : s'.pending shard = [] := by
  cases event with
  | quiet => exact h.1.trans hpending
  | accepted shard' message => cases hnone
  | processed shard' message published =>
      by_cases heq : shard' = shard
      · have hcons := ((if_pos heq).mp h).1
        rw [hpending] at hcons
        cases hcons
      · exact ((if_neg heq).mp h).1.trans hpending

/-- A step that puts no shard behind keeps those behind empty. -/
theorem Emptied.keeps (he : Emptied s)
    (hmoves : ∀ shard, OsxSimulation.Moves s s' event shard)
    (hnone : accepted [event] = [])
    (hbehind : ∀ shard, Behind s' shard →
      Behind s shard ∨ s.pending shard = []) : Emptied s' := by
  intro shard hshard
  refine moves_empty (hmoves shard) hnone ?_
  rcases hbehind shard hshard with h | h
  · exact he shard h
  · exact h

/-- The owner's turn leaves the flag. -/
theorem ownerStep_running (h : s.ownerStep = .ok (s', event)) :
    s'.running = s.running := by
  cases OsxSimulation.ownerStep_turn h <;> rfl

/-- **THE OWNER LEAVES A SHARD ONLY EMPTY.** -/
theorem ownerStep_emptied (hc : Controlled s) (he : Emptied s)
    (h : s.ownerStep = .ok (s', event)) : Emptied s' := by
  have hmoves := (OsxSimulation.owner_moves hc h).2
  have hnone := (OsxSimulation.owner_hands_nothing h).2
  refine he.keeps hmoves hnone (fun i hi => ?_)
  cases OsxSimulation.ownerStep_turn h with
  | starts next hlt lane howner hstart => exact hi.elim
  | started next hge howner =>
      have hup : s.running = true := hc.flag_at howner
      have hdown : s.running = false := hi
      rw [hup] at hdown
      cases hdown
  | stops next hlt howner hrunning =>
      rw [Behind, howner]
      exact Or.inl hi
  | passes next hlt howner hrunning =>
      -- a lane that is not stopped yet runs
      have hup : (s.lanes ⟨next, hlt⟩).At
          (if next < next then .down else .up) := hc.lane_at howner _
      rw [if_neg (Nat.lt_irrefl next)] at hup
      rw [hup.1] at hrunning
      cases hrunning
  | stopped next hge howner =>
      rw [Behind, howner]
      exact Or.inl (Nat.lt_of_lt_of_le i.isLt hge)
  | joinsNone shard howner habsent =>
      rw [Behind, howner]
      exact Or.inl hi
  | joins shard howner hfinished =>
      rw [Behind, howner]
      exact Or.inl hi
  | drained shard howner hread =>
      have hdown : (s.lanes shard).At
          (if shard.val ≤ shard.val then .down else .up) :=
        hc.lane_at howner _
      rw [if_pos (Nat.le_refl _)] at hdown
      rw [Behind, howner]
      have hlt : i.val < shard.val + 1 := hi
      by_cases heq : i = shard
      · -- its worker is gone, and its buffer was read to the end
        subst heq
        refine Or.inr ?_
        rw [Simulation.pending, hdown.2, howner,
          OsxSimulation.Inbound.tryRead_none hread]
        rfl
      · have hne : i.val ≠ shard.val := fun h => heq (Fin.ext h)
        exact Or.inl (by omega)
  | reads shard message inbound howner hread =>
      rw [Behind, howner]
      exact Or.inl hi
  | applies shard message lane published howner hprocess =>
      rw [Behind, howner]
      exact Or.inl hi

/-- A step that leaves owner and flag where they are puts no shard behind. -/
theorem behind_congr (howner : s'.owner = s.owner)
    (hrunning : s'.running = s.running) (shard : Fin count) :
    Behind s' shard ↔ Behind s shard := by
  rw [Behind, Behind, howner, hrunning]

/-- While the simulation is up no shard is behind. -/
theorem not_behind (howner : s.owner = .idle) (hrunning : s.running = true)
    (shard : Fin count) : ¬ Behind s shard := by
  rw [Behind, howner]
  intro h
  rw [hrunning] at h
  cases h

variable {hash : SymbolId → Nat} [NeZero count]

theorem start_place (howner : s.owner = .idle) (hrunning : s.running = false)
    (h : s.step hash .start = .ok (s', event)) :
    s' = { s with running := true, frozen := true, owner := .starting 0 } ∧
      event = .quiet := by
  obtain ⟨s₁, hstart, heq⟩ := map_ok h
  cases heq
  rw [Simulation.start, howner, hrunning] at hstart
  cases hstart
  exact ⟨rfl, rfl⟩

theorem stop_place (howner : s.owner = .idle) (hrunning : s.running = true)
    (h : s.step hash .stop = .ok (s', event)) :
    s' = { s with running := false, owner := .stopping 0 } ∧
      event = .quiet := by
  obtain ⟨s₁, hstop, heq⟩ := map_ok h
  cases heq
  rw [Simulation.stop, howner, hrunning] at hstop
  cases hstop
  exact ⟨rfl, rfl⟩

theorem submit_place {message : OrderMessage} {now : Nat}
    (h : s.step hash (.submit message now) = .ok (s', event)) :
    s'.owner = s.owner ∧ s'.running = s.running := by
  obtain ⟨stamped, inbound, -, -, -, rfl⟩ := OsxSimulation.submit_ok h
  exact ⟨rfl, rfl⟩

theorem worker_place {shard : Fin count}
    (h : s.step hash (.worker shard) = .ok (s', event)) :
    s'.owner = s.owner ∧ s'.running = s.running := by
  obtain ⟨⟨lane, done⟩, -, heq⟩ := bind_ok h
  cases heq
  exact ⟨rfl, rfl⟩

end Simulation

/-! ## Stages -/

/-- How far the server has come: 0 and 1 are the places of `start`, at 2 it is
    up, 3 to 9 are the places of `stop`, and at 10 it is down. -/
def Owner.stage (running : Bool) : Owner → Nat
  | .startingSimulation _ => 0
  | .startingListener _ => 1
  | .idle => if running then 2 else 10
  | .stoppingListener => 3
  | .joiningAccept => 4
  | .joiningConnections _ => 5
  | .stoppingPump => 6
  | .joiningPump => 7
  | .stoppingSimulation => 8
  | .drainingSimulation => 9

/-! ### The simulation -/

/-- The simulation at a stage. -/
structure SimulationAt (s : Simulation count) (stage : Nat) : Prop where
  controlled : Controlled s
  emptied : Emptied s
  rising : stage = 0 → s.running = true
  up : 1 ≤ stage → stage ≤ 8 → s.running = true ∧ s.owner = .idle
  falling : stage = 9 → s.running = false
  down : 10 ≤ stage → s.running = false ∧ s.owner = .idle

section SimulationAt

variable {s s' : Simulation count} {event : OsxSimulation.Event count}
  {stage stage' : Nat}

/-- The simulation stays up while the other components come and go. -/
theorem SimulationAt.goes_on (h : SimulationAt s stage)
    (hstage : 1 ≤ stage ∧ stage ≤ 8) (hstage' : 1 ≤ stage' ∧ stage' ≤ 8) :
    SimulationAt s stage' where
  controlled := h.controlled
  emptied := h.emptied
  rising := fun _ => by omega
  up := fun _ _ => h.up hstage.1 hstage.2
  falling := fun _ => by omega
  down := fun _ => by omega

/-- `Simulation::start` has returned. -/
theorem SimulationAt.risen (h : SimulationAt s 0) (howner : s.owner = .idle) :
    SimulationAt s 1 where
  controlled := h.controlled
  emptied := h.emptied
  rising := fun _ => by omega
  up := fun _ _ => ⟨h.rising rfl, howner⟩
  falling := fun _ => by omega
  down := fun _ => by omega

/-- `Simulation::stop` has returned. -/
theorem SimulationAt.fallen (h : SimulationAt s 9) (howner : s.owner = .idle) :
    SimulationAt s 10 where
  controlled := h.controlled
  emptied := h.emptied
  rising := fun _ => by omega
  up := fun _ _ => by omega
  falling := fun _ => by omega
  down := fun _ => ⟨h.falling rfl, howner⟩

/-- The owner goes on in `Simulation::start` or `Simulation::stop`. -/
theorem SimulationAt.owner (h : SimulationAt s stage)
    (hstage : stage = 0 ∨ stage = 9) (hstep : s.ownerStep = .ok (s', event)) :
    SimulationAt s' stage where
  controlled := (OsxSimulation.owner_moves h.controlled hstep).1
  emptied := ownerStep_emptied h.controlled h.emptied hstep
  rising := fun h0 => (ownerStep_running hstep).trans (h.rising h0)
  up := fun _ _ => by omega
  falling := fun h9 => (ownerStep_running hstep).trans (h.falling h9)
  down := fun _ => by omega

variable {hash : SymbolId → Nat} [NeZero count]

/-- A step of another thread, with no message handed out or while all shards
    will still look for one. -/
theorem SimulationAt.beside {action : OsxSimulation.Action count}
    (h : SimulationAt s stage) (hstep : s.step hash action = .ok (s', event))
    (hplace : s'.owner = s.owner ∧ s'.running = s.running)
    (hhands : submissions [action] = [] ∨ 1 ≤ stage ∧ stage ≤ 8) :
    SimulationAt s' stage where
  controlled := (OsxSimulation.step_moves h.controlled hstep).1
  emptied := by
    obtain ⟨howner, hrunning⟩ := hplace
    rcases hhands with hnone | ⟨hlo, hhi⟩
    · refine h.emptied.keeps (OsxSimulation.step_moves h.controlled hstep).2
        (OsxSimulation.step_hands_nothing hnone hstep).2 (fun shard hshard => ?_)
      exact Or.inl ((behind_congr howner hrunning shard).mp hshard)
    · obtain ⟨hup, hidle⟩ := h.up hlo hhi
      intro shard hshard
      exact absurd ((behind_congr howner hrunning shard).mp hshard)
        (not_behind hidle hup shard)
  rising := fun h0 => hplace.2.trans (h.rising h0)
  up := fun hlo hhi => by
    rw [hplace.1, hplace.2]
    exact h.up hlo hhi
  falling := fun h9 => hplace.2.trans (h.falling h9)
  down := fun h10 => by
    rw [hplace.1, hplace.2]
    exact h.down h10

/-- `Simulation::stop` is called. -/
theorem SimulationAt.stop (h : SimulationAt s 8)
    (hstep : s.step hash .stop = .ok (s', event)) : SimulationAt s' 9 := by
  obtain ⟨hup, hidle⟩ := h.up (by omega) (by omega)
  have hcontrolled := (OsxSimulation.step_moves h.controlled hstep).1
  obtain ⟨rfl, -⟩ := stop_place hidle hup hstep
  exact {
    controlled := hcontrolled
    emptied := fun shard hshard => absurd hshard (Nat.not_lt_zero _)
    rising := fun _ => by omega
    up := fun _ _ => by omega
    falling := fun _ => rfl
    down := fun _ => by omega }

/-- A new simulation is started. -/
theorem SimulationAt.start {inboundCapacity : Nat}
    (hstep : (Simulation.new count inboundCapacity).step hash .start
      = .ok (s', event)) : SimulationAt s' 0 := by
  have hcontrolled := (OsxSimulation.step_moves
    (OsxSimulation.controlled_new inboundCapacity) hstep).1
  obtain ⟨rfl, -⟩ := start_place rfl rfl hstep
  exact {
    controlled := hcontrolled
    emptied := fun shard hshard => hshard.elim
    rising := fun _ => rfl
    up := fun _ _ => by omega
    falling := fun _ => by omega
    down := fun _ => by omega }

end SimulationAt

/-! ### The pump and the queue -/

/-- The pump and its queue at a stage. -/
structure PumpAt (pump : Pump) (queue : MpscQueue OrderMessage) (stage : Nat) :
    Prop where
  closed : queue.closed = true → 7 ≤ stage
  working : pump ≠ .absent → 1 ≤ stage ∧ stage ≤ 7
  absent : pump = .absent → stage = 0 ∨ 8 ≤ stage
  finished : pump = .finished → queue.closed = true
  emptied : pump = .absent ∨ pump = .finished → queue.items = []

section PumpAt

variable {pump : Pump} {queue queue' : MpscQueue OrderMessage}
  {stage stage' : Nat}

/-- The pump stays while the other components come and go. -/
theorem PumpAt.goes_on (h : PumpAt pump queue stage) (hle : stage ≤ stage')
    (hthere : 1 ≤ stage ∧ stage' ≤ 7 ∨ 8 ≤ stage) :
    PumpAt pump queue stage' where
  closed := fun hclosed => Nat.le_trans (h.closed hclosed) hle
  working := fun hpump => by
    have := h.working hpump
    omega
  absent := fun hpump => by
    have := h.absent hpump
    omega
  finished := h.finished
  emptied := h.emptied

/-- `pump_.start()`. -/
theorem PumpAt.launch (h : PumpAt .absent queue 0) :
    PumpAt .popping queue 1 where
  closed := fun hclosed => absurd (h.closed hclosed) (by omega)
  working := fun _ => by omega
  absent := fun hpump => (by cases hpump)
  finished := fun hpump => (by cases hpump)
  emptied := fun hpump => (by rcases hpump with hpump | hpump <;> cases hpump)

/-- `inbound_.close()`. -/
theorem PumpAt.close (h : PumpAt pump queue 6) : PumpAt pump queue.close 7 where
  closed := fun _ => Nat.le_refl _
  working := fun _ => by omega
  absent := fun hpump => absurd (h.absent hpump) (by omega)
  finished := fun _ => rfl
  emptied := h.emptied

/-- The pump is joined. -/
theorem PumpAt.joined (h : PumpAt pump queue 7)
    (hpump : pump = .absent ∨ pump = .finished) :
    PumpAt .absent queue 8 where
  closed := fun _ => by omega
  working := fun hno => absurd rfl hno
  absent := fun _ => by omega
  finished := fun hno => (by cases hno)
  emptied := fun _ => h.emptied hpump

/-- A push while the pump is at work and the queue open. -/
theorem PumpAt.push (h : PumpAt pump queue stage)
    (hstage : 2 ≤ stage ∧ stage ≤ 5) (hopen : queue'.closed = false) :
    PumpAt pump queue' stage := by
  have hthere : pump ≠ .absent := fun hpump =>
    absurd (h.absent hpump) (by omega)
  have hworks : pump ≠ .finished := fun hpump =>
    absurd (h.closed (h.finished hpump)) (by omega)
  exact {
    closed := fun hclosed => (by rw [hopen] at hclosed; cases hclosed)
    working := h.working
    absent := fun hpump => absurd hpump hthere
    finished := fun hpump => absurd hpump hworks
    emptied := fun hpump => (by
      rcases hpump with hpump | hpump
      · exact absurd hpump hthere
      · exact absurd hpump hworks) }

/-- A turn of the pump, after which it is still in its loop. -/
theorem PumpAt.turn {pump' : Pump} (h : PumpAt pump queue stage)
    (hthere : pump ≠ .absent) (hclosed : queue'.closed = queue.closed)
    (hthere' : pump' ≠ .absent) (hworks : pump' ≠ .finished) :
    PumpAt pump' queue' stage where
  closed := fun h' => h.closed (hclosed.symm.trans h')
  working := fun _ => h.working hthere
  absent := fun hpump => absurd hpump hthere'
  finished := fun hpump => absurd hpump hworks
  emptied := fun hpump => (by
    rcases hpump with hpump | hpump
    · exact absurd hpump hthere'
    · exact absurd hpump hworks)

/-- The pump found the queue closed and empty. -/
theorem PumpAt.ended (h : PumpAt pump queue stage) (hthere : pump ≠ .absent)
    (hitems : queue.items = []) (hclosed : queue.closed = true) :
    PumpAt .finished queue stage where
  closed := h.closed
  working := fun _ => h.working hthere
  absent := fun hpump => (by cases hpump)
  finished := fun _ => hclosed
  emptied := fun _ => hitems

end PumpAt

/-! ### The listener -/

/-- The thread may still push. -/
def ConnectionThread.Live : ConnectionThread → Prop
  | .absent | .finished => False
  | _ => True

theorem Listener.live_at {l : Listener} {id : ThreadId}
    {thread : ConnectionThread} (h : l.threads id = thread)
    (hlive : thread.Live) : (l.threads id).Live := by
  rw [h]
  exact hlive

/-- What the owner has swapped out and not joined. -/
def Owner.unjoined : Owner → List Connection
  | .joiningConnections connections => connections
  | _ => []

/-- The listener at a stage: every thread that may still push is in the vector,
    or in the owner's hands to be joined. -/
structure ListenerAt (l : Listener) (unjoined : List Connection)
    (stage : Nat) : Prop where
  accepting : l.acceptThread ≠ .absent → 2 ≤ stage ∧ stage ≤ 4
  connected : l.connections ≠ [] → 2 ≤ stage ∧ stage ≤ 4
  joining : unjoined ≠ [] → stage = 5
  listening : l.running = true ↔ stage = 2 ∨ stage = 3
  live : ∀ id, (l.threads id).Live →
    ∃ c ∈ l.connections ++ unjoined, c.thread = some id
  fresh : ∀ id, l.next ≤ id → l.threads id = .absent
  own : ∃ started : List Accepted,
    l.connections = started.map Accepted.connection ∧
    ∀ a ∈ started, a.finished = a.thread

section ListenerAt

variable {l : Listener} {unjoined : List Connection} {stage stage' : Nat}

/-- Threads that may push are there from the first client on until the last is
    joined. -/
theorem ListenerAt.live_stage (h : ListenerAt l unjoined stage) {id : ThreadId}
    (hlive : (l.threads id).Live) : 2 ≤ stage ∧ stage ≤ 5 := by
  obtain ⟨c, hc, -⟩ := h.live id hlive
  rcases List.mem_append.mp hc with hc | hc
  · have := h.connected (List.ne_nil_of_mem hc)
    omega
  · have := h.joining (List.ne_nil_of_mem hc)
    omega

/-- The listener stays as it is while the other components come and go. -/
theorem ListenerAt.goes_on (h : ListenerAt l [] stage)
    (hstage : stage ≤ 1 ∨ 5 ≤ stage) (hstage' : stage' ≤ 1 ∨ 5 ≤ stage') :
    ListenerAt l [] stage' where
  accepting := fun hthere => by
    have := h.accepting hthere
    omega
  connected := fun hthere => by
    have := h.connected hthere
    omega
  joining := fun hno => absurd rfl hno
  listening := by
    rw [h.listening]
    omega
  live := h.live
  fresh := h.fresh
  own := h.own

/-- A thread goes on from one place to another. -/
theorem ListenerAt.turn (h : ListenerAt l unjoined stage) {id : ThreadId}
    {thread : ConnectionThread} (hlive : (l.threads id).Live) :
    ListenerAt (l.setThread id thread) unjoined stage where
  accepting := h.accepting
  connected := h.connected
  joining := h.joining
  listening := h.listening
  live := fun id' hlive' => by
    by_cases heq : id' = id
    · subst heq
      exact h.live id' hlive
    · rw [Listener.setThread_other l thread heq] at hlive'
      exact h.live id' hlive'
  fresh := fun id' hle => by
    have hne : id' ≠ id := by
      rintro rfl
      rw [h.fresh id' hle] at hlive
      exact hlive
    rw [Listener.setThread_other l thread hne]
    exact h.fresh id' hle
  own := h.own

/-- The accept thread's turn without a client, or its last. -/
theorem ListenerAt.acceptTurn (h : ListenerAt l unjoined stage)
    (hthere : l.acceptThread ≠ .absent) (thread : AcceptThread) :
    ListenerAt { l with acceptThread := thread } unjoined stage where
  accepting := fun _ => h.accepting hthere
  connected := h.connected
  joining := h.joining
  listening := h.listening
  live := h.live
  fresh := h.fresh
  own := h.own

/-- **A CLIENT IS ACCEPTED**: reaping drops only threads that push no more, and
    the new thread is in the vector. -/
theorem ListenerAt.accept {l' : Listener} (h : ListenerAt l unjoined stage)
    (hthere : l.acceptThread ≠ .absent) (haccept : l.accept = .ok l') :
    ListenerAt l' unjoined stage := by
  have hnone : unjoined = [] := by
    by_contra hsome
    have := h.joining hsome
    have := h.accepting hthere
    omega
  subst hnone
  obtain ⟨started, hstarted, hsame⟩ := h.own
  rw [Listener.accept, hstarted] at haccept
  cases hreap : reapFinishedConnections l.flags
      (started.map Accepted.connection) with
  | error fault =>
      rw [hreap] at haccept
      cases haccept
  | ok r =>
      obtain ⟨kept, joined⟩ := r
      rw [hreap] at haccept
      cases haccept
      rw [reap_ok hreap]
      have hstage := h.accepting hthere
      exact {
        accepting := fun _ => hstage
        connected := fun _ => hstage
        joining := h.joining
        listening := h.listening
        live := fun id hlive => by
          by_cases heq : id = l.next
          · subst heq
            exact ⟨_, List.mem_append_left _
              (List.mem_append_right _ List.mem_cons_self), rfl⟩
          · have hlive : ((l.setThread l.next .loading).threads id).Live := hlive
            rw [Listener.setThread_other l .loading heq] at hlive
            obtain ⟨c, hc, hthread⟩ := h.live id hlive
            rw [List.append_nil, hstarted] at hc
            obtain ⟨a, ha, rfl⟩ := List.mem_map.mp hc
            obtain rfl := Option.some.inj hthread
            -- its flag is its own, so it is not set
            have hkept : (!l.flags a.finished) = true := by
              rw [hsame a ha, Listener.flags, Bool.not_eq_true',
                decide_eq_false_iff_not]
              intro hfinished
              rw [hfinished] at hlive
              exact hlive
            exact ⟨a.connection, List.mem_append_left _ (List.mem_append_left _
              (List.mem_map_of_mem (List.mem_filter.mpr ⟨ha, hkept⟩))), rfl⟩
        fresh := fun id hle => by
          have hle : l.next + 1 ≤ id := hle
          have hne : id ≠ l.next := Nat.ne_of_gt hle
          refine (Listener.setThread_other l .loading hne).trans ?_
          exact h.fresh id (Nat.le_of_succ_le hle)
        own := by
          refine ⟨started.filter (fun a => !l.flags a.finished)
            ++ [⟨l.next, l.next⟩], ?_, fun a ha => ?_⟩
          · rw [List.map_append]
            rfl
          rcases List.mem_append.mp ha with ha | ha
          · exact hsame a (List.mem_of_mem_filter ha)
          · rw [List.mem_singleton.mp ha] }

/-- `listener_.start()`. -/
theorem ListenerAt.listen (h : ListenerAt l [] 1) :
    ListenerAt { l with running := true, acceptThread := .loading } [] 2 where
  accepting := fun _ => by omega
  connected := fun _ => by omega
  joining := fun hno => absurd rfl hno
  listening := iff_of_true rfl (Or.inl rfl)
  live := h.live
  fresh := h.fresh
  own := h.own

/-- `stop` begins. -/
theorem ListenerAt.stopping (h : ListenerAt l [] 2) : ListenerAt l [] 3 where
  accepting := fun _ => by omega
  connected := fun _ => by omega
  joining := fun hno => absurd rfl hno
  listening := iff_of_true (h.listening.mpr (Or.inl rfl)) (Or.inr rfl)
  live := h.live
  fresh := h.fresh
  own := h.own

/-- The listener's flag is reset. -/
theorem ListenerAt.silence (h : ListenerAt l [] 3) :
    ListenerAt { l with running := false } [] 4 where
  accepting := fun _ => by omega
  connected := fun _ => by omega
  joining := fun hno => absurd rfl hno
  listening := iff_of_false Bool.false_ne_true (by omega)
  live := h.live
  fresh := h.fresh
  own := h.own

/-- The accept thread is joined, and the vector swapped out. -/
theorem ListenerAt.swap (h : ListenerAt l [] 4) :
    ListenerAt { l with acceptThread := .absent, connections := [] }
      l.connections 5 where
  accepting := fun hno => absurd rfl hno
  connected := fun hno => absurd rfl hno
  joining := fun _ => rfl
  listening := by
    have := h.listening
    simp_all
  live := fun id hlive => by
    obtain ⟨c, hc, hthread⟩ := h.live id hlive
    rw [List.append_nil] at hc
    exact ⟨c, hc, hthread⟩
  fresh := h.fresh
  own := ⟨[], rfl, fun _ hmem => absurd hmem List.not_mem_nil⟩

/-- A connection is joined: its thread pushes no more. -/
theorem ListenerAt.join {c : Connection}
    (h : ListenerAt l (c :: unjoined) stage)
    (hdone : ∀ id, c.thread = some id → ¬ (l.threads id).Live) :
    ListenerAt l unjoined stage where
  accepting := h.accepting
  connected := h.connected
  joining := fun _ => h.joining (List.cons_ne_nil _ _)
  listening := h.listening
  live := fun id hlive => by
    obtain ⟨c', hc', hthread⟩ := h.live id hlive
    rcases List.mem_append.mp hc' with hc' | hc'
    · exact ⟨c', List.mem_append_left _ hc', hthread⟩
    · rcases List.mem_cons.mp hc' with rfl | hc'
      · exact absurd hlive (hdone id hthread)
      · exact ⟨c', List.mem_append_right _ hc', hthread⟩
  fresh := h.fresh
  own := h.own

end ListenerAt

end OsxServerRun
