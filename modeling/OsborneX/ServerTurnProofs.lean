import OsborneX.ServerStagesProofs

/-! # The server as a pipeline — every step moves one order one place on

    Without its control the server is a pipeline: each connection's thread, the
    queue, the pump and the shards hold the orders that were handed to them, and
    a turn moves one order one place on, or none (`Turn`).  Every step of a
    staged server other than `start` is such a turn, and leaves it staged
    (`step_turn`). -/

namespace OsxServerRun

open OsxShard OsxThread OsxListener Execution
open OsxSimulation (Simulation submissions)

variable {count : Nat}

/-! ## The pipeline -/

/-- Where the orders are. -/
structure Pipeline (count : Nat) where
  threads : ThreadId → List OrderMessage
  queue : List OrderMessage
  pump : List OrderMessage
  simulation : Simulation count

/-- The order a connection's thread is about to push. -/
def ConnectionThread.held : ConnectionThread → List OrderMessage
  | .handling message => [message]
  | _ => []

/-- The order the pump is about to submit. -/
def Pump.held : Pump → List OrderMessage
  | .submitting message => [message]
  | _ => []

def Server.pipeline (s : Server count) : Pipeline count where
  threads := ConnectionThread.held ∘ s.listener.threads
  queue := s.inboundQueue.items
  pump := s.pump.held
  simulation := s.simulation

/-- One order moves one place on, or the simulation takes a turn of its own. -/
inductive Turn (hash : SymbolId → Nat) [NeZero count] :
    Pipeline count → Pipeline count → Event count → Prop where
  | quiet (p : Pipeline count) : Turn hash p p .quiet
  | invoked (p : Pipeline count) (id : ThreadId) (message : OrderMessage)
      (hthread : p.threads id = []) :
      Turn hash p
        { p with threads := Function.update p.threads id [message] }
        (.invoked id message)
  | pushed (p : Pipeline count) (id : ThreadId) (message : OrderMessage)
      (hthread : p.threads id = [message]) :
      Turn hash p
        { p with
          threads := Function.update p.threads id []
          queue := p.queue ++ [message] }
        (.pushed id message)
  | popped (p : Pipeline count) (message : OrderMessage)
      (queue : List OrderMessage) (hqueue : p.queue = message :: queue)
      (hpump : p.pump = []) :
      Turn hash p { p with queue := queue, pump := [message] }
        (.popped message)
  | submitted (p : Pipeline count) (message : OrderMessage) (now : Nat)
      (simulation : Simulation count) (event : OsxSimulation.Event count)
      (hpump : p.pump = [message])
      (hstep : p.simulation.step hash (.submit message now)
        = .ok (simulation, event)) :
      Turn hash p { p with pump := [], simulation := simulation }
        (.simulation event)
  | simulated (p : Pipeline count) (action : OsxSimulation.Action count)
      (simulation : Simulation count) (event : OsxSimulation.Event count)
      (hnone : submissions [action] = [])
      (hstep : p.simulation.step hash action = .ok (simulation, event)) :
      Turn hash p { p with simulation := simulation } (.simulation event)

section Pipeline

variable {s : Server count} {id : ThreadId} {thread : ConnectionThread}

@[simp] theorem pipeline_threads (s : Server count) (id : ThreadId) :
    s.pipeline.threads id = (s.listener.threads id).held := rfl

@[simp] theorem pipeline_pumped (s : Server count) :
    s.pipeline.pump = s.pump.held := rfl

theorem pipeline_held (h : s.listener.threads id = thread) :
    s.pipeline.threads id = thread.held := by
  rw [pipeline_threads, h]

theorem pipeline_setThread :
    { s with listener := s.listener.setThread id thread }.pipeline
      = { s.pipeline with
          threads := Function.update s.pipeline.threads id thread.held } := by
  simp only [Server.pipeline, Listener.setThread, Function.comp_update]

/-- A thread that goes on with the same orders in its hands. -/
theorem pipeline_thread (h : thread.held = s.pipeline.threads id) :
    { s with listener := s.listener.setThread id thread }.pipeline
      = s.pipeline := by
  rw [pipeline_setThread, h, Function.update_eq_self]

/-- A pump with the same orders in its hands. -/
theorem pipeline_pump {pump : Pump} {owner : Owner}
    (h : pump.held = s.pump.held) :
    { s with pump := pump, owner := owner }.pipeline = s.pipeline := by
  rw [Server.pipeline, Server.pipeline, h]

/-- A client is accepted, and its thread holds nothing yet. -/
theorem pipeline_accept {l' : Listener}
    (hfresh : ∀ id, s.listener.next ≤ id → s.listener.threads id = .absent)
    (h : s.listener.accept = .ok l') :
    { s with listener := l' }.pipeline = s.pipeline := by
  have hheld : ConnectionThread.loading.held
      = s.pipeline.threads s.listener.next := by
    rw [pipeline_threads, hfresh _ (Nat.le_refl _)]
    rfl
  rw [Listener.accept] at h
  split at h
  · cases h
  · cases h
    exact pipeline_thread hheld

end Pipeline

/-! ## Every step is a turn -/

/-- The server at a stage, with these connections to be joined. -/
structure StagedAt (s : Server count) (unjoined : List Connection)
    (stage : Nat) : Prop where
  listener : ListenerAt s.listener unjoined stage
  pump : PumpAt s.pump s.inboundQueue stage
  simulation : SimulationAt s.simulation stage
  rising : stage ≤ 2 → s.running = true

/-- Every component is where the owner's place says. -/
def Staged (s : Server count) : Prop :=
  StagedAt s s.owner.unjoined (s.owner.stage s.running)

theorem Staged.at_place {s : Server count} {owner : Owner} (h : Staged s)
    (howner : s.owner = owner) :
    StagedAt s owner.unjoined (owner.stage s.running) := by
  rw [← howner]
  exact h

theorem Staged.of_place {s : Server count} (unjoined : List Connection)
    (stage : Nat) (h : StagedAt s unjoined stage)
    (hunjoined : s.owner.unjoined = unjoined)
    (hstage : s.owner.stage s.running = stage) : Staged s := by
  subst hunjoined hstage
  exact h

/-- While the pump and the simulation are up only the listener moves, and the
    owner with it. -/
theorem StagedAt.listener_moves {s : Server count}
    {unjoined unjoined' : List Connection}
    {stage stage' : Nat} {listener : Listener} {owner : Owner}
    (h : StagedAt s unjoined stage) (hlow : 1 ≤ stage) (hle : stage ≤ stage')
    (hhigh : stage' ≤ 7) (hlistener : ListenerAt listener unjoined' stage')
    (hrising : stage' ≤ 2 → s.running = true) :
    StagedAt { s with listener := listener, owner := owner } unjoined'
      stage' where
  listener := hlistener
  pump := h.pump.goes_on hle (Or.inl ⟨hlow, hhigh⟩)
  simulation := h.simulation.goes_on (by omega) (by omega)
  rising := hrising

section Turn

variable {hash : SymbolId → Nat} [NeZero count] {s s' : Server count}
  {event : Event count}

theorem Turn.stays {p p' : Pipeline count} (h : p' = p) :
    Turn hash p p' .quiet := by
  rw [h]
  exact .quiet p

theorem simulate_ok {action : OsxSimulation.Action count}
    (h : s.simulate hash action = .ok (s', event)) :
    ∃ simulation event', s.simulation.step hash action
        = .ok (simulation, event') ∧
      s' = { s with simulation := simulation } ∧
      event = .simulation event' := by
  rw [Server.simulate] at h
  cases hstep : s.simulation.step hash action with
  | error fault =>
      rw [hstep] at h
      cases h
  | ok r =>
      rw [hstep] at h
      cases h
      exact ⟨r.1, r.2, rfl, rfl, rfl⟩

/-- The simulation's owner may take its turns while the server starts it or
    stops it. -/
theorem Staged.simulates (h : Staged s)
    (hstage : s.owner.stage s.running = 0 ∨ s.owner.stage s.running = 9)
    (hstep : s.simulate hash .owner = .ok (s', event)) :
    Staged s' ∧ Turn hash s.pipeline s'.pipeline event := by
  obtain ⟨simulation, event', hsim, rfl, rfl⟩ := simulate_ok hstep
  exact ⟨⟨h.listener, h.pump, h.simulation.owner hstage hsim, h.rising⟩,
    .simulated _ .owner _ _ rfl hsim⟩

/-- **THE OWNER MOVES NO ORDER**, and each of its turns is one stage or less. -/
theorem ownerStep_turn (h : Staged s)
    (hstep : s.ownerStep hash = .ok (s', event)) :
    Staged s' ∧ Turn hash s.pipeline s'.pipeline event := by
  rw [Server.ownerStep] at hstep
  cases howner : s.owner with
  | idle =>
      rw [howner] at hstep
      cases hstep
  | startingSimulation binds =>
      have ha : StagedAt s [] 0 := h.at_place howner
      rw [howner] at hstep
      dsimp only at hstep
      split at hstep
      · rename_i hidle
        split at hstep
        · rename_i hpump
          cases hstep
          have hlaunch := ha.pump
          rw [hpump] at hlaunch
          refine ⟨Staged.of_place [] 1 {
            listener := ha.listener.goes_on (Or.inl (by omega)) (Or.inl (by omega))
            pump := hlaunch.launch
            simulation := ha.simulation.risen hidle
            rising := fun _ => ha.rising (by omega) } rfl rfl, ?_⟩
          exact .stays (pipeline_pump (by rw [hpump]; rfl))
        · cases hstep
      · exact h.simulates (by rw [howner]; exact Or.inl rfl) hstep
  | startingListener binds =>
      have ha : StagedAt s [] 1 := h.at_place howner
      have hrunning := ha.rising (by omega)
      rw [howner] at hstep
      dsimp only at hstep
      split at hstep
      · rename_i hlistening
        have := ha.listener.listening.mp hlistening
        omega
      · split at hstep
        · split at hstep
          · cases hstep
            exact ⟨Staged.of_place [] 2 (ha.listener_moves (by omega)
              (by omega) (by omega) ha.listener.listen (fun _ => hrunning)) rfl
              (if_pos hrunning), .quiet _⟩
          · cases hstep
        -- the port did not bind: the pump is stopped next
        · cases hstep
          exact ⟨Staged.of_place [] 6 (ha.listener_moves (by omega) (by omega)
            (by omega) (ha.listener.goes_on (by omega) (by omega))
            (fun _ => by omega)) rfl rfl, .quiet _⟩
  | stoppingListener =>
      have ha : StagedAt s [] 3 := h.at_place howner
      rw [howner] at hstep
      dsimp only at hstep
      have hlistening := ha.listener.listening.mpr (by omega)
      rw [if_pos hlistening] at hstep
      cases hstep
      exact ⟨Staged.of_place [] 4 (ha.listener_moves (by omega) (by omega)
        (by omega) ha.listener.silence (fun _ => by omega)) rfl rfl, .quiet _⟩
  -- the connections are swapped out under the lock and joined outside it
  | joiningAccept =>
      have ha : StagedAt s [] 4 := h.at_place howner
      have hswap : StagedAt { s with
          listener := { s.listener with
            acceptThread := .absent, connections := [] }
          owner := .joiningConnections s.listener.connections }
          s.listener.connections 5 :=
        ha.listener_moves (by omega) (by omega) (by omega) ha.listener.swap
          (fun _ => by omega)
      rw [howner] at hstep
      dsimp only at hstep
      split at hstep
      · cases hstep
        exact ⟨Staged.of_place _ 5 hswap rfl rfl, .quiet _⟩
      · cases hstep
        exact ⟨Staged.of_place _ 5 hswap rfl rfl, .quiet _⟩
      · cases hstep
  | joiningConnections connections =>
      have ha : StagedAt s connections 5 := h.at_place howner
      have hnext : ∀ later,
          ListenerAt s.listener later 5 →
          StagedAt { s with owner := .joiningConnections later } later 5 :=
        fun later hl => ⟨hl, ha.pump, ha.simulation, ha.rising⟩
      rw [howner] at hstep
      cases connections with
      | nil =>
          cases hstep
          exact ⟨Staged.of_place [] 6 (ha.listener_moves (by omega) (by omega)
            (by omega) (ha.listener.goes_on (by omega) (by omega))
            (fun _ => by omega)) rfl rfl, .quiet _⟩
      | cons c connections =>
          dsimp only at hstep
          split at hstep
          · rename_i hnone
            cases hstep
            refine ⟨Staged.of_place connections 5 (hnext connections
              (ha.listener.join (fun id hid => ?_))) rfl rfl, .quiet _⟩
            rw [hnone] at hid
            cases hid
          · rename_i id hsome
            split at hstep
            · rename_i hfinished
              cases hstep
              refine ⟨Staged.of_place connections 5 (hnext connections
                (ha.listener.join (fun id' hid => ?_))) rfl rfl, .quiet _⟩
              obtain rfl := Option.some.inj (hsome.symm.trans hid)
              rw [hfinished]
              exact not_false
            · cases hstep
  | stoppingPump =>
      have ha : StagedAt s [] 6 := h.at_place howner
      rw [howner] at hstep
      cases hstep
      exact ⟨Staged.of_place [] 7 {
        listener := ha.listener.goes_on (by omega) (by omega)
        pump := ha.pump.close
        simulation := ha.simulation.goes_on (by omega) (by omega)
        rising := fun _ => by omega } rfl rfl, .quiet _⟩
  | joiningPump =>
      have ha : StagedAt s [] 7 := h.at_place howner
      have hjoined : s.pump = .absent ∨ s.pump = .finished →
          StagedAt { s with pump := .absent, owner := .stoppingSimulation }
            [] 8 := fun hpump => {
        listener := ha.listener.goes_on (by omega) (by omega)
        pump := ha.pump.joined hpump
        simulation := ha.simulation.goes_on (by omega) (by omega)
        rising := fun _ => by omega }
      rw [howner] at hstep
      dsimp only at hstep
      split at hstep
      · rename_i hpump
        cases hstep
        refine ⟨Staged.of_place [] 8 (hjoined (Or.inl hpump)) rfl rfl, ?_⟩
        exact .stays (pipeline_pump (by rw [hpump]))
      · rename_i hpump
        cases hstep
        refine ⟨Staged.of_place [] 8 (hjoined (Or.inr hpump)) rfl rfl, ?_⟩
        exact .stays (pipeline_pump (by rw [hpump]; rfl))
      · cases hstep
  | stoppingSimulation =>
      have ha : StagedAt s [] 8 := h.at_place howner
      rw [howner] at hstep
      obtain ⟨⟨s₁, event₁⟩, hsim, heq⟩ := bind_ok hstep
      obtain ⟨simulation, event', hstop, rfl, rfl⟩ := simulate_ok hsim
      cases heq
      exact ⟨Staged.of_place [] 9 {
        listener := ha.listener.goes_on (by omega) (by omega)
        pump := ha.pump.goes_on (by omega) (by omega)
        simulation := ha.simulation.stop hstop
        rising := fun _ => by omega } rfl rfl,
        .simulated _ .stop _ _ rfl hstop⟩
  | drainingSimulation =>
      have ha : StagedAt s [] 9 := h.at_place howner
      rw [howner] at hstep
      dsimp only at hstep
      split at hstep
      · rename_i hidle
        cases hstep
        exact ⟨Staged.of_place [] 10 {
          listener := ha.listener.goes_on (by omega) (by omega)
          pump := ha.pump.goes_on (by omega) (by omega)
          simulation := ha.simulation.fallen hidle
          rising := fun _ => by omega } rfl rfl, .quiet _⟩
      · exact h.simulates (by rw [howner]; exact Or.inr rfl) hstep

/-- The accept thread's turn moves no order. -/
theorem acceptStep_turn {client : Bool} (h : Staged s)
    (hstep : s.acceptStep client = .ok (s', event)) :
    Staged s' ∧ Turn hash s.pipeline s'.pipeline event := by
  rw [Server.acceptStep] at hstep
  cases hthread : s.listener.acceptThread with
  | absent =>
      rw [hthread] at hstep
      cases hstep
  | finished =>
      rw [hthread] at hstep
      cases hstep
  | loading =>
      have hthere : s.listener.acceptThread ≠ .absent := by
        rw [hthread]
        exact AcceptThread.noConfusion
      rw [hthread] at hstep
      cases hstep
      exact ⟨⟨h.listener.acceptTurn hthere _, h.pump, h.simulation, h.rising⟩,
        .quiet _⟩
  | waiting =>
      have hthere : s.listener.acceptThread ≠ .absent := by
        rw [hthread]
        exact AcceptThread.noConfusion
      rw [hthread] at hstep
      dsimp only at hstep
      split at hstep
      · obtain ⟨l', haccept, heq⟩ := bind_ok hstep
        cases heq
        exact ⟨⟨h.listener.accept hthere haccept, h.pump, h.simulation,
          h.rising⟩, .stays (pipeline_accept h.listener.fresh haccept)⟩
      · cases hstep
        exact ⟨⟨h.listener.acceptTurn hthere _, h.pump, h.simulation, h.rising⟩,
          .quiet _⟩

/-- **NO PUSH IS DROPPED**: a thread that may push finds the queue open. -/
theorem connectionStep_turn {id : ThreadId} (h : Staged s)
    (hstep : s.connectionStep id = .ok (s', event)) :
    Staged s' ∧ Turn hash s.pipeline s'.pipeline event := by
  rw [Server.connectionStep] at hstep
  cases hthread : s.listener.threads id with
  | absent =>
      rw [hthread] at hstep
      cases hstep
  | finished =>
      rw [hthread] at hstep
      cases hstep
  | receiving =>
      rw [hthread] at hstep
      cases hstep
  | loading =>
      have hlive := Listener.live_at hthread trivial
      have hheld : (if s.listener.running then ConnectionThread.receiving
          else .finished).held = s.pipeline.threads id := by
        rw [pipeline_threads, hthread]
        split <;> rfl
      rw [hthread] at hstep
      cases hstep
      exact ⟨⟨h.listener.turn hlive, h.pump, h.simulation, h.rising⟩,
        .stays (pipeline_thread hheld)⟩
  | handling message =>
      have hlive := Listener.live_at hthread trivial
      have hstage := h.listener.live_stage hlive
      have hopen : s.inboundQueue.closed = false := by
        cases hclosed : s.inboundQueue.closed with
        | false => rfl
        | true =>
            have := h.pump.closed hclosed
            omega
      have hheld : s.pipeline.threads id = [message] := pipeline_held hthread
      rw [hthread] at hstep
      dsimp only at hstep
      split at hstep
      · cases hstep
      · rename_i inbound hpush
        obtain ⟨-, hitems, -, hstill⟩ := MpscQueue.push_open hopen hpush
        rw [hopen] at hstep
        cases hstep
        refine ⟨⟨h.listener.turn hlive, h.pump.push hstage hstill, h.simulation,
          h.rising⟩, ?_⟩
        have hpipeline : { s with
            inboundQueue := inbound
            listener := s.listener.setThread id .loading }.pipeline
            = { s.pipeline with
                threads := Function.update s.pipeline.threads id []
                queue := s.pipeline.queue ++ [message] } := by
          simp only [Server.pipeline, Listener.setThread, Function.comp_update,
            hitems]
          rfl
        rw [hpipeline]
        exact .pushed _ _ _ hheld

/-- An order is decoded, and the thread holds it. -/
theorem receive_turn {id : ThreadId} {message : OrderMessage} (h : Staged s)
    (hstep : s.step hash (.receive id message) = .ok (s', event)) :
    Staged s' ∧ Turn hash s.pipeline s'.pipeline event := by
  rw [Server.step] at hstep
  split at hstep
  · rename_i hthread
    have hlive := Listener.live_at hthread trivial
    have hheld : s.pipeline.threads id = [] := pipeline_held hthread
    cases hstep
    refine ⟨⟨h.listener.turn hlive, h.pump, h.simulation, h.rising⟩, ?_⟩
    rw [pipeline_setThread]
    exact .invoked _ _ _ hheld
  · cases hstep

/-- A thread that leaves holds nothing. -/
theorem hangUp_turn {id : ThreadId} (h : Staged s)
    (hstep : s.step hash (.hangUp id) = .ok (s', event)) :
    Staged s' ∧ Turn hash s.pipeline s'.pipeline event := by
  rw [Server.step] at hstep
  split at hstep
  · rename_i hthread
    have hlive := Listener.live_at hthread trivial
    have hheld : ConnectionThread.finished.held = s.pipeline.threads id := 
      (pipeline_held hthread).symm
    cases hstep
    exact ⟨⟨h.listener.turn hlive, h.pump, h.simulation, h.rising⟩,
      .stays (pipeline_thread hheld)⟩
  · cases hstep

/-- **NO ORDER IS SUBMITTED LATE**: while the pump is there the simulation is
    up. -/
theorem pumpStep_turn {now : Nat} (h : Staged s)
    (hstep : s.pumpStep hash now = .ok (s', event)) :
    Staged s' ∧ Turn hash s.pipeline s'.pipeline event := by
  rw [Server.pumpStep] at hstep
  cases hpump : s.pump with
  | absent =>
      rw [hpump] at hstep
      cases hstep
  | finished =>
      rw [hpump] at hstep
      cases hstep
  | popping =>
      have hthere : s.pump ≠ .absent := by
        rw [hpump]
        exact Pump.noConfusion
      have hheld : s.pipeline.pump = [] := by
        rw [pipeline_pumped, hpump]
        rfl
      rw [hpump] at hstep
      dsimp only at hstep
      split at hstep
      · cases hstep
      · rename_i queue hpop
        obtain ⟨hitems, hclosed, -⟩ := MpscQueue.popBlocking_none hpop
        cases hstep
        exact ⟨⟨h.listener, h.pump.ended hthere hitems hclosed, h.simulation,
          h.rising⟩, .stays (pipeline_pump (by rw [hpump]; rfl))⟩
      · rename_i message queue hpop
        obtain ⟨hitems, -, hclosed⟩ := MpscQueue.popBlocking_some hpop
        cases hstep
        exact ⟨⟨h.listener, h.pump.turn hthere hclosed Pump.noConfusion
          Pump.noConfusion, h.simulation, h.rising⟩,
          .popped _ _ _ hitems hheld⟩
  | submitting message =>
      have hthere : s.pump ≠ .absent := by
        rw [hpump]
        exact Pump.noConfusion
      have hheld : s.pipeline.pump = [message] := by
        rw [pipeline_pumped, hpump]
        rfl
      have hstage := h.pump.working hthere
      rw [hpump] at hstep
      obtain ⟨⟨s₁, event₁⟩, hsim, heq⟩ := bind_ok hstep
      obtain ⟨simulation, event', hsubmit, rfl, rfl⟩ := simulate_ok hsim
      cases heq
      exact ⟨⟨h.listener, h.pump.turn hthere rfl Pump.noConfusion
        Pump.noConfusion, h.simulation.beside hsubmit (submit_place hsubmit)
          (Or.inr (by omega)), h.rising⟩,
        .submitted _ _ _ _ _ hheld hsubmit⟩

/-- A worker's turn. -/
theorem worker_turn {shard : Fin count} (h : Staged s)
    (hstep : s.simulate hash (.worker shard) = .ok (s', event)) :
    Staged s' ∧ Turn hash s.pipeline s'.pipeline event := by
  obtain ⟨simulation, event', hwork, rfl, rfl⟩ := simulate_ok hstep
  exact ⟨⟨h.listener, h.pump,
    h.simulation.beside hwork (worker_place hwork) (Or.inl rfl), h.rising⟩,
    .simulated _ _ _ _ rfl hwork⟩

/-- `stop` is called. -/
theorem stop_turn (h : Staged s) (hstep : s.stop = .ok (s', event)) :
    Staged s' ∧ Turn hash s.pipeline s'.pipeline event := by
  rw [Server.stop] at hstep
  split at hstep
  · rename_i howner
    split at hstep
    · rename_i hrunning
      have ha := h.at_place howner
      rw [hrunning] at ha
      cases hstep
      exact ⟨Staged.of_place [] 3 {
        listener := ha.listener.stopping
        pump := ha.pump.goes_on (Nat.le_succ 2) (Or.inl ⟨by decide, by decide⟩)
        simulation := ha.simulation.goes_on ⟨by decide, by decide⟩
          ⟨by decide, by decide⟩
        rising := fun _ => by omega } rfl rfl, .quiet _⟩
    · cases hstep
      exact ⟨h, .quiet _⟩
  · cases hstep

/-- **EVERY STEP IS A TURN** of the pipeline, once the server was started. -/
theorem step_turn {action : Action count} (h : Staged s)
    (hno : ∀ binds, action ≠ .start binds)
    (hstep : s.step hash action = .ok (s', event)) :
    Staged s' ∧ Turn hash s.pipeline s'.pipeline event := by
  cases action with
  | start binds => exact absurd rfl (hno binds)
  | stop => exact stop_turn h hstep
  | owner => exact ownerStep_turn h hstep
  | accept client => exact acceptStep_turn h hstep
  | connection id => exact connectionStep_turn h hstep
  | receive id message => exact receive_turn h hstep
  | hangUp id => exact hangUp_turn h hstep
  | pump now => exact pumpStep_turn h hstep
  | worker shard => exact worker_turn h hstep

end Turn

end OsxServerRun
