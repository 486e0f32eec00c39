import OsborneX.ServerLifecycleModel

/-! # Restarts — a server that was ever taken down is deaf afterwards

    A server goes through four phases.  The flags are exchanged back and the
    threads are created again, but the queue that `IngressPump::stop` closes is
    never opened again: the start that follows finds every component ready,
    returns true, and the pump thread leaves its loop at once.

    `Phase.next` says how the phases follow one another, and `step_phase` that
    the server's steps follow them; so whether a run meets a deaf server is
    read off its calls (`run_serves_iff`). -/

namespace OsxServer

open OsxThread Execution

variable {M : Type}

/-! ## Draining -/

theorem drain_cons {inbound inbound' : MpscQueue M}
    {simulation : Simulation M} {message : M}
    (h : inbound.popBlocking = some (some message, inbound')) :
    drain inbound simulation = drain inbound' (simulation.submit message) := by
  rw [drain]
  split
  · rename_i message' inbound'' h'
    cases h.symm.trans h'
    rfl
  · rename_i h'
    exact absurd h (h' message inbound')

theorem drain_nil {inbound : MpscQueue M} {simulation : Simulation M}
    (h : inbound.items = []) : drain inbound simulation = (inbound, simulation) := by
  rw [drain]
  split
  · rename_i message inbound' h'
    rw [(MpscQueue.popBlocking_some h').1] at h
    cases h
  · rfl

/-- Draining submits what is queued, in order, and keeps the queue closed. -/
theorem drain_spec (items : List M) :
    ∀ {inbound : MpscQueue M} (simulation : Simulation M),
      inbound.items = items → ∃ inbound',
        drain inbound simulation = (inbound', { simulation with
          submitted := simulation.submitted ++ items }) ∧
        inbound'.items = [] ∧ inbound'.closed = inbound.closed := by
  induction items with
  | nil =>
      intro inbound simulation hitems
      refine ⟨inbound, ?_, hitems, rfl⟩
      rw [drain_nil hitems, List.append_nil]
  | cons message items ih =>
      intro inbound simulation hitems
      obtain ⟨inbound', hpop, hitems'⟩ := MpscQueue.popBlocking_cons hitems
      have hclosed := (MpscQueue.popBlocking_some hpop).2.2
      obtain ⟨last, hdrain, hnil, hlast⟩ :=
        ih (simulation.submit message) hitems'
      refine ⟨last, ?_, hnil, hlast.trans hclosed⟩
      rw [drain_cons hpop, hdrain, Simulation.submit, List.append_assoc]
      rfl

/-! ## Phases -/

/-- Where a server is in its life. -/
inductive Phase where
  /-- not started yet -/
  | fresh
  /-- started for the first time -/
  | serving
  /-- taken down, by `stop` or by the rollback of a failed `start` -/
  | down
  /-- started again -/
  | deaf
  deriving DecidableEq, Repr

namespace Phase

/-- The flag `running_`. -/
def running : Phase → Bool
  | .serving | .deaf => true
  | .fresh | .down => false

/-- The queue was closed. -/
def closed : Phase → Bool
  | .down | .deaf => true
  | .fresh | .serving => false

/-- The phase after an action. -/
def next : Phase → Action M → Phase
  | .fresh, .start true => .serving
  | .fresh, .start false => .down
  | .down, .start true => .deaf
  | .serving, .stop | .deaf, .stop => .down
  | phase, _ => phase

end Phase

/-- The phase after some actions. -/
def phaseAfter (actions : List (Action M)) : Phase :=
  actions.foldl Phase.next .fresh

/-- Every component is down, and ready to be started. -/
structure Resting (s : Server M) : Prop where
  stopped : s.simulation.running = false
  shards : ∃ n, s.simulation.shards = List.replicate n .idle
  broadcaster : s.broadcaster = .idle
  listener : s.listener = .idle
  pump : s.pump = .none

/-- Every component is up; the pump thread may have left its loop. -/
structure Working (s : Server M) : Prop where
  started : s.simulation.running = true
  shards : ∃ n, s.simulation.shards = List.replicate n .busy
  broadcaster : s.broadcaster = .busy
  listener : s.listener = .busy
  pump : s.pump = .running ∨ s.pump = .returned ∧ s.inboundQueue.closed = true

/-- The server is in a phase. -/
structure InPhase (phase : Phase) (s : Server M) : Prop where
  running : s.running = phase.running
  closed : s.inboundQueue.closed = phase.closed
  resting : phase.running = false → Resting s
  working : phase.running = true → Working s

/-- A server that is up. -/
theorem InPhase.of_up {phase : Phase} {s : Server M}
    (hup : phase.running = true) (hrunning : s.running = true)
    (hclosed : s.inboundQueue.closed = phase.closed) (hwork : Working s) :
    InPhase phase s := by
  refine ⟨hrunning.trans hup.symm, hclosed, ?_, fun _ => hwork⟩
  intro h
  rw [hup] at h
  cases h

/-- A server that is down. -/
theorem InPhase.of_down {phase : Phase} {s : Server M}
    (hdown : phase.running = false) (hrunning : s.running = false)
    (hclosed : s.inboundQueue.closed = phase.closed) (hrest : Resting s) :
    InPhase phase s := by
  refine ⟨hrunning.trans hdown.symm, hclosed, fun _ => hrest, ?_⟩
  intro h
  rw [hdown] at h
  cases h

theorem inPhase_new (shardCount capacity : Nat) :
    InPhase .fresh (Server.new shardCount capacity : Server M) := by
  exact InPhase.of_down rfl rfl rfl ⟨rfl, ⟨shardCount, rfl⟩, rfl, rfl, rfl⟩

/-! ## The components -/

theorem Simulation.start_resting {s : Simulation M} {n : Nat}
    (hrunning : s.running = false) (hshards : s.shards = .replicate n .idle) :
    s.start = .ok { s with
      running := true, frozen := true, shards := .replicate n .busy } := by
  rw [Simulation.start, hrunning, if_neg Bool.false_ne_true, hshards,
    Worker.mapM_start]
  rfl

theorem Simulation.stop_working {s : Simulation M} {n : Nat}
    (hrunning : s.running = true) (hshards : s.shards = .replicate n .busy) :
    s.stop = { s with running := false, shards := .replicate n .idle } := by
  rw [Simulation.stop, if_pos hrunning, hshards, List.map_replicate,
    Worker.stop_busy]

/-- Stopping the pump closes the queue and leaves no thread; nothing of the
    simulation changes but what was submitted to it. -/
theorem stopPump_spec (s : Server M) :
    ∃ inbound submitted, inbound.closed = true ∧
      s.stopPump = { s with
        inboundQueue := inbound, pump := .none
        simulation := { s.simulation with submitted := submitted } } := by
  cases hpump : s.pump with
  | none =>
      refine ⟨s.inboundQueue.close, s.simulation.submitted, rfl, ?_⟩
      rw [Server.stopPump, hpump]
  | running =>
      have hitems : s.inboundQueue.close.items = s.inboundQueue.items := rfl
      obtain ⟨inbound, hdrain, -, hclosed⟩ :=
        drain_spec s.inboundQueue.items s.simulation hitems
      refine ⟨inbound, s.simulation.submitted ++ s.inboundQueue.items,
        hclosed, ?_⟩
      rw [Server.stopPump, hpump]
      dsimp only
      rw [hdrain]
  | returned =>
      refine ⟨s.inboundQueue.close, s.simulation.submitted, rfl, ?_⟩
      rw [Server.stopPump, hpump]

/-! ## The calls -/

/-- A start that binds brings every component up. -/
theorem start_binds {s : Server M} (h : Resting s)
    (hrunning : s.running = false) :
    ∃ s', s.start true = .ok (s', true) ∧ s'.running = true ∧ Working s' ∧
      s'.inboundQueue = s.inboundQueue := by
  obtain ⟨hstopped, ⟨n, hshards⟩, hbroadcaster, hlistener, hpump⟩ := h
  refine ⟨{ s with
    simulation := { s.simulation with
      running := true, frozen := true, shards := .replicate n .busy }
    broadcaster := .busy, pump := .running, listener := .busy
    running := true }, ?_, rfl,
    ⟨rfl, ⟨n, rfl⟩, rfl, rfl, Or.inl rfl⟩, rfl⟩
  rw [Server.start, hrunning, Simulation.start_resting hstopped hshards,
    hbroadcaster, hlistener, hpump]
  rfl

/-- A start that cannot bind takes everything down again, and the queue stays
    closed. -/
theorem start_fails {s : Server M} (h : Resting s)
    (hrunning : s.running = false) :
    ∃ s', s.start false = .ok (s', false) ∧ s'.running = false ∧ Resting s' ∧
      s'.inboundQueue.closed = true := by
  obtain ⟨hstopped, ⟨n, hshards⟩, hbroadcaster, hlistener, hpump⟩ := h
  let up : Server M := { s with
    simulation := { s.simulation with
      running := true, frozen := true, shards := .replicate n .busy }
    broadcaster := .busy, pump := .running, listener := .idle
    running := true }
  have hstart : s.start false = .ok ({ up.stopPump with
      simulation := up.stopPump.simulation.stop
      broadcaster := up.stopPump.broadcaster.stop
      running := false }, false) := by
    rw [Server.start, hrunning, Simulation.start_resting hstopped hshards,
      hbroadcaster, hlistener, hpump]
    rfl
  obtain ⟨inbound, submitted, hclosed, hstop⟩ := stopPump_spec up
  rw [hstart, hstop, Simulation.stop_working rfl rfl]
  exact ⟨_, rfl, rfl, ⟨rfl, ⟨n, rfl⟩, rfl, rfl, rfl⟩, hclosed⟩

/-- A stop takes every component down, and the queue stays closed. -/
theorem stop_working {s : Server M} (h : Working s)
    (hrunning : s.running = true) :
    s.stop.running = false ∧ Resting s.stop ∧
      s.stop.inboundQueue.closed = true := by
  obtain ⟨hstarted, ⟨n, hshards⟩, hbroadcaster, hlistener, -⟩ := h
  let halted : Server M :=
    { s with running := false, listener := s.listener.stop }
  have heq : s.stop = { halted.stopPump with
      simulation := halted.stopPump.simulation.stop
      broadcaster := halted.stopPump.broadcaster.stop } := by
    rw [Server.stop, if_pos hrunning]
  obtain ⟨inbound, submitted, hclosed, hstop⟩ := stopPump_spec halted
  have hsim : ({ s.simulation with submitted := submitted } : Simulation M).stop
      = _ := Simulation.stop_working hstarted hshards
  rw [heq, hstop]
  refine ⟨rfl, ⟨?_, ⟨n, ?_⟩, ?_, ?_, rfl⟩, hclosed⟩
  · show Simulation.running (Simulation.stop _) = false
    rw [hsim]
  · show Simulation.shards (Simulation.stop _) = _
    rw [hsim]
  · show s.broadcaster.stop = .idle
    rw [hbroadcaster]
    rfl
  · show s.listener.stop = .idle
    rw [hlistener]
    rfl

/-- The handler changes the queue alone, and leaves it open or closed. -/
theorem handle_ok {s s' : Server M} {message : M}
    (h : s.handle message = .ok s') :
    ∃ inbound, s' = { s with inboundQueue := inbound } ∧
      s.inboundQueue.push message = some inbound ∧
      inbound.closed = s.inboundQueue.closed := by
  rw [Server.handle] at h
  split at h
  · split at h
    · cases h
    · rename_i inbound hpush
      cases h
      refine ⟨inbound, rfl, hpush, ?_⟩
      cases hclosed : s.inboundQueue.closed with
      | true =>
          rw [MpscQueue.push_closed message hclosed] at hpush
          cases hpush
          exact hclosed
      | false => exact (MpscQueue.push_open hclosed hpush).2.2.2
  · cases h

/-- One pass of the pump submits an item, or leaves the loop of a closed
    queue. -/
theorem pumpOnce_ok {s s' : Server M} (h : s.pumpOnce = .ok s') :
    (∃ message inbound,
      s.inboundQueue.popBlocking = some (some message, inbound) ∧
      s' = { s with
        inboundQueue := inbound
        simulation := s.simulation.submit message }) ∨
    (s.pump = .running ∧ s.inboundQueue.closed = true ∧
      s' = { s with pump := .returned }) := by
  rw [Server.pumpOnce] at h
  split at h
  · rename_i hrunning
    split at h
    · cases h
    · rename_i inbound hpop
      cases h
      exact Or.inr ⟨hrunning, (MpscQueue.popBlocking_none hpop).2.1, rfl⟩
    · rename_i message inbound hpop
      cases h
      exact Or.inl ⟨message, inbound, hpop, rfl⟩
  · cases h

/-! ## The steps follow the phases -/

/-- While the server is up, `start` returns true and does nothing. -/
theorem start_up {s : Server M} (binds : Bool) (hrunning : s.running = true) :
    s.start binds = .ok (s, true) := by
  rw [Server.start, hrunning]
  rfl

/-- `start` never finds a thread still joinable, and returns whether the server
    is up after it. -/
theorem InPhase.start {phase : Phase} {s : Server M} (h : InPhase phase s)
    (binds : Bool) :
    ∃ s', s.start binds
        = .ok (s', (phase.next (.start binds : Action M)).running) ∧
      InPhase (phase.next (.start binds : Action M)) s' := by
  cases phase with
  | fresh | down =>
      cases binds with
      | true =>
          obtain ⟨s', hstart, hup, hwork, hqueue⟩ :=
            start_binds (h.resting rfl) h.running
          refine ⟨s', hstart, .of_up rfl hup ?_ hwork⟩
          rw [hqueue]
          exact h.closed
      | false =>
          obtain ⟨s', hstart, hdown, hrest, hclosed⟩ :=
            start_fails (h.resting rfl) h.running
          exact ⟨s', hstart, .of_down rfl hdown hclosed hrest⟩
  | serving | deaf =>
      refine ⟨s, start_up binds h.running, ?_⟩
      cases binds <;> exact h

theorem InPhase.stop {phase : Phase} {s : Server M} (h : InPhase phase s) :
    InPhase (phase.next (.stop : Action M)) s.stop := by
  cases phase with
  | fresh =>
      rw [Server.stop, h.running]
      exact h
  | down =>
      rw [Server.stop, h.running]
      exact h
  | serving =>
      obtain ⟨hdown, hrest, hclosed⟩ := stop_working (h.working rfl) h.running
      exact .of_down rfl hdown hclosed hrest
  | deaf =>
      obtain ⟨hdown, hrest, hclosed⟩ := stop_working (h.working rfl) h.running
      exact .of_down rfl hdown hclosed hrest

/-- What handler and pump do leaves the server in its phase. -/
theorem InPhase.within {phase : Phase} {s : Server M} (h : InPhase phase s)
    {inbound : MpscQueue M} (submitted : List M)
    (hclosed : inbound.closed = s.inboundQueue.closed) :
    InPhase phase { s with
      inboundQueue := inbound
      simulation := { s.simulation with submitted := submitted } } := by
  refine ⟨h.running, hclosed.trans h.closed, ?_, ?_⟩
  · intro hdown
    obtain ⟨hstopped, hshards, hbroadcaster, hlistener, hpump⟩ :=
      h.resting hdown
    exact ⟨hstopped, hshards, hbroadcaster, hlistener, hpump⟩
  · intro hup
    obtain ⟨hstarted, hshards, hbroadcaster, hlistener, hpump⟩ :=
      h.working hup
    refine ⟨hstarted, hshards, hbroadcaster, hlistener, ?_⟩
    rcases hpump with hpump | ⟨hpump, hclosed'⟩
    · exact Or.inl hpump
    · exact Or.inr ⟨hpump, hclosed.trans hclosed'⟩

theorem InPhase.pumpOnce {phase : Phase} {s s' : Server M}
    (h : InPhase phase s) (hpump : s.pumpOnce = .ok s') :
    InPhase phase s' := by
  rcases pumpOnce_ok hpump with
    ⟨message, inbound, hpop, rfl⟩ | ⟨hrunning, hclosed, rfl⟩
  · exact h.within _ (MpscQueue.popBlocking_some hpop).2.2
  · refine ⟨h.running, h.closed, ?_, ?_⟩
    · intro hdown
      have hnone := (h.resting hdown).pump
      rw [hrunning] at hnone
      cases hnone
    · intro hup
      obtain ⟨hstarted, hshards, hbroadcaster, hlistener, -⟩ := h.working hup
      exact ⟨hstarted, hshards, hbroadcaster, hlistener,
        Or.inr ⟨rfl, hclosed⟩⟩

/-! ## Runs follow the phases -/

/-- What the last start returned, after one more action. -/
theorem lastStart_append (returned : List (Option Bool)) (r : Option Bool) :
    lastStart (returned ++ [r]) = r.or (lastStart returned) := by
  rw [lastStart, List.filterMap_append, List.getLast?_append]
  cases r <;> rfl

/-- A step changes the phase as the calls say; when the server is up, the last
    start returned true. -/
theorem step_phase {phase : Phase} {s s' : Server M} {action : Action M}
    {r : Option Bool} {returned : List (Option Bool)} (h : InPhase phase s)
    (hlast : phase.running = true → lastStart returned = some true)
    (hstep : s.step action = .ok (s', r)) :
    InPhase (phase.next action) s' ∧
      ((phase.next action).running = true →
        lastStart (returned ++ [r]) = some true) := by
  rw [lastStart_append]
  cases action with
  | start binds =>
      obtain ⟨s₁, hstart, hphase⟩ := h.start binds
      rw [Server.step, hstart] at hstep
      cases hstep
      refine ⟨hphase, fun hup => ?_⟩
      rw [hup]
      rfl
  | stop =>
      cases hstep
      refine ⟨h.stop, fun hup => ?_⟩
      cases phase <;> cases hup
  | handle message =>
      rw [Server.step] at hstep
      cases hhandle : s.handle message with
      | error e =>
          rw [hhandle] at hstep
          cases hstep
      | ok s₁ =>
          rw [hhandle] at hstep
          cases hstep
          obtain ⟨inbound, rfl, -, hclosed⟩ := handle_ok hhandle
          cases phase <;>
            exact ⟨h.within s.simulation.submitted hclosed, hlast⟩
  | pump =>
      rw [Server.step] at hstep
      cases hpump : s.pumpOnce with
      | error e =>
          rw [hpump] at hstep
          cases hstep
      | ok s₁ =>
          rw [hpump] at hstep
          cases hstep
          cases phase <;> exact ⟨h.pumpOnce hpump, hlast⟩

/-- **THE PHASE OF A RUN** is read off its actions. -/
theorem run_phase {actions : List (Action M)} :
    ∀ {phase : Phase} {s t : Server M} {before returned : List (Option Bool)},
      InPhase phase s →
      (phase.running = true → lastStart before = some true) →
      execute Server.step s actions = .ok (t, returned) →
      InPhase (actions.foldl Phase.next phase) t ∧
        ((actions.foldl Phase.next phase).running = true →
          lastStart (before ++ returned) = some true) := by
  induction actions with
  | nil =>
      intro phase s t before returned h hlast hrun
      cases hrun
      rw [List.append_nil]
      exact ⟨h, hlast⟩
  | cons action actions ih =>
      intro phase s t before returned h hlast hrun
      obtain ⟨s₁, r, returned', hstep, hrest, rfl⟩ := execute_cons_ok hrun
      obtain ⟨h₁, hlast₁⟩ := step_phase h hlast hstep
      have := ih h₁ hlast₁ hrest
      rw [List.append_assoc] at this
      exact this

/-- Only a start leaves the first phase, and nothing leads back. -/
theorem phaseAfter_fresh (actions : List (Action M)) :
    phaseAfter actions = .fresh ↔ ∀ binds, .start binds ∉ actions := by
  induction actions using List.reverseRecOn with
  | nil => exact ⟨fun _ _ => List.not_mem_nil, fun _ => rfl⟩
  | append_singleton actions action ih =>
      rw [phaseAfter, List.foldl_append]
      show Phase.next (phaseAfter actions) action = _ ↔ _
      constructor
      · intro h binds hmem
        rcases List.mem_append.mp hmem with hmem | hmem
        · have hne : phaseAfter actions ≠ .fresh :=
            fun heq => ih.mp heq binds hmem
          cases hphase : phaseAfter actions <;> rw [hphase] at h hne
          · exact hne rfl
          all_goals
            cases action with
            | start b => cases b <;> cases h
            | stop => cases h
            | handle m => cases h
            | pump => cases h
        · rw [List.mem_singleton] at hmem
          rw [← hmem] at h
          cases hphase : phaseAfter actions <;> rw [hphase] at h <;>
            cases binds <;> cases h
      · intro h
        rw [ih.mpr (fun b hb => h b (List.mem_append_left _ hb))]
        cases action with
        | start b =>
            exact absurd (List.mem_append_right _ (List.mem_singleton_self _))
              (h b)
        | stop => rfl
        | handle m => rfl
        | pump => rfl

/-- A deaf server was started while it was down. -/
theorem phaseAfter_deaf (actions : List (Action M)) :
    phaseAfter actions = .deaf →
    ∃ pre post, actions = pre ++ .start true :: post ∧
      phaseAfter pre = .down := by
  induction actions using List.reverseRecOn with
  | nil =>
      intro h
      cases h
  | append_singleton actions action ih =>
      intro h
      rw [phaseAfter, List.foldl_append] at h
      have h : Phase.next (phaseAfter actions) action = .deaf := h
      by_cases hdeaf : phaseAfter actions = .deaf
      · obtain ⟨pre, post, rfl, hpre⟩ := ih hdeaf
        exact ⟨pre, post ++ [action], List.append_assoc _ _ _, hpre⟩
      · cases hphase : phaseAfter actions <;> rw [hphase] at h hdeaf
        case down =>
          cases action with
          | start b =>
              cases b with
              | true => exact ⟨actions, [], rfl, hphase⟩
              | false => cases h
          | stop => cases h
          | handle m => cases h
          | pump => cases h
        case deaf => exact absurd rfl hdeaf
        all_goals
          cases action with
          | start b => cases b <;> cases h
          | stop => cases h
          | handle m => cases h
          | pump => cases h

/-! ## Which runs meet only working servers -/

/-- The pump thread submits what is queued, one item a pass. -/
theorem pump_all (items : List M) :
    ∀ {s : Server M}, s.pump = .running → s.inboundQueue.items = items →
      ∃ s' returned, execute Server.step s
          (List.replicate items.length .pump) = .ok (s', returned) ∧
        s'.inboundQueue.items = [] ∧
        s'.simulation.submitted = s.simulation.submitted ++ items := by
  induction items with
  | nil =>
      intro s _ hitems
      exact ⟨s, [], rfl, hitems, (List.append_nil _).symm⟩
  | cons message items ih =>
      intro s hrunning hitems
      obtain ⟨inbound, hpop, hitems'⟩ := MpscQueue.popBlocking_cons hitems
      have hstep : s.step .pump = .ok ({ s with
          inboundQueue := inbound
          simulation := s.simulation.submit message }, none) := by
        rw [Server.step, Server.pumpOnce, hrunning, hpop]
        rfl
      obtain ⟨s', returned, hrun, hnil, hsubmitted⟩ := ih
        (s := { s with
          inboundQueue := inbound
          simulation := s.simulation.submit message }) hrunning hitems'
      refine ⟨s', none :: returned, execute_cons_of hstep hrun, hnil, ?_⟩
      rw [hsubmitted]
      exact List.append_assoc _ _ _

theorem InPhase.serves {s : Server M} (h : InPhase .serving s) : Serving s := by
  have hopen : s.inboundQueue.closed = false := h.closed
  have hpump : s.pump = .running := by
    rcases (h.working rfl).pump with hpump | ⟨-, hclosed⟩
    · exact hpump
    · rw [hopen] at hclosed
      cases hclosed
  refine ⟨hopen, hpump, ?_, pump_all _ hpump rfl⟩
  intro message hroom
  obtain ⟨inbound, hpush⟩ := MpscQueue.push_room message hopen hroom
  refine ⟨{ s with inboundQueue := inbound }, ?_,
    (MpscQueue.push_open hopen hpush).2.1⟩
  rw [Server.step, Server.handle, (h.working rfl).listener, hpush]
  rfl

/-- **A RUNNING SERVER TAKES ORDERS, UNLESS IT WAS RESTARTED**: the property
    holds in every state of a run iff each start that binds finds the server
    up, or is the first start of the run. -/
theorem run_serves_iff (shardCount capacity : Nat) (actions : List (Action M)) :
    (∀ pre post s returned, actions = pre ++ post →
      execute Server.step (.new shardCount capacity) pre = .ok (s, returned) →
      s.running = true → lastStart returned = some true → Serving s) ↔
    (∀ pre post s returned, actions = pre ++ .start true :: post →
      execute Server.step (.new shardCount capacity) pre = .ok (s, returned) →
      s.running = true ∨ ∀ binds, .start binds ∉ pre) := by
  have hphase : ∀ {pre : List (Action M)} {s returned},
      execute Server.step (.new shardCount capacity) pre = .ok (s, returned) →
      InPhase (phaseAfter pre) s ∧
        ((phaseAfter pre).running = true → lastStart returned = some true) := by
    intro pre s returned hrun
    have hlast : Phase.fresh.running = true → lastStart [] = some true := by
      intro h
      cases h
    exact run_phase (inPhase_new shardCount capacity) hlast hrun
  constructor
  · intro h pre post s returned hsplit hrun
    have hs := (hphase hrun).1
    cases hp : phaseAfter pre with
    | fresh => exact Or.inr ((phaseAfter_fresh pre).mp hp)
    | serving =>
        rw [hp] at hs
        exact Or.inl hs.running
    | deaf =>
        rw [hp] at hs
        exact Or.inl hs.running
    | down =>
        -- the start comes up with the queue still closed
        rw [hp] at hs
        obtain ⟨s', hstart, hdeaf⟩ := hs.start true
        have hrun' : execute Server.step (.new shardCount capacity)
            (pre ++ [.start true]) = .ok (s', returned ++ [some true]) := by
          have hstep : s.step (.start true) = .ok (s', some true) := by
            rw [Server.step, hstart]
            rfl
          exact execute_append.mpr ⟨s, returned, [some true], hrun,
            execute_cons_of hstep rfl, rfl⟩
        have hserving := h (pre ++ [.start true]) post s' _
          (by rw [hsplit, List.append_assoc]; rfl) hrun' hdeaf.running
          (by rw [lastStart_append]; rfl)
        have hclosed := hdeaf.closed
        rw [hserving.isOpen] at hclosed
        cases hclosed
  · intro h pre post s returned hsplit hrun hup _
    have hs := (hphase hrun).1
    cases hp : phaseAfter pre with
    | fresh | down =>
        rw [hp] at hs
        rw [hs.running] at hup
        cases hup
    | serving =>
        rw [hp] at hs
        exact hs.serves
    | deaf =>
        obtain ⟨a, b, rfl, ha⟩ := phaseAfter_deaf pre hp
        obtain ⟨s₁, returned₁, returned₂, hrun₁, -, -⟩ :=
          execute_append.mp hrun
        have hs₁ := (hphase hrun₁).1
        rcases h a (b ++ post) s₁ returned₁
          (by rw [hsplit, List.append_assoc]; rfl) hrun₁ with hup₁ | hfirst
        · rw [hs₁.running, ha] at hup₁
          cases hup₁
        · rw [(phaseAfter_fresh a).mpr hfirst] at ha
          cases ha

/-- A start that cannot bind, then one that can: the server is up, and an order
    that is pushed is neither queued nor submitted. -/
theorem restart_deaf :
    ∃ s returned, execute Server.step (.new 4 4096 : Server Nat)
        [.start false, .start true, .handle 7, .pump] = .ok (s, returned) ∧
      s.running = true ∧ lastStart returned = some true ∧ ¬ Serving s ∧
      s.inboundQueue.items = [] ∧ s.simulation.submitted = [] := by
  have heval : (execute Server.step (.new 4 4096 : Server Nat)
      [.start false, .start true, .handle 7, .pump]).map (fun r =>
        (r.1.running, lastStart r.2, r.1.inboundQueue.closed,
          r.1.inboundQueue.items, r.1.simulation.submitted))
      = .ok (true, some true, true, [], []) := by decide +kernel
  cases hrun : execute Server.step (.new 4 4096 : Server Nat)
      [.start false, .start true, .handle 7, .pump] with
  | error e =>
      rw [hrun] at heval
      cases heval
  | ok r =>
      obtain ⟨s, returned⟩ := r
      rw [hrun] at heval
      simp only [Except.map, Except.ok.injEq, Prod.mk.injEq] at heval
      obtain ⟨hup, hlast, hclosed, hitems, hsubmitted⟩ := heval
      refine ⟨s, returned, rfl, hup, hlast, ?_, hitems, hsubmitted⟩
      intro hserving
      rw [hserving.isOpen] at hclosed
      cases hclosed

end OsxServer
