import OsborneX.BroadcastModel
import OsborneX.ServerRunProofs
import OsborneX.StreamReaderProofs

/-! # The broadcasting server — what a step pushes and reads

    A step is a step of the server without its broadcaster, a push of a shard's
    thread, or a turn of a reader.  A shard's thread pushes what a message made
    before it takes the next (`Relayed`), each buffer is read as the stream
    reader reads it, and the server keeps its stages (`Kept`). -/

namespace OsxBroadcast

open OsxShard Execution
open OsxStream (StreamReader pushedTo deliveredFrom Streaming Drained AtEnd)
open OsxSimulation (Simulation Controlled)
open OsxServerRun (Staged)
open OsxSubscriber (Down)

variable {count : Nat}

/-! ## The shards' threads -/

section Simulation

variable {s s' : Simulation count} {event : OsxSimulation.Event count}
  {shard : Fin count}

/-- The thread that processes for the shard is between two messages. -/
def AtLoop (s : Simulation count) (shard : Fin count) : Prop :=
  (s.lanes shard).worker = .loading ∨ s.owner = .draining shard

/-- A lane replaced by one with the same worker. -/
theorem worker_setLane {lane : OsxSimulation.Lane} (shard' : Fin count)
    (h : lane.worker = (s.lanes shard').worker) :
    ((s.setLane shard' lane).lanes shard).worker = (s.lanes shard).worker := by
  by_cases heq : shard = shard'
  · subst heq
    rw [OsxSimulation.setLane_self, h]
  · rw [OsxSimulation.setLane_other s shard' lane heq]

/-- The owner leaves a worker alone that is in its loop. -/
theorem owner_leaves (h : s.ownerStep = .ok (s', event))
    (hloading : (s.lanes shard).worker = .loading) :
    (s'.lanes shard).worker = .loading := by
  cases OsxSimulation.ownerStep_turn h with
  | starts next hlt lane howner hstart =>
      by_cases heq : shard = ⟨next, hlt⟩
      · subst heq
        rw [OsxSimulation.Lane.start, hloading] at hstart
        dsimp only at hstart
        split at hstart
        · cases hstart
          exact (worker_setLane _ rfl).trans hloading
        · cases hstart
      · exact (congrArg _ (OsxSimulation.setLane_other s _ lane heq)).trans
          hloading
  | started next hge howner => exact hloading
  | stops next hlt howner hrunning =>
      refine (worker_setLane _ ?_).trans hloading
      rfl
  | passes next hlt howner hrunning => exact hloading
  | stopped next hge howner => exact hloading
  | joinsNone shard' howner habsent => exact hloading
  | joins shard' howner hfinished =>
      by_cases heq : shard = shard'
      · subst heq
        rw [hloading] at hfinished
        cases hfinished
      · exact (congrArg _ (OsxSimulation.setLane_other s _ _ heq)).trans hloading
  | drained shard' howner hread => exact hloading
  | reads shard' message inbound howner hread =>
      refine (worker_setLane _ ?_).trans hloading
      rfl
  | applies shard' message lane published howner hprocess =>
      obtain ⟨other, -, rfl⟩ := OsxSimulation.process_ok hprocess
      refine (worker_setLane _ ?_).trans hloading
      rfl

variable {hash : SymbolId → Nat} [NeZero count]
  {action : OsxSimulation.Action count}

/-- Only its own turn takes a thread out of its loop. -/
theorem AtLoop.step (h : AtLoop s shard) (hworker : action ≠ .worker shard)
    (howner : action = .owner → s.owner ≠ .draining shard)
    (hstep : s.step hash action = .ok (s', event)) : AtLoop s' shard := by
  cases action with
  | submit message now =>
      obtain ⟨stamped, inbound, -, -, -, rfl⟩ := OsxSimulation.submit_ok hstep
      rcases h with h | h
      · refine Or.inl ((worker_setLane _ ?_).trans h)
        rfl
      · exact Or.inr h
  | start =>
      obtain ⟨s₁, hstart, heq⟩ := map_ok hstep
      cases heq
      rw [Simulation.start] at hstart
      split at hstart
      · rename_i hidle
        split at hstart
        · cases hstart
          exact h
        · cases hstart
          rcases h with h | h
          · exact Or.inl h
          · rw [hidle] at h
            cases h
      · cases hstart
  | stop =>
      obtain ⟨s₁, hstop, heq⟩ := map_ok hstep
      cases heq
      rw [Simulation.stop] at hstop
      split at hstop
      · rename_i hidle
        split at hstop
        · cases hstop
          rcases h with h | h
          · exact Or.inl h
          · rw [hidle] at h
            cases h
        · cases hstop
          exact h
      · cases hstop
  | owner =>
      rcases h with h | h
      · exact Or.inl (owner_leaves hstep h)
      · exact absurd h (howner rfl)
  | worker shard' =>
      have hne : shard ≠ shard' := by
        rintro rfl
        exact hworker rfl
      obtain ⟨⟨lane, done⟩, -, heq⟩ := bind_ok hstep
      cases heq
      rcases h with h | h
      · exact Or.inl ((congrArg _
          (OsxSimulation.setLane_other s shard' lane hne)).trans h)
      · exact Or.inr h

/-- A thread that has processed a message is in its loop. -/
theorem atLoop_processed {message : OrderMessage} {published : Published}
    (hstep : s.step hash action = .ok (s', .processed shard message published)) :
    AtLoop s' shard ∧ (action = .worker shard ∨
      action = .owner ∧ s.owner = .applying shard message) := by
  cases action with
  | submit message' now =>
      obtain ⟨stamped, inbound, -, -, heq, -⟩ := OsxSimulation.submit_ok hstep
      cases heq
  | start | stop =>
      obtain ⟨s₁, -, heq⟩ := map_ok hstep
      cases heq
  | owner =>
      cases OsxSimulation.ownerStep_turn hstep with
      | applies shard' message' lane published' howner hprocess =>
          exact ⟨Or.inr rfl, Or.inr ⟨rfl, howner⟩⟩
  | worker shard' =>
      obtain ⟨⟨lane, done⟩, hwork, heq⟩ := bind_ok hstep
      cases done with
      | none => cases heq
      | some d =>
          cases heq
          refine ⟨Or.inl ?_, Or.inl rfl⟩
          rw [OsxSimulation.setLane_self]
          rw [OsxSimulation.Lane.work] at hwork
          split at hwork
          · cases hwork
          · cases hwork
          · cases hwork
          · split at hwork <;> cases hwork
          · obtain ⟨r, -, heq⟩ := bind_ok hwork
            cases heq
            rfl

end Simulation

/-! ## The server without its broadcaster -/

section Core

variable {s s' : OsxServerRun.Server count} {event : OsxServerRun.Event count}
  {action : OsxServerRun.Action count}

/-- What the simulation sees of a step: nothing, or a turn of its own, which is
    the worker's or the owner's only if the step is. -/
def Sees (hash : SymbolId → Nat) [NeZero count]
    (s s' : OsxServerRun.Server count) (action : OsxServerRun.Action count)
    (event : OsxServerRun.Event count) : Prop :=
  (s'.simulation = s.simulation ∧ OsxServerRun.simulationLog [event] = []) ∨
  ∃ turn event', s.simulation.step hash turn = .ok (s'.simulation, event') ∧
    event = .simulation event' ∧ turn ≠ .start ∧
    (∀ shard, turn = .worker shard → action = .worker shard) ∧
    (turn = .owner → action = .owner)

/-- What the broadcaster sees of an owner's turn, besides: the simulation is
    started to the end, and the owner is through with `stop` only when the
    simulation is. -/
structure OwnerSees (hash : SymbolId → Nat) [NeZero count]
    (s s' : OsxServerRun.Server count) (event : OsxServerRun.Event count) :
    Prop where
  sees : Sees hash s s' .owner event
  starting : s.simulation.owner ≠ .idle → ∀ binds,
    s.owner = .startingSimulation binds → s'.owner = .startingSimulation binds
  stopped : s'.Stopped → s.owner = .drainingSimulation ∧
    s.simulation.owner = .idle ∧ s'.simulation = s.simulation

variable {hash : SymbolId → Nat} [NeZero count]

theorem Sees.nothing (h : s'.simulation = s.simulation) :
    Sees hash s s' action .quiet :=
  Or.inl ⟨h, rfl⟩

theorem sees_simulate {turn : OsxSimulation.Action count}
    (h : s.simulate hash turn = .ok (s', event)) (hstart : turn ≠ .start)
    (hworker : ∀ shard, turn = .worker shard → action = .worker shard)
    (howner : turn = .owner → action = .owner) :
    Sees hash s s' action event := by
  obtain ⟨simulation, event', hstep, rfl, rfl⟩ := OsxServerRun.simulate_ok h
  exact Or.inr ⟨turn, event', hstep, rfl, hstart, hworker, howner⟩

/-- The owner goes on to a place that is not the end of a call. -/
theorem ownerSees_goes_on (hsimulation : s'.simulation = s.simulation)
    (hplace : s.simulation.owner = .idle ∨
      ∀ binds, s.owner ≠ .startingSimulation binds)
    (hne : s'.owner ≠ .idle) : OwnerSees hash s s' .quiet where
  sees := .nothing hsimulation
  starting := fun hbusy binds heq => by
    rcases hplace with hidle | hplace
    · exact absurd hidle hbusy
    · exact absurd heq (hplace binds)
  stopped := fun hstopped => absurd hstopped.1 hne

/-- The owner's turn in `Simulation::start` or `Simulation::stop`. -/
theorem ownerSees_simulate (hidle : s.owner ≠ .idle)
    (h : s.simulate hash .owner = .ok (s', event)) :
    OwnerSees hash s s' event := by
  have hsees : Sees hash s s' .owner event := sees_simulate h
    (fun heq => by cases heq) (fun _ heq => by cases heq) (fun _ => rfl)
  obtain ⟨simulation, event', -, rfl, -⟩ := OsxServerRun.simulate_ok h
  exact ⟨hsees, fun _ _ heq => heq, fun hstopped => absurd hstopped.1 hidle⟩

/-- Every turn of the owner. -/
theorem ownerStep_sees (hs : Staged s)
    (h : s.ownerStep hash = .ok (s', event)) : OwnerSees hash s s' event := by
  rw [OsxServerRun.Server.ownerStep] at h
  cases howner : s.owner with
  | idle =>
      rw [howner] at h
      cases h
  | startingSimulation binds =>
      rw [howner] at h
      dsimp only at h
      split at h
      · rename_i hidle
        split at h
        · cases h
          exact ownerSees_goes_on rfl (Or.inl hidle)
            OsxServerRun.Owner.noConfusion
        · cases h
      · exact ownerSees_simulate (by rw [howner]; exact fun heq => by cases heq) h
  | startingListener binds =>
      have hplace : ∀ binds', s.owner ≠ .startingSimulation binds' := by
        rw [howner]
        exact fun _ heq => by cases heq
      have hrunning : s.running = true := by
        refine (hs.at_place howner).rising ?_
        exact Nat.le_succ 1
      rw [howner] at h
      dsimp only at h
      -- the flag stays set, so the server is not down
      have hup : ∀ {t : OsxServerRun.Server count},
          t.simulation = s.simulation → t.running = s.running →
          OwnerSees hash s t .quiet := fun hsimulation hsame => {
        sees := .nothing hsimulation
        starting := fun _ binds' heq => absurd heq (hplace binds')
        stopped := fun hstopped => by
          rw [OsxServerRun.Server.Stopped, hsame, hrunning] at hstopped
          cases hstopped.2 }
      split at h
      · cases h
        exact hup rfl rfl
      · split at h
        · split at h
          · cases h
            exact hup rfl rfl
          · cases h
        · cases h
          exact hup rfl rfl
  | drainingSimulation =>
      rw [howner] at h
      dsimp only at h
      split at h
      · rename_i hidle
        cases h
        exact ⟨.nothing rfl, fun hne => absurd hidle hne,
          fun _ => ⟨howner, hidle, rfl⟩⟩
      · exact ownerSees_simulate (by rw [howner]; exact fun heq => by cases heq) h
  | stoppingSimulation =>
      rw [howner] at h
      obtain ⟨⟨s₁, event₁⟩, hsim, heq⟩ := bind_ok h
      obtain ⟨simulation, event', hstep, rfl, rfl⟩ :=
        OsxServerRun.simulate_ok hsim
      cases heq
      refine ⟨Or.inr ⟨.stop, event', hstep, rfl, (fun heq => by cases heq),
        (fun _ heq => by cases heq), (fun heq => by cases heq)⟩,
        fun _ _ heq => ?_, fun hstopped => ?_⟩
      · rw [howner] at heq
        cases heq
      · cases hstopped.1
  | stoppingListener | joiningAccept | joiningPump =>
      have hplace : ∀ binds', s.owner ≠ .startingSimulation binds' := by
        rw [howner]
        exact fun _ heq => by cases heq
      rw [howner] at h
      dsimp only at h
      split at h <;> cases h <;>
        exact ownerSees_goes_on rfl (Or.inr hplace)
          OsxServerRun.Owner.noConfusion
  | stoppingPump =>
      have hplace : ∀ binds', s.owner ≠ .startingSimulation binds' := by
        rw [howner]
        exact fun _ heq => by cases heq
      rw [howner] at h
      cases h
      exact ownerSees_goes_on rfl (Or.inr hplace) OsxServerRun.Owner.noConfusion
  | joiningConnections connections =>
      have hplace : ∀ binds', s.owner ≠ .startingSimulation binds' := by
        rw [howner]
        exact fun _ heq => by cases heq
      rw [howner] at h
      cases connections with
      | nil =>
          cases h
          exact ownerSees_goes_on rfl (Or.inr hplace)
            OsxServerRun.Owner.noConfusion
      | cons c connections =>
          dsimp only at h
          split at h
          · cases h
            exact ownerSees_goes_on rfl (Or.inr hplace)
              OsxServerRun.Owner.noConfusion
          · split at h <;> cases h
            exact ownerSees_goes_on rfl (Or.inr hplace)
              OsxServerRun.Owner.noConfusion

/-- The owner's place, and the simulation's. -/
def SamePlace (s s' : OsxServerRun.Server count) : Prop :=
  s'.owner = s.owner ∧ s'.running = s.running ∧
    s'.simulation.owner = s.simulation.owner ∧
    s'.simulation.running = s.simulation.running

/-- The other threads' turns leave the owner where it is; a call of `stop` finds
    it idle. -/
theorem step_sees (hno : ∀ binds, action ≠ .start binds)
    (howner : action ≠ .owner) (h : s.step hash action = .ok (s', event)) :
    Sees hash s s' action event ∧
    (SamePlace s s' ∨ s.owner = .idle ∧ s.running = true ∧
      s' = { s with running := false, owner := .stoppingListener }) := by
  cases action with
  | start binds => exact absurd rfl (hno binds)
  | owner => exact absurd rfl howner
  | stop =>
      rw [OsxServerRun.Server.step, OsxServerRun.Server.stop] at h
      split at h
      · rename_i hidle
        split at h
        · rename_i hrunning
          cases h
          exact ⟨.nothing rfl, Or.inr ⟨hidle, hrunning, rfl⟩⟩
        · cases h
          exact ⟨.nothing rfl, Or.inl ⟨rfl, rfl, rfl, rfl⟩⟩
      · cases h
  | accept client =>
      rw [OsxServerRun.Server.step, OsxServerRun.Server.acceptStep] at h
      split at h
      · cases h
      · cases h
      · cases h
        exact ⟨.nothing rfl, Or.inl ⟨rfl, rfl, rfl, rfl⟩⟩
      · split at h
        · obtain ⟨l', -, heq⟩ := bind_ok h
          cases heq
          exact ⟨.nothing rfl, Or.inl ⟨rfl, rfl, rfl, rfl⟩⟩
        · cases h
          exact ⟨.nothing rfl, Or.inl ⟨rfl, rfl, rfl, rfl⟩⟩
  | connection id =>
      rw [OsxServerRun.Server.step, OsxServerRun.Server.connectionStep] at h
      split at h
      · cases h
        exact ⟨.nothing rfl, Or.inl ⟨rfl, rfl, rfl, rfl⟩⟩
      · split at h
        · cases h
        · cases h
          refine ⟨Or.inl ⟨rfl, ?_⟩, Or.inl ⟨rfl, rfl, rfl, rfl⟩⟩
          split <;> rfl
      · cases h
  | receive id message | hangUp id =>
      rw [OsxServerRun.Server.step] at h
      split at h
      · cases h
        exact ⟨Or.inl ⟨rfl, rfl⟩, Or.inl ⟨rfl, rfl, rfl, rfl⟩⟩
      · cases h
  | pump now =>
      rw [OsxServerRun.Server.step, OsxServerRun.Server.pumpStep] at h
      split at h
      · cases h
      · cases h
      · split at h
        · cases h
        · cases h
          exact ⟨.nothing rfl, Or.inl ⟨rfl, rfl, rfl, rfl⟩⟩
        · cases h
          exact ⟨Or.inl ⟨rfl, rfl⟩, Or.inl ⟨rfl, rfl, rfl, rfl⟩⟩
      · obtain ⟨⟨s₁, event₁⟩, hsim, heq⟩ := bind_ok h
        cases heq
        obtain ⟨simulation, event', hsubmit, rfl, rfl⟩ :=
          OsxServerRun.simulate_ok hsim
        obtain ⟨hsame, hrunning⟩ := OsxServerRun.submit_place hsubmit
        exact ⟨Or.inr ⟨.submit _ now, event', hsubmit, rfl,
          (fun heq => by cases heq), (fun _ heq => by cases heq),
          (fun heq => by cases heq)⟩, Or.inl ⟨rfl, rfl, hsame, hrunning⟩⟩
  | worker shard =>
      obtain ⟨simulation, event', hwork, rfl, rfl⟩ :=
        OsxServerRun.simulate_ok h
      obtain ⟨hsame, hrunning⟩ := OsxServerRun.worker_place hwork
      refine ⟨Or.inr ⟨.worker shard, event', hwork, rfl,
        (fun heq => by cases heq), fun shard' heq => ?_,
        (fun heq => by cases heq)⟩, Or.inl ⟨rfl, rfl, hsame, hrunning⟩⟩
      cases heq
      rfl

end Core

/-! ## The log -/

section Log

variable (shard : Fin count) (log log' : List (Event count))

@[simp] theorem serverLog_append :
    serverLog (log ++ log') = serverLog log ++ serverLog log' :=
  List.filterMap_append ..

@[simp] theorem topOfBookLog_append :
    topOfBookLog (log ++ log') = topOfBookLog log ++ topOfBookLog log' :=
  List.filterMap_append ..

@[simp] theorem tradesLog_append :
    tradesLog (log ++ log') = tradesLog log ++ tradesLog log' :=
  List.filterMap_append ..

@[simp] theorem processedAt_append : processedAt shard (log ++ log')
    = processedAt shard log ++ processedAt shard log' := by
  simp only [processedAt, serverLog_append, OsxServerRun.simulationLog_append,
    OsxSimulation.processedAt_append]

@[simp] theorem tradesOf_append : tradesOf shard (log ++ log')
    = tradesOf shard log ++ tradesOf shard log' := by
  simp only [tradesOf, processedAt_append, List.flatMap_append]

@[simp] theorem topsOf_append : topsOf shard (log ++ log')
    = topsOf shard log ++ topsOf shard log' := by
  simp only [topsOf, processedAt_append, List.filterMap_append]

/-! A step of one component is in its own log only. -/

@[simp] theorem topOfBookLog_server (event : OsxServerRun.Event count) :
    topOfBookLog [.server event] = [] := rfl

@[simp] theorem tradesLog_server (event : OsxServerRun.Event count) :
    tradesLog [.server event] = [] := rfl

variable (update : OsxStream.Event TopOfBookUpdate count)
  (execution : OsxStream.Event TradeExecution count)

@[simp] theorem topOfBookLog_topOfBook :
    topOfBookLog [.topOfBook update] = [update] := rfl

@[simp] theorem tradesLog_topOfBook :
    tradesLog [(.topOfBook update : Event count)] = [] := rfl

@[simp] theorem processedAt_topOfBook :
    processedAt shard [.topOfBook update] = [] := rfl

@[simp] theorem topOfBookLog_trades :
    topOfBookLog [(.trades execution : Event count)] = [] := rfl

@[simp] theorem tradesLog_trades :
    tradesLog [.trades execution] = [execution] := rfl

@[simp] theorem processedAt_trades :
    processedAt shard [.trades execution] = [] := rfl

end Log

/-! ## What is pushed -/

/-- The trades among what is still to be pushed. -/
def Item.trade? : Item → Option TradeExecution
  | .trade execution => some execution
  | .topOfBook _ => none

/-- The updates among what is still to be pushed. -/
def Item.topOfBook? : Item → Option TopOfBookUpdate
  | .trade _ => none
  | .topOfBook update => some update

theorem itemsOf_trades (published : Published) :
    (itemsOf published).filterMap Item.trade? = published.trades := by
  rw [itemsOf, List.filterMap_append, List.filterMap_map, List.filterMap_map]
  simp [Function.comp_def, Item.trade?]

theorem itemsOf_tops (published : Published) :
    (itemsOf published).filterMap Item.topOfBook? = published.top.toList := by
  rw [itemsOf, List.filterMap_append, List.filterMap_map, List.filterMap_map]
  simp [Function.comp_def, Item.topOfBook?]

/-- **EVERYTHING A MESSAGE MADE IS PUSHED**, or its shard's thread still has to,
    and takes no other message before. -/
structure Relayed (s : Server count) (log : List (Event count)) : Prop where
  trades : ∀ shard, tradesOf shard log = pushedTo shard (tradesLog log)
    ++ (s.publishing shard).filterMap Item.trade?
  tops : ∀ shard, topsOf shard log = pushedTo shard (topOfBookLog log)
    ++ (s.publishing shard).filterMap Item.topOfBook?
  busy : ∀ shard, s.publishing shard ≠ [] → AtLoop s.core.simulation shard

section Relayed

variable {s s' : Server count} {log : List (Event count)} {event : Event count}

/-- While the simulation is down nothing is left to push. -/
theorem Relayed.down (h : Relayed s log) (hc : Controlled s.core.simulation)
    (hdown : Down s.core.simulation) (shard : Fin count) :
    s.publishing shard = [] := by
  by_contra hne
  obtain ⟨hrunning, howner⟩ := hdown
  rcases h.busy shard hne with hloading | hdraining
  · have hlane := hc.lane_at howner shard
    simp only [Simulation.phase, hrunning, Bool.false_eq_true, if_false]
      at hlane
    rw [hlane.2] at hloading
    cases hloading
  · rw [howner] at hdraining
    cases hdraining

/-- A step that processes nothing leaves what is still to be pushed. -/
theorem Relayed.served {core : OsxServerRun.Server count}
    {event : OsxServerRun.Event count} (h : Relayed s log)
    (hnone : ∀ shard, processedAt shard [Event.server event] = [])
    (hbusy : ∀ shard, s.publishing shard ≠ [] → AtLoop core.simulation shard) :
    Relayed { s with core := core } (log ++ [.server event]) := by
  refine ⟨fun shard => ?_, fun shard => ?_, hbusy⟩
  · have hsame : tradesOf shard [Event.server event] = [] := by
      rw [tradesOf, hnone]
      rfl
    simpa [hsame] using h.trades shard
  · have hsame : topsOf shard [Event.server event] = [] := by
      rw [topsOf, hnone]
      rfl
    simpa [hsame] using h.tops shard

/-- A message was processed by a thread that had nothing left to push. -/
theorem Relayed.processed {core : OsxServerRun.Server count} {shard : Fin count}
    {message : OrderMessage} {published : Published} (h : Relayed s log)
    (hnone : s.publishing shard = []) (hloop : AtLoop core.simulation shard)
    (hbusy : ∀ shard', s.publishing shard' ≠ [] →
      AtLoop core.simulation shard') :
    Relayed { s with
        core := core
        publishing := Function.update s.publishing shard (itemsOf published) }
      (log ++ [.server (.simulation (.processed shard message published))]) := by
  have hprocessed : ∀ shard', processedAt shard'
      [Event.server (.simulation (.processed shard message published))]
      = if shard = shard' then [(message, published)] else [] :=
    fun shard' => OsxSimulation.processedAt_processed ..
  refine ⟨fun shard' => ?_, fun shard' => ?_, fun shard' hne => ?_⟩
  · have hbefore := h.trades shard'
    rw [tradesOf_append, hbefore, tradesOf, hprocessed]
    dsimp only
    by_cases heq : shard = shard'
    · subst heq
      simp [hnone, itemsOf_trades]
    · simp [heq, Function.update_of_ne (Ne.symm heq)]
  · have hbefore := h.tops shard'
    rw [topsOf_append, hbefore, topsOf, hprocessed]
    dsimp only
    by_cases heq : shard = shard'
    · subst heq
      rw [if_pos rfl, Function.update_self, itemsOf_tops, hnone]
      cases htop : published.top <;> simp [htop]
    · simp [heq, Function.update_of_ne (Ne.symm heq)]
  · by_cases heq : shard = shard'
    · subst heq
      exact hloop
    · refine hbusy shard' ?_
      dsimp only at hne
      rw [Function.update_of_ne (Ne.symm heq)] at hne
      exact hne

variable {hash : SymbolId → Nat} [NeZero count]

/-- A turn of the server is not made while what it made is being pushed; the
    owner's are those of `Server::start` and `Server::stop`. -/
theorem serverStep_ok {action : OsxServerRun.Action count}
    {r : Server count × Event count}
    (h : s.step hash (.server action) = .ok r) :
    ¬ s.Busy action ∧ (action = .owner ∧ s.ownerStep hash = .ok r ∨
      action ≠ .owner ∧ s.serve hash action = .ok r) := by
  have hfree : ¬ s.Busy action := by
    intro hbusy
    have hblocked : s.step hash (.server action) = .error .blocked :=
      if_pos hbusy
    rw [hblocked] at h
    cases h
  refine ⟨hfree, ?_⟩
  by_cases howner : action = .owner
  · subst howner
    have hstep : s.step hash (.server .owner) = s.ownerStep hash :=
      if_neg hfree
    exact Or.inl ⟨rfl, hstep.symm.trans h⟩
  · have hstep : s.step hash (.server action) = s.serve hash action := by
      rw [Server.step, if_neg hfree]
      exact howner
    exact Or.inr ⟨howner, hstep.symm.trans h⟩

theorem serve_ok {action : OsxServerRun.Action count}
    (h : s.serve hash action = .ok (s', event)) :
    ∃ core event', s.core.step hash action = .ok (core, event') ∧
      event = .server event' ∧
      s' = { s with
        core := core
        publishing := Server.handOver s.publishing event' } := by
  rw [Server.serve] at h
  split at h
  · cases h
  · rename_i core event' hstep
    cases h
    exact ⟨core, event', hstep, rfl, rfl⟩

/-- **A STEP OF THE SERVER** is made only by threads that have pushed all they
    had to. -/
theorem Relayed.serve {action : OsxServerRun.Action count}
    {core : OsxServerRun.Server count} {event : OsxServerRun.Event count}
    (h : Relayed s log) (hc : Controlled s.core.simulation)
    (hfree : ¬ s.Busy action) (hsees : Sees hash s.core core action event) :
    Relayed { s with
        core := core
        publishing := Server.handOver s.publishing event }
      (log ++ [.server event]) := by
  obtain ⟨hsame, hnone⟩ | ⟨turn, event', hstep, rfl, hstart, hworker, howner⟩ :=
    hsees
  · have hhand : Server.handOver s.publishing event = s.publishing := by
      cases event with
      | simulation event' => cases hnone
      | _ => rfl
    have hquiet : ∀ shard, processedAt shard [Event.server event] = [] := by
      intro shard
      rw [processedAt]
      show OsxSimulation.processedAt shard
        (OsxServerRun.simulationLog [event]) = []
      rw [hnone]
      rfl
    rw [hhand]
    exact h.served hquiet (by rw [hsame]; exact h.busy)
  · -- the threads with something to push did not move
    have hbusy : ∀ shard, s.publishing shard ≠ [] →
        AtLoop core.simulation shard := by
      intro shard hne
      refine (h.busy shard hne).step ?_ ?_ hstep
      · rintro rfl
        rw [hworker shard rfl] at hfree
        exact hfree hne
      · intro hturn hdraining
        rw [howner hturn] at hfree
        exact hfree ⟨shard, hdraining, hne⟩
    cases event' with
    | quiet => exact h.served (fun _ => rfl) hbusy
    | accepted shard message => exact h.served (fun _ => rfl) hbusy
    | processed shard message published =>
        obtain ⟨hloop, hwho⟩ := atLoop_processed hstep
        refine h.processed ?_ hloop hbusy
        by_contra hne
        rcases hwho with rfl | ⟨rfl, happlying⟩
        · rw [hworker shard rfl] at hfree
          exact hfree hne
        · -- the owner processes for a shard only when its worker is gone
          rcases h.busy shard hne with hloading | hdraining
          · have hlane := hc.lane_at happlying shard
            simp only [Simulation.phase, Nat.le_refl, if_true] at hlane
            rw [hlane.2] at hloading
            cases hloading
          · rw [happlying] at hdraining
            cases hdraining

end Relayed

/-! ## The invariant of every step -/

/-- A shard has made no more items than a sequence can count. -/
def Few (log : List (Event count)) : Prop :=
  ∀ shard, (tradesOf shard log).length < 2 ^ 64 ∧
    (topsOf shard log).length < 2 ^ 64

theorem Few.before {log log' : List (Event count)} (h : Few (log ++ log')) :
    Few log := by
  intro shard
  have hshard := h shard
  rw [tradesOf_append, topsOf_append, List.length_append, List.length_append]
    at hshard
  omega

/-- **THE BROADCASTING SERVER**, wherever its owner is. -/
structure Kept (lap : Nat) (s : Server count) (log : List (Event count)) :
    Prop where
  staged : Staged s.core
  relayed : Relayed s log
  topOfBook : Streaming lap s.topOfBook (topOfBookLog log)
  trades : Streaming 1024 s.trades (tradesLog log)

section Kept

variable {lap : Nat} {s s' : Server count} {log : List (Event count)}
  {event : Event count}

/-- Where the owner is with the broadcaster is seen nowhere else. -/
theorem Kept.place (h : Kept lap s log) (broadcaster : Broadcaster) :
    Kept lap { s with broadcaster := broadcaster } log :=
  ⟨h.staged, ⟨h.relayed.trades, h.relayed.tops, h.relayed.busy⟩, h.topOfBook,
    h.trades⟩

theorem Relayed.few (h : Relayed s log) (hfew : Few log) :
    (∀ i, (pushedTo i (tradesLog log)).length < 2 ^ 64) ∧
      ∀ i, (pushedTo i (topOfBookLog log)).length < 2 ^ 64 := by
  constructor
  · intro i
    refine Nat.lt_of_le_of_lt ?_ (hfew i).1
    rw [h.trades i, List.length_append]
    exact Nat.le_add_right ..
  · intro i
    refine Nat.lt_of_le_of_lt ?_ (hfew i).2
    rw [h.tops i, List.length_append]
    exact Nat.le_add_right ..

/-- The subscriber takes a turn, or is called. -/
theorem Kept.subscribe (h : Kept lap s log) (hfew : Few log)
    {action : OsxStream.Action TopOfBookUpdate count}
    (hpush : ∀ i item, action ≠ .push i item)
    {reader : StreamReader TopOfBookUpdate count}
    {event : OsxStream.Event TopOfBookUpdate count}
    (hstep : s.topOfBook.step action = .ok (reader, event)) :
    Kept lap { s with topOfBook := reader } (log ++ [.topOfBook event]) := by
  have hnone := OsxStream.step_pushes hpush hstep
  have hsize := (h.relayed.few hfew).2
  refine ⟨h.staged, ⟨fun i => ?_, fun i => ?_, h.relayed.busy⟩, ?_, ?_⟩
  · simpa [tradesOf] using h.relayed.trades i
  · simpa [topsOf, hnone] using h.relayed.tops i
  · rw [topOfBookLog_append]
    exact h.topOfBook.step hstep (fun i => by simpa [hnone] using hsize i)
  · simpa using h.trades

/-- The trade reader takes a turn, or is called. -/
theorem Kept.readTrades (h : Kept lap s log) (hfew : Few log)
    {action : OsxStream.Action TradeExecution count}
    (hpush : ∀ i item, action ≠ .push i item)
    {reader : StreamReader TradeExecution count}
    {event : OsxStream.Event TradeExecution count}
    (hstep : s.trades.step action = .ok (reader, event)) :
    Kept lap { s with trades := reader } (log ++ [.trades event]) := by
  have hnone := OsxStream.step_pushes hpush hstep
  have hsize := (h.relayed.few hfew).1
  refine ⟨h.staged, ⟨fun i => ?_, fun i => ?_, h.relayed.busy⟩, ?_, ?_⟩
  · simpa [tradesOf, hnone] using h.relayed.trades i
  · simpa [topsOf] using h.relayed.tops i
  · simpa using h.topOfBook
  · rw [tradesLog_append]
    exact h.trades.step hstep (fun i => by simpa [hnone] using hsize i)

/-- What the log says of a push. -/
def pushOf (shard : Fin count) : Item → Event count
  | .trade execution => .trades (.pushed shard execution)
  | .topOfBook update => .topOfBook (.pushed shard update)

/-- What a push is: the oldest item still to be pushed goes to its buffer. -/
theorem publishStep_ok {shard : Fin count}
    (h : s.publishStep shard = .ok (s', event)) :
    ∃ item items, s.publishing shard = item :: items ∧
      event = pushOf shard item ∧
      s' = { s with
        publishing := Function.update s.publishing shard items
        trades := match item with
          | .trade execution => s.trades.push shard execution
          | .topOfBook _ => s.trades
        topOfBook := match item with
          | .trade _ => s.topOfBook
          | .topOfBook update => s.topOfBook.push shard update } := by
  rw [Server.publishStep] at h
  split at h
  · cases h
  · rename_i item items hitems
    refine ⟨item, items, hitems, ?_⟩
    cases item with
    | trade execution | topOfBook update =>
        cases h
        exact ⟨rfl, rfl⟩

/-- The item is no longer to be pushed, but was. -/
theorem Relayed.publish (h : Relayed s log) {shard : Fin count} {item : Item}
    {items : List Item} (hitems : s.publishing shard = item :: items)
    (hpublishing : s'.publishing = Function.update s.publishing shard items)
    (hsame : s'.core = s.core) : Relayed s' (log ++ [pushOf shard item]) := by
  refine ⟨fun i => ?_, fun i => ?_, fun i hne => ?_⟩
  · have hi := h.trades i
    rw [hpublishing]
    by_cases heq : shard = i
    · subst heq
      cases item <;>
        simpa [pushOf, tradesOf, hitems, Item.trade?, List.filterMap_cons]
          using hi
    · rw [Function.update_of_ne (Ne.symm heq)]
      cases item <;> simpa [pushOf, tradesOf, heq] using hi
  · have hi := h.tops i
    rw [hpublishing]
    by_cases heq : shard = i
    · subst heq
      cases item <;>
        simpa [pushOf, topsOf, hitems, Item.topOfBook?, List.filterMap_cons]
          using hi
    · rw [Function.update_of_ne (Ne.symm heq)]
      cases item <;> simpa [pushOf, topsOf, heq] using hi
  · -- the shard's thread still has the rest to push
    rw [hsame]
    rw [hpublishing] at hne
    by_cases heq : i = shard
    · subst heq
      exact h.busy i (hitems ▸ List.cons_ne_nil _ _)
    · rw [Function.update_of_ne heq] at hne
      exact h.busy i hne

/-- **A PUSH** moves an item from its shard's thread to its buffer. -/
theorem Kept.publish (h : Kept lap s log) (hfew : Few log) {shard : Fin count}
    (hstep : s.publishStep shard = .ok (s', event)) :
    Kept lap s' (log ++ [event]) := by
  obtain ⟨item, items, hitems, rfl, hs'⟩ := publishStep_ok hstep
  have hrelayed : Relayed s' (log ++ [pushOf shard item]) :=
    h.relayed.publish hitems (by rw [hs']) (by rw [hs'])
  have hsize := hrelayed.few (by
    intro i
    cases item <;> simpa [pushOf, tradesOf, topsOf] using hfew i)
  subst hs'
  cases item with
  | trade execution =>
      refine ⟨h.staged, hrelayed, by simpa [pushOf] using h.topOfBook, ?_⟩
      have hone := hsize.1
      rw [tradesLog_append] at hone ⊢
      exact h.trades.step
        (show StreamReader.step _ (.push shard execution) = _ from rfl) hone
  | topOfBook update =>
      refine ⟨h.staged, hrelayed, ?_, by simpa [pushOf] using h.trades⟩
      have hone := hsize.2
      rw [topOfBookLog_append] at hone ⊢
      exact h.topOfBook.step
        (show StreamReader.step _ (.push shard update) = _ from rfl) hone

variable {hash : SymbolId → Nat} [NeZero count]

/-- The server takes a step. -/
theorem Kept.serve (h : Kept lap s log)
    {action : OsxServerRun.Action count} {core : OsxServerRun.Server count}
    {event : OsxServerRun.Event count} (hno : ∀ binds, action ≠ .start binds)
    (hfree : ¬ s.Busy action)
    (hstep : s.core.step hash action = .ok (core, event)) :
    Kept lap { s with
        core := core
        publishing := Server.handOver s.publishing event }
      (log ++ [.server event]) := by
  have hsees : Sees hash s.core core action event := by
    by_cases howner : action = .owner
    · subst howner
      exact (ownerStep_sees h.staged hstep).sees
    · exact (step_sees hno howner hstep).1
  refine ⟨(OsxServerRun.step_turn h.staged hno hstep).1,
    h.relayed.serve h.staged.simulation.controlled hfree hsees, ?_, ?_⟩
  · simpa using h.topOfBook
  · simpa using h.trades

end Kept

end OsxBroadcast
