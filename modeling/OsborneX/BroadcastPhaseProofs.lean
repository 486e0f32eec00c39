import OsborneX.BroadcastStepProofs

/-! # The broadcasting server — when its broadcaster is up

    Where the owner is says what the broadcaster's two readers do (`Phased`):
    they are started once the simulation has started, and stopped once it is
    down, so what they drain does not change any more.  Every step keeps this
    and what is pushed and read (`Kept.step`). -/

namespace OsxBroadcast

open OsxShard Execution
open OsxStream (StreamReader pushedTo deliveredFrom Streaming Drained AtEnd)
open OsxSimulation (Simulation Controlled)
open OsxServerRun (Staged)
open OsxSubscriber (Down)

variable {count : Nat}

/-! ## Where the owner is with the broadcaster -/

/-- A reader that was started, and not told to stop. -/
def Started {T : Type} (r : StreamReader T count) : Prop :=
  r.running = true ∧ r.stopper = .idle

/-- A reader that was stopped, with every buffer read to its end. -/
def Through {T : Type} (r : StreamReader T count)
    (log : List (OsxStream.Event T count)) : Prop :=
  r.stopper = .idle ∧ Drained r log

/-- `Simulation::stop` has returned, in `Server::stop`. -/
def Fallen (s : OsxServerRun.Server count) : Prop :=
  s.owner = .drainingSimulation ∧ s.simulation.owner = .idle

/-- `Simulation::start` is under way, or has just returned. -/
def Rising (s : OsxServerRun.Server count) : Prop :=
  ∃ binds, s.owner = .startingSimulation binds

/-- **THE BROADCASTER COMES UP AFTER THE SIMULATION AND IS DRAINED AFTER IT.** -/
def Phased (s : Server count) (log : List (Event count)) : Prop :=
  match s.broadcaster with
  | .down => Rising s.core ∨ s.core.Stopped ∧
      Through s.topOfBook (topOfBookLog log) ∧ Through s.trades (tradesLog log)
  | .startingTrades => Rising s.core ∧ s.core.simulation.owner = .idle ∧
      Started s.topOfBook
  | .up => ¬ s.core.Stopped ∧ Started s.topOfBook ∧ Started s.trades
  | .stoppingTopOfBook => Fallen s.core ∧
      Drained s.topOfBook (topOfBookLog log) ∧ Started s.trades
  | .stoppingTrades => Fallen s.core ∧
      Through s.topOfBook (topOfBookLog log) ∧ Drained s.trades (tradesLog log)

section Phased

variable {lap : Nat} {s s' : Server count} {log : List (Event count)}
  {event : Event count}

/-- The simulation is down when its part of `stop` is done, and after. -/
theorem down_fallen {core : OsxServerRun.Server count} (hs : Staged core)
    (h : Fallen core ∨ core.Stopped) : Down core.simulation := by
  rcases h with ⟨howner, hidle⟩ | ⟨howner, hrunning⟩
  · exact ⟨(hs.at_place howner).simulation.falling rfl, hidle⟩
  · refine (hs.at_place howner).simulation.down ?_
    rw [hrunning]
    exact Nat.le_refl _

/-- What is left of a phase when the core stays where it is, and each reader as
    far as it was. -/
theorem Phased.keeps (h : Phased s log) (hbroadcaster : s'.broadcaster = s.broadcaster)
    (hrising : Rising s.core → Rising s'.core)
    (hidle : Rising s.core → s.core.simulation.owner = .idle →
      s'.core.simulation.owner = .idle)
    (hstopped : s'.core.Stopped ↔ s.core.Stopped)
    (hfallen : Fallen s.core → Fallen s'.core)
    (htops : Started s.topOfBook → Started s'.topOfBook)
    (htrades : Started s.trades → Started s'.trades)
    (htopsDrained : Fallen s.core ∨ s.core.Stopped →
      s'.topOfBook.stopper = s.topOfBook.stopper ∧
      (Drained s.topOfBook (topOfBookLog log) →
        Drained s'.topOfBook (topOfBookLog (log ++ [event]))))
    (htradesDrained : Fallen s.core ∨ s.core.Stopped →
      s'.trades.stopper = s.trades.stopper ∧
      (Drained s.trades (tradesLog log) →
        Drained s'.trades (tradesLog (log ++ [event])))) :
    Phased s' (log ++ [event]) := by
  have hthrough : Fallen s.core ∨ s.core.Stopped →
      Through s.topOfBook (topOfBookLog log) →
      Through s'.topOfBook (topOfBookLog (log ++ [event])) := fun hplace ht =>
    ⟨(htopsDrained hplace).1.trans ht.1, (htopsDrained hplace).2 ht.2⟩
  have hthrough' : Fallen s.core ∨ s.core.Stopped →
      Through s.trades (tradesLog log) →
      Through s'.trades (tradesLog (log ++ [event])) := fun hplace ht =>
    ⟨(htradesDrained hplace).1.trans ht.1, (htradesDrained hplace).2 ht.2⟩
  rw [Phased] at h ⊢
  rw [hbroadcaster]
  cases hphase : s.broadcaster with
  | down =>
      rw [hphase] at h
      rcases h with h | ⟨hs, ht, ht'⟩
      · exact Or.inl (hrising h)
      · exact Or.inr ⟨hstopped.mpr hs, hthrough (Or.inr hs) ht,
          hthrough' (Or.inr hs) ht'⟩
  | startingTrades =>
      rw [hphase] at h
      exact ⟨hrising h.1, hidle h.1 h.2.1, htops h.2.2⟩
  | up =>
      rw [hphase] at h
      exact ⟨fun hs => h.1 (hstopped.mp hs), htops h.2.1, htrades h.2.2⟩
  | stoppingTopOfBook =>
      rw [hphase] at h
      exact ⟨hfallen h.1, (htopsDrained (Or.inl h.1)).2 h.2.1, htrades h.2.2⟩
  | stoppingTrades =>
      rw [hphase] at h
      exact ⟨hfallen h.1, hthrough (Or.inl h.1) h.2.1,
        (htradesDrained (Or.inl h.1)).2 h.2.2⟩

/-- A turn of the subscriber's thread. -/
theorem Phased.pollTopOfBook (h : Phased s log) (hk : Kept lap s log)
    (hfew : Few log) {reader : StreamReader TopOfBookUpdate count}
    {event : OsxStream.Event TopOfBookUpdate count}
    (hstep : s.topOfBook.step .poll = .ok (reader, event)) :
    Phased { s with topOfBook := reader } (log ++ [.topOfBook event]) := by
  obtain ⟨hrunning, hstopper⟩ := OsxStream.poll_keeps hstep
  refine h.keeps rfl id (fun _ => id) Iff.rfl id
    (fun hs => ⟨hrunning.trans hs.1, hstopper.trans hs.2⟩) id
    (fun _ => ⟨hstopper, fun hd => ?_⟩) (fun _ => ⟨rfl, fun hd => ?_⟩)
  · rw [topOfBookLog_append]
    exact hd.step hk.topOfBook (hk.relayed.few hfew).2
      (fun _ _ heq => by cases heq) hstep
  · simpa using hd

/-- A turn of the trade reader's thread. -/
theorem Phased.pollTrades (h : Phased s log) (hk : Kept lap s log)
    (hfew : Few log) {reader : StreamReader TradeExecution count}
    {event : OsxStream.Event TradeExecution count}
    (hstep : s.trades.step .poll = .ok (reader, event)) :
    Phased { s with trades := reader } (log ++ [.trades event]) := by
  obtain ⟨hrunning, hstopper⟩ := OsxStream.poll_keeps hstep
  refine h.keeps rfl id (fun _ => id) Iff.rfl id id
    (fun hs => ⟨hrunning.trans hs.1, hstopper.trans hs.2⟩)
    (fun _ => ⟨rfl, fun hd => ?_⟩) (fun _ => ⟨hstopper, fun hd => ?_⟩)
  · simpa using hd
  · rw [tradesLog_append]
    exact hd.step hk.trades (hk.relayed.few hfew).1
      (fun _ _ heq => by cases heq) hstep

/-- A push: there is none once the simulation is down. -/
theorem Phased.publish (h : Phased s log) (hk : Kept lap s log)
    {shard : Fin count} (hstep : s.publishStep shard = .ok (s', event)) :
    Phased s' (log ++ [event]) := by
  obtain ⟨item, items, hitems, rfl, rfl⟩ := publishStep_ok hstep
  have hup : ∀ {p : Prop}, Fallen s.core ∨ s.core.Stopped → p := by
    intro p hplace
    have hnone := hk.relayed.down hk.staged.simulation.controlled
      (down_fallen hk.staged hplace) shard
    rw [hnone] at hitems
    cases hitems
  refine h.keeps rfl id (fun _ => id) Iff.rfl id ?_ ?_ hup hup
  · cases item <;> exact id
  · cases item <;> exact id

theorem subscribe_ok {action : OsxStream.Action TopOfBookUpdate count}
    (h : s.subscribe action = .ok (s', event)) :
    ∃ reader event', s.topOfBook.step action = .ok (reader, event') ∧
      event = .topOfBook event' ∧ s' = { s with topOfBook := reader } := by
  rw [Server.subscribe] at h
  split at h
  · cases h
  · rename_i reader event' hstep
    cases h
    exact ⟨reader, event', hstep, rfl, rfl⟩

theorem readTrades_ok {action : OsxStream.Action TradeExecution count}
    (h : s.readTrades action = .ok (s', event)) :
    ∃ reader event', s.trades.step action = .ok (reader, event') ∧
      event = .trades event' ∧ s' = { s with trades := reader } := by
  rw [Server.readTrades] at h
  split at h
  · cases h
  · rename_i reader event' hstep
    cases h
    exact ⟨reader, event', hstep, rfl, rfl⟩

/-- A call of `start` leaves a reader started. -/
theorem started_of_start {T : Type} {r r' : StreamReader T count}
    {event : OsxStream.Event T count}
    (h : r.step .start = .ok (r', event)) : Started r' := by
  obtain ⟨r₁, hstart, heq⟩ := map_ok h
  cases heq
  obtain ⟨hidle, ⟨rfl, hrunning⟩ | ⟨rfl, -, -⟩⟩ := OsxStream.start_ok hstart
  · exact ⟨hrunning, hidle⟩
  · exact ⟨rfl, hidle⟩

/-- A call of `stop` leaves a started reader about to join. -/
theorem drained_of_stop {T : Type} {r r' : StreamReader T count}
    {log : List (OsxStream.Event T count)} {event : OsxStream.Event T count}
    (hstarted : Started r) (h : r.step .stop = .ok (r', event)) :
    Drained r' log := by
  obtain ⟨r₁, hstop, heq⟩ := map_ok h
  cases heq
  obtain ⟨-, ⟨-, hnot⟩ | ⟨rfl, -⟩⟩ := OsxStream.stop_ok hstop
  · rw [hstarted.1] at hnot
    cases hnot
  · exact trivial

variable {hash : SymbolId → Nat} [NeZero count]

/-- A step of the server that is not the owner's. -/
theorem Phased.serve (h : Phased s log) {action : OsxServerRun.Action count}
    {core : OsxServerRun.Server count} {event : OsxServerRun.Event count}
    (hno : ∀ binds, action ≠ .start binds) (howner : action ≠ .owner)
    (hstep : s.core.step hash action = .ok (core, event)) :
    Phased { s with
        core := core
        publishing := Server.handOver s.publishing event }
      (log ++ [.server event]) := by
  obtain ⟨-, ⟨hplace, hrunning, hsimulation, -⟩ | ⟨hidle, hrunning, rfl⟩⟩ :=
    step_sees hno howner hstep
  · refine h.keeps rfl ?_ (fun _ => hsimulation.trans) ?_ ?_ id id
      (fun _ => ⟨rfl, fun hd => ?_⟩) (fun _ => ⟨rfl, fun hd => ?_⟩)
    · rintro ⟨binds, heq⟩
      exact ⟨binds, hplace.trans heq⟩
    · rw [OsxServerRun.Server.Stopped, OsxServerRun.Server.Stopped]
      dsimp only
      rw [hplace, hrunning]
    · exact fun hf => ⟨hplace.trans hf.1, hsimulation.trans hf.2⟩
    · simpa using hd
    · simpa using hd
  · -- the owner was idle and the server up: only the phase `up` is left
    have hnot : ¬ Rising s.core := by
      rintro ⟨binds, heq⟩
      rw [hidle] at heq
      cases heq
    have hnot' : ¬ Fallen s.core := by
      rintro ⟨heq, -⟩
      rw [hidle] at heq
      cases heq
    have hup : ¬ s.core.Stopped := by
      rintro ⟨-, hdown⟩
      rw [hrunning] at hdown
      cases hdown
    refine h.keeps rfl (fun hr => absurd hr hnot) (fun hr => absurd hr hnot) ?_
      (fun hf => absurd hf hnot') id id ?_ ?_
    · exact iff_of_false (fun hs => by cases hs.1) hup
    · exact fun hplace => absurd hplace (not_or.mpr ⟨hnot', hup⟩)
    · exact fun hplace => absurd hplace (not_or.mpr ⟨hnot', hup⟩)

/-- The owner goes on in the server's own part of a call. -/
theorem Phased.serveOwner (h : Phased s log) (hs : Staged s.core)
    {core : OsxServerRun.Server count} {event : OsxServerRun.Event count}
    (hfallen : ¬ Fallen s.core)
    (hrisen : Rising s.core → s.core.simulation.owner = .idle →
      s.broadcaster = .up)
    (hstep : s.core.ownerStep hash = .ok (core, event)) :
    Phased { s with
        core := core
        publishing := Server.handOver s.publishing event }
      (log ++ [.server event]) := by
  have hsees := ownerStep_sees hs hstep
  rw [Phased] at h ⊢
  dsimp only
  cases hphase : s.broadcaster with
  | down =>
      rw [hphase] at h hrisen
      rcases h with ⟨binds, hplace⟩ | ⟨hstopped, -⟩
      · refine Or.inl ⟨binds, hsees.starting (fun hidle => ?_) binds hplace⟩
        cases hrisen ⟨binds, hplace⟩ hidle
      · -- the owner is in no call
        rw [OsxServerRun.Server.ownerStep, hstopped.1] at hstep
        cases hstep
  | startingTrades =>
      rw [hphase] at h hrisen
      cases hrisen h.1 h.2.1
  | up =>
      rw [hphase] at h
      refine ⟨fun hstopped => ?_, h.2.1, h.2.2⟩
      obtain ⟨hplace, hidle, -⟩ := hsees.stopped hstopped
      exact hfallen ⟨hplace, hidle⟩
  | stoppingTopOfBook | stoppingTrades =>
      rw [hphase] at h
      exact absurd h.1 hfallen

/-- The broadcaster is stopped, and the server is down. -/
theorem Phased.finish {core : OsxServerRun.Server count} {event : OsxServerRun.Event count}
    (hfallen : Fallen s.core)
    (htops : Through s.topOfBook (topOfBookLog log))
    (htrades : Through s.trades (tradesLog log))
    (hstep : s.core.ownerStep hash = .ok (core, event)) :
    Phased { s with
        core := core
        publishing := Server.handOver s.publishing event
        broadcaster := .down }
      (log ++ [.server event]) := by
  rw [OsxServerRun.Server.ownerStep, hfallen.1] at hstep
  dsimp only at hstep
  rw [hfallen.2] at hstep
  cases hstep
  refine Or.inr ⟨⟨rfl, rfl⟩, ?_, ?_⟩
  · simpa using htops
  · simpa using htrades

/-- **THE OWNER'S TURN**, in the server's calls or the broadcaster's. -/
theorem Kept.ownerStep (h : Kept lap s log) (hp : Phased s log)
    (hfew : Few log) (hfree : ¬ s.Busy .owner)
    (hstep : s.ownerStep hash = .ok (s', event)) :
    Kept lap s' (log ++ [event]) ∧ Phased s' (log ++ [event]) := by
  -- a turn that is the server's own
  have hserve : ∀ {s₁ : Server count} {event : Event count},
      s.serve hash .owner = .ok (s₁, event) → ¬ Fallen s.core →
      (Rising s.core → s.core.simulation.owner = .idle → s.broadcaster = .up) →
      Kept lap s₁ (log ++ [event]) ∧ Phased s₁ (log ++ [event]) := by
    intro s₁ event hok hfallen hrisen
    obtain ⟨core, event', hcore, rfl, rfl⟩ := serve_ok hok
    exact ⟨h.serve (fun _ heq => by cases heq) hfree hcore,
      hp.serveOwner h.staged hfallen hrisen hcore⟩
  rw [Phased] at hp
  rw [Server.ownerStep] at hstep
  split at hstep
  · rename_i binds hplace hidle
    have hnot : ¬ Fallen s.core := by
      rintro ⟨heq, -⟩
      rw [hplace] at heq
      cases heq
    cases hphase : s.broadcaster with
    | down =>
        rw [hphase] at hstep
        obtain ⟨⟨s₁, event₁⟩, hok, heq⟩ := bind_ok hstep
        obtain ⟨reader, event', hstart, rfl, rfl⟩ := subscribe_ok hok
        cases heq
        have hk := h.subscribe hfew (fun _ _ heq => by cases heq) hstart
        exact ⟨hk.place _,
          ⟨binds, hplace⟩, hidle, started_of_start hstart⟩
    | startingTrades =>
        rw [hphase] at hstep hp
        obtain ⟨⟨s₁, event₁⟩, hok, heq⟩ := bind_ok hstep
        obtain ⟨reader, event', hstart, rfl, rfl⟩ := readTrades_ok hok
        cases heq
        have hk := h.readTrades hfew (fun _ _ heq => by cases heq) hstart
        refine ⟨hk.place _,
          fun hstopped => ?_, hp.2.2, started_of_start hstart⟩
        have howner := hstopped.1
        dsimp only at howner
        rw [hplace] at howner
        cases howner
    | up =>
        rw [hphase] at hstep
        exact hserve hstep hnot (fun _ _ => hphase)
    | stoppingTopOfBook =>
        rw [hphase] at hp
        exact absurd hp.1 hnot
    | stoppingTrades =>
        rw [hphase] at hp
        exact absurd hp.1 hnot
  · rename_i hplace hidle
    have hfallen : Fallen s.core := ⟨hplace, hidle⟩
    have hnot : ¬ Rising s.core := by
      rintro ⟨binds, heq⟩
      rw [hplace] at heq
      cases heq
    cases hphase : s.broadcaster with
    | down =>
        rw [hphase] at hp
        rcases hp with hp | ⟨hstopped, -⟩
        · exact absurd hp hnot
        · have howner := hstopped.1
          rw [hplace] at howner
          cases howner
    | startingTrades =>
        rw [hphase] at hp
        exact absurd hp.1 hnot
    | up =>
        rw [hphase] at hstep hp
        obtain ⟨⟨s₁, event₁⟩, hok, heq⟩ := bind_ok hstep
        obtain ⟨reader, event', hstop, rfl, rfl⟩ := subscribe_ok hok
        cases heq
        have hk := h.subscribe hfew (fun _ _ heq => by cases heq) hstop
        exact ⟨hk.place _, hfallen,
          drained_of_stop hp.2.1 hstop, hp.2.2⟩
    | stoppingTopOfBook =>
        rw [hphase] at hstep hp
        dsimp only at hstep
        split at hstep
        · rename_i hstopper
          obtain ⟨⟨s₁, event₁⟩, hok, heq⟩ := bind_ok hstep
          obtain ⟨reader, event', hstop, rfl, rfl⟩ := readTrades_ok hok
          cases heq
          have hk := h.readTrades hfew (fun _ _ heq => by cases heq) hstop
          refine ⟨hk.place _, hfallen,
            ⟨hstopper, ?_⟩, drained_of_stop hp.2.2 hstop⟩
          simpa using hp.2.1
        · obtain ⟨reader, event', hturn, rfl, rfl⟩ := subscribe_ok hstep
          refine ⟨h.subscribe hfew (fun _ _ heq => by cases heq) hturn, ?_⟩
          rw [Phased, hphase]
          refine ⟨hfallen, ?_, hp.2.2⟩
          rw [topOfBookLog_append]
          exact hp.2.1.step h.topOfBook (h.relayed.few hfew).2
            (fun _ _ heq => by cases heq) hturn
    | stoppingTrades =>
        rw [hphase] at hstep hp
        dsimp only at hstep
        split at hstep
        · rename_i hstopper
          obtain ⟨⟨s₁, event₁⟩, hok, heq⟩ := bind_ok hstep
          obtain ⟨core, event', hcore, rfl, rfl⟩ := serve_ok hok
          cases heq
          have hk := h.serve (fun _ heq => by cases heq) hfree hcore
          exact ⟨hk.place _,
            Phased.finish hfallen hp.2.1 ⟨hstopper, hp.2.2⟩ hcore⟩
        · obtain ⟨reader, event', hturn, rfl, rfl⟩ := readTrades_ok hstep
          refine ⟨h.readTrades hfew (fun _ _ heq => by cases heq) hturn, ?_⟩
          rw [Phased, hphase]
          refine ⟨hfallen, ?_, ?_⟩
          · simpa using hp.2.1
          · rw [tradesLog_append]
            exact hp.2.2.step h.trades (h.relayed.few hfew).1
              (fun _ _ heq => by cases heq) hturn
  · rename_i hrising hfalling
    refine hserve hstep (fun hf => hfalling hf.1 hf.2) ?_
    rintro ⟨binds, heq⟩ hidle
    exact absurd hidle (hrising binds heq)

/-- **EVERY STEP** keeps the server and its broadcaster. -/
theorem Kept.step (h : Kept lap s log) (hp : Phased s log)
    (hfew : Few log) {action : Action count}
    (hno : ∀ binds, action ≠ .server (.start binds))
    (hstep : s.step hash action = .ok (s', event)) :
    Kept lap s' (log ++ [event]) ∧ Phased s' (log ++ [event]) := by
  cases action with
  | server action =>
      obtain ⟨hfree, ⟨rfl, hturn⟩ | ⟨howner, hserve⟩⟩ := serverStep_ok hstep
      · exact h.ownerStep hp hfew hfree hturn
      · obtain ⟨core, event', hcore, rfl, rfl⟩ := serve_ok hserve
        have hno' : ∀ binds, action ≠ .start binds :=
          fun binds heq => hno binds (congrArg Action.server heq)
        exact ⟨h.serve hno' hfree hcore, hp.serve hno' howner hcore⟩
  | publish shard => exact ⟨h.publish hfew hstep, hp.publish h hstep⟩
  | pollTopOfBook =>
      obtain ⟨reader, event', hturn, rfl, rfl⟩ := subscribe_ok hstep
      exact ⟨h.subscribe hfew (fun _ _ heq => by cases heq) hturn,
        hp.pollTopOfBook h hfew hturn⟩
  | pollTrades =>
      obtain ⟨reader, event', hturn, rfl, rfl⟩ := readTrades_ok hstep
      exact ⟨h.readTrades hfew (fun _ _ heq => by cases heq) hturn,
        hp.pollTrades h hfew hturn⟩

end Phased

end OsxBroadcast
