import OsborneX.BroadcastPhaseProofs
import OsborneX.ServerEngineProofs

/-! # The broadcasting server — what is sent is what one engine makes of the orders

    A run of the server with its broadcaster is a run of the server without
    (`run_core`).  So the server's account holds: once it is down there is one
    list of all the orders the clients sent, each client's in its order, and
    each shard has processed those of its symbols.  Every datagram is a trade or
    an update that some message made; of what was made only items that were
    overwritten in a buffer were not sent, and they are counted. -/

namespace OsxBroadcast

open OsxShard Execution
open OsxStream (StreamReader pushedTo deliveredFrom delivered Streaming Drained
  AtEnd)
open OsxSimulation (Simulation shardForSymbol accepted)
open OsxServerRun (Staged sourced invokedBy)
open OsxSharding (bare ofSymbol orderAt100)
open OsxListener (ThreadId)

variable {count : Nat}

/-! ## Whole runs -/

section Run

variable {hash : SymbolId → Nat} [NeZero count] {lap : Nat}
  {inboundCapacity outboundCapacity inboundQueueCapacity : Nat}
  {s s' : Server count} {log : List (Event count)} {event : Event count}

/-- `start` of a new server. -/
theorem start_kept {binds : Bool}
    (h : (Server.new count inboundCapacity outboundCapacity
      inboundQueueCapacity).step hash (.server (.start binds))
        = .ok (s, event)) :
    Kept (OsxRingBuffer.bitCeil
        (if outboundCapacity = 0 then 1 else outboundCapacity)) s [event] ∧
      Phased s [event] := by
  have hserve : (Server.new count inboundCapacity outboundCapacity
      inboundQueueCapacity).serve hash (.start binds) = .ok (s, event) := h
  obtain ⟨core, event', hstart, rfl, rfl⟩ := serve_ok hserve
  obtain ⟨hstaged, -⟩ := OsxServerRun.start_turn hstart
  obtain ⟨⟨s₁, event₁⟩, hsim, heq⟩ := bind_ok hstart
  obtain ⟨simulation, event'', hsimulation, rfl, rfl⟩ :=
    OsxServerRun.simulate_ok hsim
  cases heq
  obtain ⟨rfl, rfl⟩ := OsxServerRun.start_place rfl rfl hsimulation
  have hlap : OsxRingBuffer.bitCeil (if 1024 = 0 then 1 else 1024) = 1024 := by
    decide
  refine ⟨⟨hstaged, ⟨fun _ => rfl, fun _ => rfl, fun _ hne => absurd rfl hne⟩,
    OsxStream.streaming_new count outboundCapacity, ?_⟩, Or.inl ⟨binds, rfl⟩⟩
  have htrades := OsxStream.streaming_new (T := TradeExecution) count 1024
  rw [hlap] at htrades
  exact htrades

/-- **EVERY RUN** keeps the server and its broadcaster. -/
theorem run_kept {binds : Bool} {actions : List (Action count)}
    (hlap : OsxRingBuffer.bitCeil
      (if outboundCapacity = 0 then 1 else outboundCapacity) = lap)
    (hno : ∀ action ∈ actions, ∀ binds, action ≠ .server (.start binds))
    (h : execute (Server.step hash)
      (.new count inboundCapacity outboundCapacity inboundQueueCapacity)
      (.server (.start binds) :: actions) = .ok (s, log)) (hfew : Few log) :
    Kept lap s log ∧ Phased s log := by
  subst hlap
  obtain ⟨s₁, event, log', hstart, hrest, rfl⟩ := execute_cons_ok h
  have hfirst := start_kept hstart
  -- the induction is on the steps after the first
  refine execute_trace
    (I := fun actions s log =>
      (∀ action ∈ actions, ∀ binds, action ≠ .server (.start binds)) →
      Few (event :: log) →
      Kept _ s (event :: log) ∧ Phased s (event :: log))
    ?_ (fun _ _ => hfirst) hrest hno hfew
  intro actions s log action s' event' ih hstep hno hfew
  rw [← List.cons_append] at hfew ⊢
  obtain ⟨hkept, hphased⟩ :=
    ih (fun a ha => hno a (List.mem_append_left _ ha)) hfew.before
  exact hkept.step hphased hfew.before
    (hno action (List.mem_append_right _ List.mem_cons_self)) hstep

/-- What the server without its broadcaster sees of a step: nothing, or a step
    of its own. -/
theorem step_core {action : Action count}
    (h : s.step hash action = .ok (s', event)) :
    (s'.core = s.core ∧ serverLog [event] = []) ∨
    ∃ turn event', action = .server turn ∧ event = .server event' ∧
      s.core.step hash turn = .ok (s'.core, event') := by
  have hsubscribe : ∀ {s₁ s₂ : Server count} {turn} {event : Event count},
      s₁.subscribe turn = .ok (s₂, event) →
        s₂.core = s₁.core ∧ serverLog [event] = [] := by
    intro s₁ s₂ turn event hok
    obtain ⟨reader, event', -, rfl, rfl⟩ := subscribe_ok hok
    exact ⟨rfl, rfl⟩
  have htrades : ∀ {s₁ s₂ : Server count} {turn} {event : Event count},
      s₁.readTrades turn = .ok (s₂, event) →
        s₂.core = s₁.core ∧ serverLog [event] = [] := by
    intro s₁ s₂ turn event hok
    obtain ⟨reader, event', -, rfl, rfl⟩ := readTrades_ok hok
    exact ⟨rfl, rfl⟩
  have hserve : ∀ {s₁ : Server count} {turn} {event : Event count},
      s.serve hash turn = .ok (s₁, event) →
        ∃ event', event = .server event' ∧
          s.core.step hash turn = .ok (s₁.core, event') := by
    intro s₁ turn event hok
    obtain ⟨core, event', hcore, rfl, rfl⟩ := serve_ok hok
    exact ⟨event', rfl, hcore⟩
  cases action with
  | publish shard =>
      obtain ⟨item, items, -, rfl, rfl⟩ := publishStep_ok h
      cases item with
      | trade execution | topOfBook update => exact Or.inl ⟨rfl, rfl⟩
  | pollTopOfBook => exact Or.inl (hsubscribe h)
  | pollTrades => exact Or.inl (htrades h)
  | server turn =>
      obtain ⟨-, hturn⟩ := serverStep_ok h
      rcases hturn with ⟨rfl, hturn⟩ | ⟨-, hturn⟩
      · rw [Server.ownerStep] at hturn
        split at hturn
        · split at hturn
          · obtain ⟨⟨s₁, event₁⟩, hok, heq⟩ := bind_ok hturn
            cases heq
            have hsame := hsubscribe hok
            exact Or.inl hsame
          · obtain ⟨⟨s₁, event₁⟩, hok, heq⟩ := bind_ok hturn
            cases heq
            have hsame := htrades hok
            exact Or.inl hsame
          · obtain ⟨event', rfl, hcore⟩ := hserve hturn
            exact Or.inr ⟨_, event', rfl, rfl, hcore⟩
        · split at hturn
          · obtain ⟨⟨s₁, event₁⟩, hok, heq⟩ := bind_ok hturn
            cases heq
            have hsame := hsubscribe hok
            exact Or.inl hsame
          · split at hturn
            · obtain ⟨⟨s₁, event₁⟩, hok, heq⟩ := bind_ok hturn
              cases heq
              have hsame := htrades hok
              exact Or.inl hsame
            · exact Or.inl (hsubscribe hturn)
          · split at hturn
            · obtain ⟨⟨s₁, event₁⟩, hok, heq⟩ := bind_ok hturn
              cases heq
              obtain ⟨event', rfl, hcore⟩ := hserve hok
              exact Or.inr ⟨_, event', rfl, rfl, hcore⟩
            · exact Or.inl (htrades hturn)
          · obtain ⟨event', rfl, hcore⟩ := hserve hturn
            exact Or.inr ⟨_, event', rfl, rfl, hcore⟩
        · obtain ⟨event', rfl, hcore⟩ := hserve hturn
          exact Or.inr ⟨_, event', rfl, rfl, hcore⟩
      · obtain ⟨event', rfl, hcore⟩ := hserve hturn
        exact Or.inr ⟨turn, event', rfl, rfl, hcore⟩

/-- The run of the server inside a run of the server and its broadcaster. -/
theorem run_core {actions : List (Action count)} :
    ∀ {s t : Server count} {log : List (Event count)},
      execute (Server.step hash) s actions = .ok (t, log) →
      ∃ turns, (∀ turn ∈ turns, .server turn ∈ actions) ∧
        execute (OsxServerRun.Server.step hash) s.core turns
          = .ok (t.core, serverLog log) := by
  induction actions with
  | nil =>
      intro s t log h
      cases h
      exact ⟨[], fun _ hmem => absurd hmem List.not_mem_nil, rfl⟩
  | cons action actions ih =>
      intro s t log h
      obtain ⟨s₁, event, log', hstep, hrest, rfl⟩ := execute_cons_ok h
      obtain ⟨turns, hturns, hrun⟩ := ih hrest
      have hlater : ∀ turn ∈ turns, Action.server turn ∈ action :: actions :=
        fun turn hmem => List.mem_cons_of_mem _ (hturns turn hmem)
      have hlog : serverLog (event :: log')
          = serverLog [event] ++ serverLog log' := serverLog_append [event] log'
      obtain ⟨hsame, hnone⟩ | ⟨turn, event', rfl, rfl, hcore⟩ := step_core hstep
      · refine ⟨turns, hlater, ?_⟩
        rw [hlog, hnone, ← hsame]
        exact hrun
      · refine ⟨turn :: turns, fun turn' hmem => ?_, execute_cons_of hcore hrun⟩
        rcases List.mem_cons.mp hmem with rfl | hmem
        · exact List.mem_cons_self
        · exact hlater turn' hmem

/-- The same from `start` on. -/
theorem run_server {binds : Bool} {actions : List (Action count)}
    (hno : ∀ action ∈ actions, ∀ binds, action ≠ .server (.start binds))
    (h : execute (Server.step hash)
      (.new count inboundCapacity outboundCapacity inboundQueueCapacity)
      (.server (.start binds) :: actions) = .ok (s, log)) :
    ∃ turns, (∀ turn ∈ turns, ∀ binds, turn ≠ .start binds) ∧
      execute (OsxServerRun.Server.step hash)
        (.new count inboundCapacity inboundQueueCapacity)
        (.start binds :: turns) = .ok (s.core, serverLog log) := by
  obtain ⟨s₁, event, log', hstart, hrest, rfl⟩ := execute_cons_ok h
  have hserve : (Server.new count inboundCapacity outboundCapacity
      inboundQueueCapacity).serve hash (.start binds) = .ok (s₁, event) := hstart
  obtain ⟨core, event', hcore, rfl, rfl⟩ := serve_ok hserve
  obtain ⟨turns, hturns, hrun⟩ := run_core hrest
  refine ⟨turns, fun turn hmem binds heq => ?_, execute_cons_of hcore hrun⟩
  exact hno _ (hturns turn hmem) binds (congrArg Action.server heq)

/-- Once the server is down, both readers have read every buffer to its end,
    and everything that was made was pushed. -/
theorem run_through {actions : List (Action count)} {binds : Bool}
    (hlap : OsxRingBuffer.bitCeil
      (if outboundCapacity = 0 then 1 else outboundCapacity) = lap)
    (hno : ∀ action ∈ actions, ∀ binds, action ≠ .server (.start binds))
    (h : execute (Server.step hash)
      (.new count inboundCapacity outboundCapacity inboundQueueCapacity)
      (.server (.start binds) :: actions) = .ok (s, log)) (hfew : Few log)
    (hstopped : s.core.Stopped) (shard : Fin count) :
    AtEnd s.trades.buffers (tradesLog log) shard ∧
      AtEnd s.topOfBook.buffers (topOfBookLog log) shard ∧
      tradesOf shard log = pushedTo shard (tradesLog log) ∧
      topsOf shard log = pushedTo shard (topOfBookLog log) := by
  obtain ⟨hkept, hphased⟩ := run_kept hlap hno h hfew
  have hnone := hkept.relayed.down hkept.staged.simulation.controlled
    (down_fallen hkept.staged (Or.inr hstopped)) shard
  have hthrough : Through s.topOfBook (topOfBookLog log) ∧
      Through s.trades (tradesLog log) := by
    have hplace : ∀ {owner}, s.core.owner = owner → owner = .idle :=
      fun heq => heq.symm.trans hstopped.1
    rw [Phased] at hphased
    cases hphase : s.broadcaster with
    | down =>
        rw [hphase] at hphased
        rcases hphased with ⟨binds, heq⟩ | ⟨-, hthrough⟩
        · cases hplace heq
        · exact hthrough
    | startingTrades =>
        rw [hphase] at hphased
        obtain ⟨⟨binds, heq⟩, -⟩ := hphased
        cases hplace heq
    | up =>
        rw [hphase] at hphased
        exact absurd hstopped hphased.1
    | stoppingTopOfBook | stoppingTrades =>
        rw [hphase] at hphased
        cases hplace hphased.1.1
  obtain ⟨⟨hidle, hdrained⟩, hidle', hdrained'⟩ := hthrough
  rw [Drained, hidle] at hdrained
  rw [Drained, hidle'] at hdrained'
  refine ⟨hdrained' shard, hdrained shard, ?_, ?_⟩
  · rw [hkept.relayed.trades, hnone, List.filterMap_nil, List.append_nil]
  · rw [hkept.relayed.tops, hnone, List.filterMap_nil, List.append_nil]

end Run

/-! ## Every loss is counted -/

/-- What was sent of what was made: everything but items older than the last
    lap, and these are counted. -/
structure Accounted {T : Type} (lap : Nat) (made sent : List T)
    (dropped : Nat) : Prop where
  newest : made.drop (made.length - lap) <:+ sent
  counted : sent.length + dropped = made.length

theorem accounted {T : Type} {lap : Nat} {r : StreamReader T count}
    {log : List (OsxStream.Event T count)} {made : List T} {shard : Fin count}
    (hs : Streaming lap r log) (hend : AtEnd r.buffers log shard)
    (hmade : made = pushedTo shard log) :
    Accounted lap made (deliveredFrom shard log) (r.droppedAt (shard, 0)) := by
  obtain ⟨hnewest, c, hc, hcounted⟩ := hs.tapped.ended hend
  subst hmade
  refine ⟨hnewest, ?_⟩
  rw [StreamReader.droppedAt]
  dsimp only
  rw [hc]
  exact hcounted

section Account

variable {lap : Nat} {s : Server count} {log : List (Event count)}

theorem Kept.sent (h : Kept lap s log) (shard : Fin count) :
    (sentTrades shard log).Sublist (tradesOf shard log) ∧
      (sentTops shard log).Sublist (topsOf shard log) := by
  constructor
  · refine (h.trades.tapped.sublist shard).trans ?_
    rw [h.relayed.trades]
    exact List.sublist_append_left ..
  · refine (h.topOfBook.tapped.sublist shard).trans ?_
    rw [h.relayed.tops]
    exact List.sublist_append_left ..

variable {hash : SymbolId → Nat} [NeZero count] {binds : Bool}
  {inboundCapacity outboundCapacity inboundQueueCapacity : Nat}
  {actions : List (Action count)}

theorem run_accounted
    (hlap : OsxRingBuffer.bitCeil
      (if outboundCapacity = 0 then 1 else outboundCapacity) = lap)
    (hno : ∀ action ∈ actions, ∀ binds, action ≠ .server (.start binds))
    (h : execute (Server.step hash)
      (.new count inboundCapacity outboundCapacity inboundQueueCapacity)
      (.server (.start binds) :: actions) = .ok (s, log)) (hfew : Few log)
    (hstopped : s.core.Stopped) (shard : Fin count) :
    Accounted 1024 (tradesOf shard log) (sentTrades shard log)
        (s.trades.droppedAt (shard, 0)) ∧
      Accounted lap (topsOf shard log) (sentTops shard log)
        (s.topOfBook.droppedAt (shard, 0)) := by
  obtain ⟨hkept, -⟩ := run_kept hlap hno h hfew
  obtain ⟨hends, hends', hmade, hmade'⟩ :=
    run_through hlap hno h hfew hstopped shard
  exact ⟨accounted hkept.trades hends hmade,
    accounted hkept.topOfBook hends' hmade'⟩

end Account

/-- **WHAT IS SENT IS WHAT WAS MADE**, shard by shard and in order; when `stop`
    has returned, the last lap of every buffer was sent, and whatever was not
    sent is counted.  So for every hash, every number of shards, all capacities
    and every interleaving. -/
theorem broadcast_account (hash : SymbolId → Nat)
    (count inboundCapacity outboundCapacity inboundQueueCapacity lap : Nat)
    [NeZero count]
    (hlap : OsxRingBuffer.bitCeil
      (if outboundCapacity = 0 then 1 else outboundCapacity) = lap)
    (binds : Bool) (actions : List (Action count)) (s : Server count)
    (log : List (Event count))
    (hno : ∀ action ∈ actions, ∀ binds, action ≠ .server (.start binds))
    (hrun : execute (Server.step hash)
      (.new count inboundCapacity outboundCapacity inboundQueueCapacity)
      (.server (.start binds) :: actions) = .ok (s, log)) (hfew : Few log) :
    (∀ shard, (sentTrades shard log).Sublist (tradesOf shard log) ∧
      (sentTops shard log).Sublist (topsOf shard log)) ∧
    (s.core.Stopped → ∀ shard,
      Accounted 1024 (tradesOf shard log) (sentTrades shard log)
        (s.trades.droppedAt (shard, 0)) ∧
      Accounted lap (topsOf shard log) (sentTops shard log)
        (s.topOfBook.droppedAt (shard, 0))) := by
  obtain ⟨hkept, -⟩ := run_kept hlap hno hrun hfew
  exact ⟨hkept.sent, run_accounted hlap hno hrun hfew⟩

/-- A client's order goes through the server to the shard's worker. -/
def sampleOrder (message : OrderMessage) : List (Action 1) :=
  let only : Fin 1 := ⟨0, Nat.one_pos⟩
  ([.connection 0, .receive 0 message, .connection 0, .pump 7, .pump 8,
    .worker only, .worker only, .worker only]
    : List (OsxServerRun.Action 1)).map .server

/-- A buy and a sell that trade, on buffers of one update: the first update is
    overwritten before it is read, and `stop` sends what is left. -/
def sampleRun : List (Action 1) :=
  let only : Fin 1 := ⟨0, Nat.one_pos⟩
  List.replicate 6 (.server .owner) ++
    [.server (.accept true), .server (.accept true)] ++
    sampleOrder (orderAt100 0 1 .buy 5) ++ [.publish only] ++
    sampleOrder (orderAt100 0 2 .sell 5) ++ [.publish only, .publish only] ++
    ([.stop, .owner, .accept false, .owner, .connection 0, .owner, .owner,
      .owner, .pump 9, .owner, .owner, .owner, .worker only, .owner, .owner,
      .owner, .owner] : List (OsxServerRun.Action 1)).map .server ++
    [.pollTopOfBook] ++ List.replicate 6 (.server .owner) ++ [.pollTrades] ++
    List.replicate 6 (.server .owner)

theorem sampleRun_run : ∃ s log,
    execute (Server.step id) (.new 1 4 1 4)
        (.server (.start true) :: sampleRun) = .ok (s, log) ∧
      s.core.Stopped ∧ Few log := by
  have heval : (execute (Server.step id) (.new 1 4 1 4)
      (.server (.start true) :: sampleRun)).toOption.map (fun r =>
        decide (r.1.core.Stopped ∧ ∀ shard,
          (tradesOf shard r.2).length < 2 ^ 64 ∧
            (topsOf shard r.2).length < 2 ^ 64)) = some true := by
    decide +kernel
  cases hrun : execute (Server.step id) (.new 1 4 1 4)
      (.server (.start true) :: sampleRun) with
  | error e =>
      rw [hrun] at heval
      cases heval
  | ok r =>
      rw [hrun] at heval
      obtain ⟨hstopped, hfew⟩ := of_decide_eq_true (Option.some.inj heval)
      exact ⟨r.1, r.2, rfl, hstopped, hfew⟩

theorem broadcast_account_one : ∃ s log,
    execute (Server.step id) (.new 1 4 1 4)
        (.server (.start true) :: sampleRun) = .ok (s, log) ∧
    s.core.Stopped ∧ ∀ shard,
      Accounted 1024 (tradesOf shard log) (sentTrades shard log)
        (s.trades.droppedAt (shard, 0)) ∧
      Accounted 1 (topsOf shard log) (sentTops shard log)
        (s.topOfBook.droppedAt (shard, 0)) := by
  obtain ⟨s, log, hrun, hstopped, hfew⟩ := sampleRun_run
  exact ⟨s, log, hrun, hstopped, (broadcast_account id 1 4 1 4 1 (by decide)
    true sampleRun s log (by decide) hrun hfew).2 hstopped⟩

/-! ## One engine -/

/-- What was sent of a symbol, beside what a shard published of it: in order,
    and all of it when the buffers of the symbol's shard were never lapped. -/
structure SentOf (hash : SymbolId → Nat) [NeZero count] (lap : Nat)
    (log : List (Event count)) (symbol : SymbolId) (published : List Published) :
    Prop where
  trades : ((delivered (tradesLog log)).filter
      (fun execution => execution.symbol = symbol)).Sublist
    (published.flatMap Published.trades)
  tops : ((delivered (topOfBookLog log)).filter
      (fun update => update.symbol = symbol)).Sublist
    (published.filterMap Published.top)
  everyTrade : (tradesOf (shardForSymbol hash count symbol) log).length ≤ 1024 →
    (delivered (tradesLog log)).filter
        (fun execution => execution.symbol = symbol)
      = published.flatMap Published.trades
  everyTop : (topsOf (shardForSymbol hash count symbol) log).length ≤ lap →
    (delivered (topOfBookLog log)).filter (fun update => update.symbol = symbol)
      = published.filterMap Published.top

/-- Of what a shard sent and counted nothing is missing when it was never
    lapped. -/
theorem Accounted.all {T : Type} {lap dropped : Nat} {made sent : List T}
    (h : Accounted lap made sent dropped) (hfew : made.length ≤ lap) :
    sent = made := by
  have hnewest := h.newest
  rw [Nat.sub_eq_zero_of_le hfew, List.drop_zero] at hnewest
  have hle := h.counted
  exact (hnewest.eq_of_length_le (by omega)).symm

/-- What the symbol's shard made of a symbol is what one shard published of it,
    and all that was sent of the symbol was read from its shard's buffers. -/
structure MadeOf (hash : SymbolId → Nat) [NeZero count]
    (log : List (Event count)) (symbol : SymbolId) (published : List Published) :
    Prop where
  trades : (tradesOf (shardForSymbol hash count symbol) log).filter
      (fun execution => execution.symbol = symbol)
    = published.flatMap Published.trades
  tops : (topsOf (shardForSymbol hash count symbol) log).filter
      (fun update => update.symbol = symbol)
    = published.filterMap Published.top
  sentTrades : (delivered (tradesLog log)).filter
      (fun execution => execution.symbol = symbol)
    = (sentTrades (shardForSymbol hash count symbol) log).filter
      (fun execution => execution.symbol = symbol)
  sentTops : (delivered (topOfBookLog log)).filter
      (fun update => update.symbol = symbol)
    = (sentTops (shardForSymbol hash count symbol) log).filter
      (fun update => update.symbol = symbol)

section Market

variable {hash : SymbolId → Nat} [NeZero count] {binds : Bool}
  {inboundCapacity outboundCapacity inboundQueueCapacity lap : Nat}
  {actions : List (Action count)} {s : Server count} {log : List (Event count)}

/-- The orders that were read, in the order of their stamps. -/
theorem run_market
    (hlap : OsxRingBuffer.bitCeil
      (if outboundCapacity = 0 then 1 else outboundCapacity) = lap)
    (hno : ∀ action ∈ actions, ∀ binds, action ≠ .server (.start binds))
    (hrun : execute (Server.step hash)
      (.new count inboundCapacity outboundCapacity inboundQueueCapacity)
      (.server (.start binds) :: actions) = .ok (s, log)) (hfew : Few log)
    (hstopped : s.core.Stopped) :
    ∃ orders : List (ThreadId × OrderMessage),
      (∀ id, (orders.filter (fun d => d.1 = id)).map (fun d => bare d.2)
        = (invokedBy id (serverLog log)).map bare) ∧
      (∀ d ∈ orders, d.2.ingressSequence < 2 ^ 64) ∧
      ∀ symbol, ∃ shard published,
        execute Shard.process .empty (ofSymbol symbol (orders.map Prod.snd))
          = .ok (shard, published) ∧
        MadeOf hash log symbol published := by
  obtain ⟨hkept, -⟩ := run_kept hlap hno hrun hfew
  -- the server's part is a run of its own
  obtain ⟨turns, hturns, hserver⟩ := run_server hno hrun
  obtain ⟨orders, hread, hsequence, hengine⟩ :=
    OsxServerRun.run_engine hturns hserver hstopped
  obtain ⟨-, -, -, submitted, hsim, -⟩ :=
    OsxServerRun.run_down hturns hserver hstopped
  obtain ⟨-, hat⟩ := OsxSimulation.run_account
    (OsxSimulation.controlled_new inboundCapacity)
    (OsxSimulation.account_new inboundCapacity) hsim
  rw [List.nil_append] at hat
  have hroute := OsxSharding.processedAt_route hat
    (OsxSimulation.run_accepted hsim).2
  have hpublished := fun shard => run_published (hat shard).applied
  refine ⟨orders, hread, hsequence, fun symbol => ?_⟩
  obtain ⟨t, published, hrun', hexecuted⟩ := hengine symbol
  refine ⟨t, published, hrun', ?_⟩
  -- what is sent of the symbol was made by its shard
  obtain ⟨htrades, htops⟩ := OsxSharding.pushed_symbol symbol
    (fun d hd => ⟨(hpublished (shardForSymbol hash count symbol) d hd).1,
      fun update hupdate => ((hpublished _ d hd).2 update hupdate).1⟩)
  have htradesRouted : ∀ i, ∀ execution ∈ deliveredFrom i (tradesLog log),
      shardForSymbol hash count execution.symbol = i := by
    intro i execution hmem
    obtain ⟨d, hd, htrade⟩ :=
      List.mem_flatMap.mp ((hkept.sent i).1.subset hmem)
    rw [(hpublished i d hd).1 execution htrade]
    exact hroute i d hd
  have htopsRouted : ∀ i, ∀ update ∈ deliveredFrom i (topOfBookLog log),
      shardForSymbol hash count update.symbol = i := by
    intro i update hmem
    obtain ⟨d, hd, htop⟩ :=
      List.mem_filterMap.mp ((hkept.sent i).2.subset hmem)
    rw [((hpublished i d hd).2 update htop).1]
    exact hroute i d hd
  refine ⟨?_, ?_, OsxStream.delivered_routed TradeExecution.symbol
      (shardForSymbol hash count) htradesRouted symbol,
    OsxStream.delivered_routed TopOfBookUpdate.symbol
      (shardForSymbol hash count) htopsRouted symbol⟩
  · rw [← hexecuted.published, List.flatMap_map]
    exact htrades
  · rw [← hexecuted.published, List.filterMap_map]
    exact htops

end Market

/-- **ONE ENGINE**: when `stop` has returned, there is one sequence of all the
    orders that were read, in which each client's stand as it sent them, such
    that what was sent of every symbol is what one shard makes of that symbol's
    orders alone, but for what was overwritten; and of every shard the last lap
    was sent and the rest is counted. -/
theorem broadcast_market (hash : SymbolId → Nat)
    (count inboundCapacity outboundCapacity inboundQueueCapacity lap : Nat)
    [NeZero count]
    (hlap : OsxRingBuffer.bitCeil
      (if outboundCapacity = 0 then 1 else outboundCapacity) = lap)
    (binds : Bool) (actions : List (Action count)) (s : Server count)
    (log : List (Event count))
    (hno : ∀ action ∈ actions, ∀ binds, action ≠ .server (.start binds))
    (hrun : execute (Server.step hash)
      (.new count inboundCapacity outboundCapacity inboundQueueCapacity)
      (.server (.start binds) :: actions) = .ok (s, log)) (hfew : Few log)
    (hstopped : s.core.Stopped) :
    (∃ orders : List (ThreadId × OrderMessage),
      (∀ id, (orders.filter (fun d => d.1 = id)).map (fun d => bare d.2)
        = (invokedBy id (serverLog log)).map bare) ∧
      ∀ symbol, ∃ shard published,
        execute Shard.process .empty (ofSymbol symbol (orders.map Prod.snd))
          = .ok (shard, published) ∧
        SentOf hash lap log symbol published) ∧
    ∀ shard,
      Accounted 1024 (tradesOf shard log) (sentTrades shard log)
        (s.trades.droppedAt (shard, 0)) ∧
      Accounted lap (topsOf shard log) (sentTops shard log)
        (s.topOfBook.droppedAt (shard, 0)) := by
  obtain ⟨hkept, -⟩ := run_kept hlap hno hrun hfew
  have haccounted := run_accounted hlap hno hrun hfew hstopped
  obtain ⟨orders, hread, -, hmade⟩ := run_market hlap hno hrun hfew hstopped
  refine ⟨⟨orders, hread, fun symbol => ?_⟩, haccounted⟩
  obtain ⟨t, published, hrun', hof⟩ := hmade symbol
  obtain ⟨htrade, htop⟩ := haccounted (shardForSymbol hash count symbol)
  refine ⟨t, published, hrun', ?_, ?_, fun hfew' => ?_, fun hfew' => ?_⟩
  · rw [hof.sentTrades, ← hof.trades]
    exact (hkept.sent _).1.filter _
  · rw [hof.sentTops, ← hof.tops]
    exact (hkept.sent _).2.filter _
  · rw [hof.sentTrades, ← hof.trades]
    exact congrArg _ (htrade.all hfew')
  · rw [hof.sentTops, ← hof.tops]
    exact congrArg _ (htop.all hfew')

theorem broadcast_market_one : ∃ (s : Server 1) (log : List (Event 1))
    (orders : List (ThreadId × OrderMessage)),
    execute (Server.step id) (.new 1 4 1 4)
        (.server (.start true) :: sampleRun) = .ok (s, log) ∧
    s.core.Stopped ∧
    (∀ symbol, ∃ shard published,
      execute Shard.process .empty (ofSymbol symbol (orders.map Prod.snd))
        = .ok (shard, published) ∧
      SentOf id 1 log symbol published) ∧
    ∀ shard,
      Accounted 1024 (tradesOf shard log) (sentTrades shard log)
        (s.trades.droppedAt (shard, 0)) ∧
      Accounted 1 (topsOf shard log) (sentTops shard log)
        (s.topOfBook.droppedAt (shard, 0)) := by
  obtain ⟨s, log, hrun, hstopped, hfew⟩ := sampleRun_run
  obtain ⟨⟨orders, -, horders⟩, haccounted⟩ :=
    broadcast_market id 1 4 1 4 1 (by decide) true sampleRun s log (by decide)
      hrun hfew hstopped
  exact ⟨s, log, orders, hrun, hstopped, horders, haccounted⟩

end OsxBroadcast
