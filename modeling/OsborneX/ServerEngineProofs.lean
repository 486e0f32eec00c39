import OsborneX.ServerRunProofs

/-! # The server as one engine

    Once the server is down there is one list of all the orders its connections
    read, each connection's in its order, such that the books, and all that was
    published, are what one shard makes of the symbol's orders alone. -/

namespace OsxServerRun

open OsxShard OsxListener Execution
open OsxSimulation (Simulation shardForSymbol accepted processedAt)
open OsxSharding (bare ofSymbol)

variable {count : Nat}

/-! ## What the handler is invoked with -/

theorem invoked_append (log log' : List (Event count)) :
    invoked (log ++ log') = invoked log ++ invoked log' :=
  List.filterMap_append

section Step

variable {hash : SymbolId → Nat} [NeZero count] {s s' : Server count}
  {event : Event count}

theorem simulate_event {action : OsxSimulation.Action count}
    (h : s.simulate hash action = .ok (s', event)) : invoked [event] = [] := by
  obtain ⟨simulation, event', -, -, rfl⟩ := simulate_ok h
  rfl

/-- The owner hands no order to the handler. -/
theorem ownerStep_event (h : s.ownerStep hash = .ok (s', event)) :
    invoked [event] = [] := by
  rw [Server.ownerStep] at h
  cases howner : s.owner with
  | idle =>
      rw [howner] at h
      cases h
  | startingSimulation binds =>
      rw [howner] at h
      dsimp only at h
      split at h
      · split at h <;> cases h
        rfl
      · exact simulate_event h
  | startingListener binds =>
      rw [howner] at h
      dsimp only at h
      split at h
      · cases h
        rfl
      · split at h
        · split at h <;> cases h
          rfl
        · cases h
          rfl
  | stoppingListener | joiningAccept | joiningPump =>
      rw [howner] at h
      dsimp only at h
      split at h <;> cases h <;> rfl
  | joiningConnections connections =>
      rw [howner] at h
      cases connections with
      | nil =>
          cases h
          rfl
      | cons c connections =>
          dsimp only at h
          split at h
          · cases h
            rfl
          · split at h <;> cases h
            rfl
  | stoppingPump =>
      rw [howner] at h
      cases h
      rfl
  | stoppingSimulation =>
      rw [howner] at h
      obtain ⟨⟨s₁, event₁⟩, hsim, heq⟩ := bind_ok h
      cases heq
      exact simulate_event hsim
  | drainingSimulation =>
      rw [howner] at h
      dsimp only at h
      split at h
      · cases h
        rfl
      · exact simulate_event h

/-- What an action hands to the handler. -/
def Action.handed : Action count → List (ThreadId × OrderMessage)
  | .receive id message => [(id, message)]
  | _ => []

/-- **THE HANDLER IS INVOKED** by the turn that read an order, and with it. -/
theorem step_invoked {action : Action count}
    (h : s.step hash action = .ok (s', event)) :
    invoked [event] = action.handed := by
  cases action with
  | start binds =>
      rw [Server.step, Server.start] at h
      split at h
      · split at h
        · cases h
          rfl
        · obtain ⟨⟨s₁, event₁⟩, hsim, heq⟩ := bind_ok h
          cases heq
          exact simulate_event hsim
      · cases h
  | stop =>
      rw [Server.step, Server.stop] at h
      split at h
      · split at h <;> cases h <;> rfl
      · cases h
  | owner => exact ownerStep_event h
  | accept client =>
      rw [Server.step, Server.acceptStep] at h
      split at h
      · cases h
      · cases h
      · cases h
        rfl
      · split at h
        · obtain ⟨l', -, heq⟩ := bind_ok h
          cases heq
          rfl
        · cases h
          rfl
  | connection id =>
      rw [Server.step, Server.connectionStep] at h
      split at h
      · cases h
        rfl
      · split at h <;> cases h
        split <;> rfl
      · cases h
  | receive id message =>
      rw [Server.step] at h
      split at h <;> cases h
      rfl
  | hangUp id =>
      rw [Server.step] at h
      split at h <;> cases h
      rfl
  | pump now =>
      rw [Server.step, Server.pumpStep] at h
      split at h
      · cases h
      · cases h
      · split at h <;> cases h <;> rfl
      · obtain ⟨⟨s₁, event₁⟩, hsim, heq⟩ := bind_ok h
        cases heq
        exact simulate_event hsim
  | worker shard => exact simulate_event h

end Step

/-! ## One engine -/

/-- What the server has done for a symbol: the book is that of the shard, and
    what was published for the symbol's messages is what the shard published. -/
structure Executed (hash : SymbolId → Nat) [NeZero count] (s : Server count)
    (log : List (Event count)) (symbol : SymbolId) (shard : Shard)
    (published : List Published) : Prop where
  agrees : Agrees symbol
    (s.simulation.lanes (shardForSymbol hash count symbol)).shard shard
  published : ((processedAt (shardForSymbol hash count symbol)
      (simulationLog log)).filter (fun d => d.1.symbol = symbol)).map Prod.snd
    = published

section Engine

variable {hash : SymbolId → Nat} [NeZero count]
  {inboundCapacity inboundQueueCapacity : Nat} {binds : Bool}
  {actions : List (Action count)} {s : Server count} {log : List (Event count)}

/-- The orders as they were stamped, each with the connection it came from. -/
theorem run_engine
    (hno : ∀ action ∈ actions, ∀ binds, action ≠ .start binds)
    (hrun : execute (Server.step hash)
      (.new count inboundCapacity inboundQueueCapacity)
      (.start binds :: actions) = .ok (s, log))
    (hstopped : s.Stopped) :
    ∃ orders : List (ThreadId × OrderMessage),
      (∀ id, (orders.filter (fun d => d.1 = id)).map (fun d => bare d.2)
        = (invokedBy id log).map bare) ∧
      (∀ d ∈ orders, d.2.ingressSequence < 2 ^ 64) ∧
      ∀ symbol, ∃ shard published,
        execute Shard.process .empty (ofSymbol symbol (orders.map Prod.snd))
          = .ok (shard, published) ∧
        Executed hash s log symbol shard published := by
  obtain ⟨hhandled, hpushed, hpending, submitted, hsim, hpopped⟩ :=
    run_down hno hrun hstopped
  obtain ⟨-, hat⟩ := OsxSimulation.run_account
    (OsxSimulation.controlled_new inboundCapacity)
    (OsxSimulation.account_new inboundCapacity) hsim
  rw [List.nil_append] at hat
  obtain ⟨hstamped, hrouted⟩ := OsxSimulation.run_accepted hsim
  have hsequences := OsxSimulation.run_sequences hsim
  rw [← hpopped] at hstamped
  have hsnd := sourced_snd hpushed hstamped
  refine ⟨sourced log, fun id => ?_, fun d hd => ?_, fun symbol => ?_⟩
  · have hbare := sourced_bare hpushed hstamped
    have hfilter : ∀ tagged : List (ThreadId × OrderMessage),
        (tagged.filter (fun d => d.1 = id)).map (fun d => bare d.2)
          = ((tagged.map untagged).filter (fun d => d.1 = id)).map Prod.snd := by
      intro tagged
      rw [List.filter_map, List.map_map]
      rfl
    rw [hfilter, hbare, ← hfilter, hhandled id, pushedBy, List.map_map]
    rfl
  · have hmem : d.2 ∈ (sourced log).map Prod.snd := List.mem_map_of_mem hd
    rw [hsnd] at hmem
    have hmem := List.mem_map_of_mem (f := OrderMessage.ingressSequence) hmem
    rw [hsequences] at hmem
    obtain ⟨n, -, hn⟩ := List.mem_map.mp hmem
    rw [← hn]
    exact Nat.mod_lt _ (Nat.two_pow_pos 64)
  · rw [hsnd]
    -- the symbol's orders, as its shard processed them
    have hown : ((processedAt (shardForSymbol hash count symbol)
          (simulationLog log)).map Prod.fst).filter
        (fun message => message.symbol = symbol)
        = ofSymbol symbol (accepted (simulationLog log)) := by
      rw [OsxSharding.processed_idle (hat _) (hpending _)]
      exact OsxSharding.acceptedAt_symbol symbol hrouted
    obtain ⟨t, hrun', hagrees⟩ := run_symbol symbol (hat _).applied
    rw [← hown, List.filter_map]
    exact ⟨t, _, hrun', hagrees, rfl⟩

end Engine

/-- Orders that are, connection by connection, those the handler was invoked
    with, are these in some order, the stamps aside. -/
theorem read_perm {log : List (Event count)}
    {orders : List (ThreadId × OrderMessage)}
    (hread : ∀ id, (orders.filter (fun d => d.1 = id)).map (fun d => bare d.2)
      = (invokedBy id log).map bare) :
    ((orders.map Prod.snd).map bare).Perm
      (((invoked log).map Prod.snd).map bare) := by
  have hfilter : ∀ (id : ThreadId) (ds : List (ThreadId × OrderMessage)),
      (ds.map untagged).filter (fun d => d.1 = id)
        = ((ds.filter (fun d => d.1 = id)).map (fun d => bare d.2)).map
          (Prod.mk id) := by
    intro id ds
    rw [List.filter_map, List.map_map]
    refine List.map_congr_left (fun d hd => ?_)
    have hid : d.1 = id := of_decide_eq_true (List.mem_filter.mp hd).2
    rw [← hid]
    rfl
  have hperm : (orders.map untagged).Perm ((invoked log).map untagged) := by
    refine perm_of_keys Prod.fst (fun id => ?_)
    have hsnd : ∀ ds : List (ThreadId × OrderMessage),
        (ds.map Prod.snd).map bare = ds.map (fun d => bare d.2) :=
      fun ds => List.map_map
    rw [hfilter, hfilter, hread, invokedBy_eq, hsnd]
  have hsnd := hperm.map Prod.snd
  rw [List.map_map, List.map_map] at hsnd
  rw [List.map_map, List.map_map]
  exact hsnd

end OsxServerRun
