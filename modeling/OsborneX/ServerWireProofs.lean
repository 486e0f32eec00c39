import OsborneX.SendFailureProofs
import OsborneX.ServerEngineProofs
import OsborneX.ServerWireModel

/-! # The server on its sockets — from the clients' bytes to the books

    A run on sockets is a run of the server without, with the same log
    (`run_refines`); and what a connection's thread handed to the handler is
    what `connection_loop` makes of the bytes it has read (`run_streams`).  So
    what the clients wrote, however it was cut up on the way, is executed as by
    one engine, each client's orders in its order (`clients_engine`). -/

namespace OsxServerWire

open OsxShard OsxOrderEntry Execution
open OsxListener (ThreadId)
open OsxServerRun (Action.handed Event Executed invoked invokedBy
  invokedBy_append invokedBy_eq step_invoked)
open OsxSharding (bare ofSymbol)

variable {count : Nat}

/-! ## One pass of the loop -/

/-- A pass that hands an order on is one of the loop's. -/
theorem readFrame_some {events events' : List Readiness}
    {message : OrderMessage} (h : readFrame events = some (message, events')) :
    connectionLoop events = message :: connectionLoop events' := by
  rw [readFrame] at h
  cases hheader : recvAll headerSize events with
  | none =>
      rw [hheader] at h
      cases h
  | some r =>
      obtain ⟨bytes, events₁⟩ := r
      rw [hheader] at h
      dsimp only at h
      split at h
      · cases h
      · rename_i hspeaks
        split at h
        · cases h
        · rename_i hkind
          have hok : Accepted (readHeader bytes) := by
            rw [not_or, Decidable.not_not, Decidable.not_not] at hspeaks hkind
            exact ⟨hspeaks.1, hspeaks.2, hkind.1, hkind.2⟩
          rw [connectionLoop_header hheader, if_pos hok]
          cases hpayload : recvAll wireSize events₁ with
          | none =>
              rw [hpayload] at h
              cases h
          | some r =>
              rw [hpayload] at h
              cases h
              rfl

/-! ## Steps -/

section Step

variable {hash : SymbolId → Nat} [NeZero count] {s s' : Server count}
  {event : Event count} {action : Action count}

/-- A step is one of the server without its sockets; an order it reads was the
    next on the connection. -/
structure Refines (hash : SymbolId → Nat) [NeZero count]
    (s s' : Server count) (turn : OsxServerRun.Action count)
    (event : Event count) : Prop where
  core : s.core.step hash turn = .ok (s'.core, event)
  reads : ∀ id message, turn = .receive id message →
    readFrame (s.streams id) = some (message, s'.streams id) ∧
      ∀ id', id' ≠ id → s'.streams id' = s.streams id'
  stays : (∀ id message, turn ≠ .receive id message) → s'.streams = s.streams

theorem step_refines (h : s.step hash action = .ok (s', event)) :
    ∃ turn, Refines hash s s' turn event ∧
      ∀ binds, turn = .start binds → action = .server (.start binds) := by
  obtain ⟨⟨turn, streams⟩, hturn, h⟩ := bind_ok h
  obtain ⟨⟨core, event'⟩, hcore, heq⟩ := bind_ok h
  cases heq
  refine ⟨turn, ?_⟩
  cases action with
  | read id =>
      rw [Server.turnOf] at hturn
      cases hread : readFrame (s.streams id) with
      | none =>
          rw [hread] at hturn
          cases hturn
          exact ⟨⟨hcore, fun _ _ heq => (by cases heq), fun _ => rfl⟩,
            fun _ heq => (by cases heq)⟩
      | some r =>
          obtain ⟨message, events⟩ := r
          rw [hread] at hturn
          cases hturn
          refine ⟨⟨hcore, fun id' message' heq => ?_, fun hno => ?_⟩,
            fun _ heq => (by cases heq)⟩
          · cases heq
            refine ⟨?_, fun id' hne => Function.update_of_ne hne _ _⟩
            show readFrame (s.streams id) = some (message,
              Function.update s.streams id events id)
            rw [Function.update_self]
            exact hread
          · exact absurd rfl (hno id message)
  | giveUp id =>
      rw [Server.turnOf] at hturn
      split at hturn
      · cases hturn
      · cases hturn
        exact ⟨⟨hcore, fun _ _ heq => (by cases heq), fun _ => rfl⟩,
          fun _ heq => (by cases heq)⟩
  | server action =>
      cases action with
      | receive id message => cases hturn
      | hangUp id => cases hturn
      | start binds | stop | owner | accept client | connection id | pump now
      | worker shard =>
          cases hturn
          refine ⟨⟨hcore, fun _ _ heq => (by cases heq), fun _ => rfl⟩,
            fun _ heq => ?_⟩
          cases heq <;> rfl

omit [NeZero count] in
theorem invokedBy_invoked (id : ThreadId) {log : List (Event count)}
    (h : invoked log = []) : invokedBy id log = [] := by
  rw [invokedBy_eq, h]
  rfl

/-- What a connection's thread hands on, it takes off its stream. -/
theorem Refines.streams {turn : OsxServerRun.Action count}
    (h : Refines hash s s' turn event) (id : ThreadId) :
    connectionLoop (s.streams id)
      = invokedBy id [event] ++ connectionLoop (s'.streams id) := by
  have hinvoked := step_invoked h.core
  by_cases hreads : ∃ id' message, turn = .receive id' message
  · obtain ⟨id', message, rfl⟩ := hreads
    obtain ⟨hread, hothers⟩ := h.reads id' message rfl
    rw [invokedBy_eq, hinvoked]
    by_cases hid : id' = id
    · subst hid
      rw [readFrame_some hread]
      simp [Action.handed]
    · rw [hothers id (fun heq => hid heq.symm)]
      simp [Action.handed, hid]
  · have hno : ∀ id message, turn ≠ .receive id message :=
      fun id message heq => hreads ⟨id, message, heq⟩
    have hhanded : turn.handed = [] := by
      cases turn with
      | receive id message => exact absurd rfl (hno id message)
      | _ => rfl
    rw [invokedBy_invoked id (hinvoked.trans hhanded), h.stays hno]
    rfl

end Step

/-! ## Runs -/

section Run

variable {hash : SymbolId → Nat} [NeZero count]

/-- **A RUN ON SOCKETS REFINES** one without, turn by turn. -/
theorem run_refines {actions : List (Action count)} :
    ∀ {s t : Server count} {log : List (Event count)},
      execute (Server.step hash) s actions = .ok (t, log) →
      (∀ action ∈ actions, ∀ binds, action ≠ .server (.start binds)) →
      ∃ turns, execute (OsxServerRun.Server.step hash) s.core turns
          = .ok (t.core, log) ∧
        ∀ turn ∈ turns, ∀ binds, turn ≠ .start binds := by
  induction actions with
  | nil =>
      intro s t log h _
      cases h
      exact ⟨[], rfl, List.forall_mem_nil _⟩
  | cons action actions ih =>
      intro s t log h hno
      obtain ⟨s₁, event, log', hstep, hrest, rfl⟩ := execute_cons_ok h
      obtain ⟨turn, href, hstart⟩ := step_refines hstep
      obtain ⟨turns, hturns, hnostart⟩ :=
        ih hrest (fun a ha => hno a (List.mem_cons_of_mem _ ha))
      refine ⟨turn :: turns, execute_cons_of href.core hturns, ?_⟩
      intro a ha binds heq
      rcases List.mem_cons.mp ha with rfl | ha
      · exact hno action List.mem_cons_self binds (hstart binds heq)
      · exact hnostart a ha binds heq

/-- What was handed on of a connection, and what the loop would still hand on,
    is what the loop makes of the whole stream. -/
theorem run_streams {actions : List (Action count)} (id : ThreadId) :
    ∀ {s t : Server count} {log : List (Event count)},
      execute (Server.step hash) s actions = .ok (t, log) →
      connectionLoop (s.streams id)
        = invokedBy id log ++ connectionLoop (t.streams id) := by
  induction actions with
  | nil =>
      intro s t log h
      cases h
      rfl
  | cons action actions ih =>
      intro s t log h
      obtain ⟨s₁, event, log', hstep, hrest, rfl⟩ := execute_cons_ok h
      obtain ⟨turn, href, -⟩ := step_refines hstep
      have hcons : invokedBy id (event :: log')
          = invokedBy id [event] ++ invokedBy id log' :=
        invokedBy_append id [event] log'
      rw [href.streams id, ih hrest, hcons, List.append_assoc]

end Run

/-! ## What the clients wrote -/

theorem writes_initial {data : List UInt8} {taken : List Nat}
    {r : List UInt8 × Bool × List Nat} (h : Writes data taken r) :
    r.1 <+: data := by
  cases h with
  | all => exact List.prefix_refl _
  | part _ _ hdata | ended hdata => exact ⟨_, hdata.symm⟩

/-- A client that stops at its first failure has written a prefix of its
    frames. -/
theorem sendEach_initial (messages : List OrderMessage) :
    ∀ taken, (sendEach messages taken).1
      <+: framesBytes (messages.map frameOf) := by
  induction messages with
  | nil => exact fun _ => List.prefix_refl _
  | cons message messages ih =>
      intro taken
      have hframe := writes_initial (send_writes message taken)
      rw [sendEach, List.map_cons, framesBytes_cons]
      dsimp only
      by_cases hsent : (send message taken).2.1 = true
      · rw [if_pos hsent]
        show (send message taken).1 ++ (sendEach messages _).1 <+: _
        rw [send_sent hsent, List.prefix_append_right_inj]
        exact ih _
      · rw [if_neg hsent]
        exact hframe.trans (List.prefix_append _ _)

/-- Frames whose bytes stand at the front of others' are the first of them. -/
theorem framesBytes_initial {frames : List Frame} :
    ∀ {frames' : List Frame}, framesBytes frames <+: framesBytes frames' →
      frames <+: frames' := by
  induction frames with
  | nil => exact fun _ => List.nil_prefix
  | cons frame frames ih =>
      intro frames' h
      rw [framesBytes_cons] at h
      cases frames' with
      | nil =>
          have hlength := h.length_le
          rw [List.length_append, frame.length_bytes] at hlength
          exact absurd hlength (Nat.not_le_of_lt (Nat.lt_add_right _ (by decide)))
      | cons frame' frames' =>
          rw [framesBytes_cons] at h
          have hfront : frame.bytes = frame'.bytes := by
            refine (List.prefix_of_prefix_length_le
              ((List.prefix_append _ _).trans h) (List.prefix_append _ _)
              ?_).eq_of_length ?_
            · rw [frame.length_bytes, frame'.length_bytes]
            · rw [frame.length_bytes, frame'.length_bytes]
          obtain rfl := Frame.eq_of_bytes hfront
          rw [List.prefix_append_right_inj] at h
          exact List.cons_prefix_cons.mpr ⟨rfl, ih h⟩

/-- What reached the server from a client that sends some orders until it
    fails, with `OrderEntryClient` or with the Python client. -/
def Wrote (messages : List OrderMessage) (bytes : List UInt8) : Prop :=
  (∃ taken, bytes <+: (sendEach messages taken).1) ∨
    ∃ written, messages.mapM pythonFrame = some written ∧
      bytes <+: written.flatten

/-- Nothing failed, and all of it arrived. -/
def WroteAll (messages : List OrderMessage) (bytes : List UInt8) : Prop :=
  (∃ taken, (sendEach messages taken).2 = true ∧
    bytes = (sendEach messages taken).1) ∨
    ∃ written, messages.mapM pythonFrame = some written ∧
      bytes = written.flatten

section Wrote

variable {messages : List OrderMessage} {bytes : List UInt8}

theorem Wrote.isPrefix (h : Wrote messages bytes)
    (hsendable : ∀ message ∈ messages, Sendable message) :
    bytes <+: framesBytes (messages.map frameOf) := by
  rcases h with ⟨taken, h⟩ | ⟨written, hwritten, h⟩
  · exact h.trans (sendEach_initial messages taken)
  · rw [pythonFrames_eq hsendable] at hwritten
    cases hwritten
    rw [framesBytes, List.flatMap_map, List.flatMap_def]
    exact h

theorem WroteAll.wrote (h : WroteAll messages bytes) : Wrote messages bytes := by
  rcases h with ⟨taken, -, rfl⟩ | ⟨written, hwritten, rfl⟩
  · exact Or.inl ⟨taken, List.prefix_refl _⟩
  · exact Or.inr ⟨written, hwritten, List.prefix_refl _⟩

theorem WroteAll.eq (h : WroteAll messages bytes)
    (hsendable : ∀ message ∈ messages, Sendable message) :
    bytes = framesBytes (messages.map frameOf) := by
  rcases h with ⟨taken, hsent, h⟩ | ⟨written, hwritten, h⟩
  · rw [h, sendEach_sent hsent]
  · rw [pythonFrames_eq hsendable] at hwritten
    cases hwritten
    rw [framesBytes, List.flatMap_map, List.flatMap_def]
    exact h

/-- The loop hands on the first of the orders a client wrote. -/
theorem connectionLoop_wrote {events : List Readiness}
    (hd : Delivering events)
    (hsendable : ∀ message ∈ messages, Sendable message)
    (hwrote : Wrote messages (pending events)) :
    connectionLoop events <+: messages.map bare := by
  obtain ⟨frames, hlongest, hloop⟩ := connectionLoop_longest _ rfl hd
  have hframes : frames <+: messages.map frameOf :=
    framesBytes_initial (hlongest.isPrefix.trans (hwrote.isPrefix hsendable))
  have hmessages : messages.map bare
      = (messages.map frameOf).map Frame.message := by
    rw [List.map_map]
    exact List.map_congr_left
      (fun message hm => (frameOf_message (hsendable message hm)).symm)
  rw [hloop, hmessages]
  exact hframes.map _

/-- Nothing comes of nothing. -/
theorem connectionLoop_drained {events : List Readiness}
    (h : pending events = []) : connectionLoop events = [] := by
  cases hheader : recvAll headerSize events with
  | none => exact connectionLoop_ended hheader
  | some r =>
      obtain ⟨header, events'⟩ := r
      have hlength := congrArg List.length (recvAll_some hheader)
      rw [h, List.length_append, Vector.length_toList, headerSize] at hlength
      cases Nat.eq_zero_of_add_eq_zero_right hlength

end Wrote

/-! ## From the clients to the books -/

section Clients

variable {hash : SymbolId → Nat} [NeZero count]
  {inboundCapacity inboundQueueCapacity : Nat} {binds : Bool}
  {streams : ThreadId → List Readiness}
  {actions : List (Action count)} {s : Server count} {log : List (Event count)}

/-- Taking the stamps off twice is taking them off. -/
theorem bare_initial {part messages : List OrderMessage}
    (h : part <+: messages.map bare) : part.map bare = part := by
  obtain ⟨rest, hrest⟩ := h
  have hall := congrArg (List.map bare) hrest
  rw [List.map_map, List.map_append] at hall
  have hsame : bare ∘ bare = bare := rfl
  rw [hsame, ← hrest] at hall
  exact (List.append_inj hall (List.length_map _)).1

/-- The handler gets the first of the orders a client wrote. -/
theorem invokedBy_wrote {id : ThreadId} {messages : List OrderMessage}
    (hd : Delivering (streams id))
    (hsendable : ∀ message ∈ messages, Sendable message)
    (hwrote : Wrote messages (pending (streams id)))
    (hrun : execute (Server.step hash)
      (.new count inboundCapacity inboundQueueCapacity streams) actions
        = .ok (s, log)) :
    invokedBy id log <+: messages.map bare :=
  (List.prefix_append _ _).trans
    (run_streams id hrun ▸ connectionLoop_wrote hd hsendable hwrote)

/-- A server on its sockets that is down has executed what it read. -/
theorem run_orders
    (hno : ∀ action ∈ actions, ∀ binds, action ≠ .server (.start binds))
    (hrun : execute (Server.step hash)
      (.new count inboundCapacity inboundQueueCapacity streams)
      (.server (.start binds) :: actions) = .ok (s, log))
    (hstopped : s.core.Stopped) :
    ∃ orders : List (ThreadId × OrderMessage),
      (∀ id, (orders.filter (fun d => d.1 = id)).map (fun d => bare d.2)
        = (invokedBy id log).map bare) ∧
      ∀ symbol, ∃ shard published,
        execute Shard.process .empty (ofSymbol symbol (orders.map Prod.snd))
          = .ok (shard, published) ∧
        Executed hash s.core log symbol shard published := by
  obtain ⟨s₁, event, log', hstep, hrest, rfl⟩ := execute_cons_ok hrun
  obtain ⟨turns, hturns, hnostart⟩ := run_refines hrest hno
  obtain ⟨⟨turn, streams'⟩, hturn, hstep⟩ := bind_ok hstep
  cases hturn
  obtain ⟨⟨core, event'⟩, hcore, heq⟩ := bind_ok hstep
  cases heq
  obtain ⟨orders, hown, -, hengine⟩ :=
    OsxServerRun.run_engine hnostart (execute_cons_of hcore hturns) hstopped
  exact ⟨orders, hown, hengine⟩

/-- **THE SERVER EXECUTES WHAT ITS CLIENTS WROTE**, as one engine: when it is
    down, there is one list of the orders it read, of which every symbol's book
    is made; the orders of a connection are the first its client sent, in the
    client's order, and all of them where all the bytes arrived and were
    read. -/
theorem clients_engine (clients : ThreadId → List OrderMessage)
    (hno : ∀ action ∈ actions, ∀ binds, action ≠ .server (.start binds))
    (hrun : execute (Server.step hash)
      (.new count inboundCapacity inboundQueueCapacity streams)
      (.server (.start binds) :: actions) = .ok (s, log))
    (hstopped : s.core.Stopped) :
    ∃ orders : List (ThreadId × OrderMessage),
      (∀ id, Delivering (streams id) →
        (∀ message ∈ clients id, Sendable message) →
        Wrote (clients id) (pending (streams id)) →
        (orders.filter (fun d => d.1 = id)).map (fun d => bare d.2)
            <+: (clients id).map bare ∧
          (WroteAll (clients id) (pending (streams id)) →
            pending (s.streams id) = [] →
            (orders.filter (fun d => d.1 = id)).map (fun d => bare d.2)
              = (clients id).map bare)) ∧
      ∀ symbol, ∃ shard published,
        execute Shard.process .empty (ofSymbol symbol (orders.map Prod.snd))
          = .ok (shard, published) ∧
        Executed hash s.core log symbol shard published := by
  obtain ⟨orders, hown, hengine⟩ := run_orders hno hrun hstopped
  refine ⟨orders, fun id hd hsendable hwrote => ?_, hengine⟩
  have hfirst := invokedBy_wrote hd hsendable hwrote hrun
  rw [hown id, bare_initial hfirst]
  refine ⟨hfirst, fun hall hdrained => ?_⟩
  have hread := run_streams id hrun
  have hwhole := connectionLoop_frames hd hsendable (hall.eq hsendable)
  rw [connectionLoop_drained hdrained, List.append_nil] at hread
  exact hread.symm.trans hwhole

end Clients

open OsxCalls (Sided)
open OsxOrderbook (Side)
open OsxSharding (orderAt100)

/-- An order of each of two clients. -/
def sampleClients : ThreadId → List OrderMessage
  | 0 => [orderAt100 10 1 .buy 5]
  | 1 => [orderAt100 11 2 .sell 4]
  | _ => []

/-- The first client's order arrives in two parts; the second's whole. -/
def sampleStreams (id : ThreadId) : List Readiness :=
  let bytes := framesBytes ((sampleClients id).map frameOf)
  match id with
  | 0 => [.readable (bytes.take 20), .timeout, .readable (bytes.drop 20)]
  | 1 => [.readable bytes]
  | _ => []

/-- The run of the server with what its connections do on their sockets. -/
def onSockets : OsxServerRun.Action 2 → Action 2
  | .receive id _ => .read id
  | .hangUp id => .read id
  | action => .server action

theorem sampleClients_sendable (client : ThreadId) :
    ∀ message ∈ sampleClients client, Sendable message := by
  have hsendable : ∀ {symbol orderId : Nat} {side : Side} {quantity : Nat},
      Sided side → symbol < 2 ^ 32 → orderId < 2 ^ 64 → quantity < 2 ^ 32 →
      Sendable (orderAt100 symbol orderId side quantity) :=
    fun hside hsymbol horder hquantity => {
      side := hside
      type := by
        intro value h
        cases h
      action := by
        intro value h
        cases h
      sourceTimestamp := Nat.two_pow_pos 64
      source := Nat.two_pow_pos 16
      symbol := hsymbol
      orderId := horder
      quantity := hquantity }
  intro message hm
  unfold sampleClients at hm
  split at hm
  · rw [List.mem_singleton.mp hm]
    exact hsendable (Or.inl rfl) (by decide) (by decide) (by decide)
  · rw [List.mem_singleton.mp hm]
    exact hsendable (Or.inr rfl) (by decide) (by decide) (by decide)
  · cases hm

theorem clients_engine_two :
    ∃ s log orders, execute (Server.step id) (.new 2 4 1 sampleStreams)
        (.server (.start true) :: OsxServerRun.sampleRun.map onSockets)
        = .ok (s, log) ∧
      (∀ client ∈ [0, 1], ((orders : List (ThreadId × OrderMessage)).filter
          (fun d => d.1 = client)).map (fun d => bare d.2)
        = (sampleClients client).map bare) ∧
      ∀ symbol, ∃ shard published,
        execute Shard.process .empty (ofSymbol symbol (orders.map Prod.snd))
          = .ok (shard, published) ∧
        Executed id s.core log symbol shard published := by
  have hevents : ∀ client ∈ [0, 1], Delivering (sampleStreams client) ∧
      pending (sampleStreams client) = ((sampleClients client).map
        (fun message => (frameOf message).bytes)).flatten := by
    decide +kernel
  have heval : (execute (Server.step id) (.new 2 4 1 sampleStreams)
      (.server (.start true) :: OsxServerRun.sampleRun.map onSockets)).toOption.map
        (fun r => decide (r.1.core.Stopped ∧ pending (r.1.streams 0) = [] ∧
          pending (r.1.streams 1) = [])) = some true := by
    decide +kernel
  cases hrun : execute (Server.step id) (.new 2 4 1 sampleStreams)
      (.server (.start true) :: OsxServerRun.sampleRun.map onSockets) with
  | error e =>
      rw [hrun] at heval
      cases heval
  | ok r =>
      obtain ⟨s, log⟩ := r
      rw [hrun] at heval
      obtain ⟨hstopped, hfirst, hsecond⟩ := of_decide_eq_true (Option.some.inj heval)
      obtain ⟨orders, hown, hengine⟩ := clients_engine sampleClients (by decide) hrun
        hstopped
      refine ⟨s, log, orders, rfl, fun client hclient => ?_, hengine⟩
      obtain ⟨hdelivering, hbytes⟩ := hevents client hclient
      have hall : WroteAll (sampleClients client)
          (pending (sampleStreams client)) :=
        Or.inr ⟨_, pythonFrames_eq (sampleClients_sendable client), hbytes⟩
      have hdrained : pending (s.streams client) = [] := by
        rcases List.mem_pair.mp hclient with rfl | rfl
        · exact hfirst
        · exact hsecond
      exact (hown client hdelivering (sampleClients_sendable client)
        hall.wrote).2 hall hdrained

end OsxServerWire
