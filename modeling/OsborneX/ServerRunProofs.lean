import OsborneX.ServerTurnProofs
import OsborneX.SubscriberProofs

/-! # The server's run — nothing accepted is lost, and nothing overtakes

    What a run of turns did accounts for every order (`Account`): it was pushed
    or its thread holds it, popped or queued, submitted or held by the pump.
    Once the server is down no place holds anything, so the log of the
    simulation is that of a run of its own with nothing pending, on all the
    orders in the order of their pushes. -/

namespace OsxServerRun

open OsxShard OsxThread OsxListener Execution
open OsxSimulation (Simulation Controlled shardForSymbol submissions accepted
  processed untimed stampedFrom)
open OsxSharding (bare orderAt100)

variable {count : Nat}

/-! ## What the turns did -/

section Log

variable (id : ThreadId) (log log' : List (Event count))

@[simp] theorem invokedBy_append :
    invokedBy id (log ++ log') = invokedBy id log ++ invokedBy id log' :=
  List.filterMap_append

@[simp] theorem pushed_append :
    pushed (log ++ log') = pushed log ++ pushed log' :=
  List.filterMap_append

@[simp] theorem popped_append :
    popped (log ++ log') = popped log ++ popped log' :=
  List.filterMap_append

@[simp] theorem simulationLog_append :
    simulationLog (log ++ log') = simulationLog log ++ simulationLog log' :=
  List.filterMap_append

end Log

/-- What was pushed from one connection. -/
def pushedBy (id : ThreadId) (log : List (Event count)) : List OrderMessage :=
  ((pushed log).filter (fun d => d.1 = id)).map Prod.snd

@[simp] theorem pushedBy_append (id : ThreadId)
    (log log' : List (Event count)) :
    pushedBy id (log ++ log') = pushedBy id log ++ pushedBy id log' := by
  rw [pushedBy, pushed_append, List.filter_append, List.map_append]
  rfl

/-- Every order that was decoded is accounted for: it was pushed or its thread
    holds it, it was popped or is queued, it was submitted or the pump holds
    it; and the simulation ran on what was submitted. -/
structure Account (hash : SymbolId → Nat) [NeZero count]
    (inboundCapacity : Nat) (p : Pipeline count) (log : List (Event count)) :
    Prop where
  handled : ∀ id, invokedBy id log = pushedBy id log ++ p.threads id
  queued : (pushed log).map Prod.snd = popped log ++ p.queue
  simulated : ∃ actions,
    execute (Simulation.step hash) (.new count inboundCapacity) actions
      = .ok (p.simulation, simulationLog log) ∧
    popped log = submissions actions ++ p.pump

theorem submissions_snoc (actions : List (OsxSimulation.Action count))
    (action : OsxSimulation.Action count) :
    submissions (actions ++ [action])
      = submissions actions ++ submissions [action] :=
  List.filterMap_append

section Account

variable {hash : SymbolId → Nat} [NeZero count] {inboundCapacity : Nat}
  {p p' : Pipeline count} {log : List (Event count)} {event : Event count}

/-- The reader threads: an order is in a thread's hands until it is pushed. -/
theorem Account.handled_turn (h : Account hash inboundCapacity p log)
    (hturn : Turn hash p p' event) (id : ThreadId) :
    invokedBy id (log ++ [event])
      = pushedBy id (log ++ [event]) ++ p'.threads id := by
  rw [invokedBy_append, pushedBy_append, h.handled]
  cases hturn with
  | invoked id' message hthread | pushed id' message hthread =>
      by_cases heq : id = id'
      · subst heq
        simp [invokedBy, pushedBy, pushed, hthread]
      · simp [invokedBy, pushedBy, pushed, heq, Ne.symm heq]
  | _ => simp [invokedBy, pushedBy, pushed]

/-- The queue: it holds what was pushed and not popped, in order. -/
theorem Account.queued_turn (h : Account hash inboundCapacity p log)
    (hturn : Turn hash p p' event) :
    (pushed (log ++ [event])).map Prod.snd
      = popped (log ++ [event]) ++ p'.queue := by
  rw [pushed_append, popped_append, List.map_append, h.queued]
  cases hturn with
  | pushed id message hthread => simp [pushed, popped]
  | popped message queue hqueue hpump => simp [pushed, popped, hqueue]
  | _ => simp [pushed, popped]

/-- The pump and the simulation: what was popped is submitted next. -/
theorem Account.simulated_turn (h : Account hash inboundCapacity p log)
    (hturn : Turn hash p p' event) :
    ∃ actions,
      execute (Simulation.step hash) (.new count inboundCapacity) actions
        = .ok (p'.simulation, simulationLog (log ++ [event])) ∧
      popped (log ++ [event]) = submissions actions ++ p'.pump := by
  obtain ⟨actions, hrun, hsubmitted⟩ := h.simulated
  rw [simulationLog_append, popped_append]
  cases hturn with
  | popped message queue hqueue hpump =>
      refine ⟨actions, by simpa [simulationLog] using hrun, ?_⟩
      rw [hsubmitted, hpump]
      simp [popped]
  | submitted message now simulation event' hpump hstep =>
      refine ⟨actions ++ [.submit message now], execute_snoc hrun hstep, ?_⟩
      rw [hsubmitted, hpump, submissions_snoc]
      simp [popped, submissions]
  | simulated action simulation event' hnone hstep =>
      refine ⟨actions ++ [action], execute_snoc hrun hstep, ?_⟩
      rw [hsubmitted, submissions_snoc, hnone]
      simp [popped]
  | _ =>
      exact ⟨actions, by simpa [simulationLog] using hrun,
        by simpa [popped] using hsubmitted⟩

/-- **A TURN KEEPS THE ACCOUNT.** -/
theorem Account.turn (h : Account hash inboundCapacity p log)
    (hturn : Turn hash p p' event) :
    Account hash inboundCapacity p' (log ++ [event]) where
  handled := h.handled_turn hturn
  queued := h.queued_turn hturn
  simulated := h.simulated_turn hturn

end Account

/-! ## Whole runs -/

/-- **ONCE THE SERVER IS DOWN** no place holds an order. -/
theorem Staged.down {s : Server count} (h : Staged s) (hstopped : s.Stopped) :
    (∀ id, s.pipeline.threads id = []) ∧ s.pipeline.queue = [] ∧
      s.pipeline.pump = [] ∧ ∀ shard, s.pipeline.simulation.pending shard = [] := by
  have ha : StagedAt s [] 10 := by
    have := h.at_place hstopped.1
    rw [hstopped.2] at this
    exact this
  have hpump : s.pump = .absent := by
    by_contra hthere
    have := ha.pump.working hthere
    omega
  obtain ⟨hdown, hidle⟩ := ha.simulation.down (Nat.le_refl _)
  refine ⟨fun id => ?_, ha.pump.emptied (Or.inl hpump), ?_, fun shard => ?_⟩
  · cases hthread : s.listener.threads id with
    | handling message =>
        have hlive : (s.listener.threads id).Live := by
          rw [hthread]
          exact trivial
        have := ha.listener.live_stage hlive
        omega
    | _ =>
        rw [pipeline_threads, hthread]
        rfl
  · rw [pipeline_pumped, hpump]
    rfl
  · refine ha.simulation.emptied shard ?_
    rw [Behind, hidle]
    exact hdown

section Run

variable {hash : SymbolId → Nat} [NeZero count]
  {inboundCapacity inboundQueueCapacity : Nat} {s : Server count}
  {log : List (Event count)}

/-- `start` of a new server. -/
theorem start_turn {binds : Bool} {event : Event count}
    (h : (Server.new count inboundCapacity inboundQueueCapacity).step hash
      (.start binds) = .ok (s, event)) :
    Staged s ∧ Account hash inboundCapacity s.pipeline [event] := by
  obtain ⟨⟨s₁, event₁⟩, hsim, heq⟩ := bind_ok h
  obtain ⟨simulation, event', hstart, rfl, rfl⟩ := simulate_ok hsim
  cases heq
  constructor
  · exact Staged.of_place [] 0 {
      listener := {
        accepting := fun hno => absurd rfl hno
        connected := fun hno => absurd rfl hno
        joining := fun hno => absurd rfl hno
        listening := iff_of_false Bool.false_ne_true (by omega)
        live := fun id hlive => hlive.elim
        fresh := fun _ _ => rfl
        own := ⟨[], rfl, fun _ hmem => absurd hmem List.not_mem_nil⟩ }
      pump := {
        closed := fun hclosed => absurd hclosed Bool.false_ne_true
        working := fun hno => absurd rfl hno
        absent := fun _ => Or.inl rfl
        finished := fun hno => Pump.noConfusion hno
        emptied := fun _ => rfl }
      simulation := .start hstart
      rising := fun _ => rfl } rfl rfl
  · exact {
      handled := fun _ => rfl
      queued := rfl
      simulated := ⟨[.start], execute_cons_of hstart rfl, rfl⟩ }

/-- **EVERY RUN KEEPS THE ACCOUNT**, from the one `start` on. -/
theorem run_account {binds : Bool} {actions : List (Action count)}
    (hno : ∀ action ∈ actions, ∀ binds, action ≠ .start binds)
    (h : execute (Server.step hash)
      (.new count inboundCapacity inboundQueueCapacity)
      (.start binds :: actions) = .ok (s, log)) :
    Staged s ∧ Account hash inboundCapacity s.pipeline log := by
  obtain ⟨s₁, event, log', hstart, hrest, rfl⟩ := execute_cons_ok h
  have hfirst := start_turn hstart
  -- the induction is on the steps after the first
  refine execute_trace
    (I := fun actions s log => (∀ action ∈ actions, ∀ binds,
        action ≠ .start binds) →
      Staged s ∧ Account hash inboundCapacity s.pipeline (event :: log))
    ?_ (fun _ => hfirst) hrest hno
  intro actions s log action s' event' ih hstep hno
  obtain ⟨hstaged, haccount⟩ :=
    ih (fun a ha => hno a (List.mem_append_left _ ha))
  have hlast := hno action (List.mem_append_right _ List.mem_cons_self)
  obtain ⟨hstaged', hturn⟩ := step_turn hstaged hlast hstep
  exact ⟨hstaged', haccount.turn hturn⟩

end Run

section ByKey

variable {α β κ : Type} [DecidableEq κ] (key : α → κ)

/-- Two lists that agree at every key are permutations of each other. -/
theorem perm_of_keys [DecidableEq α] {xs ys : List α}
    (h : ∀ k, xs.filter (fun a => key a = k) = ys.filter (fun a => key a = k)) :
    xs.Perm ys := by
  refine List.perm_iff_count.mpr (fun a => ?_)
  have hcount : ∀ zs : List α,
      (zs.filter (fun b => key b = key a)).count a = zs.count a :=
    fun zs => List.count_filter (decide_eq_true rfl)
  rw [← hcount xs, h, hcount ys]

/-- The labels of one list carry over to another that agrees with it at every
    key. -/
theorem labels_carry {xs : List α} :
    ∀ ds : List (β × α),
      (∀ k, xs.filter (fun a => key a = k)
        = (ds.map Prod.snd).filter (fun a => key a = k)) →
      ∃ es : List (β × α), es.map Prod.snd = xs ∧
        ∀ k, es.filter (fun d => key d.2 = k)
          = ds.filter (fun d => key d.2 = k) := by
  induction xs with
  | nil =>
      intro ds h
      refine ⟨[], rfl, fun k => ?_⟩
      have hnone := h k
      rw [List.filter_map] at hnone
      exact (List.map_eq_nil_iff.mp hnone.symm).symm
  | cons x xs ih =>
      intro ds h
      have hhead : x :: xs.filter (fun a => key a = key x)
          = (ds.filter (fun d => key d.2 = key x)).map Prod.snd := by
        have hx := h (key x)
        rw [List.filter_map] at hx
        simpa [Function.comp_def] using hx
      obtain ⟨d, rest, hcons, rfl, hrest⟩ := List.map_eq_cons_iff.mp hhead.symm
      obtain ⟨before, after, rfl, hbefore, hd, hafter⟩ :=
        List.filter_eq_cons_iff.mp hcons
      -- without that one the lists still agree
      obtain ⟨es, hes, hkeys⟩ := ih (before ++ after) (fun k => by
        rw [List.map_append, List.filter_append]
        by_cases heq : key d.2 = k
        · subst heq
          rw [← hrest, ← hafter, List.filter_map, List.filter_map]
          have hnone : before.filter (fun e => key e.2 = key d.2) = [] :=
            List.filter_eq_nil_iff.mpr hbefore
          exact (congrArg (·.map Prod.snd ++ _) hnone).symm
        · simpa [heq] using h k)
      refine ⟨d :: es, by rw [List.map_cons, hes], fun k => ?_⟩
      have hk := hkeys k
      rw [List.filter_append] at hk
      by_cases heq : key d.2 = k
      · subst heq
        have hnone : before.filter (fun e => key e.2 = key d.2) = [] :=
          List.filter_eq_nil_iff.mpr hbefore
        rw [hnone] at hk
        simp [hk, hnone]
      · simp [heq, hk]

end ByKey

/-! ## Nothing is lost -/

/-- Each order as it was stamped, with the connection it came from. -/
def sourced (log : List (Event count)) : List (ThreadId × OrderMessage) :=
  ((pushed log).map Prod.fst).zip (accepted (simulationLog log))

/-- What the run delivered; `done` is what was processed, in order, each with
    the connection it came from. -/
structure Delivered (log : List (Event count))
    (done : List (ThreadId × OrderMessage)) : Prop where
  processed : done.map Prod.snd
    = (processed (simulationLog log)).map Prod.fst
  /-- what the handler was invoked with was processed, and once -/
  once : (done.map (fun d => (d.1, bare d.2))).Perm
    ((invoked log).map (fun d => (d.1, bare d.2)))
  /-- the orders were stamped as they were popped -/
  stamped : (accepted (simulationLog log)).map untimed
    = stampedFrom 0 (popped log)
  sequences : (accepted (simulationLog log)).map OrderMessage.ingressSequence
    = (List.range (popped log).length).map (· % 2 ^ 64)
  /-- what was processed is what was stamped -/
  same : done.Perm (sourced log)
  /-- a connection's orders for a symbol were processed as decoded -/
  ordered : ∀ id symbol,
    (done.filter (fun d => d.1 = id ∧ d.2.symbol = symbol)).map
        (fun d => bare d.2)
      = ((invokedBy id log).filter (fun message =>
          message.symbol = symbol)).map bare

theorem invokedBy_eq (id : ThreadId) (log : List (Event count)) :
    invokedBy id log
      = ((invoked log).filter (fun d => d.1 = id)).map Prod.snd := by
  induction log with
  | nil => rfl
  | cons event log ih =>
      have hcons : invokedBy id (event :: log)
          = invokedBy id [event] ++ invokedBy id log :=
        invokedBy_append id [event] log
      rw [hcons, ih]
      cases event with
      | invoked id' message =>
          by_cases heq : id' = id
          · simp [invokedBy, invoked, heq]
          · simp [invokedBy, invoked, heq]
      | _ => rfl

/-- The pairs of one connection, from its messages. -/
theorem tagged_filter (id : ThreadId) (tagged : List (ThreadId × OrderMessage)) :
    tagged.filter (fun d => d.1 = id)
      = ((tagged.filter (fun d => d.1 = id)).map Prod.snd).map (id, ·) := by
  induction tagged with
  | nil => rfl
  | cons d tagged ih =>
      by_cases heq : d.1 = id
      · subst heq
        simpa using ih
      · simpa [heq] using ih

section Delivered

variable {log : List (Event count)}

/-- A message's connection, and the message without its stamps. -/
def untagged (d : ThreadId × OrderMessage) : ThreadId × OrderMessage :=
  (d.1, bare d.2)

/-- What was stamped is what was pushed, the stamps aside. -/
theorem sourced_bare (hpushed : (pushed log).map Prod.snd = popped log)
    (hstamped : (accepted (simulationLog log)).map untimed
      = stampedFrom 0 (popped log)) :
    (sourced log).map untagged = (pushed log).map untagged := by
  have hbare : (accepted (simulationLog log)).map bare
      = (pushed log).map (fun d => bare d.2) := by
    rw [OsxSharding.bare_of_handed hstamped, ← hpushed, List.map_map]
    rfl
  have hzip : (sourced log).map untagged
      = ((pushed log).map Prod.fst).zip
        ((accepted (simulationLog log)).map bare) := by
    rw [List.zip_map_right]
    rfl
  rw [hzip, hbare, List.zip_map']
  rfl

theorem sourced_snd (hpushed : (pushed log).map Prod.snd = popped log)
    (hstamped : (accepted (simulationLog log)).map untimed
      = stampedFrom 0 (popped log)) :
    (sourced log).map Prod.snd = accepted (simulationLog log) := by
  have hlength := congrArg List.length (OsxSharding.bare_of_handed hstamped)
  rw [← hpushed, List.length_map, List.length_map, List.length_map] at hlength
  refine List.map_snd_zip ?_
  rw [List.length_map]
  exact Nat.le_of_eq hlength

/-- One connection's orders for a symbol: first the symbol, then the
    connection. -/
theorem ordered_split (id : ThreadId) (symbol : SymbolId)
    (tagged : List (ThreadId × OrderMessage)) :
    tagged.filter (fun d => d.1 = id ∧ d.2.symbol = symbol)
      = (tagged.filter (fun d => d.2.symbol = symbol)).filter
        (fun d => d.1 = id) := by
  rw [List.filter_filter]
  refine List.filter_congr (fun d _ => ?_)
  rw [Bool.decide_and]

/-- The stamps play no part in it. -/
theorem untagged_split (id : ThreadId) (symbol : SymbolId)
    (tagged : List (ThreadId × OrderMessage)) :
    (tagged.filter (fun d => d.1 = id ∧ d.2.symbol = symbol)).map
        (fun d => bare d.2)
      = ((tagged.map untagged).filter
          (fun d => d.1 = id ∧ d.2.symbol = symbol)).map Prod.snd := by
  rw [List.filter_map, List.map_map]
  rfl

/-- Every connection's messages were all pushed: so were all messages. -/
theorem invoked_perm (h : ∀ id, invokedBy id log = pushedBy id log) :
    (invoked log).Perm (pushed log) := by
  refine perm_of_keys Prod.fst (fun id => ?_)
  rw [tagged_filter id (invoked log), ← invokedBy_eq, h,
    tagged_filter id (pushed log), pushedBy]

end Delivered

/-- Once the server is down, everything pushed was popped, everything popped was
    stamped, in that order, and every shard has processed what it was handed. -/
theorem run_down {hash : SymbolId → Nat}
    {count inboundCapacity inboundQueueCapacity : Nat} [NeZero count]
    {binds : Bool} {actions : List (Action count)} {s : Server count}
    {log : List (Event count)}
    (hno : ∀ action ∈ actions, ∀ binds, action ≠ .start binds)
    (hrun : execute (Server.step hash)
      (.new count inboundCapacity inboundQueueCapacity)
      (.start binds :: actions) = .ok (s, log))
    (hstopped : s.Stopped) :
    (∀ id, invokedBy id log = pushedBy id log) ∧
      (pushed log).map Prod.snd = popped log ∧
      (∀ shard, s.simulation.pending shard = []) ∧
      ∃ submitted, execute (Simulation.step hash)
          (.new count inboundCapacity) submitted
          = .ok (s.simulation, simulationLog log) ∧
        popped log = submissions submitted := by
  obtain ⟨hstaged, haccount⟩ := run_account hno hrun
  obtain ⟨hthreads, hqueue, hpump, hpending⟩ := hstaged.down hstopped
  obtain ⟨submitted, hsim, hpopped⟩ := haccount.simulated
  rw [hpump, List.append_nil] at hpopped
  refine ⟨fun id => ?_, ?_, hpending, submitted, hsim, hpopped⟩
  · rw [haccount.handled, hthreads, List.append_nil]
  · rw [haccount.queued, hqueue, List.append_nil]

/-- **NOTHING IS LOST, DUPLICATED OR REORDERED**: when `stop` has returned, the
    run has delivered everything its connections' threads were handed. -/
theorem server_delivers (hash : SymbolId → Nat)
    (count inboundCapacity inboundQueueCapacity : Nat) [NeZero count]
    (binds : Bool) (actions : List (Action count)) (s : Server count)
    (log : List (Event count))
    (hno : ∀ action ∈ actions, ∀ binds, action ≠ .start binds)
    (hrun : execute (Server.step hash)
      (.new count inboundCapacity inboundQueueCapacity)
      (.start binds :: actions) = .ok (s, log))
    (hstopped : s.Stopped) : ∃ done, Delivered log done := by
  obtain ⟨hhandled, hpushed, hpending, submitted, hsim, hpopped⟩ :=
    run_down hno hrun hstopped
  -- the shards' part is a run of the simulation
  obtain ⟨-, hat⟩ := OsxSimulation.run_account
    (OsxSimulation.controlled_new inboundCapacity)
    (OsxSimulation.account_new inboundCapacity) hsim
  obtain ⟨hstamped, hrouted⟩ := OsxSimulation.run_accepted hsim
  rw [← hpopped] at hstamped
  have hsequences := OsxSimulation.run_sequences hsim
  rw [← hpopped] at hsequences
  have hagree : ∀ symbol, ((processed (simulationLog log)).map Prod.fst).filter
        (fun message => message.symbol = symbol)
      = ((sourced log).map Prod.snd).filter
        (fun message => message.symbol = symbol) := by
    rw [sourced_snd hpushed hstamped]
    exact OsxSharding.processed_order hat hrouted hpending
  have hbare := sourced_bare hpushed hstamped
  obtain ⟨done, hdone, hkeys⟩ := labels_carry OrderMessage.symbol _ hagree
  have hsame : done.Perm (sourced log) :=
    perm_of_keys (fun d => d.2.symbol) hkeys
  refine ⟨done, {
    processed := hdone
    once := ?_
    stamped := hstamped
    sequences := hsequences
    same := hsame
    ordered := fun id symbol => ?_ }⟩
  · have hmap := hsame.map untagged
    rw [hbare] at hmap
    exact hmap.trans ((invoked_perm hhandled).map untagged).symm
  · rw [hhandled id, ordered_split id symbol done, hkeys symbol,
      ← ordered_split id symbol (sourced log), untagged_split, hbare,
      ← untagged_split]
    rw [pushedBy, List.filter_map, List.map_map, List.filter_filter]
    refine congrArg (List.map _) (List.filter_congr (fun d _ => ?_))
    rw [Bool.and_comm, Bool.decide_and]
    rfl

/-- Two clients: the second order is popped after the queue was closed, and left
    to the owner to process. -/
def sampleRun : List (Action 2) :=
  let first : Fin 2 := ⟨0, Nat.zero_lt_two⟩
  let second : Fin 2 := ⟨1, Nat.one_lt_two⟩
  [.owner, .owner, .owner, .owner, .owner,
    .accept true, .accept true, .accept true, .accept true,
    .connection 0, .receive 0 (orderAt100 10 1 .buy 5), .connection 1,
    .receive 1 (orderAt100 11 2 .sell 4), .connection 0, .pump 7,
    .connection 1, .stop, .connection 0, .hangUp 0, .owner, .accept true,
    .owner, .owner, .pump 8, .worker first, .worker first, .worker first,
    .connection 1, .owner, .owner, .owner, .pump 9, .pump 9, .pump 9,
    .owner, .owner, .owner, .worker first, .owner, .owner, .owner,
    .worker second, .owner, .owner, .owner, .owner, .owner, .owner]

theorem server_delivers_two :
    ∃ s log done, execute (Server.step id) (.new 2 4 1)
        (.start true :: sampleRun) = .ok (s, log) ∧ s.Stopped ∧
      Delivered log done := by
  have heval : (execute (Server.step id) (.new 2 4 1)
      (.start true :: sampleRun)).toOption.map
        (fun r => decide r.1.Stopped) = some true := by
    decide +kernel
  cases hrun : execute (Server.step id) (.new 2 4 1)
      (.start true :: sampleRun) with
  | error e =>
      rw [hrun] at heval
      cases heval
  | ok r =>
      obtain ⟨s, log⟩ := r
      rw [hrun] at heval
      have hstopped : s.Stopped := of_decide_eq_true (Option.some.inj heval)
      obtain ⟨done, hdone⟩ := server_delivers id 2 4 1 true sampleRun s log
        (by decide) hrun hstopped
      exact ⟨s, log, done, rfl, hstopped, hdone⟩

/-! ## Past the end of the sequences -/

open OsxSubscriber (emptied emptyCancel emptyCancel_idles warmLanes
  lastMessages)

/-- The server at work, waiting for the next order of its one client. -/
def warm (sequence : Nat) : Server 2 where
  simulation := {
    lanes := warmLanes
    nextSequence := sequence
    running := true
    frozen := true
    owner := .idle }
  inboundQueue := .new 1
  pump := .popping
  listener := {
    running := true
    acceptThread := .loading
    connections := [Accepted.connection ⟨0, 0⟩]
    threads := Function.update (fun _ => .absent) 0 .loading
    next := 1 }
  running := true
  owner := .idle

/-- An order on its way through the server. -/
def round (shard : Fin 2) (message : OrderMessage) : List (Action 2) :=
  [.connection 0, .receive 0 message, .connection 0, .pump 0, .pump 0,
    .worker shard, .worker shard, .worker shard]

/-- The workers' turns are those of the simulation. -/
theorem workers_run {hash : SymbolId → Nat} [NeZero count]
    (shards : List (Fin count)) :
    ∀ {s : Server count} {simulation : Simulation count}
      {log : List (OsxSimulation.Event count)},
      execute (Simulation.step hash) s.simulation
        (shards.map OsxSimulation.Action.worker) = .ok (simulation, log) →
      execute (Server.step hash) s (shards.map Action.worker)
        = .ok ({ s with simulation := simulation }, log.map .simulation) := by
  induction shards with
  | nil =>
      intro s simulation log h
      cases h
      rfl
  | cons shard shards ih =>
      intro s simulation log h
      obtain ⟨s₁, event, log', hstep, hrest, rfl⟩ := execute_cons_ok h
      have hone : s.step hash (.worker shard)
          = .ok ({ s with simulation := s₁ }, .simulation event) := by
        rw [Server.step, Server.simulate, hstep]
      have hlater := ih (s := { s with simulation := s₁ }) hrest
      exact execute_cons_of hone hlater

/-- The pump submits what it holds, and the worker processes it. -/
theorem pump_lap {s : Server 2} {message : OrderMessage}
    {simulation : Simulation 2} {log : List (OsxSimulation.Event 2)}
    (hpump : s.pump = .submitting message)
    (h : execute (Simulation.step id) s.simulation
      (OsxSimulation.lap 0 message) = .ok (simulation, log)) :
    execute (Server.step id) s [.pump 0, .worker 0, .worker 0, .worker 0]
      = .ok ({ s with pump := .popping, simulation := simulation },
        log.map .simulation) := by
  obtain ⟨s₁, event, log', hsubmit, hrest, rfl⟩ := execute_cons_ok h
  have hone : s.step id (.pump 0) = .ok ({ s with
      pump := .popping, simulation := s₁ }, .simulation event) := by
    rw [Server.step, Server.pumpStep, hpump]
    dsimp only
    rw [Server.simulate, hsubmit]
    rfl
  have hworkers := workers_run [0, 0, 0]
    (s := { s with pump := .popping, simulation := s₁ }) hrest
  exact execute_cons_of hone hworkers

/-- What the simulation did takes nothing from the queue. -/
theorem popped_simulation (log : List (OsxSimulation.Event count)) :
    popped (log.map Event.simulation) = [] := by
  induction log with
  | nil => rfl
  | cons event log ih => exact ih

/-- An order reaches the pump. -/
theorem warm_front (sequence : Nat) :
    execute (Server.step id) (warm sequence)
        [.connection 0, .receive 0 emptyCancel, .connection 0, .pump 0]
      = .ok ({ warm sequence with pump := .submitting emptyCancel },
        [.quiet, .invoked 0 emptyCancel, .pushed 0 emptyCancel,
          .popped emptyCancel]) := by
  have hfront : ∃ threads, execute (Server.step id) (warm sequence)
        [.connection 0, .receive 0 emptyCancel, .connection 0, .pump 0]
      = .ok ({ warm sequence with
          pump := .submitting emptyCancel
          listener := { (warm sequence).listener with threads := threads } },
        [.quiet, .invoked 0 emptyCancel, .pushed 0 emptyCancel,
          .popped emptyCancel]) ∧
      threads = Function.update (Function.update (Function.update
        (warm sequence).listener.threads 0 .receiving) 0
          (.handling emptyCancel)) 0 .loading :=
    ⟨_, rfl, rfl⟩
  obtain ⟨threads, hfront, hthreads⟩ := hfront
  rw [Function.update_idem, Function.update_idem, warm,
    Function.update_idem] at hthreads
  rw [hfront, hthreads]
  rfl

/-- **ONE ORDER MORE** leaves the next sequence and nothing else. -/
theorem warm_round {sequence : Nat} (hlt : sequence < 2 ^ 64) :
    ∃ log, execute (Server.step id) (warm sequence) (round 0 emptyCancel)
        = .ok (warm ((sequence + 1) % 2 ^ 64), log) ∧
      popped log = [emptyCancel] := by
  obtain ⟨log, hlap, -⟩ := OsxSimulation.idle_laps id (i := (0 : Fin 2)) rfl
    emptyCancel_idles Nat.one_pos 1 (warm sequence).simulation hlt rfl
  have hback := pump_lap
    (s := { warm sequence with pump := .submitting emptyCancel }) rfl hlap
  refine ⟨_, execute_append.mpr ⟨_, _, _, warm_front sequence, hback, rfl⟩, ?_⟩
  rw [popped_append, popped_simulation]
  rfl

/-- Any number of them. -/
theorem warm_rounds (rounds : Nat) :
    ∀ {sequence : Nat}, sequence < 2 ^ 64 →
      ∃ log, execute (Server.step id) (warm sequence)
          (List.replicate rounds (round 0 emptyCancel)).flatten
        = .ok (warm ((sequence + rounds) % 2 ^ 64), log) ∧
        popped log = List.replicate rounds emptyCancel := by
  induction rounds with
  | zero =>
      intro sequence hlt
      refine ⟨[], ?_, rfl⟩
      rw [Nat.add_zero, Nat.mod_eq_of_lt hlt]
      rfl
  | succ rounds ih =>
      intro sequence hlt
      obtain ⟨log, hrun, hone⟩ := warm_round hlt
      obtain ⟨log', hrun', hmany⟩ :=
        ih (Nat.mod_lt (sequence + 1) (Nat.two_pow_pos 64))
      have hnext : ((sequence + 1) % 2 ^ 64 + rounds) % 2 ^ 64
          = (sequence + (rounds + 1)) % 2 ^ 64 := by omega
      rw [hnext] at hrun'
      refine ⟨log ++ log', execute_append.mpr ⟨_, _, _, hrun, hrun', rfl⟩, ?_⟩
      rw [popped_append, hone, hmany]
      rfl

/-- The server is started, its client is accepted, and one order processed. -/
def warmUp : List (Action 2) :=
  [.owner, .owner, .owner, .owner, .owner, .accept false, .accept true]
    ++ round ⟨0, Nat.zero_lt_two⟩ emptyCancel

/-- Two orders for the other shard; then `stop` is called, and every thread
    comes to its end. -/
def lastRounds : List (Action 2) :=
  let first : Fin 2 := ⟨0, Nat.zero_lt_two⟩
  let second : Fin 2 := ⟨1, Nat.one_lt_two⟩
  lastMessages.flatMap (round second) ++
  [.stop, .connection 0, .hangUp 0, .owner, .accept false, .owner, .owner,
    .owner, .owner, .pump 0, .owner, .owner, .owner, .worker first, .owner,
    .owner, .owner, .worker second, .owner, .owner, .owner, .owner]

theorem warmUp_run : ∃ log,
    execute (Server.step id) (.new 2 1 1) (.start true :: warmUp)
      = .ok (warm 1, log) ∧ popped log = [emptyCancel] := by
  have hrun : ∃ lanes threads log,
      execute (Server.step id) (.new 2 1 1) (.start true :: warmUp)
        = .ok ({ warm 1 with
            simulation := { (warm 1).simulation with lanes := lanes }
            listener := { (warm 1).listener with threads := threads } }, log) ∧
      (lanes 0 = .waiting emptied 1 ∧ lanes 1 = .waiting .empty 1) ∧
      threads = Function.update (Function.update (Function.update
        (warm 1).listener.threads 0 .receiving) 0
          (.handling emptyCancel)) 0 .loading ∧
      popped log = [emptyCancel] :=
    ⟨_, _, _, rfl, ⟨rfl, rfl⟩, rfl, rfl⟩
  obtain ⟨lanes, threads, log, hrun, hlane, hthreads, hpopped⟩ := hrun
  have hlanes : lanes = warmLanes := by
    funext i
    exact (Fin.forall_fin_two (p := fun i => lanes i = warmLanes i)).mpr
      hlane i
  rw [Function.update_idem, Function.update_idem, warm,
    Function.update_idem] at hthreads
  rw [hlanes, hthreads] at hrun
  exact ⟨log, hrun, hpopped⟩

/-- As many orders for the first shard as bring the next sequence to its last
    value, then two for the other. -/
def wrapRun : List (Action 2) :=
  let first : Fin 2 := ⟨0, Nat.zero_lt_two⟩
  warmUp ++ ((List.replicate (2 ^ 64 - 2) (round first emptyCancel)).flatten
    ++ lastRounds)

/-- No step of it calls `start`. -/
theorem wrapRun_no_start :
    ∀ action ∈ wrapRun, ∀ binds, action ≠ .start binds := by
  have hall : ∀ actions : List (Action 2), actions = warmUp ∨
      actions = round 0 emptyCancel ∨ actions = lastRounds →
      ∀ action ∈ actions, ∀ binds, action ≠ .start binds := by
    rintro actions (rfl | rfl | rfl) <;> decide
  intro action hmem
  rcases List.mem_append.mp hmem with hmem | hmem
  · exact hall _ (Or.inl rfl) action hmem
  · rcases List.mem_append.mp hmem with hmem | hmem
    · obtain ⟨actions, hactions, hmem⟩ := List.mem_flatten.mp hmem
      rw [List.eq_of_mem_replicate hactions] at hmem
      exact hall _ (Or.inr (Or.inl rfl)) action hmem
    · exact hall _ (Or.inr (Or.inr rfl)) action hmem

theorem wrapRun_run : ∃ s log,
    execute (Server.step id) (.new 2 1 1) (.start true :: wrapRun)
      = .ok (s, log) ∧
    s.Stopped ∧
    popped log = List.replicate (2 ^ 64 - 1) emptyCancel ++ lastMessages := by
  have heval : (execute (Server.step id) (warm (2 ^ 64 - 1))
      lastRounds).toOption.map (fun r => (decide r.1.Stopped, popped r.2))
      = some (true, lastMessages) := by
    decide +kernel
  obtain ⟨log₁, hwarm, hone⟩ := warmUp_run
  obtain ⟨log₂, hrounds, hmany⟩ := warm_rounds (2 ^ 64 - 2)
    (Nat.one_lt_two_pow (by decide : 64 ≠ 0))
  have hlast : (1 + (2 ^ 64 - 2)) % 2 ^ 64 = 2 ^ 64 - 1 := by decide
  rw [hlast] at hrounds
  cases hrun : execute (Server.step id) (warm (2 ^ 64 - 1)) lastRounds with
  | error e =>
      rw [hrun] at heval
      cases heval
  | ok r =>
      rw [hrun] at heval
      obtain ⟨hstopped, htwo⟩ := Prod.mk.inj (Option.some.inj heval)
      refine ⟨r.1, log₁ ++ (log₂ ++ r.2), ?_, of_decide_eq_true hstopped, ?_⟩
      · rw [wrapRun, ← List.cons_append]
        exact execute_append.mpr ⟨_, _, _, hwarm,
          execute_append.mpr ⟨_, _, _, hrounds, hrun, rfl⟩, rfl⟩
      · rw [popped_append, popped_append, hone, hmany, htwo,
          ← List.append_assoc]
        rfl

/-- **AFTER 2^64 ORDERS** the next is stamped 0 again: the sequences are not
    those up to the number of orders, though no shard was handed that many. -/
theorem sequences_not_range : ∃ s log,
    execute (Server.step id) (.new 2 1 1) (.start true :: wrapRun)
      = .ok (s, log) ∧
    s.Stopped ∧
    (∀ shard, ((popped log).filter (fun message =>
      shardForSymbol id 2 message.symbol = shard)).length < 2 ^ 64) ∧
    (accepted (simulationLog log)).map OrderMessage.ingressSequence
      ≠ List.range (popped log).length := by
  obtain ⟨s, log, hrun, hstopped, htotal⟩ := wrapRun_run
  have hmany : 2 ^ 64 < (popped log).length := by
    rw [htotal, List.length_append, List.length_replicate]
    decide
  refine ⟨s, log, hrun, hstopped, ?_, fun hrange => ?_⟩
  · rw [htotal, Fin.forall_fin_two]
    constructor
    · rw [List.filter_append, List.filter_replicate_of_pos (by decide),
        List.length_append, List.length_replicate]
      decide
    · rw [List.filter_append, List.filter_replicate_of_neg (by decide)]
      decide
  obtain ⟨-, -, -, submitted, hsim, hpopped⟩ :=
    run_down wrapRun_no_start hrun hstopped
  have hwrapped := OsxSimulation.run_sequences hsim
  rw [← hpopped] at hwrapped
  have hlast : ((List.range (popped log).length).map (· % 2 ^ 64))[2 ^ 64]?
      = (List.range (popped log).length)[2 ^ 64]? := by
    rw [← hwrapped, hrange]
  rw [List.getElem?_map, List.getElem?_range hmany] at hlast
  exact absurd (Option.some.inj hlast) (by decide)

end OsxServerRun
