import OsborneX.SimulationProofs
import OsborneX.ShardSymbolProofs
import OsborneX.SoundRunProofs

/-! # Sharding is transparent — one symbol, wherever it is processed

    The shard of a symbol is handed the symbol's messages in the order they were
    submitted, among others that do not matter (`run_symbol`).  So once nothing
    is pending the book of a symbol, and what was published for it, are those
    of its messages alone: neither the number of shards nor the interleaving
    shows. -/

namespace OsxSharding

open OsxOrderbook OsxPrice OsxShard OsxSimulation OsxSoundRun OsxCalls
  Execution

variable {count : Nat}

/-! ## What stops a step -/

/-- A shard's oldest pending message faults when it is processed. -/
def Faulting (s : Simulation count) (fault : OsxOrderbook.Fault) : Prop :=
  ∃ shard message rest, s.pending shard = message :: rest ∧
    (s.lanes shard).shard.process message = .error fault

theorem process_error {lane : Lane} {message : OrderMessage}
    {e : OsxSimulation.Fault} (h : lane.process message = .error e) :
    ∃ fault, e = .process fault ∧
      lane.shard.process message = .error fault := by
  rw [Lane.process] at h
  split at h
  · rename_i fault hprocess
    cases h
    exact ⟨fault, rfl, hprocess⟩
  · cases h

theorem worker_error {s : Simulation count} (hc : Controlled s)
    {shard : Fin count} {e : OsxSimulation.Fault}
    (h : s.workerStep shard = .error e) :
    e = .blocked ∨ ∃ fault, e = .process fault ∧ Faulting s fault := by
  rcases bind_error h with hwork | ⟨r, -, hr⟩
  · rw [Lane.work] at hwork
    cases hworker : (s.lanes shard).worker with
    | holding message =>
        rw [hworker] at hwork
        have hthere : (s.lanes shard).worker ≠ .absent := by
          rw [hworker]
          exact Worker.noConfusion
        rcases bind_error hwork with hprocess | ⟨r, -, hr⟩
        · obtain ⟨fault, rfl, hfault⟩ := process_error hprocess
          refine Or.inr ⟨fault, rfl, shard, message,
            (s.lanes shard).inbound.items, ?_, hfault⟩
          rw [Simulation.pending, hworker, hc.owner_empty hthere]
          rfl
        · cases hr
    | reading =>
        rw [hworker] at hwork
        dsimp only at hwork
        split at hwork <;> cases hwork
    | loading =>
        rw [hworker] at hwork
        cases hwork
    | absent | finished =>
        rw [hworker] at hwork
        cases hwork
        exact Or.inl rfl
  · cases hr

theorem owner_error {s : Simulation count} (hc : Controlled s)
    {e : OsxSimulation.Fault} (h : s.ownerStep = .error e) :
    e = .blocked ∨ ∃ fault, e = .process fault ∧ Faulting s fault := by
  rw [Simulation.ownerStep] at h
  cases howner : s.owner with
  | idle =>
      rw [howner] at h
      cases h
      exact Or.inl rfl
  | starting next =>
      rw [howner] at h
      dsimp only at h
      split at h
      · rename_i hlt
        -- the lane is down, so its thread can be launched
        have hdown := hc.lanes ⟨next, hlt⟩
        rw [Simulation.phase, howner] at hdown
        simp only [Nat.lt_irrefl, if_false] at hdown
        rw [start_down hdown] at h
        cases h
      · cases h
  | stopping next =>
      rw [howner] at h
      dsimp only at h
      split at h
      · split at h <;> cases h
      · cases h
  | joining shard =>
      rw [howner] at h
      dsimp only at h
      split at h <;> cases h
      exact Or.inl rfl
  | draining shard =>
      rw [howner] at h
      dsimp only at h
      split at h <;> cases h
  | applying shard message =>
      rw [howner] at h
      rcases bind_error h with hprocess | ⟨r, -, hr⟩
      · obtain ⟨fault, rfl, hfault⟩ := process_error hprocess
        have hdown := hc.lanes shard
        rw [Simulation.phase, howner] at hdown
        simp only [Nat.le_refl, if_true] at hdown
        refine Or.inr ⟨fault, rfl, shard, message,
          (s.lanes shard).inbound.items, ?_, hfault⟩
        rw [Simulation.pending, howner, hdown.2]
        show [] ++ (if shard = shard then [message] else []) ++ _ = _
        rw [if_pos rfl]
        rfl
      · cases hr

/-- Nothing stops a step but having to wait, and a message that faults. -/
theorem step_error {hash : SymbolId → Nat} [NeZero count]
    {s : Simulation count} (hc : Controlled s) {action : Action count}
    {e : OsxSimulation.Fault} (h : s.step hash action = .error e) :
    e = .blocked ∨ ∃ fault, e = .process fault ∧ Faulting s fault := by
  cases action with
  | submit message now =>
      rw [Simulation.step, Simulation.submit] at h
      dsimp only at h
      split at h <;> cases h
      exact Or.inl rfl
  | start =>
      rw [Simulation.step, Simulation.start] at h
      split at h
      · split at h <;> cases h
      · cases h
        exact Or.inl rfl
  | stop =>
      rw [Simulation.step, Simulation.stop] at h
      split at h
      · split at h <;> cases h
      · cases h
        exact Or.inl rfl
  | owner => exact owner_error hc h
  | worker shard => exact worker_error hc h

/-! ## Sound messages -/

/-- A message on a side of the book, with a number. -/
def Sound (message : OrderMessage) : Prop :=
  Sided message.side ∧ Priced message

instance (message : OrderMessage) : Decidable (Sound message) :=
  inferInstanceAs (Decidable (_ ∧ _))

/-- A shard that was handed sound messages faults on none. -/
theorem not_faulting {s : Simulation count} {log : List (Event count)}
    (h : ∀ shard, Account s log shard)
    (hsound : ∀ shard, ∀ message ∈ acceptedAt shard log, Sound message)
    (fault : OsxOrderbook.Fault) : ¬ Faulting s fault := by
  rintro ⟨shard, message, rest, hpending, hfault⟩
  obtain ⟨hhanded, happlied⟩ := h shard
  have hmem : ∀ m ∈ (processedAt shard log).map Prod.fst ++ [message],
      Sound m := by
    intro m hm
    refine hsound shard m ?_
    rw [hhanded, hpending]
    rcases List.mem_append.mp hm with hm | hm
    · exact List.mem_append_left _ hm
    · rw [List.mem_singleton.mp hm]
      exact List.mem_append_right _ List.mem_cons_self
  obtain ⟨t, published, hrun⟩ := run_returns _ (fun m hm => (hmem m hm).1)
    (fun m hm => (hmem m hm).2)
  obtain ⟨s', os₁, os₂, hrun₁, hrun₂, -⟩ := execute_append.mp hrun
  rw [happlied] at hrun₁
  cases hrun₁
  obtain ⟨s₂, p, os, hprocess, -, -⟩ := execute_cons_ok hrun₂
  rw [hfault] at hprocess
  cases hprocess

/-- What a step hands to a shard was submitted by it. -/
theorem step_sound {hash : SymbolId → Nat} [NeZero count]
    {s s' : Simulation count} {action : Action count} {event : Event count}
    (hsound : ∀ message ∈ submissions [action], Sound message)
    (h : s.step hash action = .ok (s', event)) :
    ∀ shard, ∀ message ∈ acceptedAt shard [event], Sound message := by
  intro shard message hmem
  by_cases hsubmit : submissions [action] = []
  · rw [acceptedAt_nothing shard (step_hands_nothing hsubmit h).2] at hmem
    cases hmem
  · cases action with
    | submit message' now =>
        obtain ⟨stamped, inbound, hstamp, -, rfl, rfl⟩ := submit_ok h
        rw [acceptedAt_accepted] at hmem
        split at hmem
        · rw [List.mem_singleton.mp hmem, hstamp]
          exact hsound message' List.mem_cons_self
        · cases hmem
    | start => exact absurd rfl hsubmit
    | stop => exact absurd rfl hsubmit
    | owner => exact absurd rfl hsubmit
    | worker shard => exact absurd rfl hsubmit

/-- **NO RUN FAULTS** that submits sound messages: at worst the schedule has a
    thread go on that has to wait. -/
theorem run_waits {hash : SymbolId → Nat} [NeZero count]
    {actions : List (Action count)} :
    ∀ {s : Simulation count} {before : List (Event count)}
      {e : OsxSimulation.Fault}, Controlled s →
      (∀ shard, Account s before shard) →
      (∀ shard, ∀ message ∈ acceptedAt shard before, Sound message) →
      (∀ message ∈ submissions actions, Sound message) →
      execute (Simulation.step hash) s actions = .error e → e = .blocked := by
  induction actions with
  | nil =>
      intro s before e _ _ _ _ h
      cases h
  | cons action actions ih =>
      intro s before e hc ha hbefore hsound h
      rw [submissions_cons] at hsound
      cases hstep : s.step hash action with
      | error e' =>
          rw [execute, hstep] at h
          cases h
          rcases step_error hc hstep with hblocked | ⟨fault, -, hfault⟩
          · exact hblocked
          · exact absurd hfault (not_faulting ha hbefore fault)
      | ok r =>
          obtain ⟨s', event⟩ := r
          rw [execute_cons hstep] at h
          obtain ⟨hc', hmoves⟩ := step_moves hc hstep
          have hstep' := step_sound (fun message hmem =>
            hsound message (List.mem_append_left _ hmem)) hstep
          have hbefore' : ∀ shard,
              ∀ message ∈ acceptedAt shard (before ++ [event]),
                Sound message := by
            intro shard message hmem
            rw [acceptedAt_append] at hmem
            rcases List.mem_append.mp hmem with hmem | hmem
            · exact hbefore shard message hmem
            · exact hstep' shard message hmem
          cases hrest : execute (Simulation.step hash) s' actions with
          | error e' =>
              rw [hrest] at h
              cases h
              exact ih hc' (fun shard => (ha shard).moves (hmoves shard))
                hbefore' (fun message hmem =>
                  hsound message (List.mem_append_right _ hmem)) hrest
          | ok r =>
              rw [hrest] at h
              cases h

/-! ## One symbol -/

/-- No message is on its way: the buffers are read to their ends, and what was
    read is processed. -/
def Idle (s : Simulation count) : Prop :=
  ∀ shard, (s.lanes shard).inbound.items = [] ∧
    (s.lanes shard).worker.held = [] ∧ s.owner.held shard = []

theorem Idle.pending {s : Simulation count} (h : Idle s) (shard : Fin count) :
    s.pending shard = [] := by
  obtain ⟨hitems, hworker, howner⟩ := h shard
  rw [Simulation.pending, hitems, hworker, howner]
  rfl

/-- What all the shards did with the messages of a symbol is what its shard
    did. -/
theorem processed_symbol {hash : SymbolId → Nat} [NeZero count]
    (symbol : SymbolId) {log : List (Event count)}
    (h : ∀ shard, ∀ d ∈ processedAt shard log,
      shardForSymbol hash count d.1.symbol = shard) :
    (processed log).filter (fun d => d.1.symbol = symbol)
      = (processedAt (shardForSymbol hash count symbol) log).filter
          (fun d => d.1.symbol = symbol) := by
  induction log with
  | nil => rfl
  | cons event log ih =>
      have hcons : ∀ shard, processedAt shard (event :: log)
          = processedAt shard [event] ++ processedAt shard log :=
        fun shard => processedAt_append shard [event] log
      have ih := ih fun shard d hmem =>
        h shard d (by rw [hcons]; exact List.mem_append_right _ hmem)
      rw [hcons, List.filter_append, ← ih]
      cases event with
      | quiet => rfl
      | accepted shard message => rfl
      | processed shard message published =>
          have hroute := h shard (message, published) (by
            rw [hcons, processedAt_processed, if_pos rfl]
            exact List.mem_cons_self)
          show ((message, published) :: processed log).filter _ = _
          rw [processedAt_processed]
          by_cases heq : message.symbol = symbol
          · have hshard : shard = shardForSymbol hash count symbol := by
              rw [← hroute, heq]
            rw [if_pos hshard]
            exact List.filter_append [(message, published)] (processed log)
          · -- the other symbols are left out on both sides
            split <;> simp only [List.filter_cons, List.filter_nil, heq,
              decide_false, Bool.false_eq_true, if_false, List.nil_append]

/-- The messages of a symbol among those handed to its shard. -/
theorem acceptedAt_symbol {hash : SymbolId → Nat} [NeZero count]
    (symbol : SymbolId) {log : List (Event count)}
    (h : ∀ shard, acceptedAt shard log = (accepted log).filter (fun message =>
      shardForSymbol hash count message.symbol = shard)) :
    (acceptedAt (shardForSymbol hash count symbol) log).filter
        (fun message => message.symbol = symbol)
      = (accepted log).filter (fun message => message.symbol = symbol) := by
  rw [h, List.filter_filter]
  refine List.filter_congr fun message _ => ?_
  by_cases heq : message.symbol = symbol
  · simp [heq]
  · simp [heq]

/-! ## The stamps -/

/-- A message without its stamps. -/
def bare (message : OrderMessage) : OrderMessage :=
  { message with ingressTimestamp := 0, ingressSequence := 0 }

theorem bare_stamped (messages : List OrderMessage) :
    ∀ sequence, (stampedFrom sequence messages).map bare = messages.map bare := by
  induction messages with
  | nil => exact fun _ => rfl
  | cons message messages ih =>
      intro sequence
      rw [stampedFrom, List.map_cons, List.map_cons, ih]
      rfl

/-- A book does not see the stamps. -/
theorem execute_bare {messages messages' : List OrderMessage}
    (h : messages.map bare = messages'.map bare) (book : Orderbook Double) :
    execute Shard.execute book messages
      = execute Shard.execute book messages' := by
  have hbare : ∀ messages : List OrderMessage,
      execute Shard.execute book (messages.map bare)
        = execute Shard.execute book messages := by
    intro messages
    have hmap : ∀ (b : Orderbook Double) (message : OrderMessage),
        Shard.execute b (bare message)
          = (Shard.execute b message).map (fun r => (r.1, id r.2)) := by
      intro b message
      show Shard.execute b message = _
      cases Shard.execute b message <;> rfl
    rw [execute_map hmap]
    cases execute Shard.execute book messages with
    | error e => rfl
    | ok r =>
        show Except.ok (r.1, r.2.map id) = _
        rw [List.map_id]
  rw [← hbare messages, h, hbare messages']

/-- The messages of a symbol. -/
def ofSymbol (symbol : SymbolId) (messages : List OrderMessage) :
    List OrderMessage :=
  messages.filter (fun message => message.symbol = symbol)

theorem ofSymbol_map {f : OrderMessage → OrderMessage}
    (hf : ∀ message, (f message).symbol = message.symbol) (symbol : SymbolId)
    (messages : List OrderMessage) :
    ofSymbol symbol (messages.map f) = (ofSymbol symbol messages).map f := by
  rw [ofSymbol, List.filter_map, ofSymbol]
  congr 1
  refine List.filter_congr fun message _ => ?_
  simp only [Function.comp_apply, hf]

/-- What was handed out, the stamps aside: the messages. -/
theorem bare_of_handed {handed messages : List OrderMessage} {sequence : Nat}
    (h : handed.map untimed = stampedFrom sequence messages) :
    handed.map bare = messages.map bare := by
  rw [← bare_stamped messages sequence, ← h, List.map_map]
  rfl

/-- The same for one symbol. -/
theorem bare_of_accepted {symbol : SymbolId}
    {handed messages : List OrderMessage} {sequence : Nat}
    (h : handed.map untimed = stampedFrom sequence messages) :
    (ofSymbol symbol handed).map bare = (ofSymbol symbol messages).map bare := by
  have hbare := bare_of_handed h
  have hsymbol : ∀ message, (bare message).symbol = message.symbol :=
    fun _ => rfl
  rw [← ofSymbol_map hsymbol, ← ofSymbol_map hsymbol, hbare]

/-! ## What was published -/

/-- The pushes for a symbol are what its messages made the shard push. -/
theorem pushed_symbol (symbol : SymbolId)
    {done : List (OrderMessage × Published)}
    (h : ∀ d ∈ done, (∀ trade ∈ d.2.trades, trade.symbol = d.1.symbol) ∧
      ∀ update, d.2.top = some update → update.symbol = d.1.symbol) :
    ((done.flatMap (·.2.trades)).filter (fun trade => trade.symbol = symbol)
      = (done.filter (fun d => d.1.symbol = symbol)).flatMap (·.2.trades)) ∧
    ((done.filterMap (·.2.top)).filter (fun update => update.symbol = symbol)
      = (done.filter (fun d => d.1.symbol = symbol)).filterMap (·.2.top)) := by
  induction done with
  | nil => exact ⟨rfl, rfl⟩
  | cons d done ih =>
      obtain ⟨htrades, htops⟩ := ih fun d hd => h d (List.mem_cons_of_mem _ hd)
      obtain ⟨htrade, htop⟩ := h d List.mem_cons_self
      by_cases heq : d.1.symbol = symbol
      · have hpos : decide (d.1.symbol = symbol) = true := decide_eq_true heq
        rw [List.filter_cons, if_pos hpos]
        constructor
        · rw [List.flatMap_cons, List.filter_append, htrades, List.flatMap_cons]
          congr 1
          refine List.filter_eq_self.mpr fun trade hmem => ?_
          exact decide_eq_true ((htrade trade hmem).trans heq)
        · cases hd : d.2.top with
          | none =>
              simp only [List.filterMap_cons, hd, htops]
          | some update =>
              have hupdate : decide (update.symbol = symbol) = true :=
                decide_eq_true ((htop update hd).trans heq)
              simp only [List.filterMap_cons, hd, List.filter_cons, hupdate,
                if_true, htops]
      · have hneg : ¬ decide (d.1.symbol = symbol) = true := by
          rw [decide_eq_true_iff]
          exact heq
        rw [List.filter_cons, if_neg hneg]
        constructor
        · rw [List.flatMap_cons, List.filter_append, htrades]
          refine List.append_left_eq_self.mpr
            (List.filter_eq_nil_iff.mpr fun trade hmem => ?_)
          rw [decide_eq_true_iff, htrade trade hmem]
          exact heq
        · cases hd : d.2.top with
          | none => simp only [List.filterMap_cons, hd, htops]
          | some update =>
              have hupdate : ¬ decide (update.symbol = symbol) = true := by
                rw [decide_eq_true_iff, htop update hd]
                exact heq
              simp only [List.filterMap_cons, hd, List.filter_cons,
                if_neg hupdate, htops]

/-! ## Transparency -/

/-- The shards have done with the messages of a symbol what they would do
    alone.  Of what is on the right nothing depends on the shards. -/
structure AsAlone (hash : SymbolId → Nat) [NeZero count]
    (s : Simulation count) (log : List (Event count))
    (messages : List OrderMessage) (symbol : SymbolId) : Prop where
  book : ∃ book trades,
    execute Shard.execute .empty (ofSymbol symbol messages)
      = .ok (book, trades) ∧
    (s.lanes (shardForSymbol hash count symbol)).shard.books.find? symbol
      = if ofSymbol symbol messages = [] then none else some book
  elsewhere : ∀ shard, shard ≠ shardForSymbol hash count symbol →
    (s.lanes shard).shard.hasBook symbol = false
  published : ∃ shard published,
    execute Shard.process .empty (ofSymbol symbol (stampedFrom 0 messages))
      = .ok (shard, published) ∧
    ((tradesPushed log).filter (fun trade => trade.symbol = symbol)).map
        TradeExecution.untimed
      = published.flatMap Published.trades ∧
    (topsPushed log).filter (fun update => update.symbol = symbol)
      = published.filterMap Published.top

/-- What was processed, was processed by a shard. -/
theorem mem_processed {d : OrderMessage × Published}
    {log : List (Event count)} (h : d ∈ processed log) :
    ∃ shard, d ∈ processedAt shard log := by
  obtain ⟨event, hmem, heq⟩ := List.mem_filterMap.mp h
  cases event with
  | quiet => cases heq
  | accepted shard message => cases heq
  | processed shard message published =>
      cases heq
      exact ⟨shard, List.mem_filterMap.mpr ⟨_, hmem, if_pos rfl⟩⟩

/-- An idle shard has processed what it was handed. -/
theorem processed_idle {s : Simulation count} {log : List (Event count)}
    {shard : Fin count} (h : Account s log shard)
    (hnone : s.pending shard = []) :
    (processedAt shard log).map Prod.fst = acceptedAt shard log := by
  rw [h.handed, hnone, List.append_nil]

/-- A shard processes the messages of its own symbols alone. -/
theorem processedAt_route {hash : SymbolId → Nat} [NeZero count]
    {s : Simulation count} {log : List (Event count)}
    (h : ∀ shard, Account s log shard)
    (hrouted : ∀ shard, acceptedAt shard log
      = (accepted log).filter (fun message =>
          shardForSymbol hash count message.symbol = shard))
    (shard : Fin count) :
    ∀ d ∈ processedAt shard log,
      shardForSymbol hash count d.1.symbol = shard := by
  intro d hmem
  have hhanded : d.1 ∈ acceptedAt shard log := by
    rw [(h shard).handed]
    exact List.mem_append_left _ (List.mem_map_of_mem hmem)
  rw [hrouted] at hhanded
  exact of_decide_eq_true (List.mem_filter.mp hhanded).2

/-- Once nothing is pending, each symbol's messages were processed in the order
    they were stamped. -/
theorem processed_order {hash : SymbolId → Nat} [NeZero count]
    {s : Simulation count} {log : List (Event count)}
    (h : ∀ shard, Account s log shard)
    (hrouted : ∀ shard, acceptedAt shard log
      = (accepted log).filter (fun message =>
          shardForSymbol hash count message.symbol = shard))
    (hnone : ∀ shard, s.pending shard = []) (symbol : SymbolId) :
    ((processed log).map Prod.fst).filter (fun message =>
        message.symbol = symbol)
      = (accepted log).filter (fun message => message.symbol = symbol) := by
  rw [← acceptedAt_symbol symbol hrouted, ← processed_idle (h _) (hnone _),
    List.filter_map, List.filter_map]
  exact congrArg (List.map Prod.fst)
    (processed_symbol symbol (processedAt_route h hrouted))

/-- **SHARDING IS TRANSPARENT**, whatever the hash, the number of shards, the
    size of their buffers and the interleaving. -/
theorem sharding_transparent (hash : SymbolId → Nat) (count capacity : Nat)
    [NeZero count] (actions : List (Action count))
    (hsound : ∀ message ∈ submissions actions, Sound message) :
    (∀ e, execute (Simulation.step hash) (.new count capacity) actions
      = .error e → e = .blocked) ∧
    ∀ s log, execute (Simulation.step hash) (.new count capacity) actions
        = .ok (s, log) → Idle s →
      ∀ symbol, AsAlone hash s log (submissions actions) symbol := by
  constructor
  · intro e h
    exact run_waits (controlled_new capacity) (account_new capacity)
      (fun _ _ hmem => absurd hmem List.not_mem_nil) hsound h
  · intro s log hrun hidle symbol
    obtain ⟨-, haccount⟩ :=
      run_account (controlled_new capacity) (account_new capacity) hrun
    rw [List.nil_append] at haccount
    obtain ⟨hstamped, hrouted⟩ := run_accepted hrun
    have hroute := processedAt_route haccount hrouted
    have hat := haccount (shardForSymbol hash count symbol)
    -- the messages of the symbol, as its shard processed them
    have hown : ofSymbol symbol
        ((processedAt (shardForSymbol hash count symbol) log).map Prod.fst)
        = ofSymbol symbol (accepted log) := by
      rw [processed_idle hat (hidle.pending _)]
      exact acceptedAt_symbol symbol hrouted
    constructor
    · have hbare : (ofSymbol symbol (accepted log)).map bare
          = (ofSymbol symbol (submissions actions)).map bare :=
        bare_of_accepted hstamped
      obtain ⟨trades, hbook⟩ := run_book symbol hat.applied
      have hknown := run_known symbol hat.applied
      rw [← ofSymbol, hown] at hbook hknown
      rw [execute_bare hbare] at hbook
      refine ⟨_, trades, hbook, hknown.trans ?_⟩
      have hnil : ofSymbol symbol (accepted log) = [] ↔
          ofSymbol symbol (submissions actions) = [] := by
        rw [← List.map_eq_nil_iff (f := bare), hbare, List.map_eq_nil_iff]
      simp only [hnil]
      rfl
    · intro shard hne
      have hknown := run_known symbol (haccount shard).applied
      have hnone : ((processedAt shard log).map Prod.fst).filter
          (fun message => message.symbol = symbol) = [] := by
        refine List.filter_eq_nil_iff.mpr fun message hmem => ?_
        obtain ⟨d, hd, rfl⟩ := List.mem_map.mp hmem
        rw [decide_eq_true_iff]
        intro heq
        exact hne (by rw [← hroute shard d hd, heq])
      rw [hnone, if_pos rfl] at hknown
      rw [Shard.hasBook, HashTable.contains, hknown]
      rfl
    · obtain ⟨t, hrun', -⟩ := run_symbol symbol hat.applied
      have hmessages : ((((processedAt (shardForSymbol hash count symbol)
          log).filter (fun d => d.1.symbol = symbol)).map Prod.fst).map untimed)
          = ofSymbol symbol (stampedFrom 0 (submissions actions)) := by
        have hsymbol : ∀ message, (untimed message).symbol = message.symbol :=
          fun _ => rfl
        have hstamped' : (accepted log).map untimed
            = stampedFrom 0 (submissions actions) := hstamped
        rw [← hstamped', ofSymbol_map hsymbol, ← hown, ofSymbol,
          List.filter_map]
        rfl
      have huntimed := execute_map (fun s message => process_untimed s message)
        (((processedAt (shardForSymbol hash count symbol) log).filter
          (fun d => d.1.symbol = symbol)).map Prod.fst) .empty
      rw [hrun'] at huntimed
      have hpushed : ∀ d ∈ processed log,
          (∀ trade ∈ d.2.trades, trade.symbol = d.1.symbol) ∧
            ∀ update, d.2.top = some update → update.symbol = d.1.symbol := by
        intro d hd
        obtain ⟨shard, hmem⟩ := mem_processed hd
        obtain ⟨htrades, htop⟩ :=
          run_published (haccount shard).applied d hmem
        exact ⟨htrades, fun update hupdate => (htop update hupdate).1⟩
      obtain ⟨htrades, htops⟩ := pushed_symbol symbol hpushed
      rw [processed_symbol symbol hroute] at htrades htops
      refine ⟨t, _, (congrArg _ hmessages.symm).trans huntimed, ?_, ?_⟩
      · rw [tradesPushed, htrades, List.map_flatMap, List.flatMap_map,
          List.flatMap_map]
        rfl
      · rw [topsPushed, htops, List.filterMap_map, List.filterMap_map]
        rfl

instance (s : Simulation count) : Decidable (Idle s) :=
  inferInstanceAs (Decidable (∀ _, _ ∧ _ ∧ _))

/-- One order at 100. -/
def orderAt100 (symbol : SymbolId) (orderId : OrderId) (side : Side)
    (quantity : Nat) : OrderMessage where
  sourceTimestamp := 0
  ingressTimestamp := 0
  ingressSequence := 0
  source := 0
  symbol := symbol
  orderId := orderId
  side := side
  price := ⟨0x4059000000000000⟩
  quantity := quantity
  type := .goodTillCancel
  action := .add

/-- Two shards; the second message of symbol 10 is left to the owner, the one
    of symbol 11 to a worker that is still running then. -/
def sampleActions : List (Action 2) :=
  let first : Fin 2 := ⟨0, Nat.zero_lt_two⟩
  let second : Fin 2 := ⟨1, Nat.one_lt_two⟩
  [.start, .owner, .submit (orderAt100 10 1 .buy 5) 7, .owner, .owner,
    .worker first, .worker first, .submit (orderAt100 11 2 .sell 4) 8,
    .submit (orderAt100 10 3 .sell 2) 9, .worker first, .worker second,
    .stop, .owner, .worker first, .owner, .owner, .owner, .owner, .owner,
    .worker second, .worker second, .worker second, .owner, .owner, .owner]

theorem sharding_transparent_two :
    ∃ s log, execute (Simulation.step id) (.new 2 4) sampleActions
        = .ok (s, log) ∧ Idle s ∧
      ∀ symbol, AsAlone id s log (submissions sampleActions) symbol := by
  have heval : (execute (Simulation.step id) (.new 2 4)
      sampleActions).toOption.map (fun r => decide (Idle r.1)) = some true := by
    decide +kernel
  cases hrun : execute (Simulation.step id) (.new 2 4) sampleActions with
  | error e =>
      rw [hrun] at heval
      cases heval
  | ok r =>
      obtain ⟨s, log⟩ := r
      rw [hrun] at heval
      have hidle : Idle s := of_decide_eq_true (Option.some.inj heval)
      exact ⟨s, log, rfl, hidle,
        (sharding_transparent id 2 4 sampleActions (by decide)).2 s log hrun
          hidle⟩

end OsxSharding
