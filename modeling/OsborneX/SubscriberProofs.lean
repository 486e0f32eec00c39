import OsborneX.MarketFeedProofs

/-! # Subscribers — in order, without duplicates, every loss accounted for

    What a subscriber handles of one symbol comes from one ring, where the
    updates stand in the order the messages were stamped.  Once the simulation is
    down the rings do not change, so a pass of `Subscriber::stop` that finds
    nothing has found every ring read to its end. -/

namespace OsxSubscriber

open OsxShard OsxRingBuffer OsxRingCall OsxMarketFeed Execution
open OsxSimulation hiding Action Event Fault

variable {count : Nat}

/-! ## The order of the sequences -/

/-- A read is no step of the simulation. -/
theorem readNext_log {s : Market count} {id : Nat}
    {subscriber : Subscriber count} {source : Fin count × ConsumerId}
    {progressed progressed' : Bool} {outbound : Buffers count}
    {events : List TopOfBookUpdate} {event : Event count}
    (h : s.readNext id subscriber source progressed
      = .ok (outbound, events, progressed', event)) :
    simulationLog [event] = [] := by
  rw [Market.readNext] at h
  split at h <;> cases h <;> rfl

section Order

variable {hash : SymbolId → Nat} [NeZero count]

/-- The run of the simulation inside a run of the feed. -/
theorem step_simulation {s s' : Market count} {action : Action count}
    {event : Event count} (h : s.step hash action = .ok (s', event)) :
    execute (Simulation.step hash) s.simulation (simulationActions [action])
      = .ok (s'.simulation, simulationLog [event]) := by
  cases action with
  | simulation action =>
      obtain ⟨simulation, event, hsimulation, rfl, rfl⟩ := simulationStep_ok h
      exact execute_cons_of hsimulation rfl
  | addSubscriber =>
      obtain ⟨s₁, hadd, heq⟩ := map_ok h
      cases heq
      rw [(addSubscriber_ok hadd).1]
      rfl
  | startSubscriber id | stopSubscriber id =>
      obtain ⟨subscriber, -, hturn⟩ := subscriberStep_ok h
      obtain ⟨subscriber', -, heq⟩ := map_ok hturn
      cases heq
      rfl
  | poll id =>
      obtain ⟨subscriber, -, hturn⟩ := subscriberStep_ok h
      obtain ⟨-, ⟨thread, rfl, rfl⟩ | ⟨next, progressed, source, outbound, events,
        progressed', -, hread, rfl⟩⟩ := pollStep_ok hturn
      · rfl
      · rw [readNext_log hread]
        rfl
  | stopper id =>
      obtain ⟨subscriber, -, hturn⟩ := subscriberStep_ok h
      obtain ⟨-, rfl, rfl⟩ | ⟨next, progressed, -, ⟨-, rfl, rfl⟩ | ⟨source,
        outbound, events, progressed', -, hread, rfl⟩⟩ := stopperStep_ok hturn
      · rfl
      · rfl
      · rw [readNext_log hread]
        rfl

theorem run_simulation {actions : List (Action count)} :
    ∀ {s t : Market count} {log : List (Event count)},
      execute (Market.step hash) s actions = .ok (t, log) →
      execute (Simulation.step hash) s.simulation (simulationActions actions)
        = .ok (t.simulation, simulationLog log) := by
  induction actions with
  | nil =>
      intro s t log h
      cases h
      rfl
  | cons action actions ih =>
      intro s t log h
      obtain ⟨s₁, event, log', hstep, hrest, rfl⟩ := execute_cons_ok h
      have hsplit : simulationActions (action :: actions)
          = simulationActions [action] ++ simulationActions actions :=
        List.filterMap_append (l := [action])
      have hlog : simulationLog (event :: log')
          = simulationLog [event] ++ simulationLog log' :=
        simulationLog_append [event] log'
      rw [hsplit, hlog]
      exact execute_append.mpr
        ⟨_, _, _, step_simulation hstep, ih hrest, rfl⟩

/-- What was accepted stands in the order it was stamped. -/
theorem accepted_increasing {inboundCapacity : Nat}
    {actions : List (OsxSimulation.Action count)} {t : Simulation count}
    {log : List (OsxSimulation.Event count)}
    (h : execute (Simulation.step hash) (.new count inboundCapacity) actions
      = .ok (t, log)) (hsize : (submissions actions).length < 2 ^ 64) :
    (accepted log).Pairwise
      (fun m m' => m.ingressSequence < m'.ingressSequence) := by
  have hsequences := run_sequences h
  have hsmall : (List.range (submissions actions).length).map (· % 2 ^ 64)
      = List.range (submissions actions).length := by
    refine (List.map_congr_left (fun i hi => ?_)).trans (List.map_id _)
    exact Nat.mod_eq_of_lt (Nat.lt_trans (List.mem_range.mp hi) hsize)
  rw [hsmall] at hsequences
  have hpairwise := List.pairwise_lt_range (n := (submissions actions).length)
  rw [← hsequences] at hpairwise
  exact List.pairwise_map.mp hpairwise

/-- The updates a shard pushed, in the order of their sequences and each of a
    symbol that is routed there. -/
theorem pushed_increasing {inboundCapacity : Nat}
    {actions : List (OsxSimulation.Action count)} {s : Simulation count}
    {log : List (Event count)} {shard : Fin count}
    (h : execute (Simulation.step hash) (.new count inboundCapacity) actions
      = .ok (s, simulationLog log))
    (hsize : (submissions actions).length < 2 ^ 64)
    (haccount : Account s (simulationLog log) shard) :
    (pushedBy shard log).Pairwise (fun u u' => u.sequence < u'.sequence) ∧
      ∀ update ∈ pushedBy shard log,
        shardForSymbol hash count update.symbol = shard := by
  have hpublished := run_published haccount.applied
  have hrouted := (run_accepted h).2 shard
  have hdone : ((processedAt shard (simulationLog log)).map Prod.fst).Sublist
      (acceptedAt shard (simulationLog log)) := by
    rw [haccount.handed]
    exact List.sublist_append_left ..
  constructor
  · have hmessages : (processedAt shard (simulationLog log)).Pairwise
        (fun d d' => d.1.ingressSequence < d'.1.ingressSequence) := by
      have haccepted : (acceptedAt shard (simulationLog log)).Pairwise
          (fun m m' => m.ingressSequence < m'.ingressSequence) := by
        rw [hrouted]
        exact (accepted_increasing h hsize).filter _
      have hfirst := haccepted.sublist hdone
      rw [List.pairwise_map] at hfirst
      exact hfirst
    refine List.pairwise_filterMap.mpr ?_
    refine hmessages.imp_of_mem (fun hd hd' hlt update htop update' htop' => ?_)
    rw [((hpublished _ hd).2 update htop).2, ((hpublished _ hd').2 update' htop').2]
    exact hlt
  · intro update hmem
    obtain ⟨d, hd, htop⟩ := List.mem_filterMap.mp hmem
    have hhanded := hdone.subset (List.mem_map_of_mem (f := Prod.fst) hd)
    rw [hrouted] at hhanded
    rw [((hpublished d hd).2 update htop).1]
    exact of_decide_eq_true (List.mem_filter.mp hhanded).2

/-- What was handled of a symbol was read from the ring of its shard. -/
theorem handled_symbol {id : Nat} {symbol : SymbolId} {log : List (Event count)}
    (h : ∀ shard, ∀ update ∈ handledFrom id shard log,
      shardForSymbol hash count update.symbol = shard) :
    (handledBy id log).filter (fun update => update.symbol = symbol)
      = (handledFrom id (shardForSymbol hash count symbol) log).filter
        (fun update => update.symbol = symbol) := by
  rw [handledBy, handledFrom, List.filter_filterMap, List.filter_filterMap]
  refine List.filterMap_congr (fun event hmem => ?_)
  cases event with
  | quiet => rfl
  | simulation event => rfl
  | handled id' shard update =>
      by_cases hid : id' = id
      · by_cases hsymbol : update.symbol = symbol
        · have hfrom : update ∈ handledFrom id shard log := by
            refine List.mem_filterMap.mpr ⟨_, hmem, ?_⟩
            simp only [hid, and_self, if_true]
          have hshard := h shard update hfrom
          rw [hsymbol] at hshard
          simp only [hid, hshard, and_self, if_true]
        · simp only [hid, true_and, if_true]
          split
          · rfl
          · simp only [Option.filter_some, hsymbol, decide_false]
            rfl
      · simp only [hid, false_and, if_false]

end Order

/-! ## After `Simulation::stop` -/

/-- The simulation was stopped, or never started. -/
def Down (s : Simulation count) : Prop :=
  s.running = false ∧ s.owner = .idle

/-- Without a new start a simulation that is down stays so, and processes
    nothing. -/
theorem down_step {hash : SymbolId → Nat} [NeZero count]
    {s s' : Simulation count} {action : OsxSimulation.Action count}
    {event : OsxSimulation.Event count} (hc : Controlled s) (hdown : Down s)
    (hstart : action ≠ .start) (h : s.step hash action = .ok (s', event)) :
    Down s' ∧ processed [event] = [] := by
  obtain ⟨hrunning, howner⟩ := hdown
  cases action with
  | submit message now =>
      obtain ⟨stamped, inbound, -, -, rfl, rfl⟩ := submit_ok h
      exact ⟨⟨hrunning, howner⟩, rfl⟩
  | start => exact absurd rfl hstart
  | stop =>
      obtain ⟨s₁, hstop, heq⟩ := map_ok h
      cases heq
      rw [Simulation.stop, howner, hrunning] at hstop
      cases hstop
      exact ⟨⟨hrunning, howner⟩, rfl⟩
  | owner =>
      rw [Simulation.step, Simulation.ownerStep, howner] at h
      cases h
  | worker shard =>
      -- the lane has no worker
      have hlane := hc.lanes shard
      rw [Simulation.phase, howner] at hlane
      simp only [hrunning, Bool.false_eq_true, if_false] at hlane
      obtain ⟨r, hwork, -⟩ := bind_ok h
      rw [Lane.work, hlane.2] at hwork
      cases hwork

/-- An event that processes nothing leaves the rings alone. -/
theorem publish_nothing {event : OsxSimulation.Event count}
    (h : processed [event] = []) (outbound : Buffers count) :
    Market.publish outbound event = outbound ∧
      ∀ shard, pushedBy shard [.simulation event] = [] := by
  cases event with
  | quiet => exact ⟨rfl, fun _ => rfl⟩
  | accepted shard message => exact ⟨rfl, fun _ => rfl⟩
  | processed shard message published => cases h

/-- A subscriber has read a ring to its end. -/
def AtEnd (s : Market count) (log : List (Event count)) (id : Nat)
    (shard : Fin count) : Prop :=
  ∃ cursor, (s.outbound shard).consumers[id]? = some cursor ∧
    cursor.sequence = (pushedBy shard log).length

section Drain

variable {s s' : Market count} {log : List (Event count)}
  {event : Event count} {id : Nat} {shard : Fin count}

/-- A turn that only changes a subscriber. -/
theorem AtEnd.setSubscriber (h : AtEnd s log id shard) (id' : Nat)
    (subscriber : Subscriber count) :
    AtEnd (s.setSubscriber id' subscriber) (log ++ [.quiet]) id shard := by
  obtain ⟨cursor, hcursor, hend⟩ := h
  refine ⟨cursor, hcursor, ?_⟩
  rw [pushedBy_quiet]
  exact hend

/-- A read leaves a cursor alone that is at its end. -/
theorem AtEnd.read (h : AtEnd s log id shard) (hfeed : Feed s log)
    (hsize : (accepted (simulationLog log)).length < 2 ^ 64) {id' : Nat}
    {subscriber subscriber' : Subscriber count} {shard' : Fin count}
    {progressed progressed' : Bool} {outbound : Buffers count}
    {events : List TopOfBookUpdate}
    (hread : s.readNext id' subscriber (shard', id') progressed
      = .ok (outbound, events, progressed', event)) :
    AtEnd (Market.setSubscriber { s with outbound := outbound } id' subscriber')
      (log ++ [event]) id shard := by
  obtain ⟨cursor', hcursor', ⟨-, rfl, rfl, -, -⟩ |
    ⟨next, update, hbehind, rfl, rfl, -, -, -⟩⟩ := hfeed.readNext hsize hread
  · exact h.setSubscriber id' subscriber'
  · obtain ⟨cursor, hcursor, hend⟩ := h
    refine ⟨cursor, ?_, ?_⟩
    · show (Function.update s.outbound shard' _ shard).consumers[id]? = _
      rw [Function.update_apply]
      by_cases hshard : shard = shard'
      · subst hshard
        rw [if_pos rfl]
        show ((s.outbound shard).consumers.set id' next)[id]? = _
        by_cases hid : id' = id
        · -- it would have read this very cursor
          subst hid
          rw [hcursor] at hcursor'
          cases hcursor'
          omega
        · rw [List.getElem?_set_ne hid]
          exact hcursor
      · rw [if_neg hshard]
        exact hcursor
    · rw [pushedBy_handled]
      exact hend

/-- **WHILE THE SIMULATION IS DOWN** it stays so, and what was read to its end
    stays read to its end. -/
theorem down_stays {hash : SymbolId → Nat} [NeZero count]
    {action : Action count} (hfeed : Feed s log)
    (hsize : (accepted (simulationLog log)).length < 2 ^ 64)
    (hdown : Down s.simulation) (hstart : action ≠ .simulation .start)
    (hstep : s.step hash action = .ok (s', event)) :
    Down s'.simulation ∧ ∀ id shard, AtEnd s log id shard →
      AtEnd s' (log ++ [event]) id shard := by
  cases action with
  | simulation action =>
      obtain ⟨simulation, event, hsimulation, rfl, rfl⟩ :=
        simulationStep_ok hstep
      obtain ⟨hdown', hnothing⟩ := down_step hfeed.controlled hdown
        (fun heq => hstart (congrArg Action.simulation heq)) hsimulation
      obtain ⟨hsame, hpushed⟩ := publish_nothing hnothing s.outbound
      refine ⟨hdown', ?_⟩
      rintro id shard ⟨cursor, hcursor, hend⟩
      refine ⟨cursor, ?_, ?_⟩
      · show (Market.publish s.outbound event shard).consumers[id]? = _
        rw [hsame]
        exact hcursor
      · rw [pushedBy_append, hpushed, List.append_nil]
        exact hend
  -- a new cursor stands behind the others and moves none
  | addSubscriber =>
      obtain ⟨s₁, hadd, heq⟩ := map_ok hstep
      cases heq
      obtain ⟨hsimulation, houtbound, -⟩ := addSubscriber_ok hadd
      refine ⟨hsimulation ▸ hdown, ?_⟩
      rintro id shard ⟨cursor, hcursor, hend⟩
      refine ⟨cursor, ?_, ?_⟩
      · rw [houtbound]
        exact (List.getElem?_append_left
          (List.getElem?_eq_some_iff.mp hcursor).1).trans hcursor
      · rw [pushedBy_quiet]
        exact hend
  | startSubscriber id' | stopSubscriber id' =>
      obtain ⟨subscriber, hget, hturn⟩ := subscriberStep_ok hstep
      obtain ⟨subscriber', -, heq⟩ := map_ok hturn
      cases heq
      exact ⟨hdown, fun id shard h => h.setSubscriber id' subscriber'⟩
  -- a read moves only the reader's own cursor
  | poll id' =>
      obtain ⟨subscriber, hget, hturn⟩ := subscriberStep_ok hstep
      obtain ⟨-, ⟨thread, rfl, rfl⟩ | ⟨next, progressed, ⟨shard', cursor⟩,
        outbound, events, progressed', hsource, hread, rfl⟩⟩ :=
        pollStep_ok hturn
      · exact ⟨hdown, fun id shard h => h.setSubscriber id' _⟩
      · obtain ⟨hid, -⟩ := hfeed.source hget hsource
        dsimp only at hid
        subst hid
        exact ⟨hdown, fun id shard h => h.read hfeed hsize hread⟩
  | stopper id' =>
      obtain ⟨subscriber, hget, hturn⟩ := subscriberStep_ok hstep
      obtain ⟨-, rfl, rfl⟩ | ⟨next, progressed, -, ⟨-, rfl, rfl⟩ |
        ⟨⟨shard', cursor⟩, outbound, events, progressed', hsource, hread, rfl⟩⟩ :=
        stopperStep_ok hturn
      · exact ⟨hdown, fun id shard h => h.setSubscriber id' _⟩
      · exact ⟨hdown, fun id shard h => h.setSubscriber id' _⟩
      · obtain ⟨hid, -⟩ := hfeed.source hget hsource
        dsimp only at hid
        subst hid
        exact ⟨hdown, fun id shard h => h.read hfeed hsize hread⟩

/-- What a call of `Subscriber::stop` has read to the end: everything it read
    in the pass it is in, while the pass has found nothing; after it, every
    ring. -/
def Drained (s : Market count) (log : List (Event count)) (id : Nat) :
    Stopper → Prop
  | .joining => True
  | .polling next progressed => progressed = false →
      ∀ shard : Fin count, shard.val < next → AtEnd s log id shard
  | .idle => ∀ shard, AtEnd s log id shard

theorem Drained.keeps {stopper : Stopper} (h : Drained s log id stopper)
    (hkeeps : ∀ shard, AtEnd s log id shard →
      AtEnd s' (log ++ [event]) id shard) :
    Drained s' (log ++ [event]) id stopper := by
  cases stopper with
  | joining => trivial
  | polling next progressed =>
      exact fun hnone shard hlt => hkeeps shard (h hnone shard hlt)
  | idle => exact fun shard => hkeeps shard (h shard)

/-- A subscriber told to stop, and how far the call is. -/
def Stopping (s : Market count) (log : List (Event count)) (id : Nat) : Prop :=
  ∃ subscriber, s.subscribers[id]? = some subscriber ∧
    Drained s log id subscriber.stopper

/-- The subscriber at `id` after the one at `id'` was replaced. -/
theorem getElem?_setSubscriber {subscriber : Subscriber count}
    (hget : s.subscribers[id]? = some subscriber) (id' : Nat)
    (subscriber' : Subscriber count) :
    (s.setSubscriber id' subscriber').subscribers[id]?
      = some (if id' = id then subscriber' else subscriber) := by
  show (s.subscribers.set id' subscriber')[id]? = _
  by_cases hid : id' = id
  · subst hid
    rw [if_pos rfl, List.getElem?_set_self
      (List.getElem?_eq_some_iff.mp hget).1]
  · rw [if_neg hid, List.getElem?_set_ne hid]
    exact hget

/-- A turn of one subscriber leaves the call of `stop` as far as it was, if it
    does so for its own. -/
theorem Stopping.turn {subscriber other : Subscriber count} {id' : Nat}
    (hset : s'.subscribers[id]?
      = some (if id' = id then other else subscriber))
    (hstill : Drained s' log id subscriber.stopper)
    (hown : id' = id → Drained s' log id other.stopper) :
    Stopping s' log id := by
  refine ⟨_, hset, ?_⟩
  by_cases hid : id' = id
  · rw [if_pos hid]
    exact hown hid
  · rw [if_neg hid]
    exact hstill

/-- A pass over every source that found nothing has drained them all. -/
theorem Drained.passed {subscriber : Subscriber count} (hfeed : Feed s before)
    (hget : s.subscribers[id]? = some subscriber) {next : Nat}
    (hnone : subscriber.sources[next]? = none)
    (h : Drained s' log id (.polling next false)) :
    Drained s' log id .idle := by
  intro shard
  refine h rfl shard ?_
  rw [hfeed.sources id subscriber hget, List.getElem?_map,
    Option.map_eq_none_iff, List.getElem?_eq_none_iff,
    List.length_finRange] at hnone
  exact Nat.lt_of_lt_of_le shard.isLt hnone

/-- **ONE STEP OF THE DRAIN**: a pass that ends without progress has read every
    ring to its end. -/
theorem Stopping.step {hash : SymbolId → Nat} [NeZero count]
    {action : Action count} (h : Stopping s log id) (hfeed : Feed s log)
    (hsize : (accepted (simulationLog log)).length < 2 ^ 64)
    (hdown : Down s.simulation) (hstart : action ≠ .simulation .start)
    (hstep : s.step hash action = .ok (s', event)) :
    Stopping s' (log ++ [event]) id := by
  obtain ⟨subscriber, hget, hdrained⟩ := h
  have hkeeps := (down_stays hfeed hsize hdown hstart hstep).2 id
  have hstill := hdrained.keeps hkeeps
  cases action with
  | simulation action =>
      obtain ⟨simulation, event, -, rfl, rfl⟩ := simulationStep_ok hstep
      exact ⟨subscriber, hget, hstill⟩
  | addSubscriber =>
      obtain ⟨s₁, hadd, heq⟩ := map_ok hstep
      cases heq
      refine ⟨subscriber, ?_, hstill⟩
      rw [(addSubscriber_ok hadd).2.2]
      exact (List.getElem?_append_left
        (List.getElem?_eq_some_iff.mp hget).1).trans hget
  | startSubscriber id' =>
      obtain ⟨other, hother, hturn⟩ := subscriberStep_ok hstep
      obtain ⟨other', hok, heq⟩ := map_ok hturn
      cases heq
      refine Stopping.turn (getElem?_setSubscriber hget id' other') hstill
        (fun hid => ?_)
      subst hid
      rw [hget] at hother
      cases hother
      obtain ⟨hidle, hidle', -, -⟩ := start_ok hok
      rw [hidle']
      rw [hidle] at hstill
      exact hstill
  | stopSubscriber id' =>
      obtain ⟨other, hother, hturn⟩ := subscriberStep_ok hstep
      obtain ⟨other', hok, heq⟩ := map_ok hturn
      cases heq
      refine Stopping.turn (getElem?_setSubscriber hget id' other') hstill
        (fun hid => ?_)
      subst hid
      rw [hget] at hother
      cases hother
      obtain ⟨-, ⟨hjoining, -⟩ | ⟨rfl, -⟩, -, -⟩ := stop_ok hok
      · rw [hjoining]
        trivial
      · exact hstill
  -- the thread's turns leave `stop` where it is
  | poll id' =>
      obtain ⟨other, hother, hturn⟩ := subscriberStep_ok hstep
      obtain ⟨-, ⟨thread, rfl, -⟩ | ⟨next, progressed, source, outbound, events,
        progressed', -, -, rfl⟩⟩ := pollStep_ok hturn
      · refine Stopping.turn (getElem?_setSubscriber hget id' _) hstill
          (fun hid => ?_)
        subst hid
        rw [hget] at hother
        cases hother
        exact hstill
      · refine Stopping.turn (getElem?_setSubscriber hget id' _) hstill
          (fun hid => ?_)
        subst hid
        rw [hget] at hother
        cases hother
        exact hstill
  | stopper id' =>
      obtain ⟨other, hother, hturn⟩ := subscriberStep_ok hstep
      obtain ⟨-, rfl, rfl⟩ | ⟨next, progressed, hpolling, ⟨hnone, rfl, rfl⟩ |
        ⟨⟨shard, cursor⟩, outbound, events, progressed', hsource, hread,
          rfl⟩⟩ := stopperStep_ok hturn
      · refine Stopping.turn (getElem?_setSubscriber hget id' _) hstill
          (fun _ => ?_)
        exact fun _ shard hlt => absurd hlt (Nat.not_lt_zero _)
      · refine Stopping.turn (getElem?_setSubscriber hget id' _) hstill
          (fun hid => ?_)
        subst hid
        rw [hget] at hother
        cases hother
        rw [hpolling] at hstill
        cases progressed with
        | true => exact fun _ shard hlt => absurd hlt (Nat.not_lt_zero _)
        | false => exact hstill.passed hfeed hget hnone
      · refine Stopping.turn (getElem?_setSubscriber hget id' _) hstill
          (fun hid => ?_)
        subst hid
        rw [hget] at hother
        cases hother
        rw [hpolling] at hstill
        obtain ⟨hid, hnext⟩ := hfeed.source hget hsource
        dsimp only at hid hnext
        subst hid
        obtain ⟨cursor', hcursor, ⟨hend, rfl, rfl, -, rfl⟩ |
          ⟨-, -, -, -, -, -, -, hprogressed⟩⟩ := hfeed.readNext hsize hread
        · intro hnone shard' hlt
          by_cases hbefore : shard'.val < next
          · exact hstill hnone shard' hbefore
          · have hthis : shard' = shard := Fin.ext (by omega)
            subst hthis
            exact hkeeps shard' ⟨cursor', hcursor, hend⟩
        · intro hnone
          rw [hprogressed] at hnone
          cases hnone

/-- **THE DRAIN**, along any run without a new start. -/
theorem run_stopping {hash : SymbolId → Nat} [NeZero count]
    {actions : List (Action count)} :
    ∀ {s t : Market count} {before log : List (Event count)},
      Stopping s before id → Feed s before → Down s.simulation →
      .simulation .start ∉ actions →
      execute (Market.step hash) s actions = .ok (t, log) →
      (accepted (simulationLog (before ++ log))).length < 2 ^ 64 →
      Stopping t (before ++ log) id := by
  induction actions with
  | nil =>
      intro s t before log h _ _ _ hrun _
      cases hrun
      rw [List.append_nil]
      exact h
  | cons action actions ih =>
      intro s t before log h hfeed hdown hstart hrun hsize
      obtain ⟨s₁, event, log', hstep, hrest, rfl⟩ := execute_cons_ok hrun
      have hsplit : before ++ event :: log' = (before ++ [event]) ++ log' := by
        rw [List.append_assoc]
        rfl
      rw [hsplit] at hsize ⊢
      obtain ⟨hfirst, hlater⟩ := List.ne_and_not_mem_of_not_mem_cons hstart
      have hone : (accepted (simulationLog (before ++ [event]))).length
          < 2 ^ 64 := by
        rw [simulationLog_append, accepted_append, List.length_append] at hsize
        omega
      have hnone : (accepted (simulationLog before)).length < 2 ^ 64 := by
        rw [simulationLog_append, accepted_append, List.length_append] at hone
        omega
      exact ih (h.step hfeed hnone hdown hfirst.symm hstep)
        (hfeed.step hstep hone)
        (down_stays hfeed hnone hdown hfirst.symm hstep).1 hlater hrest hsize

end Drain

/-! ## The count -/

/-- What a subscriber handled, counted shard by shard. -/
theorem length_handledBy (id : Nat) (log : List (Event count)) :
    (handledBy id log).length
      = ∑ shard, (handledFrom id shard log).length := by
  induction log with
  | nil => simp [handledBy, handledFrom]
  | cons event log ih =>
      have hone : (handledBy id [event]).length
          = ∑ shard, (handledFrom id shard [event]).length := by
        cases event with
        | quiet => simp [handledBy, handledFrom]
        | simulation event => simp [handledBy, handledFrom]
        | handled id' shard' update =>
            by_cases hid : id' = id
            · simp [hid, apply_ite]
            · simp [hid]
      have hcons := handledBy_append id [event] log
      have hfrom := fun shard => handledFrom_append id shard [event] log
      simp only [List.singleton_append] at hcons hfrom
      simp only [hcons, hfrom, List.length_append, Finset.sum_add_distrib, hone,
        ih]

/-- What was pushed, counted shard by shard. -/
theorem length_topsPushed (log : List (OsxSimulation.Event count)) :
    (topsPushed log).length = ∑ shard,
      ((processedAt shard log).filterMap (fun d => d.2.top)).length := by
  induction log with
  | nil => simp [topsPushed, processed, processedAt]
  | cons event log ih =>
      have hone : (topsPushed [event]).length = ∑ shard,
          ((processedAt shard [event]).filterMap (fun d => d.2.top)).length := by
        cases event with
        | quiet => simp [topsPushed, processed]
        | accepted shard message => simp [topsPushed, processed]
        | processed shard message published =>
            have hat : ∀ shard', ((processedAt shard'
                [.processed shard message published]).filterMap
                  (fun d => d.2.top)).length
                = if shard = shard' then
                    (List.filterMap (fun d => d.2.top)
                      [(message, published)]).length
                  else 0 := by
              intro shard'
              rw [processedAt_processed]
              split <;> rfl
            simp only [hat, Finset.sum_ite_eq, Finset.mem_univ, if_true]
            rfl
      have htops := topsPushed_append [event] log
      have hat := fun shard => processedAt_append shard [event] log
      simp only [List.singleton_append] at htops hat
      simp only [htops, hat, List.length_append, List.filterMap_append,
        Finset.sum_add_distrib, hone, ih]

/-- `dropped_count` adds up the cursors' counts, as long as the type holds
    them. -/
theorem foldl_addSequence {S : Type} (f : S → Nat) (sources : List S) :
    ∀ total, total + (sources.map f).sum < 2 ^ 64 →
      sources.foldl (fun total source => addSequence total (f source)) total
        = total + (sources.map f).sum := by
  induction sources with
  | nil => exact fun _ _ => rfl
  | cons source sources ih =>
      intro total hsize
      rw [List.map_cons, List.sum_cons] at hsize ⊢
      have hnext : addSequence total (f source) = total + f source :=
        OsxRingSlot.addSequence_eq (by omega)
      rw [List.foldl_cons, hnext, ih (total + f source) (by omega)]
      omega

/-- A subscriber that has read every ring to its end handled or counted every
    update that was pushed. -/
theorem drained_accounts {s : Market count} {log : List (Event count)}
    {id : Nat} {subscriber : Subscriber count} (hfeed : Feed s log)
    (hsize : (accepted (simulationLog log)).length < 2 ^ 64)
    (hget : s.subscribers[id]? = some subscriber)
    (hend : ∀ shard, AtEnd s log id shard) :
    subscriber.events.length + s.droppedCount subscriber
      = (topsPushed (simulationLog log)).length := by
  choose cursor hcursor hsequence using hend
  have hcounted : ∀ shard, (handledFrom id shard log).length
      + (cursor shard).dropped = (pushedBy shard log).length := by
    intro shard
    rw [← hsequence shard]
    exact (hfeed.readers shard id _ (hcursor shard)).counted
  have hevents : subscriber.events.length
      = ∑ shard, (handledFrom id shard log).length := by
    rw [hfeed.events id subscriber hget]
    exact length_handledBy id log
  have hpushed : (topsPushed (simulationLog log)).length
      = ∑ shard, (handledFrom id shard log).length
        + ∑ shard, (cursor shard).dropped := by
    rw [length_topsPushed, ← Finset.sum_add_distrib]
    exact Finset.sum_congr rfl (fun shard _ => (hcounted shard).symm)
  have hsmall : (topsPushed (simulationLog log)).length < 2 ^ 64 := by
    refine Nat.lt_of_le_of_lt ?_ hsize
    rw [length_topsPushed, length_accepted]
    exact Finset.sum_le_sum
      (fun shard _ => length_pushedBy (hfeed.accounts shard))
  have hdropped : s.droppedCount subscriber
      = ∑ shard, (cursor shard).dropped := by
    rw [Market.droppedCount, hfeed.sources id subscriber hget, List.foldl_map]
    simp only [hcursor]
    rw [foldl_addSequence, ← Fin.sum_univ_def, Nat.zero_add]
    rw [← Fin.sum_univ_def]
    omega
  omega

/-! ## The stream -/

/-- **SUBSCRIBERS SEE EACH SYMBOL'S UPDATES IN ORDER, WITHOUT DUPLICATES, AND
    ACCOUNT FOR EVERY LOSS**, whatever the shards, the capacities and the
    interleaving. -/
theorem subscriber_stream (hash : SymbolId → Nat) [NeZero count]
    {inboundCapacity outboundCapacity : Nat} {actions : List (Action count)}
    {t : Market count} {log : List (Event count)} {id : Nat}
    {subscriber : Subscriber count}
    (h : execute (Market.step hash)
      (.new count inboundCapacity outboundCapacity) actions = .ok (t, log))
    (hsize : (submissions (simulationActions actions)).length < 2 ^ 64)
    (hget : t.subscribers[id]? = some subscriber) :
    subscriber.events = handledBy id log ∧
    (∀ shard, (handledFrom id shard log).Sublist (pushedBy shard log)) ∧
    (∀ symbol, ((subscriber.events.filter
        (fun update => update.symbol = symbol)).map
          TopOfBookUpdate.sequence).Pairwise (· < ·)) ∧
    ∀ before after s log', actions = before ++ .stopSubscriber id :: after →
      execute (Market.step hash)
        (.new count inboundCapacity outboundCapacity) before = .ok (s, log') →
      Down s.simulation →
      (∃ subscriber, s.subscribers[id]? = some subscriber ∧
        subscriber.running = true) →
      .simulation .start ∉ after → subscriber.stopper = .idle →
      subscriber.events.length + t.droppedCount subscriber
        = (topsPushed (simulationLog log)).length := by
  have hsimulation := run_simulation h
  have haccepted : (accepted (simulationLog log)).length < 2 ^ 64 := by
    have hlength := congrArg List.length (run_sequences hsimulation)
    rw [List.length_map, List.length_map, List.length_range] at hlength
    omega
  have hfeed : Feed t log := run_feed
    (feed_new inboundCapacity outboundCapacity) h haccepted
  have hsublist : ∀ shard,
      (handledFrom id shard log).Sublist (pushedBy shard log) := by
    intro shard
    have hwidth := (List.getElem?_eq_some_iff.mp hget).1
    rw [← hfeed.width shard] at hwidth
    have hreader := hfeed.readers shard id _ (List.getElem?_eq_getElem hwidth)
    exact hreader.delivers.trans (List.take_sublist _ _)
  have hincreasing := fun shard =>
    pushed_increasing hsimulation hsize (hfeed.accounts shard)
  have hevents := hfeed.events id subscriber hget
  refine ⟨hevents, hsublist, ?_, ?_⟩
  · intro symbol
    have hrouted : ∀ shard, ∀ update ∈ handledFrom id shard log,
        shardForSymbol hash count update.symbol = shard :=
      fun shard update hmem =>
        (hincreasing shard).2 update ((hsublist shard).subset hmem)
    rw [hevents, handled_symbol hrouted, List.pairwise_map]
    exact (((hincreasing _).1).sublist (hsublist _)).filter _
  · rintro before after s log' rfl hbefore hdown ⟨subscriber₀, hget₀, hrunning⟩
      hstart hidle
    obtain ⟨s', log₁, log₂, hrun₁, hrun₂, rfl⟩ := execute_append.mp h
    rw [hbefore] at hrun₁
    cases hrun₁
    obtain ⟨s₁, event, log₃, hstop, hafter, rfl⟩ := execute_cons_ok hrun₂
    have hsplit : log' ++ event :: log₃ = (log' ++ [event]) ++ log₃ := by
      rw [List.append_assoc]
      rfl
    rw [hsplit] at haccepted hfeed ⊢
    have hone : (accepted (simulationLog (log' ++ [event]))).length
        < 2 ^ 64 := by
      rw [simulationLog_append, accepted_append, List.length_append]
        at haccepted
      omega
    have hnone : (accepted (simulationLog log')).length < 2 ^ 64 := by
      rw [simulationLog_append, accepted_append, List.length_append] at hone
      omega
    have hfeed' : Feed s log' := run_feed
      (feed_new inboundCapacity outboundCapacity) hbefore hnone
    have hdown₁ := (down_stays hfeed' hnone hdown (fun heq => by cases heq)
      hstop).1
    -- the call begins: it is about to join
    have hstopping : Stopping s₁ (log' ++ [event]) id := by
      obtain ⟨other, hother, hturn⟩ := subscriberStep_ok hstop
      rw [hget₀] at hother
      cases hother
      obtain ⟨other', hok, heq⟩ := map_ok hturn
      cases heq
      refine ⟨_, getElem?_setSubscriber hget₀ id other', ?_⟩
      obtain ⟨-, ⟨hjoining, -⟩ | ⟨-, hnot⟩, -, -⟩ := stop_ok hok
      · rw [if_pos rfl, hjoining]
        trivial
      · rw [hrunning] at hnot
        cases hnot
    obtain ⟨last, hlast, hdrained⟩ := run_stopping hstopping
      (hfeed'.step hstop hone) hdown₁ hstart hafter haccepted
    rw [hget] at hlast
    cases hlast
    rw [hidle] at hdrained
    exact drained_accounts hfeed haccepted hget hdrained

/-- A bid at 100, on the symbol 0. -/
def bidAt100 : OrderMessage where
  sourceTimestamp := 0
  ingressTimestamp := 0
  ingressSequence := 0
  source := 0
  symbol := 0
  orderId := 1
  side := .buy
  price := ⟨0x4059000000000000⟩
  quantity := 5
  type := .goodTillCancel
  action := .add

/-- Two shards; the first pushes two updates to a ring of one slot, and the
    simulation is stopped. -/
def untilStop : List (Action 2) :=
  [.addSubscriber, .simulation .start, .simulation .owner, .simulation .owner,
    .simulation .owner, .startSubscriber 0] ++
  (lap 0 bidAt100 ++ lap 0 { bidAt100 with orderId := 2 } ++
    lap 1 { bidAt100 with symbol := 1 } ++
    ([.stop, .owner, .worker 0, .owner, .owner, .owner, .worker 1, .owner,
      .owner, .owner] : List (OsxSimulation.Action 2))).map .simulation

/-- The thread returns at once, and `stop` reads what is left in two passes. -/
def fromStop : List (Action 2) := .poll 0 :: List.replicate 7 (.stopper 0)

theorem subscriber_stream_two : ∃ t log subscriber,
    execute (Market.step id) (.new 2 4 1)
      (untilStop ++ .stopSubscriber 0 :: fromStop) = .ok (t, log) ∧
    t.subscribers[0]? = some subscriber ∧
    (∀ symbol, ((subscriber.events.filter
      (fun update => update.symbol = symbol)).map
        TopOfBookUpdate.sequence).Pairwise (· < ·)) ∧
    subscriber.events.length + t.droppedCount subscriber
      = (topsPushed (simulationLog log)).length := by
  have hbefore : (execute (Market.step id) (.new 2 4 1) untilStop).toOption.map
      (fun r => (decide (r.1.simulation.running = false ∧
        r.1.simulation.owner = .idle), (r.1.subscribers[0]?).map (·.running)))
      = some (true, some true) := by
    decide +kernel
  have hafter : (execute (Market.step id) (.new 2 4 1)
      (untilStop ++ .stopSubscriber 0 :: fromStop)).toOption.map
        (fun r => (r.1.subscribers[0]?).map (·.stopper))
      = some (some .idle) := by
    decide +kernel
  cases hrun : execute (Market.step id) (.new 2 4 1)
      (untilStop ++ .stopSubscriber 0 :: fromStop) with
  | error e =>
      rw [hrun] at hafter
      cases hafter
  | ok r =>
      cases huntil : execute (Market.step id) (.new 2 4 1) untilStop with
      | error e =>
          rw [huntil] at hbefore
          cases hbefore
      | ok r₀ =>
          rw [hrun] at hafter
          rw [huntil] at hbefore
          obtain ⟨hstopped, hrunning⟩ := Prod.mk.inj (Option.some.inj hbefore)
          have hdown : r₀.1.simulation.running = false ∧
              r₀.1.simulation.owner = .idle := of_decide_eq_true hstopped
          obtain ⟨subscriber, hget, hidle⟩ :=
            Option.map_eq_some_iff.mp (Option.some.inj hafter)
          obtain ⟨-, -, hordered, hcount⟩ :=
            subscriber_stream id hrun (by decide) hget
          exact ⟨r.1, r.2, subscriber, rfl, hget, hordered,
            hcount untilStop fromStop r₀.1 r₀.2 rfl huntil hdown
              (Option.map_eq_some_iff.mp hrunning) (by decide) hidle⟩

/-! ## Past the end of the sequences -/

/-- A run of the simulation that publishes nothing is one of the feed. -/
theorem run_unpublished {hash : SymbolId → Nat} [NeZero count]
    {actions : List (OsxSimulation.Action count)} :
    ∀ {s : Market count} {t : Simulation count}
      {log : List (OsxSimulation.Event count)},
      execute (Simulation.step hash) s.simulation actions = .ok (t, log) →
      topsPushed log = [] →
      execute (Market.step hash) s (actions.map .simulation)
        = .ok ({ s with simulation := t }, log.map .simulation) := by
  induction actions with
  | nil =>
      intro s t log h _
      cases h
      rfl
  | cons action actions ih =>
      intro s t log h hnone
      obtain ⟨s₁, event, log', hstep, hrest, rfl⟩ := execute_cons_ok h
      rw [← List.singleton_append, topsPushed_append,
        List.append_eq_nil_iff] at hnone
      have hpublish : Market.publish s.outbound event = s.outbound := by
        cases event with
        | quiet => rfl
        | accepted shard message => rfl
        | processed shard message published =>
            cases htop : published.top with
            | none => rw [Market.publish, htop]
            | some update =>
                have hone := hnone.1
                simp [topsPushed, processed, htop] at hone
      have hmarket : s.step hash (.simulation action)
          = .ok ({ s with simulation := s₁ }, .simulation event) := by
        rw [Market.step, Market.simulationStep, hstep]
        dsimp only
        rw [hpublish]
      have hlater := ih (s := { s with simulation := s₁ }) hrest hnone.2
      exact execute_cons_of hmarket hlater

/-- A cancel that finds no order.  The top of the empty book of symbol 0 is the
    update a shard has cached at first, so nothing is published. -/
def emptyCancel : OrderMessage := { bidAt100 with action := .cancel }

/-- A shard that has processed it. -/
def emptied : Shard where
  books := HashTable.empty.upsert 0 (fun _ => .empty)
  lastTop := HashTable.empty.upsert 0 (fun _ => {})

theorem emptyCancel_idles : Idles emptied emptyCancel :=
  fun _ _ => rfl

/-- Two shards and one subscriber, started, and one message processed. -/
def warmUp : List (Action 2) :=
  [.addSubscriber, .startSubscriber 0, .simulation .start, .simulation .owner,
    .simulation .owner, .simulation .owner]
    ++ (lap 0 emptyCancel).map .simulation

/-- The lanes after it; the second shard has not been handed anything. -/
def warmLanes (shard : Fin 2) : Lane :=
  if shard = 0 then .waiting emptied 1 else .waiting .empty 1

/-- What that leads to, and every lap of the first shard after it. -/
def warm (sequence : Nat) : Market 2 where
  simulation := {
    lanes := warmLanes
    nextSequence := sequence
    running := true
    frozen := true
    owner := .idle }
  outbound := fun _ => (RingBuffer.new 1 []).addConsumer .lossy
  subscribers := [{ Subscriber.new [(0, 0), (1, 0)] with
    running := true, thread := .loading }]

theorem warmUp_run : ∃ log, execute (Market.step id) (.new 2 1 1) warmUp
    = .ok (warm 1, log) := by
  have hext : ∀ lanes : Fin 2 → Lane, lanes 0 = .waiting emptied 1 →
      lanes 1 = .waiting .empty 1 → lanes = warmLanes := by
    intro lanes h h'
    funext i
    exact (Fin.forall_fin_two (p := fun i => lanes i = warmLanes i)).mpr
      ⟨h, h'⟩ i
  have hrun : ∃ lanes log, execute (Market.step id) (.new 2 1 1) warmUp
      = .ok ({ warm 1 with
          simulation := { (warm 1).simulation with lanes := lanes } }, log) ∧
      lanes 0 = .waiting emptied 1 ∧ lanes 1 = .waiting .empty 1 :=
    ⟨_, _, rfl, rfl, rfl⟩
  obtain ⟨lanes, log, hrun, hlane, hlane'⟩ := hrun
  rw [hext lanes hlane hlane'] at hrun
  exact ⟨log, hrun⟩

theorem warm_laps (laps : Nat) : ∃ log, execute (Market.step id) (warm 1)
    ((List.replicate laps (lap 0 emptyCancel)).flatten.map .simulation)
      = .ok (warm ((1 + laps) % 2 ^ 64), log) := by
  obtain ⟨log, hrun, hquiet⟩ := idle_laps id (i := (0 : Fin 2)) rfl
    emptyCancel_idles Nat.one_pos laps (warm 1).simulation (by decide) rfl
  exact ⟨_, run_unpublished hrun hquiet⟩

/-- An order for the other shard's symbol, and its cancel. -/
def lastMessages : List OrderMessage :=
  [{ bidAt100 with symbol := 1 },
    { bidAt100 with symbol := 1, action := .cancel }]

/-- The two, each with what it changes read at once. -/
def lastLaps : List (Action 2) :=
  lastMessages.flatMap (fun message =>
    (lap 1 message).map .simulation ++ List.replicate 4 (.poll 0))

/-- As many laps of the first shard as bring the next sequence to its last
    value, then two of the other. -/
def wrapActions : List (Action 2) :=
  warmUp ++ ((List.replicate (2 ^ 64 - 2) (lap 0 emptyCancel)).flatten.map
    .simulation ++ lastLaps)

theorem submissions_laps (laps : Nat) (message : OrderMessage) :
    submissions (List.replicate laps (lap (0 : Fin 2) message)).flatten
      = List.replicate laps message := by
  induction laps with
  | zero => rfl
  | succ laps ih =>
      rw [List.replicate_succ, List.replicate_succ, List.flatten_cons,
        submissions, List.filterMap_append, ← submissions, ← submissions, ih]
      rfl

/-- What is submitted. -/
theorem submissions_wrapActions :
    submissions (simulationActions wrapActions)
      = List.replicate (2 ^ 64 - 1) emptyCancel ++ lastMessages := by
  have hlaps : ∀ actions : List (OsxSimulation.Action 2),
      simulationActions (actions.map Action.simulation) = actions := by
    intro actions
    rw [simulationActions, List.filterMap_map]
    exact List.filterMap_some
  rw [wrapActions, simulationActions, List.filterMap_append,
    List.filterMap_append, ← simulationActions, ← simulationActions,
    ← simulationActions, hlaps, submissions, List.filterMap_append,
    List.filterMap_append, ← submissions, ← submissions, ← submissions,
    submissions_laps, ← List.append_assoc]
  rfl

/-- **AFTER 2^64 MESSAGES** the next is stamped 0 again, and a subscriber sees
    it after the one before; no shard is handed that many. -/
theorem sequences_wrap : ∃ t log subscriber,
    execute (Market.step id) (.new 2 1 1) wrapActions = .ok (t, log) ∧
    (∀ shard, ((submissions (simulationActions wrapActions)).filter
      (fun message => shardForSymbol id 2 message.symbol = shard)).length
        < 2 ^ 64) ∧
    t.subscribers[0]? = some subscriber ∧
    ¬ ((subscriber.events.filter (fun update => update.symbol = 1)).map
      TopOfBookUpdate.sequence).Pairwise (· < ·) := by
  have heval : (execute (Market.step id) (warm (2 ^ 64 - 1))
      lastLaps).toOption.map (fun r => (r.1.subscribers[0]?).map
        (fun subscriber => (subscriber.events.filter
          (fun update => update.symbol = 1)).map TopOfBookUpdate.sequence))
      = some (some [2 ^ 64 - 1, 0]) := by
    decide +kernel
  have hfew : ∀ shard, ((submissions (simulationActions wrapActions)).filter
      (fun message => shardForSymbol id 2 message.symbol = shard)).length
        < 2 ^ 64 := by
    rw [submissions_wrapActions, Fin.forall_fin_two]
    constructor
    · rw [List.filter_append, List.filter_replicate_of_pos (by decide),
        List.length_append, List.length_replicate]
      decide
    · rw [List.filter_append, List.filter_replicate_of_neg (by decide)]
      decide
  obtain ⟨log₁, hwarm⟩ := warmUp_run
  obtain ⟨log₂, hlaps⟩ := warm_laps (2 ^ 64 - 2)
  have hlast : (1 + (2 ^ 64 - 2)) % 2 ^ 64 = 2 ^ 64 - 1 := by decide
  rw [hlast] at hlaps
  cases hrun : execute (Market.step id) (warm (2 ^ 64 - 1)) lastLaps with
  | error e =>
      rw [hrun] at heval
      cases heval
  | ok r =>
      rw [hrun] at heval
      obtain ⟨subscriber, hget, hevents⟩ :=
        Option.map_eq_some_iff.mp (Option.some.inj heval)
      refine ⟨r.1, _, subscriber, execute_append.mpr ⟨_, _, _, hwarm,
        execute_append.mpr ⟨_, _, _, hlaps, hrun, rfl⟩, rfl⟩, hfew, hget, ?_⟩
      rw [hevents]
      exact fun h => absurd (List.rel_of_pairwise_cons h
        (List.mem_singleton_self 0)) (Nat.not_lt_zero _)

end OsxSubscriber
