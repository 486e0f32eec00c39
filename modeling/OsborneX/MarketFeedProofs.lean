import OsborneX.MarketFeedModel
import OsborneX.ShardSymbolProofs
import OsborneX.SimulationProofs

/-! # Subscribers — in order, without duplicates, every loss accounted for

    Along every run each ring holds what its shard pushed, and each cursor has
    delivered or counted everything before its position (`Feed`).  What a
    subscriber handles of one symbol comes from one ring, where the updates
    stand in the order the messages were stamped.  Once the simulation is down
    the rings do not change, so the pass of `Subscriber::stop` that finds
    nothing has found every ring read to its end. -/

namespace OsxMarketFeed

open OsxShard OsxRingBuffer OsxRingSlot OsxRingCall OsxSimulation Execution

variable {count : Nat}

/-! ## The log -/

section Log

variable (id : Nat) (shard : Fin count) (log log' : List (Event count))

@[simp] theorem simulationLog_append : simulationLog (log ++ log')
    = simulationLog log ++ simulationLog log' :=
  List.filterMap_append ..

@[simp] theorem handledFrom_append : handledFrom id shard (log ++ log')
    = handledFrom id shard log ++ handledFrom id shard log' :=
  List.filterMap_append ..

@[simp] theorem handledBy_append : handledBy id (log ++ log')
    = handledBy id log ++ handledBy id log' :=
  List.filterMap_append ..

@[simp] theorem pushedBy_append : pushedBy shard (log ++ log')
    = pushedBy shard log ++ pushedBy shard log' := by
  rw [pushedBy, simulationLog_append, processedAt_append,
    List.filterMap_append]
  rfl

/-! A step that neither pushes nor handles leaves every part of the log, a step
    of the simulation what the subscribers handled, a read what was pushed. -/

@[simp] theorem simulationLog_quiet :
    simulationLog (log ++ [.quiet]) = simulationLog log := by
  rw [simulationLog_append]
  exact List.append_nil _

@[simp] theorem pushedBy_quiet :
    pushedBy shard (log ++ [.quiet]) = pushedBy shard log := by
  rw [pushedBy_append]
  exact List.append_nil _

@[simp] theorem handledBy_quiet :
    handledBy id (log ++ [.quiet]) = handledBy id log := by
  rw [handledBy_append]
  exact List.append_nil _

@[simp] theorem handledFrom_quiet :
    handledFrom id shard (log ++ [.quiet]) = handledFrom id shard log := by
  rw [handledFrom_append]
  exact List.append_nil _

@[simp] theorem handledBy_simulation (event : OsxSimulation.Event count) :
    handledBy id (log ++ [.simulation event]) = handledBy id log := by
  rw [handledBy_append]
  exact List.append_nil _

@[simp] theorem handledFrom_simulation (event : OsxSimulation.Event count) :
    handledFrom id shard (log ++ [.simulation event])
      = handledFrom id shard log := by
  rw [handledFrom_append]
  exact List.append_nil _

@[simp] theorem pushedBy_handled (id' : Nat) (shard' : Fin count)
    (update : TopOfBookUpdate) :
    pushedBy shard (log ++ [.handled id' shard' update])
      = pushedBy shard log := by
  rw [pushedBy_append]
  exact List.append_nil _

@[simp] theorem handledFrom_handled (id' : Nat) (shard' : Fin count)
    (update : TopOfBookUpdate) :
    handledFrom id shard [.handled id' shard' update]
      = if id' = id ∧ shard' = shard then [update] else [] := by
  by_cases h : id' = id ∧ shard' = shard
  · simp [handledFrom, h]
  · simp [handledFrom, h]

@[simp] theorem handledBy_handled (id' : Nat) (shard' : Fin count)
    (update : TopOfBookUpdate) :
    handledBy id [.handled id' shard' update]
      = if id' = id then [update] else [] := by
  by_cases h : id' = id
  · simp [handledBy, h]
  · simp [handledBy, h]

end Log

/-! ## What the steps are -/

section Steps

variable {s s' : Market count} {id : Nat}

theorem simulationStep_ok {hash : SymbolId → Nat} [NeZero count]
    {action : OsxSimulation.Action count} {event : Event count}
    (h : s.simulationStep hash action = .ok (s', event)) :
    ∃ simulation event', s.simulation.step hash action
        = .ok (simulation, event') ∧ event = .simulation event' ∧
      s' = { s with
        simulation := simulation
        outbound := Market.publish s.outbound event' } := by
  rw [Market.simulationStep] at h
  split at h
  · cases h
  · rename_i simulation event' hsimulation
    cases h
    exact ⟨simulation, event', hsimulation, rfl, rfl⟩

/-- A new cursor stands behind the others of its ring. -/
theorem addSubscriber_ok (h : s.addSubscriber = .ok s') :
    s'.simulation = s.simulation ∧
      (∀ shard, s'.outbound shard = { s.outbound shard with
        consumers := (s.outbound shard).consumers ++ [⟨.lossy, 0, 0, .idle⟩] }) ∧
      s'.subscribers = s.subscribers ++ [.new ((List.finRange count).map
        fun shard => (shard, (s.outbound shard).consumers.length))] := by
  rw [Market.addSubscriber] at h
  split at h
  · cases h
  · cases h
    exact ⟨rfl, fun shard => addConsumer_lossy _, rfl⟩

theorem subscriberStep_ok
    {turn : Subscriber count → Except Fault (Market count × Event count)}
    {r : Market count × Event count} (h : s.subscriberStep id turn = .ok r) :
    ∃ subscriber, s.subscribers[id]? = some subscriber ∧
      turn subscriber = .ok r := by
  rw [Market.subscriberStep] at h
  split at h
  · cases h
  · rename_i subscriber hget
    exact ⟨subscriber, hget, h⟩

/-- A subscriber after one of them was replaced. -/
theorem setSubscriber_cases {subscriber' other : Subscriber count} {id' : Nat}
    (h : (s.setSubscriber id subscriber').subscribers[id']? = some other) :
    (id = id' ∧ other = subscriber') ∨
      (id ≠ id' ∧ s.subscribers[id']? = some other) := by
  change (s.subscribers.set id subscriber')[id']? = _ at h
  by_cases hid : id = id'
  · subst hid
    rw [List.getElem?_set, if_pos rfl] at h
    split at h
    · cases h
      exact Or.inl ⟨rfl, rfl⟩
    · cases h
  · rw [List.getElem?_set_ne hid] at h
    exact Or.inr ⟨hid, h⟩

end Steps

/-! ## The invariant -/

/-- **THE FEED**, as every step keeps it. -/
structure Feed (s : Market count) (log : List (Event count)) : Prop where
  controlled : Controlled s.simulation
  accounts : ∀ shard, Account s.simulation (simulationLog log) shard
  settled : ∀ shard, Settled (pushedBy shard log) (s.outbound shard)
  width : ∀ shard, (s.outbound shard).consumers.length = s.subscribers.length
  sources : ∀ (id : Nat) (subscriber : Subscriber count),
    s.subscribers[id]? = some subscriber →
      subscriber.sources = (List.finRange count).map (·, id)
  events : ∀ (id : Nat) (subscriber : Subscriber count),
    s.subscribers[id]? = some subscriber →
      subscriber.events = handledBy id log
  readers : ∀ (shard : Fin count) (id : Nat) (cursor : Consumer TopOfBookUpdate),
    (s.outbound shard).consumers[id]? = some cursor →
      Reader (pushedBy shard log) cursor (handledFrom id shard log)
  absent : ∀ id, s.subscribers.length ≤ id →
    handledBy id log = [] ∧ ∀ shard, handledFrom id shard log = []

theorem feed_new (inboundCapacity outboundCapacity : Nat) :
    Feed (.new count inboundCapacity outboundCapacity) [] where
  controlled := controlled_new inboundCapacity
  accounts := account_new inboundCapacity
  settled := fun _ => settled_new outboundCapacity
  width := fun _ => rfl
  sources := fun _ _ h => by cases h
  events := fun _ _ h => by cases h
  readers := fun _ _ _ h => by cases h
  absent := fun _ _ => ⟨rfl, fun _ => rfl⟩

/-! ## The simulation's steps -/

/-- What an event of the simulation does to a buffer. -/
theorem publish_spec (outbound : Buffers count)
    (event : OsxSimulation.Event count) (shard : Fin count) :
    (pushedBy shard [.simulation event] = [] ∧
      Market.publish outbound event shard = outbound shard) ∨
    ∃ update, pushedBy shard [.simulation event] = [update] ∧
      Market.publish outbound event shard
        = pushOverwrite (outbound shard) update := by
  cases event with
  | quiet => exact Or.inl ⟨rfl, rfl⟩
  | accepted shard' message => exact Or.inl ⟨rfl, rfl⟩
  | processed shard' message published =>
      have hpushed : pushedBy shard
          [.simulation (.processed shard' message published)]
          = (if shard' = shard then [(message, published)] else []).filterMap
            (·.2.top) :=
        congrArg (List.filterMap _) (processedAt_processed ..)
      rw [hpushed, Market.publish]
      by_cases heq : shard' = shard
      · subst heq
        rw [if_pos rfl]
        cases htop : published.top with
        | none =>
            refine Or.inl ⟨?_, rfl⟩
            simp only [List.filterMap_cons, htop, List.filterMap_nil]
        | some update =>
            refine Or.inr ⟨update, ?_, Function.update_self ..⟩
            simp only [List.filterMap_cons, htop, List.filterMap_nil]
      · rw [if_neg heq]
        refine Or.inl ⟨rfl, ?_⟩
        cases published.top with
        | none => rfl
        | some update => exact Function.update_of_ne (Ne.symm heq) ..

/-- No shard pushed more updates than it was handed messages. -/
theorem length_pushedBy {s : Simulation count} {log : List (Event count)}
    {shard : Fin count} (h : Account s (simulationLog log) shard) :
    (pushedBy shard log).length
      ≤ (acceptedAt shard (simulationLog log)).length := by
  rw [h.handed, List.length_append, List.length_map]
  exact Nat.le_trans (List.length_filterMap_le ..) (Nat.le_add_right ..)

/-- What was accepted, counted shard by shard. -/
theorem length_accepted (log : List (OsxSimulation.Event count)) :
    (accepted log).length = ∑ shard, (acceptedAt shard log).length := by
  induction log with
  | nil => simp [accepted, acceptedAt]
  | cons event log ih =>
      have hone : (accepted [event]).length
          = ∑ shard, (acceptedAt shard [event]).length := by
        cases event with
        | quiet => simp [accepted]
        | processed shard message published => simp [accepted]
        | accepted shard message => simp [accepted, apply_ite]
      simp only [accepted_cons event log, acceptedAt_cons _ event log,
        List.length_append, Finset.sum_add_distrib, hone, ih]

theorem length_acceptedAt (shard : Fin count)
    (log : List (OsxSimulation.Event count)) :
    (acceptedAt shard log).length ≤ (accepted log).length := by
  rw [length_accepted]
  exact Finset.single_le_sum
    (f := fun shard => (acceptedAt shard log).length)
    (fun _ _ => Nat.zero_le _) (Finset.mem_univ shard)

/-- What a simulation's event does to one ring and its readers. -/
theorem Feed.publish {s : Market count} {log : List (Event count)}
    (h : Feed s log) (event : OsxSimulation.Event count) (shard : Fin count)
    (hlength : (pushedBy shard (log ++ [Event.simulation event])).length < 2 ^ 64) :
    Settled (pushedBy shard (log ++ [Event.simulation event]))
      (Market.publish s.outbound event shard) ∧
    (Market.publish s.outbound event shard).consumers
      = (s.outbound shard).consumers ∧
    ∀ (cursor : Consumer TopOfBookUpdate) delivered,
      Reader (pushedBy shard log) cursor delivered →
      Reader (pushedBy shard (log ++ [Event.simulation event])) cursor delivered := by
  rw [pushedBy_append] at hlength ⊢
  obtain ⟨hpushed, hsame⟩ | ⟨update, hpushed, hpush⟩ :=
    publish_spec s.outbound event shard
  · rw [hpushed, List.append_nil, hsame]
    exact ⟨h.settled shard, rfl, fun _ _ hr => hr⟩
  · rw [hpushed] at hlength ⊢
    rw [List.length_append] at hlength
    rw [hpush]
    exact ⟨(h.settled shard).push update hlength, rfl,
      fun _ _ hr => hr.push update⟩

theorem Feed.simulationStep {hash : SymbolId → Nat} [NeZero count]
    {s s' : Market count} {log : List (Event count)} {event : Event count}
    {action : OsxSimulation.Action count} (h : Feed s log)
    (hstep : s.simulationStep hash action = .ok (s', event))
    (hsize : (accepted (simulationLog (log ++ [event]))).length < 2 ^ 64) :
    Feed s' (log ++ [event]) := by
  obtain ⟨simulation, event, hsimulation, rfl, rfl⟩ := simulationStep_ok hstep
  obtain ⟨hcontrolled, hmoves⟩ := step_moves h.controlled hsimulation
  have haccounts : ∀ shard, Account simulation
      (simulationLog (log ++ [.simulation event])) shard := by
    intro shard
    rw [simulationLog_append]
    exact (h.accounts shard).moves (hmoves shard)
  have hlength : ∀ shard,
      (pushedBy shard (log ++ [.simulation event])).length < 2 ^ 64 :=
    fun shard => Nat.lt_of_le_of_lt
      (Nat.le_trans (length_pushedBy (haccounts shard))
        (length_acceptedAt shard _)) hsize
  have hpublish := fun shard => h.publish event shard (hlength shard)
  refine ⟨hcontrolled, haccounts, fun shard => (hpublish shard).1, ?_,
    h.sources, ?_, ?_, ?_⟩
  · intro shard
    show (Market.publish s.outbound event shard).consumers.length = _
    rw [(hpublish shard).2.1]
    exact h.width shard
  · intro id subscriber hget
    rw [handledBy_simulation]
    exact h.events id subscriber hget
  · intro shard id cursor hcursor
    change (Market.publish s.outbound event shard).consumers[id]? = _ at hcursor
    rw [(hpublish shard).2.1] at hcursor
    rw [handledFrom_simulation]
    exact (hpublish shard).2.2 _ _ (h.readers shard id cursor hcursor)
  · intro id hid
    simp only [handledBy_simulation, handledFrom_simulation]
    exact h.absent id hid

/-! ## The subscribers' steps -/

/-- A step that neither pushes nor handles. -/
theorem Feed.quiet {s s' : Market count} {log : List (Event count)}
    (h : Feed s log) (hsimulation : s'.simulation = s.simulation)
    (hsettled : ∀ shard, Settled (pushedBy shard log) (s'.outbound shard))
    (hwidth : ∀ shard,
      (s'.outbound shard).consumers.length = s'.subscribers.length)
    (hsources : ∀ (id : Nat) (subscriber : Subscriber count),
      s'.subscribers[id]? = some subscriber →
        subscriber.sources = (List.finRange count).map (·, id) ∧
        subscriber.events = handledBy id log)
    (hreaders : ∀ (shard : Fin count) (id : Nat)
      (cursor : Consumer TopOfBookUpdate),
      (s'.outbound shard).consumers[id]? = some cursor →
        Reader (pushedBy shard log) cursor (handledFrom id shard log))
    (hmore : s.subscribers.length ≤ s'.subscribers.length) :
    Feed s' (log ++ [.quiet]) := by
  refine ⟨?_, ?_, ?_, hwidth, ?_, ?_, ?_, ?_⟩
  · rw [hsimulation]
    exact h.controlled
  · rw [simulationLog_quiet, hsimulation]
    exact h.accounts
  · simp only [pushedBy_quiet]
    exact hsettled
  · exact fun id subscriber hget => (hsources id subscriber hget).1
  · simp only [handledBy_quiet]
    exact fun id subscriber hget => (hsources id subscriber hget).2
  · simp only [pushedBy_quiet, handledFrom_quiet]
    exact hreaders
  · simp only [handledBy_quiet, handledFrom_quiet]
    exact fun id hid => h.absent id (Nat.le_trans hmore hid)

theorem Feed.addSubscriber {s s' : Market count} {log : List (Event count)}
    (h : Feed s log) (hadd : s.addSubscriber = .ok s') :
    Feed s' (log ++ [.quiet]) := by
  obtain ⟨hsimulation, houtbound, hsubscribers⟩ := addSubscriber_ok hadd
  refine h.quiet hsimulation ?_ ?_ ?_ ?_ ?_
  · intro shard
    rw [houtbound]
    exact (h.settled shard).consumers _
  · intro shard
    rw [houtbound, hsubscribers]
    show ((s.outbound shard).consumers ++ [_]).length = _
    rw [List.length_append, List.length_append, h.width]
    rfl
  · intro id subscriber hget
    rw [hsubscribers, List.getElem?_append] at hget
    split at hget
    · exact ⟨h.sources id subscriber hget, h.events id subscriber hget⟩
    · rename_i hge
      obtain ⟨hlt, hsame⟩ := List.getElem?_eq_some_iff.mp hget
      have hid : id = s.subscribers.length := by
        rw [List.length_singleton] at hlt
        omega
      subst hid
      rw [List.getElem_singleton] at hsame
      rw [← hsame, (h.absent _ (Nat.le_refl _)).1]
      refine ⟨?_, rfl⟩
      show (List.finRange count).map _ = _
      simp only [h.width]
  · intro shard id cursor hcursor
    rw [houtbound] at hcursor
    change ((s.outbound shard).consumers ++ [_])[id]? = _ at hcursor
    rw [List.getElem?_append] at hcursor
    split at hcursor
    · exact h.readers shard id cursor hcursor
    · rename_i hge
      obtain ⟨hlt, hsame⟩ := List.getElem?_eq_some_iff.mp hcursor
      rw [List.getElem_singleton] at hsame
      rw [h.width] at hge
      rw [← hsame, (h.absent id (Nat.le_of_not_lt hge)).2]
      exact reader_new _
  · rw [hsubscribers, List.length_append]
    exact Nat.le_add_right ..

/-- A call or a turn that changes one subscriber's threads. -/
theorem Feed.setSubscriber {s : Market count} {log : List (Event count)}
    {id : Nat} {subscriber subscriber' : Subscriber count} (h : Feed s log)
    (hget : s.subscribers[id]? = some subscriber)
    (hsources : subscriber'.sources = subscriber.sources)
    (hevents : subscriber'.events = subscriber.events) :
    Feed (s.setSubscriber id subscriber') (log ++ [.quiet]) := by
  refine h.quiet rfl h.settled ?_ ?_ h.readers ?_
  · intro shard
    show _ = (s.subscribers.set id subscriber').length
    rw [List.length_set]
    exact h.width shard
  · intro id' other hother
    obtain ⟨rfl, rfl⟩ | ⟨-, hother⟩ := setSubscriber_cases hother
    · rw [hsources, hevents]
      exact ⟨h.sources id subscriber hget, h.events id subscriber hget⟩
    · exact ⟨h.sources id' other hother, h.events id' other hother⟩
  · exact Nat.le_of_eq (List.length_set ..).symm

/-- **ONE READ OF A SUBSCRIBER**: its cursor stands at the end of the ring and
    nothing happens, or it handles the next update it can. -/
theorem Feed.readNext {s : Market count} {log : List (Event count)}
    {id : Nat} {subscriber : Subscriber count} {shard : Fin count}
    {progressed progressed' : Bool} {outbound : Buffers count}
    {events : List TopOfBookUpdate} {event : Event count} (h : Feed s log)
    (hsize : (accepted (simulationLog log)).length < 2 ^ 64)
    (hread : s.readNext id subscriber (shard, id) progressed
      = .ok (outbound, events, progressed', event)) :
    ∃ cursor, (s.outbound shard).consumers[id]? = some cursor ∧
      ((cursor.sequence = (pushedBy shard log).length ∧ event = .quiet ∧
        outbound = s.outbound ∧ events = subscriber.events ∧
        progressed' = progressed) ∨
      ∃ cursor' update, cursor.sequence < (pushedBy shard log).length ∧
        event = .handled id shard update ∧
        outbound = Function.update s.outbound shard
          { s.outbound shard with
            consumers := (s.outbound shard).consumers.set id cursor' } ∧
        Reader (pushedBy shard log) cursor'
          (handledFrom id shard log ++ [update]) ∧
        events = subscriber.events ++ [update] ∧ progressed' = true) := by
  have hlength : (pushedBy shard log).length < 2 ^ 64 :=
    Nat.lt_of_le_of_lt (Nat.le_trans (length_pushedBy (h.accounts shard))
      (length_acceptedAt shard _)) hsize
  rw [Market.readNext, readSource] at hread
  dsimp only at hread
  cases hcursor : (s.outbound shard).consumers[id]? with
  | none =>
      rw [hcursor] at hread
      cases hread
  | some cursor =>
      refine ⟨cursor, rfl, ?_⟩
      rw [hcursor] at hread
      dsimp only at hread
      obtain ⟨hend, htry⟩ | ⟨cursor', position, update, htry, hlt, hreader⟩ :=
        (h.settled shard).read hlength (h.readers shard id cursor hcursor)
      · rw [htry] at hread
        cases hread
        refine Or.inl ⟨hend, rfl, ?_, rfl, rfl⟩
        obtain ⟨hlt, rfl⟩ := List.getElem?_eq_some_iff.mp hcursor
        rw [List.set_getElem_self hlt]
        exact Function.update_eq_self shard s.outbound
      · rw [htry] at hread
        cases hread
        exact Or.inr ⟨cursor', update, Nat.lt_of_lt_of_le hlt hreader.behind,
          rfl, rfl, hreader, rfl, rfl⟩

/-- A subscriber handled an update of a shard: its cursor there went on. -/
theorem Feed.handled {s : Market count} {log : List (Event count)}
    {id : Nat} {subscriber subscriber' : Subscriber count} {shard : Fin count}
    {update : TopOfBookUpdate} {cursor' : Consumer TopOfBookUpdate}
    (h : Feed s log) (hget : s.subscribers[id]? = some subscriber)
    (hreader : Reader (pushedBy shard log) cursor'
      (handledFrom id shard log ++ [update]))
    (hsources : subscriber'.sources = subscriber.sources)
    (hevents : subscriber'.events = subscriber.events ++ [update]) :
    Feed (Market.setSubscriber { s with
        outbound := Function.update s.outbound shard
          { s.outbound shard with
            consumers := (s.outbound shard).consumers.set id cursor' } }
        id subscriber')
      (log ++ [.handled id shard update]) := by
  have hlog : simulationLog (log ++ [.handled id shard update])
      = simulationLog log := by
    rw [simulationLog_append]
    exact List.append_nil _
  -- the other rings, and this one
  have hring : ∀ shard', (Function.update s.outbound shard
        { s.outbound shard with
          consumers := (s.outbound shard).consumers.set id cursor' }) shard'
      = if shard' = shard then { s.outbound shard with
          consumers := (s.outbound shard).consumers.set id cursor' }
        else s.outbound shard' := by
    intro shard'
    rw [Function.update_apply]
  refine ⟨h.controlled, ?_, ?_, ?_, ?_, ?_, ?_, ?_⟩
  · rw [hlog]
    exact h.accounts
  · intro shard'
    show Settled _ (Function.update s.outbound shard _ shard')
    rw [pushedBy_handled, hring]
    split
    · rename_i heq
      subst heq
      exact (h.settled shard').consumers _
    · exact h.settled shard'
  · intro shard'
    show (Function.update s.outbound shard _ shard').consumers.length
      = (s.subscribers.set id subscriber').length
    rw [List.length_set, hring]
    split
    · rw [List.length_set]
      exact h.width shard
    · exact h.width shard'
  · intro id' other hother
    obtain ⟨rfl, rfl⟩ | ⟨-, hother⟩ := setSubscriber_cases hother
    · rw [hsources]
      exact h.sources id subscriber hget
    · exact h.sources id' other hother
  · intro id' other hother
    rw [handledBy_append, handledBy_handled]
    obtain ⟨rfl, rfl⟩ | ⟨hne, hother⟩ := setSubscriber_cases hother
    · rw [if_pos rfl, hevents, h.events id subscriber hget]
    · rw [if_neg hne, List.append_nil]
      exact h.events id' other hother
  · intro shard' id' cursor hcursor
    change (Function.update s.outbound shard _ shard').consumers[id']? = _
      at hcursor
    rw [pushedBy_handled, handledFrom_append, handledFrom_handled]
    rw [hring] at hcursor
    split at hcursor
    · rename_i heq
      subst heq
      change ((s.outbound shard').consumers.set id cursor')[id']? = _ at hcursor
      rw [List.getElem?_set] at hcursor
      split at hcursor
      · rename_i heq
        subst heq
        split at hcursor
        · cases hcursor
          rw [if_pos ⟨rfl, rfl⟩]
          exact hreader
        · cases hcursor
      · rename_i hne
        rw [if_neg (fun hboth => hne hboth.1), List.append_nil]
        exact h.readers shard' id' cursor hcursor
    · rename_i hne
      rw [if_neg (fun hboth => hne hboth.2.symm), List.append_nil]
      exact h.readers shard' id' cursor hcursor
  · intro id' hid'
    change (s.subscribers.set id subscriber').length ≤ id' at hid'
    rw [List.length_set] at hid'
    obtain ⟨hheard, hfrom⟩ := h.absent id' hid'
    have hne : id ≠ id' := by
      have hthere := (List.getElem?_eq_some_iff.mp hget).1
      omega
    constructor
    · rw [handledBy_append, handledBy_handled, hheard, if_neg hne]
      rfl
    · intro shard'
      rw [handledFrom_append, handledFrom_handled, hfrom,
        if_neg (fun hboth => hne hboth.1)]
      rfl

/-- A turn that reads: whatever the thread goes on with, the feed is kept. -/
theorem Feed.read {s : Market count} {log : List (Event count)}
    {id : Nat} {subscriber subscriber' : Subscriber count} {shard : Fin count}
    {progressed progressed' : Bool} {outbound : Buffers count}
    {events : List TopOfBookUpdate} {event : Event count} (h : Feed s log)
    (hsize : (accepted (simulationLog log)).length < 2 ^ 64)
    (hget : s.subscribers[id]? = some subscriber)
    (hread : s.readNext id subscriber (shard, id) progressed
      = .ok (outbound, events, progressed', event))
    (hsources : subscriber'.sources = subscriber.sources)
    (hevents : subscriber'.events = events) :
    Feed (Market.setSubscriber { s with outbound := outbound } id subscriber')
      (log ++ [event]) := by
  obtain ⟨cursor, hcursor, ⟨-, rfl, rfl, rfl, -⟩ |
    ⟨cursor', update, -, rfl, rfl, hreader, rfl, -⟩⟩ := h.readNext hsize hread
  · exact h.setSubscriber hget hsources hevents
  · exact h.handled hget hreader hsources hevents

/-- What a turn of the subscriber's thread can be: it goes to another place, or
    reads a source and goes to the next. -/
theorem pollStep_ok {s s' : Market count} {id : Nat}
    {subscriber : Subscriber count} {event : Event count}
    (h : s.pollStep id subscriber = .ok (s', event)) :
    subscriber.thread ≠ .absent ∧
    ((∃ thread, s' = s.setSubscriber id { subscriber with thread := thread } ∧
      event = .quiet) ∨
    ∃ next progressed source outbound events progressed',
      subscriber.sources[next]? = some source ∧
      s.readNext id subscriber source progressed
        = .ok (outbound, events, progressed', event) ∧
      s' = Market.setSubscriber { s with outbound := outbound } id
        { subscriber with
          thread := .polling (next + 1) progressed'
          events := events }) := by
  rw [Market.pollStep] at h
  cases hthread : subscriber.thread with
  | absent =>
      rw [hthread] at h
      cases h
  | finished =>
      rw [hthread] at h
      cases h
  | loading =>
      rw [hthread] at h
      cases h
      exact ⟨Poller.noConfusion, Or.inl ⟨_, rfl, rfl⟩⟩
  | polling next progressed =>
      rw [hthread] at h
      dsimp only at h
      refine ⟨Poller.noConfusion, ?_⟩
      split at h
      · cases h
        exact Or.inl ⟨_, rfl, rfl⟩
      · rename_i source hsource
        split at h
        · cases h
        · rename_i outbound events progressed' event' hread
          cases h
          exact Or.inr ⟨next, progressed, source, outbound, events, progressed',
            hsource, hread, rfl⟩

/-- What a turn of `Subscriber::stop` can be: the join, the end of a pass over
    the sources, or a read. -/
theorem stopperStep_ok {s s' : Market count} {id : Nat}
    {subscriber : Subscriber count} {event : Event count}
    (h : s.stopperStep id subscriber = .ok (s', event)) :
    (subscriber.stopper = .joining ∧ event = .quiet ∧
      s' = s.setSubscriber id { subscriber with
        thread := .absent, stopper := .polling 0 false }) ∨
    ∃ next progressed, subscriber.stopper = .polling next progressed ∧
    ((subscriber.sources[next]? = none ∧ event = .quiet ∧
      s' = s.setSubscriber id { subscriber with
        stopper := if progressed then .polling 0 false else .idle }) ∨
    ∃ source outbound events progressed',
      subscriber.sources[next]? = some source ∧
      s.readNext id subscriber source progressed
        = .ok (outbound, events, progressed', event) ∧
      s' = Market.setSubscriber { s with outbound := outbound } id
        { subscriber with
          stopper := .polling (next + 1) progressed'
          events := events }) := by
  rw [Market.stopperStep] at h
  cases hstopper : subscriber.stopper with
  | idle =>
      rw [hstopper] at h
      cases h
  | joining =>
      rw [hstopper] at h
      dsimp only at h
      split at h
      · cases h
        exact Or.inl ⟨rfl, rfl, rfl⟩
      · cases h
        exact Or.inl ⟨rfl, rfl, rfl⟩
      · cases h
  | polling next progressed =>
      rw [hstopper] at h
      dsimp only at h
      refine Or.inr ⟨next, progressed, rfl, ?_⟩
      split at h
      · rename_i hnone
        cases h
        exact Or.inl ⟨hnone, rfl, rfl⟩
      · rename_i source hsource
        split at h
        · cases h
        · rename_i outbound events progressed' event' hread
          cases h
          exact Or.inr ⟨source, outbound, events, progressed', hsource, hread,
            rfl⟩

/-- A subscriber's sources are its cursors, one at each shard. -/
theorem Feed.source {s : Market count} {log : List (Event count)}
    (h : Feed s log) {id : Nat} {subscriber : Subscriber count}
    (hget : s.subscribers[id]? = some subscriber) {next : Nat}
    {source : Fin count × ConsumerId}
    (hsource : subscriber.sources[next]? = some source) :
    source.2 = id ∧ source.1.val = next := by
  rw [h.sources id subscriber hget, List.getElem?_map] at hsource
  obtain ⟨shard, hshard, rfl⟩ := Option.map_eq_some_iff.mp hsource
  obtain ⟨hlt, rfl⟩ := List.getElem?_eq_some_iff.mp hshard
  rw [List.getElem_finRange]
  exact ⟨rfl, rfl⟩

/-- Starting and telling to stop change a subscriber's flag and threads. -/
theorem start_ok {subscriber subscriber' : Subscriber count}
    (h : subscriber.start = .ok subscriber') :
    subscriber.stopper = .idle ∧ subscriber'.stopper = .idle ∧
      subscriber'.sources = subscriber.sources ∧
      subscriber'.events = subscriber.events := by
  rw [Subscriber.start] at h
  cases hstopper : subscriber.stopper with
  | idle =>
      rw [hstopper] at h
      dsimp only at h
      split at h
      · cases h
        exact ⟨rfl, hstopper, rfl, rfl⟩
      · split at h
        · cases h
          exact ⟨rfl, rfl, rfl, rfl⟩
        · cases h
  | joining =>
      rw [hstopper] at h
      cases h
  | polling next progressed =>
      rw [hstopper] at h
      cases h

theorem stop_ok {subscriber subscriber' : Subscriber count}
    (h : subscriber.stop = .ok subscriber') :
    subscriber.stopper = .idle ∧
      (subscriber'.stopper = .joining ∧ subscriber.running = true ∨
        subscriber' = subscriber ∧ subscriber.running = false) ∧
      subscriber'.sources = subscriber.sources ∧
      subscriber'.events = subscriber.events := by
  rw [Subscriber.stop] at h
  cases hstopper : subscriber.stopper with
  | idle =>
      rw [hstopper] at h
      dsimp only at h
      split at h
      · rename_i hrunning
        cases h
        exact ⟨rfl, Or.inl ⟨rfl, hrunning⟩, rfl, rfl⟩
      · rename_i hrunning
        cases h
        exact ⟨rfl, Or.inr ⟨rfl, eq_false_of_ne_true hrunning⟩, rfl, rfl⟩
  | joining =>
      rw [hstopper] at h
      cases h
  | polling next progressed =>
      rw [hstopper] at h
      cases h

/-- **EVERY STEP KEEPS THE FEED.** -/
theorem Feed.step {hash : SymbolId → Nat} [NeZero count] {s s' : Market count}
    {log : List (Event count)} {event : Event count} {action : Action count}
    (h : Feed s log) (hstep : s.step hash action = .ok (s', event))
    (hsize : (accepted (simulationLog (log ++ [event]))).length < 2 ^ 64) :
    Feed s' (log ++ [event]) := by
  have hbefore : (accepted (simulationLog log)).length < 2 ^ 64 := by
    rw [simulationLog_append, accepted_append, List.length_append] at hsize
    omega
  cases action with
  | simulation action => exact h.simulationStep hstep hsize
  | addSubscriber =>
      obtain ⟨s₁, hadd, heq⟩ := map_ok hstep
      cases heq
      exact h.addSubscriber hadd
  | startSubscriber id =>
      obtain ⟨subscriber, hget, hturn⟩ := subscriberStep_ok hstep
      obtain ⟨subscriber', hstart, heq⟩ := map_ok hturn
      cases heq
      obtain ⟨-, -, hsources, hevents⟩ := start_ok hstart
      exact h.setSubscriber hget hsources hevents
  | stopSubscriber id =>
      obtain ⟨subscriber, hget, hturn⟩ := subscriberStep_ok hstep
      obtain ⟨subscriber', hstop, heq⟩ := map_ok hturn
      cases heq
      obtain ⟨-, -, hsources, hevents⟩ := stop_ok hstop
      exact h.setSubscriber hget hsources hevents
  | poll id =>
      obtain ⟨subscriber, hget, hturn⟩ := subscriberStep_ok hstep
      obtain ⟨-, ⟨thread, rfl, rfl⟩ | ⟨next, progressed, source, outbound, events,
        progressed', hsource, hread, rfl⟩⟩ := pollStep_ok hturn
      · exact h.setSubscriber hget rfl rfl
      · obtain ⟨shard, cursor⟩ := source
        obtain ⟨hid, -⟩ := h.source hget hsource
        dsimp only at hid
        subst hid
        exact h.read hbefore hget hread rfl rfl
  | stopper id =>
      obtain ⟨subscriber, hget, hturn⟩ := subscriberStep_ok hstep
      obtain ⟨-, rfl, rfl⟩ | ⟨next, progressed, -, ⟨-, rfl, rfl⟩ | ⟨source,
        outbound, events, progressed', hsource, hread, rfl⟩⟩ :=
        stopperStep_ok hturn
      · exact h.setSubscriber hget rfl rfl
      · exact h.setSubscriber hget rfl rfl
      · obtain ⟨shard, cursor⟩ := source
        obtain ⟨hid, -⟩ := h.source hget hsource
        dsimp only at hid
        subst hid
        exact h.read hbefore hget hread rfl rfl

/-- **EVERY RUN KEEPS THE FEED.** -/
theorem run_feed {hash : SymbolId → Nat} [NeZero count]
    {actions : List (Action count)} {s t : Market count}
    {before log : List (Event count)} (h : Feed s before)
    (hrun : execute (Market.step hash) s actions = .ok (t, log))
    (hsize : (accepted (simulationLog (before ++ log))).length < 2 ^ 64) :
    Feed t (before ++ log) := by
  refine execute_account
    (I := fun s log => (accepted (simulationLog (before ++ log))).length
      < 2 ^ 64 → Feed s (before ++ log))
    ?_ (fun _ => by rw [List.append_nil]; exact h) hrun hsize
  intro s log action s' event ih hstep hsize
  rw [← List.append_assoc] at hsize ⊢
  -- what was accepted before is no more than what was accepted
  have hbefore := hsize
  rw [simulationLog_append, accepted_append, List.length_append] at hbefore
  exact (ih (by omega)).step hstep hsize

end OsxMarketFeed
