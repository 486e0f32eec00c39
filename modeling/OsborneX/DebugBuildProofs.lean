import OsborneX.DebugBuildModel
import OsborneX.LinearizationProofs
import OsborneX.ShardingProofs

/-! # The debug build — its assertions hold

    At any time one thread may push to a shard's outbound buffers: the worker
    while there is one, and the owner otherwise.  The hand-overs are where the
    recorded producer is let go of, so the assertions hold in every run, through
    any number of starts and stops, and the debug build does what the program
    does without them (`debug_build_agrees`). -/

namespace OsxDebugBuild

open OsxShard Execution
open OsxSimulation (Action Controlled Event OwnerTurn Simulation Worker)

variable {count : Nat}

/-! ## One assertion -/

/-- Only this thread has called, if any. -/
def Records (recorded : Option ThreadId) (id : ThreadId) : Prop :=
  recorded.getD id = id

theorem records_none (id : ThreadId) : Records none id := rfl

theorem records_some (id : ThreadId) : Records (some id) id := rfl

theorem assertThread_ok {recorded : Option ThreadId} {id : ThreadId}
    (h : Records recorded id) : assertThread recorded id = .ok (some id) := by
  have heq : recorded.getD id = id := h
  rw [assertThread, heq]
  exact if_pos rfl

/-- One assertion for each push. -/
theorem assertThreads_ok {A : Type} {id : ThreadId} (pushes : List A) :
    ∀ {recorded : Option ThreadId}, Records recorded id →
      ∃ recorded', pushes.foldlM (fun recorded _ => assertThread recorded id)
          recorded = .ok recorded' ∧ Records recorded' id := by
  induction pushes with
  | nil => exact fun {recorded} h => ⟨recorded, rfl, h⟩
  | cons push pushes ih =>
      intro recorded h
      obtain ⟨recorded', hfold, h'⟩ := ih (records_some id)
      refine ⟨recorded', ?_, h'⟩
      rw [List.foldlM_cons, assertThread_ok h]
      exact hfold

/-! ## Who may push -/

/-- The thread that may push to the outbound buffers of a shard. -/
def producer (t : Threads count) (d : DebugBuild count) (shard : Fin count) :
    ThreadId :=
  if (d.simulation.lanes shard).worker = .absent then t.owner
  else t.worker shard (d.started shard)

/-- **ONE PRODUCER FOR EACH BUFFER**. -/
structure Sound (t : Threads count) (d : DebugBuild count) : Prop where
  controlled : Controlled d.simulation
  caller : Records d.caller t.submitter
  inbound : ∀ shard, Records (d.inbound shard) t.submitter
  outbound : ∀ shard, Records (d.outbound shard) (producer t d shard)
  tradeOutbound : ∀ shard, Records (d.tradeOutbound shard) (producer t d shard)

variable {t : Threads count} {d : DebugBuild count}

theorem sound_new (inboundCapacity : Nat) :
    Sound t (.new count inboundCapacity) where
  controlled := OsxSimulation.controlled_new inboundCapacity
  caller := rfl
  inbound := fun _ => rfl
  outbound := fun _ => rfl
  tradeOutbound := fun _ => rfl

/-- No worker comes or goes. -/
def SameWorkers (s s' : Simulation count) : Prop :=
  ∀ shard, (s'.lanes shard).worker = .absent ↔ (s.lanes shard).worker = .absent

theorem sameWorkers_setLane {s : Simulation count} {shard : Fin count}
    {lane : OsxSimulation.Lane}
    (h : lane.worker = .absent ↔ (s.lanes shard).worker = .absent) :
    SameWorkers s (s.setLane shard lane) := by
  intro shard'
  by_cases heq : shard' = shard
  · subst heq
    rw [OsxSimulation.setLane_self]
    exact h
  · rw [OsxSimulation.setLane_other s shard lane heq]

theorem Sound.moves {s' : Simulation count} (h : Sound t d)
    (hc : Controlled s') (hsame : SameWorkers d.simulation s') :
    Sound t { d with simulation := s' } := by
  have hproducer : ∀ shard,
      producer t { d with simulation := s' } shard = producer t d shard :=
    fun shard => if_congr (hsame shard) rfl rfl
  exact {
    controlled := hc
    caller := h.caller
    inbound := h.inbound
    outbound := fun shard => by rw [hproducer]; exact h.outbound shard
    tradeOutbound := fun shard => by
      rw [hproducer]
      exact h.tradeOutbound shard }

/-- A record kept up to date at one shard. -/
theorem records_update {recorded : Fin count → Option ThreadId}
    {id : Fin count → ThreadId} (h : ∀ shard, Records (recorded shard) (id shard))
    {shard : Fin count} {recorded' : Option ThreadId}
    (h' : Records recorded' (id shard)) (shard' : Fin count) :
    Records (Function.update recorded shard recorded' shard') (id shard') := by
  by_cases heq : shard' = shard
  · subst heq
    rw [Function.update_self]
    exact h'
  · rw [Function.update_of_ne heq]
    exact h shard'

/-- **THE PRODUCER PUBLISHES**. -/
theorem Sound.publish (h : Sound t d) (shard : Fin count)
    (published : Published) :
    ∃ d', d.publish shard (producer t d shard) published = .ok d' ∧
      Sound t d' ∧ d'.simulation = d.simulation := by
  obtain ⟨trades, htrades, hrecords⟩ :=
    assertThreads_ok published.trades (h.tradeOutbound shard)
  obtain ⟨tops, htops, hrecords'⟩ :=
    assertThreads_ok published.top.toList (h.outbound shard)
  refine ⟨{ d with
    tradeOutbound := Function.update d.tradeOutbound shard trades
    outbound := Function.update d.outbound shard tops }, ?_, {
      controlled := h.controlled
      caller := h.caller
      inbound := h.inbound
      outbound := records_update h.outbound hrecords'
      tradeOutbound := records_update h.tradeOutbound hrecords }, rfl⟩
  simp only [DebugBuild.publish, htrades, htops]
  rfl

/-- After a reset anyone may push. -/
theorem records_reset {recorded : Fin count → Option ThreadId}
    {id id' : Fin count → ThreadId} {shard : Fin count}
    (h : ∀ shard', shard' ≠ shard → Records (recorded shard') (id shard'))
    (hsame : ∀ shard', shard' ≠ shard → id' shard' = id shard')
    (shard' : Fin count) :
    Records (Function.update recorded shard none shard') (id' shard') := by
  by_cases heq : shard' = shard
  · subst heq
    rw [Function.update_self]
    exact records_none _
  · rw [Function.update_of_ne heq, hsame shard' heq]
    exact h shard' heq

/-- **A HAND-OVER**: the producer of one shard's buffers is let go of, and
    whether that shard has a worker, and which, may change. -/
theorem Sound.hands_over (h : Sound t d) {shard : Fin count}
    {s' : Simulation count} {started : Fin count → Nat} (hc : Controlled s')
    (hlanes : ∀ shard', shard' ≠ shard →
      s'.lanes shard' = d.simulation.lanes shard')
    (hstarted : ∀ shard', shard' ≠ shard → started shard' = d.started shard') :
    Sound t { d.resetProducers shard with
      simulation := s', started := started } := by
  have hproducer : ∀ shard', shard' ≠ shard →
      producer t { d.resetProducers shard with
        simulation := s', started := started } shard' = producer t d shard' := by
    intro shard' hne
    rw [producer, producer]
    show (if (s'.lanes shard').worker = _ then _ else t.worker shard' (started _))
      = _
    rw [hlanes shard' hne, hstarted shard' hne]
  exact {
    controlled := hc
    caller := h.caller
    inbound := h.inbound
    outbound := records_reset (fun shard' _ => h.outbound shard') hproducer
    tradeOutbound :=
      records_reset (fun shard' _ => h.tradeOutbound shard') hproducer }

/-! ## Steps -/

section Step

variable {s' : Simulation count} {event : Event count}

theorem Sound.submits {hash : SymbolId → Nat} [NeZero count] (h : Sound t d) {message : OrderMessage} {now : Nat}
    (hstep : d.simulation.submit hash message now = .ok (s', event)) :
    ∃ d', d.check t (.submit message now) event = .ok d' ∧
      Sound t { d' with simulation := s' } := by
  have hc := (OsxSimulation.submit_moves h.controlled hstep).1
  obtain ⟨stamped, inbound, -, -, rfl, rfl⟩ := OsxSimulation.submit_ok hstep
  generalize OsxSimulation.shardForSymbol hash count message.symbol = shard at *
  refine ⟨{ d with
    caller := some t.submitter
    inbound := Function.update d.inbound shard (some t.submitter) }, ?_, ?_⟩
  · simp only [DebugBuild.check, assertThread_ok h.caller,
      assertThread_ok (h.inbound shard)]
    rfl
  · have hsound : Sound t { d with
        caller := some t.submitter
        inbound := Function.update d.inbound shard (some t.submitter) } := {
      h with
      caller := rfl
      inbound := records_update h.inbound (records_some _) }
    exact hsound.moves hc (sameWorkers_setLane Iff.rfl)

theorem at_there {lane lane' : OsxSimulation.Lane} {phase : OsxSimulation.Phase}
    (hat : lane.At phase) (hthere : lane.worker ≠ .absent)
    (hkeeps : lane.At phase → lane'.At phase) : lane'.worker ≠ .absent := by
  cases phase with
  | up => exact (hkeeps hat).2.1
  | leaving => exact (hkeeps hat).2
  | down => exact absurd hat.2 hthere

theorem Sound.works (h : Sound t d) {shard : Fin count}
    (hstep : d.simulation.workerStep shard = .ok (s', event)) :
    ∃ d', d.check t (.worker shard) event = .ok d' ∧
      Sound t { d' with simulation := s' } := by
  have hc := (OsxSimulation.worker_moves h.controlled hstep).1
  obtain ⟨⟨lane, done⟩, hwork, heq⟩ := bind_ok hstep
  cases heq
  obtain ⟨hthere, hphase, -⟩ := OsxSimulation.work_ok hwork
  have hthere' := at_there (h.controlled.lanes shard) hthere (hphase _)
  have hsame : SameWorkers d.simulation (d.simulation.setLane shard lane) :=
    sameWorkers_setLane (iff_of_false hthere' hthere)
  cases done with
  | none => exact ⟨d, rfl, h.moves hc hsame⟩
  | some r =>
      obtain ⟨message, published⟩ := r
      obtain ⟨d', hpublish, h', hsimulation⟩ := h.publish shard published
      have hworker : producer t d shard = t.worker shard (d.started shard) :=
        if_neg hthere
      rw [hworker] at hpublish
      refine ⟨d', hpublish, h'.moves hc ?_⟩
      rw [hsimulation]
      exact hsame

/-- The owner's turns that neither start a worker nor join one. -/
theorem Sound.stays (h : Sound t d) (hc : Controlled s')
    (hreset : d.reset = d) (hsame : SameWorkers d.simulation s') :
    ∃ d', d.check t .owner .quiet = .ok d' ∧
      Sound t { d' with simulation := s' } :=
  ⟨d, congrArg Except.ok hreset, h.moves hc hsame⟩

theorem Sound.owns (h : Sound t d)
    (hstep : d.simulation.ownerStep = .ok (s', event)) :
    ∃ d', d.check t .owner event = .ok d' ∧
      Sound t { d' with simulation := s' } := by
  have hturn := OsxSimulation.ownerStep_turn hstep
  have hc := hturn.controlled h.controlled
  cases hturn with
  | starts next hlt lane howner hstart =>
      have hdown : (d.simulation.lanes ⟨next, hlt⟩).At
          (if next < next then .up else .down) := h.controlled.lane_at howner _
      rw [if_neg (Nat.lt_irrefl next)] at hdown
      have hreset : d.reset = { d.resetProducers ⟨next, hlt⟩ with
          started := Function.update d.started ⟨next, hlt⟩
            (d.started ⟨next, hlt⟩ + 1) } := by
        rw [DebugBuild.reset, howner]
        dsimp only
        rw [dif_pos hlt, hdown.1, if_neg Bool.false_ne_true]
      refine ⟨d.reset, rfl, ?_⟩
      rw [hreset]
      refine h.hands_over hc (fun shard' hne => ?_) (fun shard' hne => ?_)
      · exact OsxSimulation.setLane_other _ _ _ hne
      · exact Function.update_of_ne hne _ _
  | started next hge howner =>
      refine h.stays hc ?_ (fun _ => Iff.rfl)
      rw [DebugBuild.reset, howner]
      exact dif_neg (Nat.not_lt_of_le hge)
  | stops next hlt howner hrunning =>
      refine h.stays hc ?_ (sameWorkers_setLane Iff.rfl)
      rw [DebugBuild.reset, howner]
  | passes next hlt howner hrunning =>
      refine h.stays hc ?_ (fun _ => Iff.rfl)
      rw [DebugBuild.reset, howner]
  | stopped next hge howner =>
      refine h.stays hc ?_ (fun _ => Iff.rfl)
      rw [DebugBuild.reset, howner]
  | joinsNone shard howner habsent =>
      have hreset : d.reset = d.resetProducers shard := by
        rw [DebugBuild.reset, howner]
      refine ⟨d.reset, rfl, ?_⟩
      rw [hreset]
      exact h.hands_over hc (fun _ _ => rfl) (fun _ _ => rfl)
  | joins shard howner hfinished =>
      have hreset : d.reset = d.resetProducers shard := by
        rw [DebugBuild.reset, howner]
      refine ⟨d.reset, rfl, ?_⟩
      rw [hreset]
      exact h.hands_over hc
        (fun _ hne => OsxSimulation.setLane_other _ _ _ hne) (fun _ _ => rfl)
  | drained shard howner hread =>
      refine h.stays hc ?_ (fun _ => Iff.rfl)
      rw [DebugBuild.reset, howner]
  | reads shard message inbound howner hread =>
      refine h.stays hc ?_ (sameWorkers_setLane Iff.rfl)
      rw [DebugBuild.reset, howner]
  | applies shard message lane published howner hprocess =>
      -- the owner processes what no worker is left for
      have hdown := h.controlled.applying_down howner
      obtain ⟨d', hpublish, h', hsimulation⟩ := h.publish shard published
      have howns : producer t d shard = t.owner := if_pos hdown.2
      rw [howns] at hpublish
      refine ⟨d', hpublish, h'.moves hc ?_⟩
      obtain ⟨_, -, rfl⟩ := OsxSimulation.process_ok hprocess
      rw [hsimulation]
      exact sameWorkers_setLane Iff.rfl

/-- `start` and `stop` leave the lanes to their loops. -/
theorem call_lanes {s s' : Simulation count}
    (h : s.start = .ok s' ∨ s.stop = .ok s') : s'.lanes = s.lanes := by
  rcases h with h | h
  · rw [Simulation.start] at h
    split at h
    · split at h <;> cases h <;> rfl
    · cases h
  · rw [Simulation.stop] at h
    split at h
    · split at h <;> cases h <;> rfl
    · cases h

theorem Sound.checks {hash : SymbolId → Nat} [NeZero count] (h : Sound t d)
    {action : Action count}
    (hstep : d.simulation.step hash action = .ok (s', event)) :
    ∃ d', d.check t action event = .ok d' ∧
      Sound t { d' with simulation := s' } := by
  cases action with
  | submit message now => exact h.submits hstep
  | worker shard => exact h.works hstep
  | owner => exact h.owns hstep
  | start =>
      have hc := (OsxSimulation.step_moves h.controlled hstep).1
      obtain ⟨s₁, hcall, heq⟩ := map_ok hstep
      cases heq
      refine ⟨d, rfl, h.moves hc (fun shard => ?_)⟩
      rw [call_lanes (Or.inl hcall)]
  | stop =>
      have hc := (OsxSimulation.step_moves h.controlled hstep).1
      obtain ⟨s₁, hcall, heq⟩ := map_ok hstep
      cases heq
      refine ⟨d, rfl, h.moves hc (fun shard => ?_)⟩
      rw [call_lanes (Or.inr hcall)]

end Step

/-! ## Runs -/

section Run

variable (t : Threads count) (hash : SymbolId → Nat) [NeZero count]

theorem Sound.step_ok (h : Sound t d) {action : Action count}
    {s' : Simulation count} {event : Event count}
    (hstep : d.simulation.step hash action = .ok (s', event)) :
    ∃ d', d.step t hash action = .ok (d', event) ∧ d'.simulation = s' ∧
      Sound t d' := by
  obtain ⟨d', hcheck, h'⟩ := h.checks hstep
  refine ⟨{ d' with simulation := s' }, ?_, rfl, h'⟩
  rw [DebugBuild.step, hstep]
  show (d.check t action event >>= _) = _
  rw [hcheck]
  rfl

/-- **THE DEBUG BUILD DOES WHAT THE PROGRAM DOES**: whatever the threads are
    called, no assertion on the calling thread fails, in no run and through any
    number of starts and stops. -/
theorem debug_build_agrees (inboundCapacity : Nat)
    (actions : List (Action count)) :
    (execute (DebugBuild.step t hash) (.new count inboundCapacity) actions).map
        (fun r => (r.1.simulation, r.2))
      = (execute (Simulation.step hash) (.new count inboundCapacity)
          actions).mapError .simulation := by
  refine execute_monitored (I := Sound t) ?_ ?_ actions _ (sound_new _)
  · intro d action h
    cases hcore : d.simulation.step hash action with
    | error fault =>
        rw [DebugBuild.step, hcore]
        rfl
    | ok r =>
        obtain ⟨s', event⟩ := r
        obtain ⟨d', hok, rfl, -⟩ := h.step_ok t hash hcore
        rw [hok]
        rfl
  · intro d action d' event h hok
    cases hcore : d.simulation.step hash action with
    | error fault =>
        rw [DebugBuild.step, hcore] at hok
        cases hok
    | ok r =>
        obtain ⟨s', event'⟩ := r
        obtain ⟨d'', hok', -, h'⟩ := h.step_ok t hash hcore
        rw [hok'] at hok
        cases hok
        exact h'

end Run

/-- One thread starts, stops and submits; the system gives every worker the id
    of the one before. -/
def sampleThreads : Threads 2 where
  owner := 0
  submitter := 0
  worker := fun shard _ => shard.val + 1

/-- Two rounds: in each the owner processes what the workers left behind. -/
def twoRounds : List (Action 2) :=
  OsxSharding.sampleActions ++ OsxSharding.sampleActions

theorem debug_build_agrees_two :
    (execute (DebugBuild.step sampleThreads id) (.new 2 4) twoRounds).map
        (fun r => (r.1.simulation, r.2))
      = (execute (Simulation.step id) (.new 2 4) twoRounds).mapError
          .simulation :=
  debug_build_agrees sampleThreads id 4 twoRounds

end OsxDebugBuild
