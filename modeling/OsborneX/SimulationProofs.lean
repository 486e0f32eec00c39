import OsborneX.SimulationModel

/-! # What the simulation's threads keep

    Two facts about every interleaving.  CONTROL: where the owner is says which
    lanes have a worker, so no thread is lost or replaced, and worker and owner
    never process for the same lane.  ACCOUNT: what a shard was handed is what
    it processed, then what a thread holds, then what waits in its buffer; and
    its books are those of processing the former one after another. -/

namespace OsxSimulation

open OsxShard Execution

variable {count : Nat}

/-! ## Phases of a lane -/

inductive Phase where
  /-- the worker is in its loop -/
  | up
  /-- the worker was told to return, and is not joined -/
  | leaving
  /-- no worker -/
  | down
  deriving DecidableEq, Repr

/-- The lane is in the phase. -/
def Lane.At (lane : Lane) : Phase → Prop
  | .up => lane.running = true ∧ lane.worker ≠ .absent ∧
      lane.worker ≠ .finished
  | .leaving => lane.running = false ∧ lane.worker ≠ .absent
  | .down => lane.running = false ∧ lane.worker = .absent

/-- The phase of a lane, from where the owner is. -/
def Simulation.phase (s : Simulation count) (shard : Fin count) : Phase :=
  match s.owner with
  | .idle => if s.running then .up else .down
  | .starting next => if shard.val < next then .up else .down
  | .stopping next => if shard.val < next then .down else .up
  | .joining shard' =>
      if shard.val < shard'.val then .down
      else if shard = shard' then .leaving else .up
  | .draining shard' | .applying shard' _ =>
      if shard.val ≤ shard'.val then .down else .up

/-- `running_`, while the owner is in a call. -/
def Simulation.flag (s : Simulation count) : Prop :=
  match s.owner with
  | .idle => True
  | .starting _ => s.running = true
  | _ => s.running = false

/-- Every lane is in the phase that the owner's place says. -/
structure Controlled (s : Simulation count) : Prop where
  lanes : ∀ shard, (s.lanes shard).At (s.phase shard)
  flag : s.flag

theorem controlled_new (inboundCapacity : Nat) :
    Controlled (Simulation.new count inboundCapacity) :=
  ⟨fun _ => ⟨rfl, rfl⟩, trivial⟩

/-- The flag and the phases, at the owner's place. -/
theorem Controlled.flag_at {s : Simulation count} {owner : Owner count}
    (h : Controlled s) (howner : s.owner = owner) :
    { s with owner := owner }.flag := by
  subst howner
  exact h.flag

theorem phase_at {s : Simulation count} {owner : Owner count}
    (howner : s.owner = owner) (shard : Fin count) :
    s.phase shard = { s with owner := owner }.phase shard := by
  subst howner
  rfl

theorem Controlled.lane_at {s : Simulation count} {owner : Owner count}
    (h : Controlled s) (howner : s.owner = owner) (shard : Fin count) :
    (s.lanes shard).At ({ s with owner := owner }.phase shard) := by
  rw [← phase_at howner]
  exact h.lanes shard

/-! ## Replacing a lane -/

section SetLane

variable (s : Simulation count) (shard : Fin count) (lane : Lane)

@[simp] theorem setLane_owner : (s.setLane shard lane).owner = s.owner := rfl

@[simp] theorem setLane_running :
    (s.setLane shard lane).running = s.running := rfl

@[simp] theorem setLane_self : (s.setLane shard lane).lanes shard = lane :=
  Function.update_self ..

theorem setLane_other {shard' : Fin count} (h : shard' ≠ shard) :
    (s.setLane shard lane).lanes shard' = s.lanes shard' :=
  Function.update_of_ne h ..

end SetLane

/-! ## What waits for a shard -/

/-- What a worker has read and not processed. -/
def Worker.held : Worker → List OrderMessage
  | .holding message => [message]
  | _ => []

/-- What the owner has read from the shard's buffer and not processed. -/
def Owner.held (shard : Fin count) : Owner count → List OrderMessage
  | .applying shard' message => if shard' = shard then [message] else []
  | _ => []

/-- What the shard was handed and has not processed, oldest first. -/
def Simulation.pending (s : Simulation count) (shard : Fin count) :
    List OrderMessage :=
  (s.lanes shard).worker.held ++ s.owner.held shard ++
    (s.lanes shard).inbound.items

/-- A step, as a shard's queue and books see it. -/
def Moves (s s' : Simulation count) (event : Event count)
    (shard : Fin count) : Prop :=
  match event with
  | .quiet => s'.pending shard = s.pending shard ∧
      (s'.lanes shard).shard = (s.lanes shard).shard
  | .accepted shard' message =>
      s'.pending shard
        = s.pending shard ++ (if shard' = shard then [message] else []) ∧
      (s'.lanes shard).shard = (s.lanes shard).shard
  | .processed shard' message published =>
      if shard' = shard then
        s.pending shard = message :: s'.pending shard ∧
        (s.lanes shard).shard.process message
          = .ok ((s'.lanes shard).shard, published)
      else s'.pending shard = s.pending shard ∧
        (s'.lanes shard).shard = (s.lanes shard).shard

/-- Lanes of the same phase and place: what the other lanes see of a step that
    replaces one. -/
theorem pending_setLane_other (s : Simulation count) {shard shard' : Fin count}
    (lane : Lane) (h : shard' ≠ shard) :
    (s.setLane shard lane).pending shard' = s.pending shard' := by
  rw [Simulation.pending, Simulation.pending, setLane_other s shard lane h]
  rfl

theorem pending_setLane_self (s : Simulation count) (shard : Fin count)
    (lane : Lane) :
    (s.setLane shard lane).pending shard
      = lane.worker.held ++ s.owner.held shard ++ lane.inbound.items := by
  rw [Simulation.pending, setLane_self]
  rfl

/-- A lane that stays in its phase keeps the control. -/
theorem Controlled.setLane {s : Simulation count} (h : Controlled s)
    {shard : Fin count} {lane : Lane} (hlane : lane.At (s.phase shard)) :
    Controlled (s.setLane shard lane) := by
  refine ⟨fun shard' => ?_, h.flag⟩
  by_cases heq : shard' = shard
  · subst heq
    rw [setLane_self]
    exact hlane
  · rw [setLane_other s shard lane heq]
    exact h.lanes shard'

/-! ## The turns of a lane -/

/-- A worker that goes on from one place in its loop to another. -/
theorem Lane.At.goes_on {lane lane' : Lane} {phase : Phase}
    (h : lane.At phase) (hthere : lane.worker ≠ .absent)
    (hrunning : lane'.running = lane.running)
    (hthere' : lane'.worker ≠ .absent) (hloop : lane'.worker ≠ .finished) :
    lane'.At phase := by
  cases phase with
  | up => exact ⟨hrunning.trans h.1, hthere', hloop⟩
  | leaving => exact ⟨hrunning.trans h.1, hthere'⟩
  | down => exact absurd h.2 hthere

/-- Processing changes the books alone. -/
theorem process_ok {lane lane' : Lane} {message : OrderMessage}
    {published : Published}
    (h : lane.process message = .ok (lane', published)) :
    ∃ shard, lane.shard.process message = .ok (shard, published) ∧
      lane' = { lane with shard := shard } := by
  rw [Lane.process] at h
  split at h
  · cases h
  · rename_i shard published' hprocess
    cases h
    exact ⟨shard, hprocess, rfl⟩

/-- What one turn of a worker does: its lane stays in its phase, nothing is lost
    between buffer and hand, and what it held was processed. -/
theorem work_ok {lane lane' : Lane} {done : Option (OrderMessage × Published)}
    (h : lane.work = .ok (lane', done)) :
    lane.worker ≠ .absent ∧ (∀ phase, lane.At phase → lane'.At phase) ∧
      match done with
      | none => lane'.shard = lane.shard ∧
          lane'.worker.held ++ lane'.inbound.items
            = lane.worker.held ++ lane.inbound.items
      | some (message, published) =>
          lane.shard.process message = .ok (lane'.shard, published) ∧
          lane.worker.held = [message] ∧ lane'.worker.held = [] ∧
          lane'.inbound = lane.inbound := by
  rw [Lane.work] at h
  cases hworker : lane.worker with
  | absent =>
      rw [hworker] at h
      cases h
  | finished =>
      rw [hworker] at h
      cases h
  | loading =>
      rw [hworker] at h
      cases h
      have hthere : lane.worker ≠ .absent := by
        rw [hworker]
        exact Worker.noConfusion
      refine ⟨Worker.noConfusion, ?_, rfl, ?_⟩
      · intro phase hat
        cases hrunning : lane.running with
        | true =>
            exact hat.goes_on hthere hrunning.symm Worker.noConfusion
              Worker.noConfusion
        | false =>
            -- only a worker that was told to returns
            cases phase with
            | up =>
                rw [hat.1] at hrunning
                cases hrunning
            | leaving => exact ⟨rfl, Worker.noConfusion⟩
            | down => exact absurd hat.2 hthere
      · cases lane.running <;> rfl
  | reading =>
      have hthere : lane.worker ≠ .absent := by
        rw [hworker]
        exact Worker.noConfusion
      rw [hworker] at h
      cases hread : lane.inbound.tryRead with
      | none =>
          rw [hread] at h
          cases h
          exact ⟨Worker.noConfusion, fun phase hat => hat.goes_on hthere rfl
            Worker.noConfusion Worker.noConfusion, rfl, rfl⟩
      | some r =>
          obtain ⟨message, inbound⟩ := r
          rw [hread] at h
          cases h
          refine ⟨Worker.noConfusion, fun phase hat => hat.goes_on hthere rfl
            Worker.noConfusion Worker.noConfusion, rfl, ?_⟩
          exact (Inbound.tryRead_some hread).symm
  | holding message =>
      have hthere : lane.worker ≠ .absent := by
        rw [hworker]
        exact Worker.noConfusion
      rw [hworker] at h
      obtain ⟨⟨lane₁, published⟩, hprocess, heq⟩ := bind_ok h
      cases heq
      obtain ⟨shard, hshard, rfl⟩ := process_ok hprocess
      exact ⟨Worker.noConfusion, fun phase hat => hat.goes_on hthere rfl
        Worker.noConfusion Worker.noConfusion, hshard, rfl, rfl, rfl⟩

/-! ## The steps -/

/-- A step that moves no message. -/
theorem moves_quiet {s s' : Simulation count}
    (howner : ∀ shard, s'.owner.held shard = s.owner.held shard)
    (hlanes : ∀ shard, (s'.lanes shard).shard = (s.lanes shard).shard ∧
      (s'.lanes shard).worker.held = (s.lanes shard).worker.held ∧
      (s'.lanes shard).inbound = (s.lanes shard).inbound) (shard : Fin count) :
    Moves s s' .quiet shard := by
  obtain ⟨hshard, hworker, hinbound⟩ := hlanes shard
  refine ⟨?_, hshard⟩
  rw [Simulation.pending, Simulation.pending, howner, hworker, hinbound]

theorem submit_ok {hash : SymbolId → Nat} [NeZero count]
    {s s' : Simulation count} {message : OrderMessage} {now : Nat}
    {event : Event count} (h : s.submit hash message now = .ok (s', event)) :
    ∃ stamped inbound, stamped = { message with
        ingressTimestamp := now, ingressSequence := s.nextSequence } ∧
      inbound.items =
        (s.lanes (shardForSymbol hash count message.symbol)).inbound.items
          ++ [stamped] ∧
      event = .accepted (shardForSymbol hash count message.symbol) stamped ∧
      s' = { s.setLane (shardForSymbol hash count message.symbol)
          { s.lanes (shardForSymbol hash count message.symbol) with
            inbound := inbound } with
        nextSequence := OsxRingBuffer.addSequence s.nextSequence 1 } := by
  rw [Simulation.submit] at h
  simp only at h
  split at h
  · cases h
  · rename_i inbound hpush
    cases h
    exact ⟨_, inbound, rfl, Inbound.pushBlocking_some hpush, rfl, rfl⟩

theorem submit_moves {hash : SymbolId → Nat} [NeZero count]
    {s s' : Simulation count} {message : OrderMessage} {now : Nat}
    {event : Event count} (hc : Controlled s)
    (h : s.submit hash message now = .ok (s', event)) :
    Controlled s' ∧ ∀ shard, Moves s s' event shard := by
  obtain ⟨stamped, inbound, -, hitems, rfl, rfl⟩ := submit_ok h
  constructor
  · have hat : ({ s.lanes (shardForSymbol hash count message.symbol) with
        inbound := inbound } : Lane).At (s.phase _) := hc.lanes _
    exact ⟨(hc.setLane hat).lanes, hc.flag⟩
  · intro shard
    by_cases heq : shardForSymbol hash count message.symbol = shard
    · subst heq
      refine ⟨?_, ?_⟩
      · refine (pending_setLane_self s _ _).trans ?_
        rw [hitems, if_pos rfl, ← List.append_assoc]
        rfl
      · show ((s.setLane _ _).lanes _).shard = _
        rw [setLane_self]
    · refine ⟨?_, ?_⟩
      · refine (pending_setLane_other s _ (Ne.symm heq)).trans ?_
        rw [if_neg heq, List.append_nil]
      · show ((s.setLane _ _).lanes _).shard = _
        rw [setLane_other s _ _ (Ne.symm heq)]

/-- While a lane has a worker, the owner holds nothing of it. -/
theorem Controlled.owner_empty {s : Simulation count} (h : Controlled s)
    {shard : Fin count} (hthere : (s.lanes shard).worker ≠ .absent) :
    s.owner.held shard = [] := by
  cases howner : s.owner with
  | applying shard' message =>
      by_cases heq : shard' = shard
      · subst heq
        have hat := h.lanes shard'
        rw [Simulation.phase, howner] at hat
        simp only [le_refl, if_true] at hat
        exact absurd hat.2 hthere
      · exact if_neg heq
  | idle => rfl
  | starting next => rfl
  | stopping next => rfl
  | joining shard' => rfl
  | draining shard' => rfl

theorem worker_moves {s s' : Simulation count} {shard : Fin count}
    {event : Event count} (hc : Controlled s)
    (h : s.workerStep shard = .ok (s', event)) :
    Controlled s' ∧ ∀ shard', Moves s s' event shard' := by
  obtain ⟨⟨lane, done⟩, hwork, heq⟩ := bind_ok h
  obtain ⟨hthere, hphase, hdone⟩ := work_ok hwork
  have hempty := hc.owner_empty hthere
  cases heq
  refine ⟨hc.setLane (hphase _ (hc.lanes shard)), fun shard' => ?_⟩
  by_cases heq : shard = shard'
  · subst heq
    cases done with
    | none =>
        obtain ⟨hshard, hheld⟩ := hdone
        refine ⟨?_, ?_⟩
        · rw [pending_setLane_self, Simulation.pending, hempty,
            List.append_nil, List.append_nil, hheld]
        · rw [setLane_self, hshard]
    | some r =>
        obtain ⟨message, published⟩ := r
        obtain ⟨hprocess, hheld, hheld', hinbound⟩ := hdone
        refine (if_pos rfl).mpr ⟨?_, ?_⟩
        · rw [pending_setLane_self, Simulation.pending, hempty, hheld, hheld',
            hinbound]
          rfl
        · rw [setLane_self]
          exact hprocess
  · have hother := Ne.symm heq
    have hsame : (s.setLane shard lane).pending shard' = s.pending shard' ∧
        ((s.setLane shard lane).lanes shard').shard
          = (s.lanes shard').shard := by
      rw [pending_setLane_other s lane hother, setLane_other s shard lane hother]
      exact ⟨rfl, rfl⟩
    cases done with
    | none => exact hsame
    | some r => exact (if_neg heq).mpr hsame

/-- A lane that is down starts. -/
theorem start_down {lane : Lane} (h : lane.At .down) :
    lane.start = .ok { lane with running := true, worker := .loading } := by
  rw [Lane.start, h.1, h.2]
  rfl

/-- The owner replaces one lane and goes on: the other lanes stay in their
    phase, and the new one is in the phase it should be in. -/
theorem Controlled.goes_on {s s' : Simulation count} (h : Controlled s)
    {shard : Fin count} {lane : Lane}
    (hlanes : s'.lanes = (s.setLane shard lane).lanes) (hflag : s'.flag)
    (hother : ∀ shard', shard' ≠ shard → s'.phase shard' = s.phase shard')
    (hlane : lane.At (s'.phase shard)) : Controlled s' := by
  refine ⟨fun shard' => ?_, hflag⟩
  rw [hlanes]
  by_cases heq : shard' = shard
  · subst heq
    rw [setLane_self]
    exact hlane
  · rw [setLane_other s shard lane heq, hother shard' heq]
    exact h.lanes shard'

/-- The owner goes on and replaces no lane. -/
theorem Controlled.moves_on {s s' : Simulation count} (h : Controlled s)
    (hlanes : s'.lanes = s.lanes) (hflag : s'.flag)
    (hphase : ∀ shard, s'.phase shard = s.phase shard) : Controlled s' := by
  refine ⟨fun shard => ?_, hflag⟩
  rw [hlanes, hphase]
  exact h.lanes shard

/-- What a turn of the owner can be. -/
inductive OwnerTurn (s : Simulation count) :
    Simulation count → Event count → Prop where
  | starts (next : Nat) (hlt : next < count) (lane : Lane)
      (howner : s.owner = .starting next)
      (hstart : (s.lanes ⟨next, hlt⟩).start = .ok lane) :
      OwnerTurn s { s.setLane ⟨next, hlt⟩ lane with
        owner := .starting (next + 1) } .quiet
  | started (next : Nat) (hge : count ≤ next)
      (howner : s.owner = .starting next) :
      OwnerTurn s { s with owner := .idle } .quiet
  | stops (next : Nat) (hlt : next < count) (howner : s.owner = .stopping next)
      (hrunning : (s.lanes ⟨next, hlt⟩).running = true) :
      OwnerTurn s { s.setLane ⟨next, hlt⟩
          { s.lanes ⟨next, hlt⟩ with running := false } with
        owner := .joining ⟨next, hlt⟩ } .quiet
  | passes (next : Nat) (hlt : next < count)
      (howner : s.owner = .stopping next)
      (hrunning : (s.lanes ⟨next, hlt⟩).running = false) :
      OwnerTurn s { s with owner := .stopping (next + 1) } .quiet
  | stopped (next : Nat) (hge : count ≤ next)
      (howner : s.owner = .stopping next) :
      OwnerTurn s { s with owner := .idle } .quiet
  | joinsNone (shard : Fin count) (howner : s.owner = .joining shard)
      (habsent : (s.lanes shard).worker = .absent) :
      OwnerTurn s { s with owner := .draining shard } .quiet
  | joins (shard : Fin count) (howner : s.owner = .joining shard)
      (hfinished : (s.lanes shard).worker = .finished) :
      OwnerTurn s { s.setLane shard { s.lanes shard with worker := .absent } with
        owner := .draining shard } .quiet
  | drained (shard : Fin count) (howner : s.owner = .draining shard)
      (hread : (s.lanes shard).inbound.tryRead = none) :
      OwnerTurn s { s with owner := .stopping (shard + 1) } .quiet
  | reads (shard : Fin count) (message : OrderMessage) (inbound : Inbound)
      (howner : s.owner = .draining shard)
      (hread : (s.lanes shard).inbound.tryRead = some (message, inbound)) :
      OwnerTurn s { s.setLane shard { s.lanes shard with inbound := inbound } with
        owner := .applying shard message } .quiet
  | applies (shard : Fin count) (message : OrderMessage) (lane : Lane)
      (published : Published) (howner : s.owner = .applying shard message)
      (hprocess : (s.lanes shard).process message = .ok (lane, published)) :
      OwnerTurn s { s.setLane shard lane with owner := .draining shard }
        (.processed shard message published)

theorem ownerStep_turn {s s' : Simulation count} {event : Event count}
    (h : s.ownerStep = .ok (s', event)) : OwnerTurn s s' event := by
  rw [Simulation.ownerStep] at h
  cases howner : s.owner with
  | idle =>
      rw [howner] at h
      cases h
  | starting next =>
      rw [howner] at h
      dsimp only at h
      split at h
      · rename_i hlt
        obtain ⟨lane, hstart, heq⟩ := bind_ok h
        cases heq
        exact .starts next hlt lane howner hstart
      · rename_i hge
        cases h
        exact .started next (Nat.le_of_not_lt hge) howner
  | stopping next =>
      rw [howner] at h
      dsimp only at h
      split at h
      · rename_i hlt
        split at h
        · rename_i hrunning
          cases h
          exact .stops next hlt howner hrunning
        · rename_i hrunning
          cases h
          exact .passes next hlt howner (Bool.eq_false_iff.mpr hrunning)
      · rename_i hge
        cases h
        exact .stopped next (Nat.le_of_not_lt hge) howner
  | joining shard =>
      rw [howner] at h
      dsimp only at h
      split at h
      · rename_i habsent
        cases h
        exact .joinsNone shard howner habsent
      · rename_i hfinished
        cases h
        exact .joins shard howner hfinished
      · cases h
  | draining shard =>
      rw [howner] at h
      dsimp only at h
      split at h
      · rename_i hread
        cases h
        exact .drained shard howner hread
      · rename_i message inbound hread
        cases h
        exact .reads shard message inbound howner hread
  | applying shard message =>
      rw [howner] at h
      obtain ⟨⟨lane, published⟩, hprocess, heq⟩ := bind_ok h
      cases heq
      exact .applies shard message lane published howner hprocess

/-- The lane that is drained is down. -/
theorem Controlled.draining_down {s : Simulation count} (hc : Controlled s)
    {shard : Fin count} (howner : s.owner = .draining shard) :
    (s.lanes shard).At .down := by
  have hdown : (s.lanes shard).At
      (if shard.val ≤ shard.val then .down else .up) := hc.lane_at howner _
  rwa [if_pos (Nat.le_refl _)] at hdown

theorem Controlled.applying_down {s : Simulation count} (hc : Controlled s)
    {shard : Fin count} {message : OrderMessage}
    (howner : s.owner = .applying shard message) :
    (s.lanes shard).At .down := by
  have hdown : (s.lanes shard).At
      (if shard.val ≤ shard.val then .down else .up) := hc.lane_at howner _
  rwa [if_pos (Nat.le_refl _)] at hdown

/-- Every turn of the owner keeps the lanes where the owner's place says. -/
theorem OwnerTurn.controlled {s s' : Simulation count} {event : Event count}
    (hturn : OwnerTurn s s' event) (hc : Controlled s) : Controlled s' := by
  cases hturn with
  | starts next hlt lane howner hstart =>
      have hphase : ∀ i, s.phase i = if i.val < next then .up else .down :=
        phase_at howner
      have hdown := hc.lanes ⟨next, hlt⟩
      rw [hphase, if_neg (Nat.lt_irrefl next)] at hdown
      rw [start_down hdown] at hstart
      cases hstart
      refine hc.goes_on rfl (hc.flag_at howner) ?_ ?_
      · intro i hi
        rw [hphase]
        show (if i.val < next + 1 then Phase.up else .down) = _
        have hne : i.val ≠ next := fun heq => hi (Fin.ext heq)
        by_cases hin : i.val < next
        · rw [if_pos hin, if_pos (by omega)]
        · rw [if_neg hin, if_neg (by omega)]
      · show Lane.At _ (if next < next + 1 then .up else .down)
        rw [if_pos (Nat.lt_succ_self next)]
        exact ⟨rfl, Worker.noConfusion, Worker.noConfusion⟩
  | started next hge howner =>
      have hflag : s.running = true := hc.flag_at howner
      refine hc.moves_on rfl trivial (fun i => ?_)
      rw [phase_at howner i]
      show (if s.running = true then Phase.up else .down)
        = if i.val < next then .up else .down
      rw [if_pos hflag, if_pos (by omega)]
  | stops next hlt howner hrunning =>
      have hphase : ∀ i, s.phase i = if i.val < next then .down else .up :=
        phase_at howner
      have hup := hc.lanes ⟨next, hlt⟩
      rw [hphase, if_neg (Nat.lt_irrefl next)] at hup
      refine hc.goes_on rfl (hc.flag_at howner) ?_ ?_
      · intro i hi
        rw [hphase]
        show (if i.val < next then Phase.down
          else if i = ⟨next, hlt⟩ then .leaving else .up) = _
        rw [if_neg hi]
      · show Lane.At _ (if next < next then .down
          else if _ then .leaving else .up)
        rw [if_neg (Nat.lt_irrefl next), if_pos rfl]
        exact ⟨rfl, hup.2.1⟩
  | passes next hlt howner hrunning =>
      -- a lane that is not stopped yet runs
      have hup : (s.lanes ⟨next, hlt⟩).At
          (if next < next then .down else .up) := hc.lane_at howner _
      rw [if_neg (Nat.lt_irrefl next)] at hup
      rw [hup.1] at hrunning
      cases hrunning
  | stopped next hge howner =>
      have hflag : s.running = false := hc.flag_at howner
      refine hc.moves_on rfl trivial (fun i => ?_)
      rw [phase_at howner i]
      show (if s.running = true then Phase.up else .down)
        = if i.val < next then .down else .up
      rw [hflag, if_neg Bool.false_ne_true, if_pos (by omega)]
  | joinsNone shard howner habsent =>
      -- the lane that is joined was running, so it has a worker
      have hleaving : (s.lanes shard).At (if shard.val < shard.val then .down
          else if shard = shard then .leaving else .up) := hc.lane_at howner _
      rw [if_neg (Nat.lt_irrefl _), if_pos rfl] at hleaving
      exact absurd habsent hleaving.2
  | joins shard howner hfinished =>
      have hphase : ∀ i, s.phase i = if i.val < shard.val then .down
          else if i = shard then .leaving else .up := phase_at howner
      have hleaving := hc.lanes shard
      rw [hphase, if_neg (Nat.lt_irrefl _), if_pos rfl] at hleaving
      refine hc.goes_on rfl (hc.flag_at howner) ?_ ?_
      · intro i hi
        rw [hphase, if_neg hi]
        show (if i.val ≤ shard.val then Phase.down else .up) = _
        have hne : i.val ≠ shard.val := fun heq => hi (Fin.ext heq)
        by_cases hin : i.val < shard.val
        · rw [if_pos hin, if_pos (by omega)]
        · rw [if_neg hin, if_neg (by omega)]
      · show Lane.At _ (if shard.val ≤ shard.val then .down else .up)
        rw [if_pos (Nat.le_refl _)]
        exact ⟨hleaving.1, rfl⟩
  | drained shard howner hread =>
      have hflag : s.running = false := hc.flag_at howner
      refine hc.moves_on rfl hflag (fun i => ?_)
      rw [phase_at howner i]
      show (if i.val < shard.val + 1 then Phase.down else .up)
        = if i.val ≤ shard.val then .down else .up
      simp only [Nat.lt_succ_iff]
  | reads shard message inbound howner hread =>
      refine hc.goes_on rfl (hc.flag_at howner)
        (fun i _ => (phase_at howner i).symm) ?_
      show Lane.At _ (if shard.val ≤ shard.val then .down else .up)
      rw [if_pos (Nat.le_refl _)]
      exact hc.draining_down howner
  | applies shard message lane published howner hprocess =>
      have hdown := hc.applying_down howner
      obtain ⟨books, -, rfl⟩ := process_ok hprocess
      refine hc.goes_on rfl (hc.flag_at howner)
        (fun i _ => (phase_at howner i).symm) ?_
      show Lane.At _ (if shard.val ≤ shard.val then .down else .up)
      rw [if_pos (Nat.le_refl _)]
      exact hdown

/-- Every turn of the owner accounts for what it moves. -/
theorem OwnerTurn.moves {s s' : Simulation count} {event : Event count}
    (hturn : OwnerTurn s s' event) (hc : Controlled s) :
    ∀ shard, Moves s s' event shard := by
  cases hturn with
  | starts next hlt lane howner hstart =>
      have hdown : (s.lanes ⟨next, hlt⟩).At
          (if next < next then .up else .down) := hc.lane_at howner _
      rw [if_neg (Nat.lt_irrefl next)] at hdown
      rw [start_down hdown] at hstart
      cases hstart
      refine moves_quiet (fun i => by rw [howner]; rfl) (fun i => ?_)
      by_cases hi : i = ⟨next, hlt⟩
      · subst hi
        show ((s.setLane _ _).lanes _).shard = _ ∧ _ ∧ _
        rw [hdown.2]
        simp only [setLane_self]
        exact ⟨trivial, rfl, trivial⟩
      · simp only [setLane_other s _ _ hi, and_self]
  | started next hge howner | stopped next hge howner
  | passes next hlt howner hrunning | joinsNone next howner habsent
  | drained next howner hread =>
      exact moves_quiet (fun i => by rw [howner]; rfl)
        (fun i => ⟨rfl, rfl, rfl⟩)
  | stops next hlt howner hrunning =>
      refine moves_quiet (fun i => by rw [howner]; rfl) (fun i => ?_)
      by_cases hi : i = ⟨next, hlt⟩
      · subst hi
        simp only [setLane_self, and_self]
      · simp only [setLane_other s _ _ hi, and_self]
  | joins joined howner hfinished =>
      refine moves_quiet (fun i => by rw [howner]; rfl) (fun i => ?_)
      by_cases hi : i = joined
      · subst hi
        rw [hfinished]
        simp only [setLane_self]
        exact ⟨trivial, rfl, trivial⟩
      · simp only [setLane_other s _ _ hi, and_self]
  | reads drained message inbound howner hread =>
      have hdown := hc.draining_down howner
      intro shard
      by_cases hi : shard = drained
      · subst hi
        refine ⟨?_, ?_⟩
        · rw [Simulation.pending, Simulation.pending, howner]
          simp only [setLane_self, hdown.2, Worker.held, Owner.held,
            if_pos, Inbound.tryRead_some hread, List.nil_append,
            List.append_nil, List.singleton_append]
        · simp only [setLane_self]
      · refine ⟨?_, ?_⟩
        · rw [Simulation.pending, Simulation.pending, howner]
          simp only [setLane_other s _ _ hi, Owner.held, if_neg (Ne.symm hi)]
        · simp only [setLane_other s _ _ hi]
  | applies drained message lane published howner hprocess =>
      have hdown := hc.applying_down howner
      obtain ⟨books, hbooks, rfl⟩ := process_ok hprocess
      intro shard
      by_cases hi : shard = drained
      · subst hi
        refine (if_pos rfl).mpr ⟨?_, ?_⟩
        · rw [Simulation.pending, Simulation.pending, howner]
          simp only [setLane_self, hdown.2, Worker.held, Owner.held, if_pos,
            List.nil_append, List.singleton_append]
        · simp only [setLane_self]
          exact hbooks
      · refine (if_neg (Ne.symm hi)).mpr ⟨?_, ?_⟩
        · rw [Simulation.pending, Simulation.pending, howner]
          simp only [setLane_other s _ _ hi, Owner.held, if_neg (Ne.symm hi)]
        · simp only [setLane_other s _ _ hi]

/-- **THE OWNER'S TURN** keeps the control, and moves a message only from the
    buffer to the hand and from the hand to the books. -/
theorem owner_moves {s s' : Simulation count} {event : Event count}
    (hc : Controlled s) (h : s.ownerStep = .ok (s', event)) :
    Controlled s' ∧ ∀ shard, Moves s s' event shard :=
  ⟨(ownerStep_turn h).controlled hc, (ownerStep_turn h).moves hc⟩

/-- Calling `start` or `stop` moves no message. -/
theorem start_moves {s s' : Simulation count} (hc : Controlled s)
    (h : s.start = .ok s') :
    Controlled s' ∧ ∀ shard, Moves s s' .quiet shard := by
  cases howner : s.owner with
  | idle =>
      have hphase : ∀ i, s.phase i = if s.running then .up else .down := by
        intro i
        rw [Simulation.phase, howner]
      rw [Simulation.start, howner] at h
      dsimp only at h
      split at h
      · cases h
        exact ⟨hc, fun _ => ⟨rfl, rfl⟩⟩
      · rename_i hrunning
        cases h
        constructor
        · refine hc.moves_on rfl rfl (fun i => ?_)
          rw [hphase, if_neg hrunning]
          show (if i.val < 0 then Phase.up else .down) = _
          rw [if_neg (Nat.not_lt_zero _)]
        · exact moves_quiet (fun i => by rw [howner]; rfl)
            (fun i => ⟨rfl, rfl, rfl⟩)
  | _ =>
      rw [Simulation.start, howner] at h
      cases h

theorem stop_moves {s s' : Simulation count} (hc : Controlled s)
    (h : s.stop = .ok s') :
    Controlled s' ∧ ∀ shard, Moves s s' .quiet shard := by
  cases howner : s.owner with
  | idle =>
      have hphase : ∀ i, s.phase i = if s.running then .up else .down := by
        intro i
        rw [Simulation.phase, howner]
      rw [Simulation.stop, howner] at h
      dsimp only at h
      split at h
      · rename_i hrunning
        cases h
        constructor
        · refine hc.moves_on rfl rfl (fun i => ?_)
          rw [hphase, if_pos hrunning]
          show (if i.val < 0 then Phase.down else .up) = _
          rw [if_neg (Nat.not_lt_zero _)]
        · exact moves_quiet (fun i => by rw [howner]; rfl)
            (fun i => ⟨rfl, rfl, rfl⟩)
      · cases h
        exact ⟨hc, fun _ => ⟨rfl, rfl⟩⟩
  | _ =>
      rw [Simulation.stop, howner] at h
      cases h

/-- **EVERY STEP** keeps the control, and is seen by a shard as a message
    handed to it, the oldest one processed, or nothing. -/
theorem step_moves {hash : SymbolId → Nat} [NeZero count]
    {s s' : Simulation count} {action : Action count} {event : Event count}
    (hc : Controlled s) (h : s.step hash action = .ok (s', event)) :
    Controlled s' ∧ ∀ shard, Moves s s' event shard := by
  cases action with
  | submit message now => exact submit_moves hc h
  | start =>
      obtain ⟨s₁, hstart, heq⟩ := map_ok h
      cases heq
      exact start_moves hc hstart
  | stop =>
      obtain ⟨s₁, hstop, heq⟩ := map_ok h
      cases heq
      exact stop_moves hc hstop
  | owner => exact owner_moves hc h
  | worker shard => exact worker_moves hc h

/-! ## The account -/

section Log

variable (shard : Fin count) (log log' : List (Event count))

@[simp] theorem acceptedAt_append : acceptedAt shard (log ++ log')
    = acceptedAt shard log ++ acceptedAt shard log' :=
  List.filterMap_append ..

@[simp] theorem processedAt_append : processedAt shard (log ++ log')
    = processedAt shard log ++ processedAt shard log' :=
  List.filterMap_append ..

@[simp] theorem acceptedAt_accepted (shard' : Fin count)
    (message : OrderMessage) :
    acceptedAt shard [.accepted shard' message]
      = if shard' = shard then [message] else [] := by
  by_cases h : shard' = shard
  · simp [acceptedAt, h]
  · simp [acceptedAt, h]

@[simp] theorem processedAt_processed (shard' : Fin count)
    (message : OrderMessage) (published : Published) :
    processedAt shard [.processed shard' message published]
      = if shard' = shard then [(message, published)] else [] := by
  by_cases h : shard' = shard
  · simp [processedAt, h]
  · simp [processedAt, h]

@[simp] theorem acceptedAt_quiet : acceptedAt shard [.quiet] = [] := rfl

@[simp] theorem acceptedAt_processed (shard' : Fin count)
    (message : OrderMessage) (published : Published) :
    acceptedAt shard [.processed shard' message published] = [] := rfl

@[simp] theorem processedAt_quiet : processedAt shard [.quiet] = [] := rfl

@[simp] theorem processedAt_accepted (shard' : Fin count)
    (message : OrderMessage) :
    processedAt shard [.accepted shard' message] = [] := rfl

end Log

/-- What a shard was handed is processed or pending, in that order, and its
    books are those of processing. -/
structure Account (s : Simulation count) (log : List (Event count))
    (shard : Fin count) : Prop where
  handed : acceptedAt shard log
    = (processedAt shard log).map Prod.fst ++ s.pending shard
  applied : execute Shard.process .empty
      ((processedAt shard log).map Prod.fst)
    = .ok ((s.lanes shard).shard, (processedAt shard log).map Prod.snd)

theorem account_new (inboundCapacity : Nat) (shard : Fin count) :
    Account (.new count inboundCapacity) [] shard :=
  ⟨rfl, rfl⟩

/-- A step that leaves a shard's queue and books alone. -/
theorem Account.still {s s' : Simulation count} {log : List (Event count)}
    {event : Event count} {shard : Fin count} (h : Account s log shard)
    (hpending : s'.pending shard = s.pending shard)
    (hshard : (s'.lanes shard).shard = (s.lanes shard).shard)
    (haccepted : acceptedAt shard [event] = [])
    (hprocessed : processedAt shard [event] = []) :
    Account s' (log ++ [event]) shard := by
  refine ⟨?_, ?_⟩
  · simp only [acceptedAt_append, processedAt_append, haccepted, hprocessed,
      List.append_nil]
    rw [h.handed, hpending]
  · simp only [processedAt_append, hprocessed, List.append_nil]
    rw [h.applied, hshard]

/-- One step keeps the account. -/
theorem Account.moves {s s' : Simulation count} {log : List (Event count)}
    {event : Event count} {shard : Fin count} (h : Account s log shard)
    (hmoves : Moves s s' event shard) :
    Account s' (log ++ [event]) shard := by
  cases event with
  | quiet => exact h.still hmoves.1 hmoves.2 rfl rfl
  | accepted shard' message =>
      obtain ⟨hpending, hshard⟩ := hmoves
      refine ⟨?_, ?_⟩
      · simp only [acceptedAt_append, processedAt_append, acceptedAt_accepted,
          processedAt_accepted, List.append_nil]
        rw [h.handed, hpending, List.append_assoc]
      · simp only [processedAt_append, processedAt_accepted, List.append_nil]
        rw [h.applied, hshard]
  | processed shard' message published =>
      by_cases heq : shard' = shard
      · obtain ⟨hpending, hprocess⟩ := (if_pos heq).mp hmoves
        refine ⟨?_, ?_⟩
        · simp only [acceptedAt_append, processedAt_append,
            acceptedAt_processed, processedAt_processed, if_pos heq,
            List.append_nil, List.map_append, List.map_cons, List.map_nil]
          rw [h.handed, hpending, List.append_assoc]
          rfl
        · simp only [processedAt_append, processedAt_processed, if_pos heq,
            List.map_append, List.map_cons, List.map_nil]
          exact execute_snoc h.applied hprocess
      · obtain ⟨hpending, hshard⟩ := (if_neg heq).mp hmoves
        refine h.still hpending hshard rfl ?_
        rw [processedAt_processed, if_neg heq]

/-- **EVERY RUN KEEPS THE ACCOUNT OF EVERY SHARD.** -/
theorem run_account {hash : SymbolId → Nat} [NeZero count]
    {actions : List (Action count)} {s t : Simulation count}
    {before log : List (Event count)} (hc : Controlled s)
    (ha : ∀ shard, Account s before shard)
    (h : execute (Simulation.step hash) s actions = .ok (t, log)) :
    Controlled t ∧ ∀ shard, Account t (before ++ log) shard := by
  refine execute_account
    (I := fun s log => Controlled s ∧ ∀ shard, Account s (before ++ log) shard)
    ?_ ⟨hc, by rw [List.append_nil]; exact ha⟩ h
  rintro s log action s' event ⟨hc, ha⟩ hstep
  obtain ⟨hc', hmoves⟩ := step_moves hc hstep
  refine ⟨hc', fun shard => ?_⟩
  rw [← List.append_assoc]
  exact (ha shard).moves (hmoves shard)

/-! ## The ingress -/

/-- The owner neither stamps nor hands out. -/
theorem owner_hands_nothing {s s' : Simulation count} {event : Event count}
    (h : s.ownerStep = .ok (s', event)) :
    s'.nextSequence = s.nextSequence ∧ accepted [event] = [] := by
  cases ownerStep_turn h <;> exact ⟨rfl, rfl⟩

theorem worker_hands_nothing {s s' : Simulation count} {shard : Fin count}
    {event : Event count} (h : s.workerStep shard = .ok (s', event)) :
    s'.nextSequence = s.nextSequence ∧ accepted [event] = [] := by
  obtain ⟨⟨lane, done⟩, -, heq⟩ := bind_ok h
  cases heq
  refine ⟨rfl, ?_⟩
  cases done <;> rfl

/-- Only `submit` hands a message to a shard. -/
theorem step_hands_nothing {hash : SymbolId → Nat} [NeZero count]
    {s s' : Simulation count} {action : Action count} {event : Event count}
    (hsubmit : submissions [action] = [])
    (h : s.step hash action = .ok (s', event)) :
    s'.nextSequence = s.nextSequence ∧ accepted [event] = [] := by
  cases action with
  | submit message now => cases hsubmit
  | start =>
      obtain ⟨s₁, hstart, heq⟩ := map_ok h
      cases heq
      refine ⟨?_, rfl⟩
      rw [Simulation.start] at hstart
      split at hstart
      · split at hstart <;> cases hstart <;> rfl
      · cases hstart
  | stop =>
      obtain ⟨s₁, hstop, heq⟩ := map_ok h
      cases heq
      refine ⟨?_, rfl⟩
      rw [Simulation.stop] at hstop
      split at hstop
      · split at hstop <;> cases hstop <;> rfl
      · cases hstop
  | owner => exact owner_hands_nothing h
  | worker shard => exact worker_hands_nothing h

theorem accepted_append (log log' : List (Event count)) :
    accepted (log ++ log') = accepted log ++ accepted log' :=
  List.filterMap_append ..

theorem accepted_cons (event : Event count) (log : List (Event count)) :
    accepted (event :: log) = accepted [event] ++ accepted log :=
  accepted_append [event] log

theorem acceptedAt_cons (shard : Fin count) (event : Event count)
    (log : List (Event count)) : acceptedAt shard (event :: log)
      = acceptedAt shard [event] ++ acceptedAt shard log :=
  acceptedAt_append shard [event] log

theorem submissions_append (actions actions' : List (Action count)) :
    submissions (actions ++ actions')
      = submissions actions ++ submissions actions' :=
  List.filterMap_append ..

theorem submissions_cons (action : Action count)
    (actions : List (Action count)) : submissions (action :: actions)
      = submissions [action] ++ submissions actions :=
  submissions_append [action] actions

theorem acceptedAt_nothing {event : Event count} (shard : Fin count)
    (h : accepted [event] = []) : acceptedAt shard [event] = [] := by
  cases event with
  | quiet => rfl
  | processed shard' message published => rfl
  | accepted shard' message => cases h

/-- **WHAT WAS HANDED OUT** over a run: the messages submitted, stamped one
    after another, each to the shard of its symbol. -/
theorem run_accepted {hash : SymbolId → Nat} [NeZero count]
    {actions : List (Action count)} :
    ∀ {s t : Simulation count} {log : List (Event count)},
      execute (Simulation.step hash) s actions = .ok (t, log) →
      (accepted log).map untimed
        = stampedFrom s.nextSequence (submissions actions) ∧
      ∀ shard, acceptedAt shard log = (accepted log).filter (fun message =>
        shardForSymbol hash count message.symbol = shard) := by
  induction actions with
  | nil =>
      intro s t log h
      cases h
      exact ⟨rfl, fun _ => rfl⟩
  | cons action actions ih =>
      intro s t log h
      obtain ⟨s₁, event, log', hstep, hrest, rfl⟩ := execute_cons_ok h
      obtain ⟨hstamped, hrouted⟩ := ih hrest
      by_cases hsubmit : submissions [action] = []
      · obtain ⟨hnext, hnothing⟩ := step_hands_nothing hsubmit hstep
        constructor
        · rw [accepted_cons, hnothing, submissions_cons, hsubmit,
            List.nil_append, List.nil_append, hstamped, hnext]
        · intro shard
          rw [acceptedAt_cons, acceptedAt_nothing shard hnothing, accepted_cons,
            hnothing, List.nil_append, List.nil_append]
          exact hrouted shard
      · cases action with
        | submit message now =>
            obtain ⟨stamped, inbound, hstamp, -, rfl, rfl⟩ := submit_ok hstep
            constructor
            · show untimed stamped :: (accepted log').map untimed = _
              rw [hstamped, hstamp]
              rfl
            · intro shard
              have hsymbol : stamped.symbol = message.symbol := by rw [hstamp]
              rw [acceptedAt_cons, acceptedAt_accepted, accepted_cons,
                List.filter_append, hrouted shard]
              congr 1
              show _ = List.filter _ [stamped]
              rw [List.filter_cons, hsymbol]
              simp only [decide_eq_true_eq, List.filter_nil]
        | start => exact absurd rfl hsubmit
        | stop => exact absurd rfl hsubmit
        | owner => exact absurd rfl hsubmit
        | worker shard => exact absurd rfl hsubmit

/-- The sequences stamped count up, around the end of the type. -/
theorem stampedFrom_sequences {messages : List OrderMessage} :
    ∀ {sequence : Nat}, sequence < 2 ^ 64 →
      (stampedFrom sequence messages).map OrderMessage.ingressSequence
        = (List.range messages.length).map
          (fun i => (sequence + i) % 2 ^ 64) := by
  induction messages with
  | nil => exact fun _ => rfl
  | cons message messages ih =>
      intro sequence hlt
      have hnext : OsxRingBuffer.addSequence sequence 1 < 2 ^ 64 :=
        Nat.mod_lt _ (by omega)
      rw [stampedFrom, List.map_cons, ih hnext, List.length_cons,
        List.range_succ_eq_map, List.map_cons, List.map_map, Nat.add_zero,
        Nat.mod_eq_of_lt hlt]
      congr 1
      refine List.map_congr_left (fun i _ => ?_)
      show ((sequence + 1) % 2 ^ 64 + i) % 2 ^ 64 = (sequence + (i + 1)) % 2 ^ 64
      omega

/-- **THE SEQUENCES OF A RUN** from the start, in the order the messages were
    stamped. -/
theorem run_sequences {hash : SymbolId → Nat} [NeZero count]
    {inboundCapacity : Nat} {actions : List (Action count)}
    {t : Simulation count} {log : List (Event count)}
    (h : execute (Simulation.step hash) (.new count inboundCapacity) actions
      = .ok (t, log)) :
    (accepted log).map OrderMessage.ingressSequence
      = (List.range (submissions actions).length).map (· % 2 ^ 64) := by
  have hstamped := congrArg (List.map OrderMessage.ingressSequence)
    (run_accepted h).1
  rw [List.map_map] at hstamped
  refine hstamped.trans ((stampedFrom_sequences (Nat.two_pow_pos 64)).trans ?_)
  simp only [Nat.zero_add]

theorem topsPushed_append (log log' : List (Event count)) :
    topsPushed (log ++ log') = topsPushed log ++ topsPushed log' := by
  rw [topsPushed, processed, List.filterMap_append, List.filterMap_append]
  rfl

/-! ## Messages that change nothing -/

/-- A message the shard processes without a trace, whatever its stamp. -/
def Idles (shard : Shard) (message : OrderMessage) : Prop :=
  ∀ now sequence, shard.process { message with
      ingressTimestamp := now, ingressSequence := sequence }
    = .ok (shard, { trades := [], top := none })

/-- A lane in its loop, with nothing to read. -/
def Lane.waiting (shard : Shard) (capacity : Nat) : Lane where
  shard := shard
  inbound := ⟨[], capacity, Nat.zero_le _⟩
  running := true
  worker := .loading

/-- A message is submitted, read and processed at once. -/
def lap (shard : Fin count) (message : OrderMessage) : List (Action count) :=
  [.submit message 0, .worker shard, .worker shard, .worker shard]

theorem workerStep_setLane {s : Simulation count} {shard : Fin count}
    {lane lane' : Lane} {done : Option (OrderMessage × Published)}
    (h : lane.work = .ok (lane', done)) :
    (s.setLane shard lane).workerStep shard = .ok (s.setLane shard lane',
      done.elim .quiet (fun d => .processed shard d.1 d.2)) := by
  rw [Simulation.workerStep, setLane_self, h]
  show Except.ok (Simulation.setLane _ shard lane', _) = _
  rw [Simulation.setLane, Simulation.setLane, Function.update_idem]
  cases done <;> rfl

/-- A lap of a message that changes nothing leaves the next sequence and
    nothing else. -/
theorem idle_lap {hash : SymbolId → Nat} [NeZero count] {s : Simulation count}
    {i : Fin count} {shard : Shard} {capacity : Nat} {message : OrderMessage}
    (hi : shardForSymbol hash count message.symbol = i)
    (hidles : Idles shard message) (hroom : 0 < capacity)
    (hlane : s.lanes i = .waiting shard capacity) :
    ∃ log, execute (Simulation.step hash) s (lap i message)
      = .ok ({ s with
          nextSequence := OsxRingBuffer.addSequence s.nextSequence 1 }, log) ∧
      topsPushed log = [] := by
  have hsubmit : s.submit hash message 0 = .ok (Simulation.setLane { s with
        nextSequence := OsxRingBuffer.addSequence s.nextSequence 1 } i
        { Lane.waiting shard capacity with
          inbound := ⟨[{ message with
            ingressTimestamp := 0, ingressSequence := s.nextSequence }],
            capacity, hroom⟩ },
      .accepted i { message with
        ingressTimestamp := 0, ingressSequence := s.nextSequence }) := by
    rw [Simulation.submit]
    simp only [hi, hlane, Lane.waiting, Inbound.pushBlocking, List.length_nil,
      dif_pos hroom, List.nil_append]
    rfl
  have hprocess : Lane.work { Lane.waiting shard capacity with
        worker := .holding { message with
          ingressTimestamp := 0, ingressSequence := s.nextSequence } }
      = .ok (.waiting shard capacity, some ({ message with
          ingressTimestamp := 0, ingressSequence := s.nextSequence },
          { trades := [], top := none })) := by
    have hdone : ∀ worker, Lane.process { Lane.waiting shard capacity with
          worker := worker } { message with
            ingressTimestamp := 0, ingressSequence := s.nextSequence }
        = .ok ({ Lane.waiting shard capacity with worker := worker },
          { trades := [], top := none }) := by
      intro worker
      rw [Lane.process]
      simp only [Lane.waiting, hidles 0 s.nextSequence]
    rw [Lane.work]
    dsimp only
    rw [hdone]
    rfl
  have hback : ∀ s' : Simulation count, s'.lanes = s.lanes →
      s'.setLane i (.waiting shard capacity) = s' := by
    intro s' hlanes
    rw [Simulation.setLane, hlanes, ← hlane, Function.update_eq_self, ← hlanes]
  have hend : execute (Simulation.step hash) (Simulation.setLane { s with
        nextSequence := OsxRingBuffer.addSequence s.nextSequence 1 } i
        (.waiting shard capacity)) []
      = .ok ({ s with
          nextSequence := OsxRingBuffer.addSequence s.nextSequence 1 }, []) := by
    rw [hback { s with
      nextSequence := OsxRingBuffer.addSequence s.nextSequence 1 } rfl]
    rfl
  exact ⟨_, execute_cons_of hsubmit (execute_cons_of (workerStep_setLane rfl)
    (execute_cons_of (workerStep_setLane rfl)
      (execute_cons_of (workerStep_setLane hprocess) hend))), rfl⟩

/-- Any number of them. -/
theorem idle_laps (hash : SymbolId → Nat) [NeZero count] {i : Fin count}
    {shard : Shard} {capacity : Nat} {message : OrderMessage}
    (hi : shardForSymbol hash count message.symbol = i)
    (hidles : Idles shard message) (hroom : 0 < capacity) (laps : Nat) :
    ∀ s : Simulation count, s.nextSequence < 2 ^ 64 →
      s.lanes i = .waiting shard capacity →
      ∃ log, execute (Simulation.step hash) s
          (List.replicate laps (lap i message)).flatten
        = .ok ({ s with
            nextSequence := (s.nextSequence + laps) % 2 ^ 64 }, log) ∧
        topsPushed log = [] := by
  induction laps with
  | zero =>
      intro s hlt _
      refine ⟨[], ?_, rfl⟩
      rw [Nat.add_zero, Nat.mod_eq_of_lt hlt]
      rfl
  | succ laps ih =>
      intro s hlt hlane
      obtain ⟨log, hrun, hquiet⟩ := idle_lap hi hidles hroom hlane
      obtain ⟨log', hrun', hquiet'⟩ := ih { s with
        nextSequence := OsxRingBuffer.addSequence s.nextSequence 1 }
        (Nat.mod_lt _ (Nat.two_pow_pos 64)) hlane
      have hnext : (OsxRingBuffer.addSequence s.nextSequence 1 + laps) % 2 ^ 64
          = (s.nextSequence + (laps + 1)) % 2 ^ 64 := by
        rw [OsxRingBuffer.addSequence]
        omega
      simp only [hnext] at hrun'
      refine ⟨log ++ log', ?_, ?_⟩
      · exact execute_append.mpr ⟨_, _, _, hrun, hrun', rfl⟩
      · rw [topsPushed_append, hquiet, hquiet']
        rfl

end OsxSimulation
