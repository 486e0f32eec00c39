import OsborneX.MpscRunModel

/-! # A bounded FIFO that loses nothing it accepted

    Whatever the order of the critical sections, what was accepted is what was
    taken out, then what the queue holds (`Kept`).  `close` is the only step
    after which a push is dropped, and no push is accepted after it. -/

namespace OsxMpscRun

open OsxThread Execution

variable {T : Type}

/-! ## The steps -/

/-- What a step can be, read off the event. -/
inductive Turn (s : Threads T) : Event T → Threads T → Prop
  | slept : Turn s .slept s
  | pushBegan (id : Nat) (value : T) (idle : s.pushers id = .idle) :
      Turn s (.pushBegan id value) { s with
        pushers := Function.update s.pushers id (.waiting value) }
  | accepted (id : Nat) (value : T) (queue : MpscQueue T)
      (waiting : s.pushers id = .waiting value)
      (isOpen : s.queue.closed = false)
      (items : queue.items = s.queue.items ++ [value])
      (capacity : queue.capacity = s.queue.capacity)
      (stays : queue.closed = false) :
      Turn s (.accepted id value) { s with
        queue := queue
        pushers := Function.update s.pushers id (.returning value) }
  | dropped (id : Nat) (value : T) (waiting : s.pushers id = .waiting value)
      (isClosed : s.queue.closed = true) :
      Turn s (.dropped id value) { s with
        pushers := Function.update s.pushers id (.returning value) }
  | pushReturned (id : Nat) (value : T)
      (returning : s.pushers id = .returning value) :
      Turn s (.pushReturned id value) { s with
        pushers := Function.update s.pushers id .idle }
  | popBegan (idle : s.popper = .idle) :
      Turn s .popBegan { s with popper := .waiting }
  | popped (value : T) (queue : MpscQueue T) (waiting : s.popper = .waiting)
      (items : s.queue.items = value :: queue.items)
      (capacity : queue.capacity = s.queue.capacity)
      (same : queue.closed = s.queue.closed) :
      Turn s (.popped value) { s with
        queue := queue, popper := .returning (some value) }
  | drained (waiting : s.popper = .waiting) (items : s.queue.items = [])
      (isClosed : s.queue.closed = true) :
      Turn s .drained { s with popper := .returning none }
  | popReturned (result : Option T) (returning : s.popper = .returning result) :
      Turn s (.popReturned result) { s with popper := .idle }
  | closeBegan (id : Nat) (idle : s.closers id = .idle) :
      Turn s (.closeBegan id) { s with
        closers := Function.update s.closers id .waiting }
  | closed (id : Nat) (waiting : s.closers id = .waiting) :
      Turn s (.closed id) { s with
        queue := s.queue.close
        closers := Function.update s.closers id .returning }
  | closeReturned (id : Nat) (returning : s.closers id = .returning) :
      Turn s (.closeReturned id) { s with
        closers := Function.update s.closers id .idle }

theorem pusherStep_turn {s s' : Threads T} {id : Nat} {event : Event T}
    (h : s.pusherStep id = .ok (s', event)) : Turn s event s' := by
  rw [Threads.pusherStep] at h
  cases hpusher : s.pushers id with
  | idle =>
      rw [hpusher] at h
      cases h
  | waiting value =>
      rw [hpusher] at h
      dsimp only at h
      cases hpush : s.queue.push value with
      | none =>
          rw [hpush] at h
          cases h
          exact .slept
      | some queue =>
          rw [hpush] at h
          cases hclosed : s.queue.closed with
          | true =>
              rw [MpscQueue.push_closed value hclosed] at hpush
              cases hpush
              rw [hclosed] at h
              cases h
              exact .dropped id value hpusher hclosed
          | false =>
              obtain ⟨-, hitems, hcapacity, hstays⟩ :=
                MpscQueue.push_open hclosed hpush
              rw [hclosed] at h
              cases h
              exact .accepted id value queue hpusher hclosed hitems hcapacity
                hstays
  | returning value =>
      rw [hpusher] at h
      cases h
      exact .pushReturned id value hpusher

theorem popperStep_turn {s s' : Threads T} {event : Event T}
    (h : s.popperStep = .ok (s', event)) : Turn s event s' := by
  rw [Threads.popperStep] at h
  cases hpopper : s.popper with
  | idle =>
      rw [hpopper] at h
      cases h
  | waiting =>
      rw [hpopper] at h
      dsimp only at h
      cases hpop : s.queue.popBlocking with
      | none =>
          rw [hpop] at h
          cases h
          exact .slept
      | some r =>
          obtain ⟨result, queue⟩ := r
          rw [hpop] at h
          cases result with
          | none =>
              obtain ⟨hitems, hclosed, rfl⟩ := MpscQueue.popBlocking_none hpop
              cases h
              exact .drained hpopper hitems hclosed
          | some value =>
              obtain ⟨hitems, hcapacity, hsame⟩ :=
                MpscQueue.popBlocking_some hpop
              cases h
              exact .popped value queue hpopper hitems hcapacity hsame
  | returning result =>
      rw [hpopper] at h
      cases h
      exact .popReturned result hpopper

theorem step_turn {s s' : Threads T} {action : Action T} {event : Event T}
    (h : s.step action = .ok (s', event)) : Turn s event s' := by
  cases action with
  | push id value =>
      rw [Threads.step] at h
      split at h
      · rename_i hidle
        cases h
        exact .pushBegan id value hidle
      · cases h
  | pusher id => exact pusherStep_turn h
  | pop =>
      rw [Threads.step] at h
      split at h
      · rename_i hidle
        cases h
        exact .popBegan hidle
      · cases h
  | popper => exact popperStep_turn h
  | close id =>
      rw [Threads.step] at h
      split at h
      · rename_i hidle
        cases h
        exact .closeBegan id hidle
      · cases h
  | closer id =>
      rw [Threads.step, Threads.closerStep] at h
      split at h
      · cases h
      · rename_i hwaiting
        cases h
        exact .closed id hwaiting
      · rename_i hreturning
        cases h
        exact .closeReturned id hreturning

/-! ## The invariant -/

/-- The value a push is still to be settled for. -/
def Pusher.pending : Pusher T → List T
  | .waiting value => [value]
  | _ => []

/-- The value of a push that is settled and has not returned. -/
def Pusher.settled : Pusher T → List T
  | .returning value => [value]
  | _ => []

/-- What the consumer took out and has not returned. -/
def Popper.held : Popper T → List T
  | .returning (some value) => [value]
  | _ => []

/-- **THE ACCOUNT**, as every step keeps it. -/
structure Kept (s : Threads T) (log : List (Event T)) : Prop where
  fifo : acceptedValues log = poppedValues log ++ s.queue.items
  delivered : poppedValues log = returnedValues log ++ s.popper.held
  begun : ∀ id, pushesBegun id log
    = acceptedOf id log ++ droppedOf id log ++ (s.pushers id).pending
  finished : ∀ id, acceptedOf id log ++ droppedOf id log
    = pushesReturned id log ++ (s.pushers id).settled
  dropsNothing : s.queue.closed = false → ∀ id, droppedOf id log = []
  emptied : s.popper = .returning none →
    s.queue.closed = true ∧ s.queue.items = []
  closedOnce : s.queue.closed = true → ∃ id, .closed id ∈ log
  calledFirst : ∀ id, .closed id ∈ log ∨ s.closers id = .waiting →
    ∃ id, .closeBegan id ∈ log

theorem kept_new (capacity : Nat) : Kept (.new capacity : Threads T) [] where
  fifo := rfl
  delivered := rfl
  begun := fun _ => rfl
  finished := fun _ => rfl
  dropsNothing := fun _ _ => rfl
  emptied := fun h => by cases h
  closedOnce := fun h => by cases h
  calledFirst := fun _ h => by
    rcases h with h | h
    · cases h
    · cases h

section Turn

variable {s s' : Threads T} {log : List (Event T)} {event : Event T}

/-- What is accepted goes to the back, what is popped comes off the front. -/
theorem Kept.fifo_turn (h : Kept s log) (hturn : Turn s event s') :
    acceptedValues (log ++ [event])
      = poppedValues (log ++ [event]) ++ s'.queue.items := by
  have hfifo := h.fifo
  rw [acceptedValues, poppedValues] at *
  rw [List.filterMap_append, List.filterMap_append, hfifo]
  cases hturn with
  | accepted id value queue waiting isOpen items =>
      simp [items]
  | popped value queue waiting items =>
      simp [items]
  | _ => simp

/-- The consumer returns what it took out, one value at a time. -/
theorem Kept.delivered_turn (h : Kept s log) (hturn : Turn s event s') :
    poppedValues (log ++ [event])
      = returnedValues (log ++ [event]) ++ s'.popper.held := by
  have hdelivered := h.delivered
  rw [poppedValues, returnedValues] at *
  rw [List.filterMap_append, List.filterMap_append, hdelivered]
  cases hturn with
  | popBegan idle => simp [Popper.held, idle]
  | popped value queue waiting => simp [Popper.held, waiting]
  | drained waiting => simp [Popper.held, waiting]
  | popReturned result returning =>
      cases result with
      | none => simp [Popper.held, returning]
      | some value => simp [Popper.held, returning]
  | _ => simp

/-- A closed queue drops what an open one would have taken. -/
theorem Kept.drops_turn (h : Kept s log) (hturn : Turn s event s')
    (hopen : s'.queue.closed = false) (id : Nat) :
    droppedOf id (log ++ [event]) = [] := by
  have hnone : s.queue.closed = false → droppedOf id log = [] :=
    fun hclosed => h.dropsNothing hclosed id
  rw [droppedOf] at *
  rw [List.filterMap_append]
  cases hturn with
  | accepted id' value queue waiting isOpen => simp [hnone isOpen]
  | dropped id' value waiting isClosed =>
      rw [isClosed] at hopen
      cases hopen
  | popped value queue waiting items capacity same =>
      simp [hnone (same.symm.trans hopen)]
  | closed id' waiting => cases hopen
  | _ => simp [hnone hopen]

/-- What a turn does to one pusher: one of the four steps of a push, or
    nothing that its account mentions. -/
inductive PusherTurn (s s' : Threads T) (id : Nat) : Event T → Prop
  | began (value : T) (before : s.pushers id = .idle)
      (after : s'.pushers id = .waiting value) :
      PusherTurn s s' id (.pushBegan id value)
  | accepted (value : T) (isOpen : s.queue.closed = false)
      (before : s.pushers id = .waiting value)
      (after : s'.pushers id = .returning value) :
      PusherTurn s s' id (.accepted id value)
  | dropped (value : T) (before : s.pushers id = .waiting value)
      (after : s'.pushers id = .returning value) :
      PusherTurn s s' id (.dropped id value)
  | returned (value : T) (before : s.pushers id = .returning value)
      (after : s'.pushers id = .idle) :
      PusherTurn s s' id (.pushReturned id value)
  | other {event : Event T} (same : s'.pushers id = s.pushers id)
      (begun : pushesBegun id [event] = [])
      (accepted : acceptedOf id [event] = [])
      (dropped : droppedOf id [event] = [])
      (returned : pushesReturned id [event] = []) :
      PusherTurn s s' id event

theorem Turn.pusher (hturn : Turn s event s') (id : Nat) :
    PusherTurn s s' id event := by
  cases hturn with
  | pushBegan id' value idle =>
      by_cases hid : id' = id
      · subst hid
        exact .began value idle (Function.update_self ..)
      · exact .other (Function.update_of_ne (Ne.symm hid) ..)
          (by simp [pushesBegun, hid]) rfl rfl rfl
  | accepted id' value queue waiting isOpen =>
      by_cases hid : id' = id
      · subst hid
        exact .accepted value isOpen waiting (Function.update_self ..)
      · exact .other (Function.update_of_ne (Ne.symm hid) ..) rfl
          (by simp [acceptedOf, hid]) rfl rfl
  | dropped id' value waiting =>
      by_cases hid : id' = id
      · subst hid
        exact .dropped value waiting (Function.update_self ..)
      · exact .other (Function.update_of_ne (Ne.symm hid) ..) rfl rfl
          (by simp [droppedOf, hid]) rfl
  | pushReturned id' value returning =>
      by_cases hid : id' = id
      · subst hid
        exact .returned value returning (Function.update_self ..)
      · exact .other (Function.update_of_ne (Ne.symm hid) ..) rfl rfl rfl
          (by simp [pushesReturned, hid])
  | _ => exact .other rfl rfl rfl rfl rfl

/-! Each account of a log and one event more. -/

theorem pushesBegun_snoc (id : Nat) (log : List (Event T)) (event : Event T) :
    pushesBegun id (log ++ [event])
      = pushesBegun id log ++ pushesBegun id [event] :=
  List.filterMap_append

theorem acceptedOf_snoc (id : Nat) (log : List (Event T)) (event : Event T) :
    acceptedOf id (log ++ [event])
      = acceptedOf id log ++ acceptedOf id [event] :=
  List.filterMap_append

theorem droppedOf_snoc (id : Nat) (log : List (Event T)) (event : Event T) :
    droppedOf id (log ++ [event])
      = droppedOf id log ++ droppedOf id [event] :=
  List.filterMap_append

theorem pushesReturned_snoc (id : Nat) (log : List (Event T))
    (event : Event T) :
    pushesReturned id (log ++ [event])
      = pushesReturned id log ++ pushesReturned id [event] :=
  List.filterMap_append

theorem pushesBegun_own (id : Nat) (value : T) :
    pushesBegun id [.pushBegan id value] = [value] := by
  simp [pushesBegun]

theorem acceptedOf_own (id : Nat) (value : T) :
    acceptedOf id [.accepted id value] = [value] := by
  simp [acceptedOf]

theorem droppedOf_own (id : Nat) (value : T) :
    droppedOf id [.dropped id value] = [value] := by
  simp [droppedOf]

theorem pushesReturned_own (id : Nat) (value : T) :
    pushesReturned id [.pushReturned id value] = [value] := by
  simp [pushesReturned]

/-- A call of `push` is settled once, accepted while the queue is open and
    dropped when it is closed. -/
theorem Kept.begun_turn (h : Kept s log) (hturn : Turn s event s') (id : Nat) :
    pushesBegun id (log ++ [event])
      = acceptedOf id (log ++ [event]) ++ droppedOf id (log ++ [event]) ++
        (s'.pushers id).pending := by
  rw [pushesBegun_snoc, acceptedOf_snoc, droppedOf_snoc, h.begun id]
  cases hturn.pusher id with
  | began value before after =>
      rw [before, after, pushesBegun_own]
      show acceptedOf id log ++ droppedOf id log ++ [] ++ [value]
        = acceptedOf id log ++ [] ++ (droppedOf id log ++ []) ++ [value]
      simp only [List.append_nil]
  | accepted value isOpen before after =>
      rw [before, after, h.dropsNothing isOpen, acceptedOf_own]
      show acceptedOf id log ++ [] ++ [value] ++ []
        = acceptedOf id log ++ [value] ++ [] ++ []
      simp only [List.append_nil]
  | dropped value before after =>
      rw [before, after, droppedOf_own]
      show acceptedOf id log ++ droppedOf id log ++ [value] ++ []
        = acceptedOf id log ++ [] ++ (droppedOf id log ++ [value]) ++ []
      simp only [List.append_nil, List.append_assoc]
  | returned value before after =>
      rw [before, after]
      show acceptedOf id log ++ droppedOf id log ++ [] ++ []
        = acceptedOf id log ++ [] ++ (droppedOf id log ++ []) ++ []
      simp only [List.append_nil]
  | other same begun accepted dropped returned =>
      rw [same, begun, accepted, dropped]
      simp only [List.append_nil]

/-- A call of `push` returns once, after it is settled. -/
theorem Kept.finished_turn (h : Kept s log) (hturn : Turn s event s')
    (id : Nat) : acceptedOf id (log ++ [event]) ++ droppedOf id (log ++ [event])
      = pushesReturned id (log ++ [event]) ++ (s'.pushers id).settled := by
  have hfinished := h.finished id
  rw [acceptedOf_snoc, droppedOf_snoc, pushesReturned_snoc]
  cases hturn.pusher id with
  | began value before after =>
      rw [before] at hfinished
      rw [after]
      show acceptedOf id log ++ [] ++ (droppedOf id log ++ [])
        = pushesReturned id log ++ [] ++ []
      simp only [List.append_nil]
      exact hfinished.trans (List.append_nil _)
  | accepted value isOpen before after =>
      rw [before, h.dropsNothing isOpen] at hfinished
      have hsettled : acceptedOf id log = pushesReturned id log := by
        rw [← List.append_nil (acceptedOf id log), hfinished]
        exact List.append_nil _
      rw [after, h.dropsNothing isOpen, acceptedOf_own, hsettled]
      show pushesReturned id log ++ [value] ++ []
        = pushesReturned id log ++ [] ++ [value]
      simp only [List.append_nil]
  | dropped value before after =>
      rw [before] at hfinished
      rw [after, droppedOf_own]
      show acceptedOf id log ++ [] ++ (droppedOf id log ++ [value])
        = pushesReturned id log ++ [] ++ [value]
      rw [List.append_nil, ← List.append_assoc, hfinished]
      rfl
  | returned value before after =>
      rw [before] at hfinished
      rw [after, pushesReturned_own]
      show acceptedOf id log ++ [] ++ (droppedOf id log ++ [])
        = pushesReturned id log ++ [value] ++ []
      simp only [List.append_nil]
      exact hfinished
  | other same begun accepted dropped returned =>
      rw [same, accepted, dropped, returned]
      simp only [List.append_nil]
      exact hfinished

/-- A drained queue stays drained: nothing is accepted any more. -/
theorem Kept.emptied_turn (h : Kept s log) (hturn : Turn s event s')
    (hnone : s'.popper = .returning none) :
    s'.queue.closed = true ∧ s'.queue.items = [] := by
  cases hturn with
  | accepted id value queue waiting isOpen =>
      rw [(h.emptied hnone).1] at isOpen
      cases isOpen
  | popBegan idle => cases hnone
  | popped value queue waiting => cases hnone
  | drained waiting items isClosed => exact ⟨isClosed, items⟩
  | popReturned result returning => cases hnone
  | closed id waiting => exact ⟨rfl, (h.emptied hnone).2⟩
  | _ => exact h.emptied hnone

theorem Kept.closed_turn (h : Kept s log) (hturn : Turn s event s')
    (hclosed : s'.queue.closed = true) : ∃ id, .closed id ∈ log ++ [event] := by
  have hold : s.queue.closed = true → ∃ id, .closed id ∈ log ++ [event] := by
    intro hbefore
    obtain ⟨id, hmem⟩ := h.closedOnce hbefore
    exact ⟨id, List.mem_append_left _ hmem⟩
  cases hturn with
  | accepted id value queue waiting isOpen items capacity stays =>
      rw [stays] at hclosed
      cases hclosed
  | popped value queue waiting items capacity same =>
      exact hold (same.symm.trans hclosed)
  | closed id waiting =>
      exact ⟨id, List.mem_append_right _ (List.mem_singleton_self _)⟩
  | _ => exact hold hclosed

theorem Kept.called_turn (h : Kept s log) (hturn : Turn s event s') (id : Nat)
    (hcalled : .closed id ∈ log ++ [event] ∨ s'.closers id = .waiting) :
    ∃ id, .closeBegan id ∈ log ++ [event] := by
  have hold : .closed id ∈ log ∨ s.closers id = .waiting →
      ∃ id, .closeBegan id ∈ log ++ [event] := by
    intro hbefore
    obtain ⟨id, hmem⟩ := h.calledFirst id hbefore
    exact ⟨id, List.mem_append_left _ hmem⟩
  rw [List.mem_append, List.mem_singleton] at hcalled
  cases hturn with
  | closeBegan id' idle =>
      exact ⟨id', List.mem_append_right _ (List.mem_singleton_self _)⟩
  | closed id' waiting =>
      obtain ⟨id, hmem⟩ := h.calledFirst id' (Or.inr waiting)
      exact ⟨id, List.mem_append_left _ hmem⟩
  | closeReturned id' returning =>
      rcases hcalled with (hmem | hmem) | hwaiting
      · exact hold (Or.inl hmem)
      · cases hmem
      · by_cases hid : id = id'
        · subst hid
          simp only [Function.update_self] at hwaiting
          cases hwaiting
        · simp only [Function.update_of_ne hid] at hwaiting
          exact hold (Or.inr hwaiting)
  | _ =>
      rcases hcalled with (hmem | hmem) | hwaiting
      · exact hold (Or.inl hmem)
      · cases hmem
      · exact hold (Or.inr hwaiting)

/-- **EVERY STEP KEEPS THE ACCOUNT.** -/
theorem Kept.turn (h : Kept s log) (hturn : Turn s event s') :
    Kept s' (log ++ [event]) where
  fifo := h.fifo_turn hturn
  delivered := h.delivered_turn hturn
  begun := h.begun_turn hturn
  finished := h.finished_turn hturn
  dropsNothing := h.drops_turn hturn
  emptied := h.emptied_turn hturn
  closedOnce := h.closed_turn hturn
  calledFirst := h.called_turn hturn

end Turn

/-! ## Runs -/

/-- A run of a queue from the start keeps the account. -/
theorem run_kept {capacity : Nat} {actions : List (Action T)} {t : Threads T}
    {log : List (Event T)}
    (h : execute Threads.step (.new capacity) actions = .ok (t, log)) :
    Kept t log :=
  execute_account (fun _ _ _ _ _ hkept hstep => hkept.turn (step_turn hstep))
    (kept_new capacity) h

/-- No step changes `capacity()`. -/
theorem run_capacity {actions : List (Action T)} :
    ∀ {s t : Threads T} {log : List (Event T)},
      execute Threads.step s actions = .ok (t, log) →
      t.queue.capacity = s.queue.capacity := by
  induction actions with
  | nil =>
      intro s t log h
      cases h
      rfl
  | cons action actions ih =>
      intro s t log h
      obtain ⟨s₁, event, log', hstep, hrest, rfl⟩ := execute_cons_ok h
      refine (ih hrest).trans ?_
      cases step_turn hstep with
      | accepted id value queue waiting isOpen items capacity => exact capacity
      | popped value queue waiting items capacity => exact capacity
      | _ => rfl

/-- A closed queue stays closed and accepts nothing. -/
theorem run_closed {actions : List (Action T)} :
    ∀ {s t : Threads T} {log : List (Event T)}, s.queue.closed = true →
      execute Threads.step s actions = .ok (t, log) →
      acceptedValues log = [] := by
  induction actions with
  | nil =>
      intro s t log _ h
      cases h
      rfl
  | cons action actions ih =>
      intro s t log hclosed h
      obtain ⟨s₁, event, log', hstep, hrest, rfl⟩ := execute_cons_ok h
      have hlater : s₁.queue.closed = true → acceptedValues log' = [] :=
        fun hstill => ih hstill hrest
      rw [acceptedValues] at hlater ⊢
      cases step_turn hstep with
      | accepted id value queue waiting isOpen =>
          rw [hclosed] at isOpen
          cases isOpen
      | popped value queue waiting items capacity same =>
          exact hlater (same.trans hclosed)
      | closed id waiting => exact hlater rfl
      | _ => exact hlater hclosed

/-- **A BOUNDED FIFO THAT LOSES NOTHING IT ACCEPTED**, whatever threads call it
    and however their critical sections interleave. -/
theorem bounded_fifo (capacity : Nat) {actions : List (Action T)}
    {t : Threads T} {log : List (Event T)}
    (h : execute Threads.step (.new capacity) actions = .ok (t, log)) :
    (t.queue.items.length ≤ t.queue.capacity ∧
      t.queue.capacity = if capacity = 0 then 1 else capacity) ∧
    acceptedValues log
      = returnedValues log ++ t.popper.held ++ t.queue.items ∧
    (∀ id, acceptedOf id log <+: pushesBegun id log) ∧
    (∀ before id after, log = before ++ .closeBegan id :: after →
      (∀ id, .closeBegan id ∉ before) →
      ∀ id, pushesReturned id before <+: acceptedOf id before) ∧
    (∀ before id after, log = before ++ .closed id :: after →
      acceptedValues after = []) ∧
    ∀ before after, log = before ++ .popReturned none :: after →
      (∃ id, .closed id ∈ before) ∧
        returnedValues before = acceptedValues before := by
  have hkept := run_kept h
  refine ⟨⟨t.queue.bounded, run_capacity h⟩, ?_, ?_, ?_, ?_, ?_⟩
  · rw [hkept.fifo, hkept.delivered]
  · intro id
    rw [hkept.begun id, List.append_assoc]
    exact List.prefix_append ..
  · rintro before id after rfl hfirst id'
    obtain ⟨actions₁, action, actions₂, s₁, s₂, -, hbefore, -, -⟩ :=
      execute_cut h
    have hkept₁ := run_kept hbefore
    -- no call of `close` has begun, so none has closed the queue
    have hopen : s₁.queue.closed = false := by
      refine eq_false_of_ne_true (fun hclosed => ?_)
      obtain ⟨id₁, hmem⟩ := hkept₁.closedOnce hclosed
      obtain ⟨id₂, hbegan⟩ := hkept₁.calledFirst id₁ (Or.inl hmem)
      exact hfirst id₂ hbegan
    have hfinished := hkept₁.finished id'
    rw [hkept₁.dropsNothing hopen, List.append_nil] at hfinished
    rw [hfinished]
    exact List.prefix_append ..
  · rintro before id after rfl
    obtain ⟨actions₁, action, actions₂, s₁, s₂, -, -, hstep, hafter⟩ :=
      execute_cut h
    cases step_turn hstep with
    | closed id waiting => exact run_closed rfl hafter
  · rintro before after rfl
    obtain ⟨actions₁, action, actions₂, s₁, s₂, -, hbefore, hstep, -⟩ :=
      execute_cut h
    have hkept₁ := run_kept hbefore
    cases step_turn hstep with
    | popReturned result returning =>
        obtain ⟨hclosed, hempty⟩ := hkept₁.emptied returning
        refine ⟨hkept₁.closedOnce hclosed, ?_⟩
        rw [hkept₁.fifo, hempty, hkept₁.delivered, returning]
        simp only [Popper.held, List.append_nil]

/-- Two producers on a queue of one slot; the second is shut out while it
    waits. -/
def closingActions : List (Action Nat) :=
  [.push 1 10, .push 2 20, .pusher 1, .pusher 2, .close 7, .closer 7,
    .pusher 2, .pop, .popper, .popper, .pop, .popper, .popper]

theorem bounded_fifo_closing :
    ∃ t log, execute Threads.step (.new 0) closingActions = .ok (t, log) ∧
      acceptedValues log
        = returnedValues log ++ t.popper.held ++ t.queue.items ∧
      acceptedValues log = [10] ∧ droppedOf 2 log = [20] := by
  have hrun : ∃ t log,
      execute Threads.step (.new 0) closingActions = .ok (t, log) ∧
      acceptedValues log = [10] ∧ droppedOf 2 log = [20] :=
    ⟨_, _, rfl, rfl, rfl⟩
  obtain ⟨t, log, hrun, haccepted, hdropped⟩ := hrun
  exact ⟨t, log, hrun, (bounded_fifo 0 hrun).2.1, haccepted, hdropped⟩

end OsxMpscRun
