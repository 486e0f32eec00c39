import OsborneX.LinearizationProofs
import OsborneX.LosslessProofs
import OsborneX.SimulationModel

/-! # The inbound queue — a ring buffer seen at the grain of whole calls

    A shard's worker and the thread that submits share a `RingBuffer` with one
    Lossless cursor, and `SimulationModel` takes each of their calls as one step
    of a bounded queue.  This is right at the grain of single atomic accesses:
    every schedule of the two threads linearizes to the bounded queue, a push
    when `publish` stores `producer_sequence_`, a read when it returns
    (`inbound_linearizes`). -/

namespace OsxInbound

open OsxRingBuffer OsxRingSlot OsxLossless
open OsxShard (OrderMessage)
open OsxSimulation (Inbound)

/-! ## The two machines -/

/-- A call on the queue. -/
inductive Call where
  | pushBlocking (message : OrderMessage)
  | tryRead
  deriving DecidableEq, Repr

/-- A push that has to wait is no step. -/
inductive Fault where
  | full
  deriving DecidableEq, Repr

/-- The bounded queue: a push returns nothing, a read a message or `Empty`. -/
def step (q : Inbound) :
    Call → Except Fault (Inbound × Option (Option OrderMessage))
  | .pushBlocking message =>
      match q.pushBlocking message with
      | none => .error .full
      | some q => .ok (q, none)
  | .tryRead =>
      match q.tryRead with
      | none => .ok (q, some none)
      | some (message, q) => .ok (q, some (some message))

theorem tryRead_empty {q : Inbound} (h : q.items = []) : q.tryRead = none := by
  rw [Inbound.tryRead]
  split
  · rfl
  · rename_i heq
    rw [h] at heq
    cases heq

theorem tryRead_front {q : Inbound} {message : OrderMessage}
    {items : List OrderMessage} (h : q.items = message :: items) :
    ∃ q', q.tryRead = some (message, q') ∧ q'.items = items ∧
      q'.capacity = q.capacity := by
  rw [Inbound.tryRead]
  split
  · rename_i heq
    rw [h] at heq
    cases heq
  · rename_i heq
    rw [h] at heq
    cases heq
    exact ⟨_, rfl, rfl, rfl⟩

/-- The call whose point a thread's next access is. -/
def point (b : RingBuffer OrderMessage) : Thread → Option Call
  | .producer =>
      match b.pushing with
      | .stored sequence => some (.pushBlocking (b.slotOf sequence).value)
      | _ => none
  | .consumer id =>
      match b.consumers[id]? with
      | none => none
      | some consumer =>
          match consumer.tryRead b with
          | .ok (_, some _) => some .tryRead
          | _ => none

/-- What a `try_read` of the one cursor returned. -/
def returned : Output OrderMessage → Option (Option OrderMessage)
  | some (0, .ok _ out) => some (some out)
  | some (0, .empty) => some none
  | _ => none

/-- What was pushed by some calls. -/
def pushesOf (calls : List Call) : List OrderMessage :=
  calls.filterMap fun
    | .pushBlocking message => some message
    | .tryRead => none

/-- What the reads among some calls returned. -/
def messagesOf (results : List (Option (Option OrderMessage))) :
    List OrderMessage :=
  (results.filterMap id).filterMap id

/-! ## Where they stand -/

/-- The queue holds what is published and not read. -/
structure Holds (values : List OrderMessage) (b : RingBuffer OrderMessage)
    (q : Inbound) : Prop where
  lossless : ∃ outs, Lossless values b outs
  alone : ∃ c, b.consumers = [c] ∧ c.policy = .lossless ∧
    q.items = (values.take b.producedCount).drop c.position
  capacity : q.capacity = b.capacity

variable {values : List OrderMessage} {b b' : RingBuffer OrderMessage}
  {q : Inbound}

theorem Holds.other (h : Holds values b q) {id : ConsumerId} (hid : id ≠ 0) :
    b.consumers[id]? = none := by
  obtain ⟨c, hc, -⟩ := h.alone
  rw [hc]
  cases id with
  | zero => exact absurd rfl hid
  | succ id => rfl

theorem producedCount_push (h : ∀ sequence, b.pushing ≠ .stored sequence) :
    b.push.producedCount = b.producedCount := by
  have hpushes := push_spec b
  generalize b.push = b' at hpushes ⊢
  cases hpushes with
  | still _ => rfl
  | gated _ _ _ _ => rfl
  | assigned _ _ _ => rfl
  | stored _ => rfl
  | produced hph => exact absurd hph (h _)

/-- Before the store the queue stays. -/
theorem Holds.keep (h : Holds values b q) (hsize : values.length < 2 ^ 64)
    (hpushing : ∀ sequence, b.pushing ≠ .stored sequence) :
    Holds values b.push q := by
  have hproduced := producedCount_push hpushing
  obtain ⟨outs, hlossless⟩ := h.lossless
  obtain ⟨c, hc, hpolicy, hitems⟩ := h.alone
  obtain ⟨hmask, hconsumers, -, -⟩ :=
    (push_spec b).frame hsize hlossless.published
  exact {
    lossless := ⟨_, hlossless.producer hsize⟩
    alone := ⟨c, hconsumers.trans hc, hpolicy, by rw [hproduced]; exact hitems⟩
    capacity := h.capacity.trans (congrArg (· + 1) hmask.symm) }

/-- **A PUSH'S POINT** is the store of `producer_sequence_`. -/
theorem Holds.publish (h : Holds values b q) (hsize : values.length < 2 ^ 64)
    {sequence : Nat} (hph : b.pushing = .stored sequence) :
    ∃ q', q.pushBlocking (b.slotOf sequence).value = some q' ∧
      Holds values b.push q' := by
  obtain ⟨outs, hlossless⟩ := h.lossless
  obtain ⟨c, hc, hpolicy, hitems⟩ := h.alone
  have hpublished := hlossless.published
  have hprogress := hpublished.progress
  rw [hph] at hprogress
  obtain ⟨hnext, hproduced, -⟩ := hprogress
  have hwithin := hpublished.within
  -- the item whose slot was stored last is still in it
  have hvalue : values[sequence]? = some (b.slotOf sequence).value := by
    refine hpublished.contents_quiet ?_ sequence ⟨by omega, ?_⟩
    · intro s heq
      rw [hph] at heq
      cases heq
    · show b.nextToClaim ≤ sequence + (b.mask + 1)
      omega
  have hstep : InStep values b outs 0 c :=
    hlossless.consumers 0 c (by rw [hc]; rfl) hpolicy
  have hbehind := hstep.behind
  have hfreed := hstep.freed
  rw [assignedCount, hph] at hfreed
  have hlength : q.items.length = sequence - c.sequence := by
    rw [hitems, List.length_drop, List.length_take]
    show min b.producerSequence _ - c.sequence = _
    rw [hproduced, Nat.min_eq_left (by omega)]
  have hroom : q.items.length < q.capacity := by
    rw [hlength, h.capacity]
    dsimp only at hfreed
    omega
  obtain ⟨q', hpush⟩ : ∃ q', q.pushBlocking (b.slotOf sequence).value = some q' :=
    ⟨_, dif_pos hroom⟩
  have hbuffer : b.push = { b with
      producerSequence := addSequence sequence 1
      pushing := .claiming 0 } := by
    rw [RingBuffer.push, hph]
  refine ⟨q', hpush, {
    lossless := ⟨_, hlossless.producer hsize⟩
    alone := ⟨c, by rw [hbuffer]; exact hc, hpolicy, ?_⟩
    capacity := ?_ }⟩
  · have hcount : b.push.producedCount = sequence + 1 := by
      rw [hbuffer]
      exact addSequence_eq (by omega)
    rw [OsxSimulation.Inbound.pushBlocking_some hpush, hitems, hcount]
    show (values.take b.producerSequence).drop c.sequence ++ [_]
      = (values.take (sequence + 1)).drop c.sequence
    rw [hproduced, List.take_add_one, hvalue, List.drop_append_of_le_length]
    · rfl
    · rw [List.length_take]
      omega
  · rw [Inbound.pushBlocking, dif_pos hroom] at hpush
    cases hpush
    rw [hbuffer]
    exact h.capacity

/-- The cursor moved, and the queue with it. -/
theorem Holds.moved (h : Holds values b q) (hsize : values.length < 2 ^ 64)
    {c c' : Consumer OrderMessage} {r : Option (ReadResult OrderMessage)}
    {q' : Inbound} (hc : b.consumers[0]? = some c)
    (hread : c.tryRead b = .ok (c', r)) (hpolicy : c'.policy = .lossless)
    (hitems : q'.items = (values.take b.producedCount).drop c'.position)
    (hcapacity : q'.capacity = q.capacity) :
    Holds values { b with consumers := b.consumers.set 0 c' } q' := by
  obtain ⟨outs, hlossless⟩ := h.lossless
  obtain ⟨c₀, hc₀, -, -⟩ := h.alone
  obtain ⟨b', o, hstep, hlossless'⟩ := hlossless.consumer hsize 0
  rw [step_consumer hc hread] at hstep
  cases hstep
  exact {
    lossless := ⟨_, hlossless'⟩
    alone := ⟨c', by rw [hc₀]; rfl, hpolicy, hitems⟩
    capacity := hcapacity.trans h.capacity }

/-- **A READ'S POINT** is its return. -/
theorem Holds.read (h : Holds values b q) (hsize : values.length < 2 ^ 64)
    {c c' : Consumer OrderMessage} {r : Option (ReadResult OrderMessage)}
    (hc : b.consumers[0]? = some c) (hread : c.tryRead b = .ok (c', r)) :
    (r = none ∧ Holds values { b with consumers := b.consumers.set 0 c' } q) ∨
    ∃ result m q', r = some result ∧ step q .tryRead = .ok (q', some m) ∧
      returned (some (0, result)) = some m ∧
      Holds values { b with consumers := b.consumers.set 0 c' } q' := by
  obtain ⟨outs, hlossless⟩ := h.lossless
  obtain ⟨c₀, hc₀, hpolicy, hitems⟩ := h.alone
  have heq : c₀ = c := by
    rw [hc₀] at hc
    exact Option.some.inj hc
  subst heq
  have hstep : InStep values b outs 0 c₀ := hlossless.consumers 0 c₀ hc hpolicy
  obtain ⟨d, r', hread', hreads⟩ := tryRead_spec b c₀
    (fun _ => hstep.not_outrun hlossless.published)
  rw [hread] at hread'
  cases hread'
  have hlossless' : c'.policy = .lossless := hreads.policy.trans hpolicy
  have hfollows := hstep.follows
  -- no call returns: the cursor is where it was
  have hstays : c'.sequence = c₀.sequence →
      Holds values { b with consumers := b.consumers.set 0 c' } q :=
    fun hsame => h.moved hsize hc hread hlossless'
      (by rw [Consumer.position, hsame]; exact hitems) rfl
  cases hreads with
  | called _ => exact Or.inl ⟨rfl, hstays rfl⟩
  | claimed _ _ => exact Or.inl ⟨rfl, hstays rfl⟩
  | checked _ _ => exact Or.inl ⟨rfl, hstays rfl⟩
  | copied _ => exact Or.inl ⟨rfl, hstays rfl⟩
  | confirmed _ _ => exact Or.inl ⟨rfl, hstays rfl⟩
  | skipped _ _ hlossy _ | stale hlossy _ _ =>
      rw [hpolicy] at hlossy
      cases hlossy
  | gaveUp hph =>
      rw [hph] at hfollows
      exact hfollows.elim
  | empty hph hle =>
      rw [hph] at hfollows
      have hnone : q.items = [] := by
        rw [hitems]
        refine List.drop_eq_nil_of_le ?_
        rw [List.length_take]
        show min b.producerSequence _ ≤ c₀.sequence
        rw [← hfollows]
        exact (Nat.min_le_left _ _).trans hle
      have hempty : step q .tryRead = .ok (q, some none) := by
        rw [step, tryRead_empty hnone]
      exact Or.inr ⟨_, none, q, rfl, hempty, rfl, hstays rfl⟩
  | @returned want out hph =>
      rw [hph] at hfollows
      obtain ⟨rfl, hlt, hvalue⟩ := hfollows
      have hwithin : b.producerSequence ≤ values.length :=
        hlossless.published.producer_le.trans hlossless.published.within
      have hfront : q.items
          = out :: (values.take b.producedCount).drop (c₀.sequence + 1) := by
        have hout : (values.take b.producedCount)[c₀.sequence]? = some out := by
          exact (List.getElem?_take_of_lt hlt).trans hvalue
        obtain ⟨hbound, hget⟩ := List.getElem?_eq_some_iff.mp hout
        rw [hitems, ← hget]
        exact List.drop_eq_getElem_cons hbound
      obtain ⟨q', htry, hrest, hcapacity⟩ := tryRead_front hfront
      have hok : step q .tryRead = .ok (q', some (some out)) := by
        rw [step, htry]
      refine Or.inr ⟨_, some out, q', rfl, hok, rfl,
        h.moved hsize hc hread hlossless' ?_ hcapacity⟩
      show q'.items = (values.take b.producedCount).drop (addSequence _ 1)
      rw [addSequence_eq (by omega)]
      exact hrest

/-! ## Every schedule -/

theorem point_absent {id : ConsumerId} (h : b.consumers[id]? = none) :
    point b (.consumer id) = none := by
  rw [point, h]

theorem point_read {id : ConsumerId} {c c' : Consumer OrderMessage}
    {r : Option (ReadResult OrderMessage)} (hc : b.consumers[id]? = some c)
    (hread : c.tryRead b = .ok (c', r)) :
    point b (.consumer id) = r.map (fun _ => .tryRead) := by
  rw [point, hc]
  dsimp only
  rw [hread]
  cases r <;> rfl

/-- One thread's access, at no point or at one. -/
theorem Holds.access (h : Holds values b q) (hsize : values.length < 2 ^ 64)
    {thread : Thread} {o : Output OrderMessage}
    (hstep : b.step thread = .ok (b', o)) :
    (point b thread = none ∧ returned o = none ∧ Holds values b' q) ∨
    ∃ call q' m, point b thread = some call ∧ step q call = .ok (q', m) ∧
      returned o = m ∧ Holds values b' q' := by
  cases thread with
  | producer =>
      cases hstep
      cases hph : b.pushing with
      | claiming next =>
          refine Or.inl ⟨by rw [point, hph], rfl, h.keep hsize ?_⟩
          exact fun _ heq => by rw [hph] at heq; cases heq
      | assigned sequence =>
          refine Or.inl ⟨by rw [point, hph], rfl, h.keep hsize ?_⟩
          exact fun _ heq => by rw [hph] at heq; cases heq
      | stored sequence =>
          obtain ⟨q', hpush, hholds⟩ := h.publish hsize hph
          have hok : step q (.pushBlocking (b.slotOf sequence).value)
              = .ok (q', none) := by
            rw [step, hpush]
          exact Or.inr ⟨_, q', none, by rw [point, hph], hok, rfl, hholds⟩
  | consumer id =>
      cases hc : b.consumers[id]? with
      | none =>
          rw [step_absent hc] at hstep
          cases hstep
          exact Or.inl ⟨point_absent hc, rfl, h⟩
      | some c =>
          have hid : id = 0 := by
            by_contra hne
            rw [h.other hne] at hc
            cases hc
          subst hid
          cases hread : c.tryRead b with
          | error e =>
              rw [RingBuffer.step, hc] at hstep
              dsimp only at hstep
              rw [hread] at hstep
              cases hstep
          | ok r =>
              obtain ⟨c', r⟩ := r
              rw [step_consumer hc hread] at hstep
              cases hstep
              rw [point_read hc hread]
              rcases h.read hsize hc hread with ⟨rfl, hholds⟩ |
                ⟨result, m, q', rfl, hok, hshown, hholds⟩
              · exact Or.inl ⟨rfl, rfl, hholds⟩
              · exact Or.inr ⟨_, q', some m, rfl, hok, hshown, hholds⟩

/-- **THE RING BUFFER LINEARIZES** to the bounded queue. -/
theorem linearizes (hsize : values.length < 2 ^ 64) :
    Execution.Linearizes RingBuffer.step step point returned id
      (Holds values) where
  stays := by
    intro b q thread b' o h hstep hpoint
    rcases h.access hsize hstep with ⟨-, hshown, hholds⟩ | ⟨call, _, _, heq, -⟩
    · exact ⟨hholds, hshown⟩
    · rw [hpoint] at heq
      cases heq
  calls := by
    intro b q thread call b' o h hstep hpoint
    rcases h.access hsize hstep with ⟨heq, -⟩ |
      ⟨call', q', m, heq, hok, hshown, hholds⟩
    · rw [hpoint] at heq
      cases heq
    · rw [hpoint] at heq
      cases heq
      exact ⟨q', m, hok, hholds, hshown.symm⟩

/-- **FIRST IN, FIRST OUT.** -/
theorem queue_fifo {calls : List Call} :
    ∀ {q q' : Inbound} {results : List (Option (Option OrderMessage))},
      Execution.execute step q calls = .ok (q', results) →
      q.items ++ pushesOf calls = messagesOf results ++ q'.items := by
  induction calls with
  | nil =>
      intro q q' results h
      cases h
      exact List.append_nil _
  | cons call calls ih =>
      intro q q' results h
      obtain ⟨q₁, o, results', hstep, hrest, rfl⟩ :=
        Execution.execute_cons_ok h
      have hlater := ih hrest
      cases call with
      | pushBlocking message =>
          rw [step] at hstep
          cases hpush : q.pushBlocking message with
          | none =>
              rw [hpush] at hstep
              cases hstep
          | some q₂ =>
              rw [hpush] at hstep
              cases hstep
              rw [OsxSimulation.Inbound.pushBlocking_some hpush,
                List.append_assoc] at hlater
              exact hlater
      | tryRead =>
          rw [step] at hstep
          cases hread : q.tryRead with
          | none =>
              rw [hread] at hstep
              cases hstep
              exact hlater
          | some r =>
              obtain ⟨message, q₂⟩ := r
              rw [hread] at hstep
              cases hstep
              rw [OsxSimulation.Inbound.tryRead_some hread]
              exact congrArg (message :: ·) hlater

theorem messages_returned (outs : List (Output OrderMessage)) :
    (outs.filterMap returned).filterMap id = (delivered 0 outs).map Prod.snd := by
  rw [List.filterMap_filterMap, delivered, List.map_filterMap]
  refine List.filterMap_congr (fun o _ => ?_)
  rcases o with _ | ⟨_ | id, _ | _ | _⟩ <;> rfl

/-- A message before anything is assigned to it. -/
instance : Inhabited OrderMessage where
  default := {
    sourceTimestamp := 0
    ingressTimestamp := 0
    ingressSequence := 0
    source := 0
    symbol := 0
    orderId := 0
    side := .buy
    price := ⟨0⟩
    quantity := 0
    type := .goodTillCancel
    action := .add }

theorem holds_start (capacity : Nat) (values : List OrderMessage) :
    Holds values (.start capacity [.lossless] (values.map .blocking))
      (.new capacity) where
  lossless := ⟨[], lossless_start capacity [.lossless] values⟩
  alone := by
    obtain ⟨ids, heq, -⟩ :=
      start_spec capacity [.lossless] (values.map Push.blocking)
    refine ⟨registered .lossless, by rw [heq]; rfl, rfl, ?_⟩
    rw [heq]
    exact List.drop_nil.symm
  capacity := (capacity_start capacity [.lossless] _).symm

/-- **EVERY SCHEDULE OF THE TWO THREADS IS A RUN OF THE BOUNDED QUEUE**, with
    the same results: no access faults, every call has its point at its own last
    access, and the calls in the order of their points are a run of the queue,
    which pushes the first of the messages in order. -/
theorem inbound_linearizes (capacity : Nat) (values : List OrderMessage)
    (hsize : values.length < 2 ^ 64) (schedule : List Thread) :
    ∃ b outs calls q results,
      Execution.execute RingBuffer.step
        (.start capacity [.lossless] (values.map .blocking)) schedule
          = .ok (b, outs) ∧
      calls = Execution.passed RingBuffer.step point
        (.start capacity [.lossless] (values.map .blocking)) schedule ∧
      Execution.execute step (.new capacity) calls = .ok (q, results) ∧
      results.filterMap id = outs.filterMap returned ∧
      pushesOf calls = values.take b.producedCount ∧
      ∃ c, b.consumers = [c] ∧
        q.items = (values.take b.producedCount).drop c.position := by
  have hstart := holds_start capacity values
  have hkeep : ∀ b outs thread, Lossless values b outs →
      (fun _ _ => True : RingBuffer OrderMessage → Thread → Prop) b thread →
      ∃ b' o, b.step thread = .ok (b', o) ∧ Lossless values b' (outs ++ [o]) :=
    fun b outs thread h _ => h.step hsize thread
  obtain ⟨b, outs, hrun, hlossless⟩ := Execution.execute_history hkeep
    schedule _ [] (lossless_start capacity [.lossless] values)
    (Execution.along_of_forall (fun _ _ => trivial) _)
  obtain ⟨q, results, hqueue, hholds, hresults⟩ :=
    (linearizes hsize).run hstart hrun
  obtain ⟨c, hc, hpolicy, hitems⟩ := hholds.alone
  have hstep : InStep values b outs 0 c :=
    hlossless.consumers 0 c (by rw [hc]; rfl) hpolicy
  refine ⟨b, outs, _, q, results, hrun, rfl, hqueue, hresults, ?_, c, hc, hitems⟩
  have hfifo := queue_fifo hqueue
  -- what was read is all before the cursor
  have hread : (delivered 0 outs).map Prod.snd
      = (values.take b.producedCount).take c.position := by
    have hbehind : c.position ≤ b.producedCount := hstep.behind
    rw [List.take_take, Nat.min_eq_left hbehind]
    exact hstep.received
  rw [messagesOf, hresults, messages_returned, hitems, hread,
    List.take_append_drop] at hfifo
  exact hfifo

/-- Three messages over two slots: the third push finds the ring full once, and
    the last read finds it empty. -/
def sampleSchedule : List Thread :=
  List.replicate 9 .producer ++ List.replicate 6 (.consumer 0)
    ++ List.replicate 4 .producer ++ List.replicate 14 (.consumer 0)

theorem inbound_linearizes_two :
    ∃ b outs calls q results,
      Execution.execute RingBuffer.step
        (.start 2 [.lossless] ([default, default, default].map .blocking))
        sampleSchedule = .ok (b, outs) ∧
      calls = Execution.passed RingBuffer.step point
        (.start 2 [.lossless] ([default, default, default].map .blocking))
        sampleSchedule ∧
      Execution.execute step (.new 2) calls = .ok (q, results) ∧
      results.filterMap id = outs.filterMap returned ∧
      pushesOf calls = [default, default, default].take b.producedCount ∧
      ∃ c, b.consumers = [c] ∧
        q.items = ([default, default, default].take b.producedCount).drop
          c.position :=
  inbound_linearizes 2 [default, default, default] (by decide) sampleSchedule

end OsxInbound
