import OsborneX.RingSlotProofs

/-! # Lossless cursors — the whole stream, once and in order

    The producer gates on the Lossless cursors one after another, and a cursor
    it has looked at only moves forward.  So when a slot is assigned its last
    item has been read by all of them (`freed`), and a Lossless consumer that
    has seen an item published finds its slot neither republished nor being
    overwritten, wherever the two threads stand. -/

namespace OsxLossless

open OsxRingBuffer OsxRingSlot

variable {T : Type}

/-! ## The invariant -/

/-- How many items have been assigned to their slots. -/
def assignedCount (b : RingBuffer T) : Nat :=
  match b.pushing with
  | .assigned _ => b.nextToClaim + 1
  | _ => b.nextToClaim

/-- What a Lossless consumer knows in each phase: it wants its own position,
    and what it has copied is that item. -/
def Follows (values : List T) (b : RingBuffer T) (c : Consumer T) :
    Reading T → Prop
  | .idle => True
  | .wanting want => want = c.sequence
  | .claimed want => want = c.sequence ∧ want < b.producerSequence
  | .checked want => want = c.sequence ∧ want < b.producerSequence
  | .copied want out => want = c.sequence ∧ want < b.producerSequence ∧
      values[want]? = some out
  | .confirmed want out => want = c.sequence ∧ want < b.producerSequence ∧
      values[want]? = some out
  | .stale _ => False

/-- A Lossless consumer in step with the stream. -/
structure InStep (values : List T) (b : RingBuffer T)
    (outs : List (Output T)) (id : ConsumerId) (c : Consumer T) : Prop where
  follows : Follows values b c c.reading
  behind : c.sequence ≤ b.producerSequence
  freed : assignedCount b ≤ c.sequence + b.capacity
  received : (delivered id outs).map Prod.snd = values.take c.sequence
  dropped : c.dropped = 0

/-- **THE LOSSLESS GUARANTEE**, as the steps keep it: the cursors the gating
    loop has passed have freed the slot being claimed. -/
structure Lossless (values : List T) (b : RingBuffer T)
    (outs : List (Output T)) : Prop where
  published : Published values b
  gated : Gated b
  blocking : ∀ push ∈ b.pushes, ∃ value, push = .blocking value
  passed : ∀ next, b.pushing = .claiming next →
    ∀ id ∈ b.losslessConsumers.take next, ∀ c, b.consumers[id]? = some c →
      b.nextToClaim < c.sequence + b.capacity
  consumers : ∀ id c, b.consumers[id]? = some c → c.policy = .lossless →
    InStep values b outs id c

variable {values : List T} {b : RingBuffer T} {outs : List (Output T)}

theorem next_le_assigned (b : RingBuffer T) :
    b.nextToClaim ≤ assignedCount b := by
  rw [assignedCount]
  split
  · exact Nat.le_succ _
  · exact Nat.le_refl _

/-! ## One consumer's step -/

/-- The item at a Lossless position is still the last one in its slot, and the
    producer is not at work on it. -/
theorem InStep.current (hp : Published values b) {id : ConsumerId}
    {c : Consumer T} (h : InStep values b outs id c)
    (hlt : c.sequence < b.producerSequence) :
    Current b c.sequence ∧ ¬ Overwritten b c.sequence := by
  have hpub := hp.producer_le
  have hnext := next_le_assigned b
  have hfreed := h.freed
  refine ⟨⟨by omega, by omega⟩, fun hover => ?_⟩
  have hprog := hp.progress
  rw [Overwritten] at hover
  rw [hover] at hprog
  rw [assignedCount, hover] at hfreed
  have hseq := hprog.1
  dsimp only at hfreed
  omega

/-- A Lossless consumer is never outrun. -/
theorem InStep.not_outrun (hp : Published values b) {id : ConsumerId}
    {c : Consumer T} (h : InStep values b outs id c) : ¬ Outrun b c := by
  rintro ⟨want, hph, hseq⟩
  have hfollows := h.follows
  have hwant : want = c.sequence ∧ want < b.producerSequence := by
    rcases hph with hph | ⟨out, hph⟩
    · rw [hph] at hfollows
      exact hfollows
    · rw [hph] at hfollows
      exact ⟨hfollows.1, hfollows.2.1⟩
  obtain ⟨rfl, hlt⟩ := hwant
  exact hseq (hp.sequences _ (h.current hp hlt).1)

/-- **A LOSSLESS CONSUMER STAYS IN STEP** as it reads. -/
theorem InStep.reads (hp : Published values b)
    (hsize : values.length < 2 ^ 64) {id : ConsumerId} {c c' : Consumer T}
    {r : Option (ReadResult T)} (hpolicy : c.policy = .lossless)
    (h : InStep values b outs id c) (hr : Reads b c c' r) :
    InStep values b (outs ++ [r.map (id, ·)]) id c' := by
  obtain ⟨hfollows, hbehind, hfreed, hrec, hdrop⟩ := h
  have hpub := hp.producer_le
  have hwithin := hp.within
  have hquiet : ∀ o : Output T, deliveredBy id o = none →
      (delivered id (outs ++ [o])).map Prod.snd
        = values.take c.sequence := by
    intro o ho
    rw [delivered_quiet ho, hrec]
  cases hr with
  | called hph => exact ⟨rfl, hbehind, hfreed, hquiet _ rfl, hdrop⟩
  | empty hph hle => exact ⟨trivial, hbehind, hfreed, hquiet _ rfl, hdrop⟩
  | skipped hph hlt hlossy hfar =>
      rw [hpolicy] at hlossy
      cases hlossy
  | claimed hph hlt =>
      rw [hph] at hfollows
      exact ⟨⟨hfollows, hlt⟩, hbehind, hfreed, hquiet _ rfl, hdrop⟩
  | checked hph hseq =>
      rw [hph] at hfollows
      exact ⟨hfollows, hbehind, hfreed, hquiet _ rfl, hdrop⟩
  | @copied want hph =>
      rw [hph] at hfollows
      obtain ⟨rfl, hlt⟩ := hfollows
      have hself : InStep values b outs id c :=
        ⟨by rw [hph]; exact ⟨rfl, hlt⟩, hbehind, hfreed, hrec, hdrop⟩
      obtain ⟨hcur, hnot⟩ := hself.current hp hlt
      have hvalue := hp.contents _ hcur
      rw [if_neg hnot] at hvalue
      exact ⟨⟨rfl, hlt, hvalue⟩, hbehind, hfreed, hquiet _ rfl, hdrop⟩
  | confirmed hph hseq =>
      rw [hph] at hfollows
      exact ⟨hfollows, hbehind, hfreed, hquiet _ rfl, hdrop⟩
  | stale hlossy hph hseq =>
      rw [hpolicy] at hlossy
      cases hlossy
  | @returned want out hph =>
      rw [hph] at hfollows
      obtain ⟨rfl, hlt, hvalue⟩ := hfollows
      have hone : addSequence c.sequence 1 = c.sequence + 1 :=
        addSequence_eq (by omega)
      refine ⟨trivial, ?_, ?_, ?_, hdrop⟩
      · show addSequence c.sequence 1 ≤ b.producerSequence
        rw [hone]
        exact hlt
      · show assignedCount b ≤ addSequence c.sequence 1 + b.capacity
        rw [hone]
        omega
      · show _ = values.take (addSequence c.sequence 1)
        rw [hone, List.take_add_one, hvalue, delivered_ok, List.map_append,
          hrec]
        rfl
  | gaveUp hph =>
      rw [hph] at hfollows
      exact hfollows.elim

/-- A Lossless cursor only moves forward. -/
theorem InStep.sequence_le (hp : Published values b)
    (hsize : values.length < 2 ^ 64) {id : ConsumerId} {c c' : Consumer T}
    {r : Option (ReadResult T)} (h : InStep values b outs id c)
    (hr : Reads b c c' r) : c.sequence ≤ c'.sequence := by
  have hfollows := h.follows
  have hpub := hp.producer_le
  have hwithin := hp.within
  cases hr with
  | returned hph =>
      rw [hph] at hfollows
      obtain ⟨rfl, hlt, -⟩ := hfollows
      show c.sequence ≤ addSequence c.sequence 1
      rw [addSequence_eq (by omega)]
      exact Nat.le_succ _
  | gaveUp hph =>
      rw [hph] at hfollows
      exact hfollows.elim
  | called _ => exact Nat.le_refl _
  | empty _ _ => exact Nat.le_refl _
  | skipped _ _ _ _ => exact Nat.le_refl _
  | claimed _ _ => exact Nat.le_refl _
  | checked _ _ => exact Nat.le_refl _
  | copied _ => exact Nat.le_refl _
  | confirmed _ _ => exact Nat.le_refl _
  | stale _ _ _ => exact Nat.le_refl _

/-- Another consumer's step changes nothing for this one. -/
theorem InStep.other {id i : ConsumerId} {c : Consumer T}
    (h : InStep values b outs id c) (hi : i ≠ id)
    (cs : List (Consumer T)) (r : Option (ReadResult T)) :
    InStep values { b with consumers := cs } (outs ++ [r.map (i, ·)]) id c where
  follows := by
    have hf := h.follows
    cases hph : c.reading <;> (rw [hph] at hf; exact hf)
  behind := h.behind
  freed := h.freed
  received := by
    rw [delivered_quiet (deliveredBy_ne hi r), h.received]
  dropped := h.dropped

/-- **EVERY CONSUMER STEP KEEPS THE GUARANTEE.** -/
theorem Lossless.consumer (h : Lossless values b outs)
    (hsize : values.length < 2 ^ 64) (id : ConsumerId) :
    ∃ b' o, b.step (.consumer id) = .ok (b', o) ∧
      Lossless values b' (outs ++ [o]) := by
  cases hc : b.consumers[id]? with
  | none =>
      refine ⟨b, none, step_absent hc, h.published, h.gated, h.blocking,
        h.passed, fun i c hi hp => ?_⟩
      have hne : id ≠ i := by
        rintro rfl
        rw [hc] at hi
        cases hi
      exact (h.consumers i c hi hp).other hne b.consumers none
  | some c =>
      obtain ⟨c', r, hread, hr⟩ := tryRead_spec b c
        (fun hp => (h.consumers id c hc hp).not_outrun h.published)
      refine ⟨_, _, step_consumer hc hread, h.published.consumers _, ?_,
        h.blocking, ?_, ?_⟩
      · -- who is Lossless does not change
        intro i
        rw [h.gated i]
        constructor
        · rintro ⟨d, hd, hp⟩
          by_cases hi : i = id
          · subst hi
            rw [hc] at hd
            cases hd
            refine ⟨c', ?_, hr.policy.trans hp⟩
            rw [List.getElem?_set_self', hc]
            rfl
          · exact ⟨d, by rw [List.getElem?_set_ne (Ne.symm hi)]; exact hd, hp⟩
        · rintro ⟨d, hd, hp⟩
          rcases consumer_set hd with ⟨rfl, rfl⟩ | ⟨-, hd⟩
          · exact ⟨c, hc, hr.policy.symm.trans hp⟩
          · exact ⟨d, hd, hp⟩
      · intro next hph i hi d hd
        rcases consumer_set hd with ⟨rfl, rfl⟩ | ⟨-, hd⟩
        · obtain ⟨d', hd', hp⟩ := (h.gated i).mp (List.mem_of_mem_take hi)
          rw [hc] at hd'
          cases hd'
          have hfree := h.passed next hph i hi c hc
          have hle := (h.consumers i c hc hp).sequence_le h.published hsize hr
          exact Nat.lt_of_lt_of_le hfree (Nat.add_le_add_right hle _)
        · exact h.passed next hph i hi d hd
      · intro i d hd hp
        rcases consumer_set hd with ⟨rfl, rfl⟩ | ⟨hne, hd⟩
        · have hpc := hr.policy.symm.trans hp
          have hin := (h.consumers i c hc hpc).reads h.published hsize hpc hr
          have hf := hin.follows
          refine ⟨?_, hin.behind, hin.freed, hin.received, hin.dropped⟩
          cases hph : d.reading <;> (rw [hph] at hf; exact hf)
        · exact (h.consumers i d hd hp).other (Ne.symm hne) _ r

/-! ## The producer's step -/

/-- Past its end the gating loop has looked at every Lossless consumer. -/
theorem Gated.end_of_gate (h : Gated b) {next : Nat}
    (hgate : b.gate next = none) : b.losslessConsumers.length ≤ next := by
  by_contra hlt
  have hlt := Nat.lt_of_not_le hlt
  obtain ⟨c, hc, -⟩ := (h _).mp (List.getElem_mem hlt)
  rw [RingBuffer.gate, List.getElem?_eq_getElem hlt] at hgate
  rw [Option.bind_some, hc] at hgate
  cases hgate

/-- A slot is assigned only when every Lossless cursor has freed it. -/
theorem Lossless.freed (h : Lossless values b outs)
    (hsize : values.length < 2 ^ 64) {b' : RingBuffer T} (hp : Pushes b b')
    {id : ConsumerId} {c : Consumer T} (hc : b.consumers[id]? = some c)
    (hpolicy : c.policy = .lossless) :
    assignedCount b' ≤ c.sequence + b.capacity := by
  have hfreed := (h.consumers id c hc hpolicy).freed
  have hwithin := h.published.within
  have hprog := h.published.progress
  cases hp with
  | still _ => exact hfreed
  | gated hph _ _ _ =>
      rw [assignedCount, hph] at hfreed
      exact hfreed
  | @assigned next push pushes hph hpush hgate =>
      obtain ⟨value, hvalue⟩ := h.blocking push
        (by rw [hpush]; exact List.mem_cons_self)
      have hend := Gated.end_of_gate h.gated (hgate value hvalue)
      have hmem : id ∈ b.losslessConsumers.take next := by
        rw [List.take_of_length_le hend]
        exact (h.gated id).mpr ⟨c, hc, hpolicy⟩
      exact h.passed next hph id hmem c hc
  | @stored sequence hph =>
      rw [hph] at hprog
      obtain ⟨h1, -, -, hvalue⟩ := hprog
      obtain ⟨hlt, -⟩ := List.getElem?_eq_some_iff.mp hvalue
      rw [assignedCount, hph] at hfreed
      show addSequence sequence 1 ≤ _
      rw [addSequence_eq (by omega), h1]
      exact hfreed
  | produced hph =>
      rw [assignedCount, hph] at hfreed
      exact hfreed

/-- The producer's step leaves a Lossless consumer in step. -/
theorem InStep.push (hp : Published values b) (hsize : values.length < 2 ^ 64)
    {b' : RingBuffer T} (hb : Pushes b b') {id : ConsumerId} {c : Consumer T}
    (h : InStep values b outs id c)
    (hfreed : assignedCount b' ≤ c.sequence + b.capacity) :
    InStep values b' (outs ++ [none]) id c := by
  obtain ⟨hmask, -, -, hle⟩ := hb.frame hsize hp
  have hcap : b'.capacity = b.capacity := congrArg (· + 1) hmask
  refine ⟨?_, Nat.le_trans h.behind hle, by rw [hcap]; exact hfreed, ?_,
    h.dropped⟩
  · have hf := h.follows
    cases hph : c.reading with
    | idle => trivial
    | wanting want => rw [hph] at hf; exact hf
    | claimed want =>
        rw [hph] at hf
        exact ⟨hf.1, Nat.lt_of_lt_of_le hf.2 hle⟩
    | checked want =>
        rw [hph] at hf
        exact ⟨hf.1, Nat.lt_of_lt_of_le hf.2 hle⟩
    | copied want out =>
        rw [hph] at hf
        exact ⟨hf.1, Nat.lt_of_lt_of_le hf.2.1 hle, hf.2.2⟩
    | confirmed want out =>
        rw [hph] at hf
        exact ⟨hf.1, Nat.lt_of_lt_of_le hf.2.1 hle, hf.2.2⟩
    | stale want => rw [hph] at hf; exact hf
  · rw [delivered_quiet rfl, h.received]

/-- **EVERY PRODUCER STEP KEEPS THE GUARANTEE.** -/
theorem Lossless.producer (h : Lossless values b outs)
    (hsize : values.length < 2 ^ 64) :
    Lossless values b.push (outs ++ [none]) := by
  have hb := push_spec b
  obtain ⟨hmask, hcs, hids, -⟩ := hb.frame hsize h.published
  have hcap : b.push.capacity = b.capacity := congrArg (· + 1) hmask
  refine ⟨h.published.push hsize hb, ?_, ?_, ?_, ?_⟩
  · intro id
    rw [hcs, hids]
    exact h.gated id
  · generalize b.push = b' at hb
    cases hb with
    | still _ => exact h.blocking
    | gated _ _ _ _ => exact h.blocking
    | assigned hph hpush _ =>
        intro p hp
        exact h.blocking p (by rw [hpush]; exact List.mem_cons_of_mem _ hp)
    | stored _ => exact h.blocking
    | produced _ => exact h.blocking
  · intro next hph id hid c hc
    rw [hcs] at hc
    rw [hids] at hid
    rw [hcap]
    have hprog := h.published.progress
    have hwithin := h.published.within
    generalize b.push = b' at hb hph
    cases hb with
    | still _ => exact h.passed next hph id hid c hc
    | @gated m value pushes consumer hm hpush hgate hfree =>
        cases hph
        rw [List.take_add_one] at hid
        rcases List.mem_append.mp hid with hid | hid
        · exact h.passed m hm id hid c hc
        · -- the cursor just looked at
          have hat : b.losslessConsumers[m]? = some id := by simpa using hid
          have hsame : b.gate m = some c := by
            rw [RingBuffer.gate, hat, Option.bind_some]
            exact hc
          rw [hgate] at hsame
          cases hsame
          obtain ⟨d, hd, hp⟩ :=
            (h.gated id).mp (List.mem_of_getElem? hat)
          rw [hc] at hd
          cases hd
          have hbehind := (h.consumers id c hc hp).behind
          have hpub := h.published.producer_le
          rw [subSequence_eq (by omega) (by omega)] at hfree
          show b.nextToClaim < _
          omega
    | assigned _ _ _ => cases hph
    | stored _ => cases hph
    | produced _ =>
        cases hph
        cases hid
  · intro id c hc hp
    rw [hcs] at hc
    exact (h.consumers id c hc hp).push h.published hsize hb
      (h.freed hsize hb hc hp)

/-! ## Every interleaving -/

theorem Lossless.step (h : Lossless values b outs)
    (hsize : values.length < 2 ^ 64) (thread : Thread) :
    ∃ b' o, b.step thread = .ok (b', o) ∧
      Lossless values b' (outs ++ [o]) := by
  cases thread with
  | producer => exact ⟨b.push, none, rfl, h.producer hsize⟩
  | consumer id => exact h.consumer hsize id

theorem lossless_start [Inhabited T] (capacity : Nat)
    (policies : List ConsumerPolicy) (values : List T) :
    Lossless values
      (RingBuffer.start capacity policies (values.map .blocking)) [] := by
  have hpub := published_start capacity policies (values.map Push.blocking)
  obtain ⟨ids, heq, hg⟩ :=
    start_spec capacity policies (values.map Push.blocking)
  have hvalues : (values.map Push.blocking).map pushed = values := by
    rw [List.map_map]
    exact List.map_id _
  rw [hvalues] at hpub
  refine ⟨hpub, hg, ?_, ?_, ?_⟩
  · rw [heq]
    intro p hp
    obtain ⟨value, -, rfl⟩ := List.mem_map.mp hp
    exact ⟨value, rfl⟩
  · rw [heq]
    rintro next hph id hid c -
    cases hph
    cases hid
  · intro id c hc hp
    rw [heq] at hc ⊢
    obtain ⟨policy, -, rfl⟩ := Option.map_eq_some_iff.mp
      ((List.getElem?_map ..).symm.trans hc)
    exact ⟨trivial, Nat.le_refl _, Nat.zero_le _, rfl, rfl⟩

/-- A step changes no consumer's policy. -/
theorem step_policies {b b' : RingBuffer T} {thread : Thread} {o : Output T}
    (h : Lossless values b outs) (hsize : values.length < 2 ^ 64)
    (hstep : b.step thread = .ok (b', o)) :
    b'.consumers.map Consumer.policy = b.consumers.map Consumer.policy ∧
      b'.capacity = b.capacity := by
  cases thread with
  | producer =>
      cases hstep
      obtain ⟨hmask, hcs, -, -⟩ := (push_spec b).frame hsize h.published
      exact ⟨by rw [hcs], congrArg (· + 1) hmask⟩
  | consumer id =>
      cases hc : b.consumers[id]? with
      | none =>
          rw [step_absent hc] at hstep
          cases hstep
          exact ⟨rfl, rfl⟩
      | some c =>
          obtain ⟨c', r, hread, hr⟩ := tryRead_spec b c
            (fun hp => (h.consumers id c hc hp).not_outrun h.published)
          rw [step_consumer hc hread] at hstep
          cases hstep
          refine ⟨?_, rfl⟩
          show (b.consumers.set id c').map Consumer.policy = _
          rw [List.map_set, hr.policy]
          obtain ⟨hlt, rfl⟩ := List.getElem?_eq_some_iff.mp hc
          have hself := @List.set_getElem_self _
            (b.consumers.map Consumer.policy) id
            (by rw [List.length_map]; exact hlt)
          rw [List.getElem_map] at hself
          exact hself

/-- **A LOSSLESS CURSOR DELIVERS THE WHOLE STREAM** exactly once and in order.
    Under every schedule no thread faults, so no Lossless consumer reaches
    `report_stale_slot`; each has received exactly the values before its
    position; and the producer is never more than a lap ahead of it. -/
theorem lossless_stream [Inhabited T] (capacity : Nat)
    (policies : List ConsumerPolicy) (values : List T)
    (hsize : values.length < 2 ^ 64) (schedule : List Thread) :
    ∃ b outs,
      Execution.execute RingBuffer.step
        (.start capacity policies (values.map .blocking)) schedule
          = .ok (b, outs) ∧
      b.consumers.map Consumer.policy = policies ∧
      b.capacity = bitCeil (if capacity = 0 then 1 else capacity) ∧
      b.producedCount ≤ values.length ∧
      ∀ id c, b.consumers[id]? = some c → c.policy = .lossless →
        (delivered id outs).map Prod.snd = values.take c.position ∧
        c.position ≤ b.producedCount ∧
        b.producedCount - c.position ≤ b.capacity ∧
        (∀ want, c.reading ≠ .stale want) ∧ c.dropped = 0 := by
  have hstep : ∀ (b : RingBuffer T) (outs : List (Output T))
      (thread : Thread),
      (Lossless values b outs ∧
        b.consumers.map Consumer.policy = policies ∧
        b.capacity = bitCeil (if capacity = 0 then 1 else capacity)) → True →
      ∃ b' o, b.step thread = .ok (b', o) ∧
        Lossless values b' (outs ++ [o]) ∧
        b'.consumers.map Consumer.policy = policies ∧
        b'.capacity = bitCeil (if capacity = 0 then 1 else capacity) := by
    rintro b outs thread ⟨h, hpolicies, hcap⟩ -
    obtain ⟨b', o, hok, h'⟩ := h.step hsize thread
    obtain ⟨h1, h2⟩ := step_policies h hsize hok
    exact ⟨b', o, hok, h', h1.trans hpolicies, h2.trans hcap⟩
  have hfirst : (RingBuffer.start capacity policies
      (values.map Push.blocking)).consumers.map Consumer.policy
        = policies := by
    obtain ⟨ids, heq, -⟩ :=
      start_spec capacity policies (values.map Push.blocking)
    rw [heq]
    show (policies.map registered).map Consumer.policy = policies
    rw [List.map_map]
    exact List.map_id _
  obtain ⟨b, outs, hrun, h, hpolicies, hcap⟩ := Execution.execute_history
    (I := fun b outs => Lossless values b outs ∧
      b.consumers.map Consumer.policy = policies ∧
      b.capacity = bitCeil (if capacity = 0 then 1 else capacity))
    hstep schedule _ [] ⟨lossless_start capacity policies values, hfirst,
      capacity_start capacity policies _⟩
    (Execution.along_of_forall (fun _ _ => trivial) _)
  rw [List.nil_append] at h
  have hpub := h.published.producer_le
  have hwithin := h.published.within
  refine ⟨b, outs, hrun, hpolicies, hcap, ?_, fun id c hc hp => ?_⟩
  · exact Nat.le_trans hpub hwithin
  · obtain ⟨hfollows, hbehind, hfreed, hrec, hdrop⟩ := h.consumers id c hc hp
    have hnext := next_le_assigned b
    refine ⟨hrec, hbehind, ?_, fun want hph => ?_, hdrop⟩
    · show b.producerSequence - c.sequence ≤ b.capacity
      omega
    · rw [hph] at hfollows
      exact hfollows

/-- Two Lossless consumers and a Lossy one over one slot, with the second
    Lossless consumer holding the producer back. -/
theorem lossless_stream_oneSlot :
    ∃ (b : RingBuffer Nat) (outs : List (Output Nat)),
      Execution.execute RingBuffer.step
        (.start 1 [.lossless, .lossy, .lossless]
          ([10, 20, 30].map .blocking))
        [.producer, .producer, .producer, .producer, .producer,
          .consumer 0, .consumer 0, .consumer 0, .consumer 0, .consumer 0,
          .consumer 0, .producer, .producer, .consumer 2, .consumer 1]
          = .ok (b, outs) ∧
      b.consumers.map Consumer.policy = [.lossless, .lossy, .lossless] ∧
      b.capacity = bitCeil (if 1 = 0 then 1 else 1) ∧
      b.producedCount ≤ [10, 20, 30].length ∧
      ∀ id c, b.consumers[id]? = some c → c.policy = .lossless →
        (delivered id outs).map Prod.snd = [10, 20, 30].take c.position ∧
        c.position ≤ b.producedCount ∧
        b.producedCount - c.position ≤ b.capacity ∧
        (∀ want, c.reading ≠ .stale want) ∧ c.dropped = 0 :=
  lossless_stream 1 _ [10, 20, 30] (by decide) _

end OsxLossless
