import OsborneX.RingSlotProofs

/-! # Loss accounting — every item is delivered or counted as dropped

    A Lossy cursor loses items on two paths: the jump to the last lap, and a
    slot found stale.  Both count what they lose before the position is stored,
    and one call can take both.  `Counted` says in each phase of `try_read`
    which position the count of losses already belongs to; between two calls it
    is the cursor's own.  The producer only moves ahead, so none of its steps
    can disturb the count. -/

namespace OsxLossAccounting

open OsxRingBuffer OsxRingSlot

variable {T : Type}

/-! ## The ledger -/

/-- What `ok` deliveries and the losses counted so far add up to. -/
def Counted (b : RingBuffer T) (c : Consumer T) (ok : Nat) :
    Reading T → Prop
  | .idle => ok + c.dropped = c.sequence
  | .wanting want => want = c.sequence ∧ ok + c.dropped = want
  | .claimed want => c.sequence ≤ want ∧ want < b.producerSequence ∧
      ok + c.dropped = want
  | .checked want => c.sequence ≤ want ∧ want < b.producerSequence ∧
      ok + c.dropped = want
  | .copied want _ => c.sequence ≤ want ∧ want < b.producerSequence ∧
      ok + c.dropped = want
  | .confirmed want _ => c.sequence ≤ want ∧ want < b.producerSequence ∧
      ok + c.dropped = want
  | .stale want => c.sequence ≤ want ∧ want < b.producerSequence ∧
      ok + c.dropped = want + 1

/-- One cursor's account. -/
structure Account (b : RingBuffer T) (c : Consumer T) (ok : Nat) : Prop where
  policy : c.policy = .lossy
  counted : Counted b c ok c.reading
  behind : c.sequence ≤ b.producerSequence

/-- What a result says of the position the cursor had and the one it has. -/
def Moves (before after : Consumer T) : Option (ReadResult T) → Prop
  | none => after.sequence = before.sequence
  | some .empty => after.sequence = before.sequence
  | some (.ok position _) => before.sequence < position ∧
      after.sequence = position
  | some (.dropped position) => before.sequence < position ∧
      after.sequence = position

/-- The deliveries a result adds. -/
def delivers : Option (ReadResult T) → Nat
  | some (.ok _ _) => 1
  | _ => 0

/-- Every Lossy cursor's account, over the outputs so far. -/
structure Ledger (values : List T) (b : RingBuffer T)
    (outs : List (Output T)) : Prop where
  published : Published values b
  accounts : ∀ id c, b.consumers[id]? = some c →
    Account b c (delivered id outs).length

variable {values : List T} {b : RingBuffer T}

/-! ## One step -/

/-- **EVERY ACCESS OF `try_read` KEEPS THE ACCOUNT**, and moves the position
    only where it returns `Ok` or `Dropped`. -/
theorem Account.reads (hsize : b.producerSequence < 2 ^ 64) {ok : Nat}
    {c c' : Consumer T} {r : Option (ReadResult T)} (h : Account b c ok)
    (hr : Reads b c c' r) :
    Account b c' (ok + delivers r) ∧ Moves c c' r ∧
      (r = some .empty → ok + c'.dropped = b.producerSequence) := by
  obtain ⟨hpolicy, hcounted, hbehind⟩ := h
  cases hr with
  | called hph =>
      rw [hph] at hcounted
      exact ⟨⟨hpolicy, ⟨rfl, hcounted⟩, hbehind⟩, rfl, by simp⟩
  | empty hph hle =>
      rw [hph] at hcounted
      obtain ⟨hwant, hsum⟩ := hcounted
      refine ⟨⟨hpolicy, hsum.trans hwant, hbehind⟩, rfl, ?_⟩
      -- the cursor is behind the producer, and the producer not past it
      intro _
      show ok + c.dropped = _
      omega
  | @skipped want hph hlt _ hfar =>
      rw [hph] at hcounted
      obtain ⟨hwant, hsum⟩ := hcounted
      rw [subSequence_eq (Nat.le_of_lt hlt) hsize] at hfar
      have htarget : subSequence b.producerSequence b.capacity
          = b.producerSequence - b.capacity :=
        subSequence_eq (by omega) hsize
      have hjump : subSequence (b.producerSequence - b.capacity) want
          = b.producerSequence - b.capacity - want :=
        subSequence_eq (by omega) (by omega)
      have hcap : 0 < b.capacity := Nat.succ_pos b.mask
      rw [htarget, hjump, addSequence_eq (by omega)]
      refine ⟨⟨hpolicy, ⟨?_, ?_, ?_⟩, hbehind⟩, rfl, by simp⟩
      · show c.sequence ≤ _
        omega
      · omega
      · show ok + 0 + (c.dropped + _) = _
        omega
  | @claimed want hph hlt =>
      rw [hph] at hcounted
      obtain ⟨hwant, hsum⟩ := hcounted
      exact ⟨⟨hpolicy, ⟨Nat.le_of_eq hwant.symm, hlt, hsum⟩, hbehind⟩, rfl,
        by simp⟩
  | checked hph hseq =>
      rw [hph] at hcounted
      exact ⟨⟨hpolicy, hcounted, hbehind⟩, rfl, by simp⟩
  | copied hph =>
      rw [hph] at hcounted
      exact ⟨⟨hpolicy, hcounted, hbehind⟩, rfl, by simp⟩
  | confirmed hph hseq =>
      rw [hph] at hcounted
      exact ⟨⟨hpolicy, hcounted, hbehind⟩, rfl, by simp⟩
  | @stale want _ hph hseq =>
      have hknown : c.sequence ≤ want ∧ want < b.producerSequence ∧
          ok + c.dropped = want := by
        rcases hph with hph | ⟨out, hph⟩
        · rw [hph] at hcounted
          exact hcounted
        · rw [hph] at hcounted
          exact hcounted
      obtain ⟨h1, h2, h3⟩ := hknown
      rw [addSequence_eq (by omega)]
      refine ⟨⟨hpolicy, ⟨h1, h2, ?_⟩, hbehind⟩, rfl, by simp⟩
      show ok + 0 + (c.dropped + 1) = _
      omega
  | @returned want out hph =>
      rw [hph] at hcounted
      obtain ⟨h1, h2, h3⟩ := hcounted
      rw [addSequence_eq (by omega)]
      refine ⟨⟨hpolicy, ?_, h2⟩, ⟨Nat.lt_succ_of_le h1, rfl⟩, by simp⟩
      show ok + 1 + c.dropped = want + 1
      omega
  | @gaveUp want hph =>
      rw [hph] at hcounted
      obtain ⟨h1, h2, h3⟩ := hcounted
      rw [addSequence_eq (by omega)]
      exact ⟨⟨hpolicy, h3, h2⟩, ⟨Nat.lt_succ_of_le h1, rfl⟩, by simp⟩

/-- A cursor's account does not depend on the other cursors, and stays right
    when the producer moves ahead. -/
theorem Account.ahead {b' : RingBuffer T} {c : Consumer T} {ok : Nat}
    (h : Account b c ok)
    (hle : b.producerSequence ≤ b'.producerSequence) : Account b' c ok := by
  obtain ⟨hpolicy, hcounted, hbehind⟩ := h
  refine ⟨hpolicy, ?_, Nat.le_trans hbehind hle⟩
  cases hph : c.reading with
  | idle => rw [hph] at hcounted; exact hcounted
  | wanting want => rw [hph] at hcounted; exact hcounted
  | claimed want =>
      rw [hph] at hcounted
      exact ⟨hcounted.1, Nat.lt_of_lt_of_le hcounted.2.1 hle, hcounted.2.2⟩
  | checked want =>
      rw [hph] at hcounted
      exact ⟨hcounted.1, Nat.lt_of_lt_of_le hcounted.2.1 hle, hcounted.2.2⟩
  | copied want out =>
      rw [hph] at hcounted
      exact ⟨hcounted.1, Nat.lt_of_lt_of_le hcounted.2.1 hle, hcounted.2.2⟩
  | confirmed want out =>
      rw [hph] at hcounted
      exact ⟨hcounted.1, Nat.lt_of_lt_of_le hcounted.2.1 hle, hcounted.2.2⟩
  | stale want =>
      rw [hph] at hcounted
      exact ⟨hcounted.1, Nat.lt_of_lt_of_le hcounted.2.1 hle, hcounted.2.2⟩

theorem delivered_delivers (id : ConsumerId) (r : Option (ReadResult T))
    (outs : List (Output T)) :
    (delivered id (outs ++ [r.map (id, ·)])).length
      = (delivered id outs).length + delivers r := by
  cases r with
  | none => rw [delivered_quiet rfl]; rfl
  | some r =>
      cases r with
      | empty => rw [delivered_quiet rfl]; rfl
      | ok position out => rw [delivered_ok, List.length_append]; rfl
      | dropped position => rw [delivered_quiet rfl]; rfl

/-! ## Every interleaving -/

/-- How a cursor moved while `outs` were returned: forward at each `Ok` and
    each `Dropped`, and at nothing else. -/
structure Since (id : ConsumerId) (before after : Consumer T)
    (outs : List (Output T)) : Prop where
  forward : before.position ≤ after.position
  moved : (∃ r, some (id, r) ∈ outs ∧ r ≠ .empty) →
    before.position < after.position
  still : (∀ r, some (id, r) ∈ outs → r = .empty) →
    after.position = before.position

theorem Since.refl (id : ConsumerId) (c : Consumer T) : Since id c c [] where
  forward := Nat.le_refl _
  moved := by simp
  still := fun _ => rfl

/-- A step of another thread. -/
theorem Since.quiet {id : ConsumerId} {before after : Consumer T}
    {outs : List (Output T)} (h : Since id before after outs) {o : Output T}
    (ho : ∀ r, o ≠ some (id, r)) : Since id before after (outs ++ [o]) := by
  have hmem : ∀ r, some (id, r) ∈ outs ++ [o] ↔ some (id, r) ∈ outs := by
    intro r
    simp [List.mem_append, Ne.symm (ho r)]
  refine ⟨h.forward, ?_, ?_⟩
  · simp only [hmem]
    exact h.moved
  · simp only [hmem]
    exact h.still

/-- A step of the cursor itself. -/
theorem Since.moves {id : ConsumerId} {before after after' : Consumer T}
    {outs : List (Output T)} (h : Since id before after outs)
    {r : Option (ReadResult T)} (hm : Moves after after' r) :
    Since id before after' (outs ++ [r.map (id, ·)]) := by
  obtain ⟨hforward, hmoved, hstill⟩ := h
  have hmem : ∀ s, some (id, s) ∈ outs ++ [r.map (id, ·)] ↔
      some (id, s) ∈ outs ∨ r = some s := by
    intro s
    cases r with
    | none => simp
    | some r => simp [eq_comm]
  rw [Consumer.position, Consumer.position] at hforward hmoved hstill
  -- either the result moved the position, or it left it
  have hcases : (after'.sequence = after.sequence ∧
        ∀ s, r = some s → s = .empty) ∨
      (after.sequence < after'.sequence ∧ ∃ s, r = some s ∧ s ≠ .empty) := by
    cases r with
    | none => exact Or.inl ⟨hm, by simp⟩
    | some r =>
        cases r with
        | empty => exact Or.inl ⟨hm, by simp⟩
        | ok position out =>
            obtain ⟨hlt, heq⟩ := hm
            exact Or.inr ⟨heq ▸ hlt, _, rfl, by simp⟩
        | dropped position =>
            obtain ⟨hlt, heq⟩ := hm
            exact Or.inr ⟨heq ▸ hlt, _, rfl, by simp⟩
  rcases hcases with ⟨heq, hempty⟩ | ⟨hlt, s, hs, hne⟩
  · refine ⟨?_, ?_, ?_⟩
    · show before.sequence ≤ after'.sequence
      omega
    · rintro ⟨s, hs, hne⟩
      show before.sequence < after'.sequence
      rw [heq]
      rcases (hmem s).mp hs with hs | hs
      · exact hmoved ⟨s, hs, hne⟩
      · exact absurd (hempty s hs) hne
    · intro hall
      exact heq.trans (hstill fun s hs => hall s ((hmem s).mpr (Or.inl hs)))
  · refine ⟨?_, ?_, ?_⟩
    · show before.sequence ≤ after'.sequence
      omega
    · intro _
      show before.sequence < after'.sequence
      omega
    · intro hall
      exact absurd (hall s ((hmem s).mpr (Or.inr hs))) hne

/-- **EVERY STEP KEEPS THE LEDGER** of every cursor; each cursor stays where it
    was or moves by its own result, and an `Empty` finds everything that is
    published delivered or dropped. -/
theorem Ledger.step {outs : List (Output T)} (h : Ledger values b outs)
    (hsize : values.length < 2 ^ 64) (thread : Thread) :
    ∃ b' o, b.step thread = .ok (b', o) ∧ Ledger values b' (outs ++ [o]) ∧
      ∀ id c, b.consumers[id]? = some c →
        ∃ c', b'.consumers[id]? = some c' ∧
          ((c' = c ∧ ∀ r, o ≠ some (id, r)) ∨
            ∃ r, o = r.map (id, ·) ∧ Moves c c' r) ∧
          (o = some (id, .empty) →
            (delivered id (outs ++ [o])).length + c'.dropped
              = b'.producedCount) := by
  have hwithin := Nat.le_trans h.published.producer_le h.published.within
  cases thread with
  -- a push moves no cursor; it can only get further ahead
  | producer =>
      have hb := push_spec b
      obtain ⟨-, hcs, -, hle⟩ := hb.frame hsize h.published
      refine ⟨b.push, none, rfl, ⟨h.published.push hsize hb, ?_⟩, ?_⟩
      · intro id c hc
        rw [hcs] at hc
        rw [delivered_quiet rfl]
        exact (h.accounts id c hc).ahead hle
      · intro id c hc
        exact ⟨c, by rw [hcs]; exact hc, Or.inl ⟨rfl, by simp⟩, by simp⟩
  | consumer i =>
      cases hi : b.consumers[i]? with
      | none =>
          refine ⟨b, none, step_absent hi, ⟨h.published, ?_⟩, ?_⟩
          · intro id c hc
            rw [delivered_quiet rfl]
            exact h.accounts id c hc
          · intro id c hc
            exact ⟨c, hc, Or.inl ⟨rfl, by simp⟩, by simp⟩
      | some d =>
          have haccount := h.accounts i d hi
          -- one read, by cursor `i`; the others stay as they are
          obtain ⟨d', r, hread, hr⟩ := tryRead_spec b d (by
            simp [haccount.policy])
          obtain ⟨hkept, hmoves, hempty⟩ :=
            haccount.reads (by omega) hr
          refine ⟨{ b with consumers := b.consumers.set i d' },
            r.map (i, ·), step_consumer hi hread,
            ⟨h.published.consumers _, ?_⟩, ?_⟩
          · intro id c hc
            rcases consumer_set hc with ⟨rfl, rfl⟩ | ⟨hne, hc⟩
            · rw [delivered_delivers]
              exact hkept.ahead (Nat.le_refl _)
            · rw [delivered_quiet (deliveredBy_ne (Ne.symm hne) r)]
              exact (h.accounts id c hc).ahead (Nat.le_refl _)
          · intro id c hc
            by_cases hid : i = id
            · subst hid
              rw [hi] at hc
              cases hc
              refine ⟨d', ?_, Or.inr ⟨r, rfl, hmoves⟩, ?_⟩
              · have hlt := (List.getElem?_eq_some_iff.mp hi).1
                simp [List.getElem?_set_self hlt]
              · intro ho
                cases r with
                | none => cases ho
                | some r =>
                    cases ho
                    rw [delivered_quiet rfl]
                    exact hempty rfl
            · refine ⟨c, ?_, Or.inl ⟨rfl, ?_⟩, ?_⟩
              · rw [← hc]
                exact List.getElem?_set_ne hid
              · intro s hs
                cases r with
                | none => cases hs
                | some r =>
                    cases hs
                    exact hid rfl
              · intro hs
                cases r with
                | none => cases hs
                | some r =>
                    cases hs
                    exact absurd rfl hid

theorem ledger_start [Inhabited T] (capacity count : Nat) (values : List T) :
    Ledger values (.start capacity (.replicate count .lossy)
      (values.map .overwrite)) [] := by
  have hpub := published_start capacity (List.replicate count .lossy)
    (values.map Push.overwrite)
  obtain ⟨ids, heq, -⟩ := start_spec capacity (List.replicate count .lossy)
    (values.map Push.overwrite)
  have hvalues : (values.map Push.overwrite).map pushed = values := by
    rw [List.map_map]
    exact List.map_id _
  rw [hvalues] at hpub
  refine ⟨hpub, ?_⟩
  intro id c hc
  rw [heq] at hc
  obtain ⟨policy, hpolicy, rfl⟩ := Option.map_eq_some_iff.mp
    ((List.getElem?_map ..).symm.trans hc)
  have hlossy : policy = .lossy :=
    List.eq_of_mem_replicate (List.mem_of_getElem? hpolicy)
  exact ⟨hlossy, rfl, Nat.zero_le _⟩

/-- Every schedule keeps the ledger. -/
theorem Ledger.run {outs : List (Output T)} (h : Ledger values b outs)
    (hsize : values.length < 2 ^ 64) (schedule : List Thread) :
    ∃ b' outs', Execution.execute RingBuffer.step b schedule
        = .ok (b', outs') ∧
      Ledger values b' (outs ++ outs') ∧
      ∀ id c, b.consumers[id]? = some c →
        ∃ c', b'.consumers[id]? = some c' ∧ Since id c c' outs' ∧
          (outs'.getLast? = some (some (id, .empty)) →
            (delivered id (outs ++ outs')).length + c'.dropped
              = b'.producedCount) := by
  -- the induction carries where every cursor stood at the start
  have hstep : ∀ (s : RingBuffer T) (os : List (Output T)) (thread : Thread),
      (Ledger values s (outs ++ os) ∧
        ∀ id c, b.consumers[id]? = some c →
          ∃ c', s.consumers[id]? = some c' ∧ Since id c c' os ∧
            (os.getLast? = some (some (id, .empty)) →
              (delivered id (outs ++ os)).length + c'.dropped
                = s.producedCount)) → True →
      ∃ s' o, s.step thread = .ok (s', o) ∧
        Ledger values s' (outs ++ (os ++ [o])) ∧
        ∀ id c, b.consumers[id]? = some c →
          ∃ c', s'.consumers[id]? = some c' ∧ Since id c c' (os ++ [o]) ∧
            ((os ++ [o]).getLast? = some (some (id, .empty)) →
              (delivered id (outs ++ (os ++ [o]))).length + c'.dropped
                = s'.producedCount) := by
    rintro s os thread ⟨hs, hsince⟩ -
    obtain ⟨s', o, hok, hs', hmoves⟩ := hs.step hsize thread
    rw [List.append_assoc] at hs'
    refine ⟨s', o, hok, hs', ?_⟩
    intro id c hc
    obtain ⟨c1, hc1, hsince1, -⟩ := hsince id c hc
    obtain ⟨c', hc', hmove, hempty⟩ := hmoves id c1 hc1
    rw [List.append_assoc] at hempty
    refine ⟨c', hc', ?_, ?_⟩
    · rcases hmove with ⟨rfl, ho⟩ | ⟨r, rfl, hm⟩
      · exact hsince1.quiet ho
      · exact hsince1.moves hm
    · rw [List.getLast?_concat]
      intro ho
      exact hempty (Option.some.inj ho)
  obtain ⟨b', outs', hrun, h'⟩ := Execution.execute_history
    (I := fun s os => Ledger values s (outs ++ os) ∧
      ∀ id c, b.consumers[id]? = some c →
        ∃ c', s.consumers[id]? = some c' ∧ Since id c c' os ∧
          (os.getLast? = some (some (id, .empty)) →
            (delivered id (outs ++ os)).length + c'.dropped
              = s.producedCount))
    hstep schedule b []
    ⟨by rw [List.append_nil]; exact h,
      fun id c hc => ⟨c, hc, .refl id c, by simp⟩⟩
    (Execution.along_of_forall (fun _ _ => trivial) _)
  rw [List.nil_append] at h'
  exact ⟨b', outs', hrun, h'.1, h'.2⟩

/-- Between two pushes the published items are those already pushed. -/
theorem produced_and_pending {values : List T} (h : Published values b)
    {next : Nat} (hph : b.pushing = .claiming next) :
    b.producedCount + b.pushes.length = values.length := by
  have hprog := h.progress
  have hwithin := h.within
  rw [hph] at hprog
  obtain ⟨hproduced, hpushes⟩ := hprog
  have hlength := congrArg List.length hpushes
  rw [List.length_map, List.length_drop] at hlength
  show b.producerSequence + _ = _
  omega

/-- **THE ACCOUNT OF A LOSSY CURSOR IS EXACT.**  Cut any schedule in two.
    After it, a cursor between two calls has been delivered or has counted as
    dropped everything before its position, which is not past the producer.
    Over the second part the position moved forward, at every `Ok` and every
    `Dropped` and at nothing else.  And when the last step returned `Empty`,
    everything produced is delivered or dropped. -/
theorem lossy_accounts [Inhabited T] (capacity count : Nat) (values : List T)
    (hsize : values.length < 2 ^ 64) (before after : List Thread) :
    ∃ b outs b' outs',
      Execution.execute RingBuffer.step
        (.start capacity (.replicate count .lossy) (values.map .overwrite))
        before = .ok (b, outs) ∧
      Execution.execute RingBuffer.step b after = .ok (b', outs') ∧
      (∀ next, b'.pushing = .claiming next →
        b'.producedCount + b'.pushes.length = values.length) ∧
      ∀ id c, b.consumers[id]? = some c →
        ∃ c', b'.consumers[id]? = some c' ∧
          (c'.reading = .idle →
            (delivered id (outs ++ outs')).length + c'.dropped = c'.position ∧
            c'.position ≤ b'.producedCount) ∧
          Since id c c' outs' ∧
          (outs'.getLast? = some (some (id, .empty)) →
            (delivered id (outs ++ outs')).length + c'.dropped
              = b'.producedCount) := by
  obtain ⟨b, outs, hrun, h, -⟩ :=
    (ledger_start capacity count values).run hsize before
  rw [List.nil_append] at h
  obtain ⟨b', outs', hrun', h', hsince⟩ := h.run hsize after
  refine ⟨b, outs, b', outs', hrun, hrun', ?_, ?_⟩
  · intro next hph
    exact produced_and_pending h'.published hph
  · intro id c hc
    obtain ⟨c', hc', hs, hempty⟩ := hsince id c hc
    obtain ⟨-, hcounted, hbehind⟩ := h'.accounts id c' hc'
    refine ⟨c', hc', ?_, hs, hempty⟩
    intro hph
    rw [hph] at hcounted
    exact ⟨hcounted, hbehind⟩

/-- One slot, lapped twice: the cursor jumps to the last lap, finds that slot
    stale in the same call, and then reads the last item. -/
theorem lossy_accounts_lapped :
    ∃ (b : RingBuffer Nat) (outs : List (Output Nat)) (b' : RingBuffer Nat)
      (outs' : List (Output Nat)),
      Execution.execute RingBuffer.step
        (.start 1 (.replicate 1 .lossy) ([10, 20, 30].map .overwrite))
        [.producer, .producer, .producer, .producer, .producer, .producer,
          .consumer 0, .consumer 0] = .ok (b, outs) ∧
      Execution.execute RingBuffer.step b
        [.producer, .producer, .producer, .consumer 0, .consumer 0,
          .consumer 0, .consumer 0, .consumer 0, .consumer 0, .consumer 0,
          .consumer 0, .consumer 0, .consumer 0] = .ok (b', outs') ∧
      (∀ next, b'.pushing = .claiming next →
        b'.producedCount + b'.pushes.length = [10, 20, 30].length) ∧
      ∀ id c, b.consumers[id]? = some c →
        ∃ c', b'.consumers[id]? = some c' ∧
          (c'.reading = .idle →
            (delivered id (outs ++ outs')).length + c'.dropped = c'.position ∧
            c'.position ≤ b'.producedCount) ∧
          Since id c c' outs' ∧
          (outs'.getLast? = some (some (id, .empty)) →
            (delivered id (outs ++ outs')).length + c'.dropped
              = b'.producedCount) :=
  lossy_accounts 1 1 [10, 20, 30] (by decide) _ _

end OsxLossAccounting
