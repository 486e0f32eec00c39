import OsborneX.RingBufferModel

/-! # Slots — what the producer keeps in the ring

    After any interleaving a slot holds the LAST item published in it, unless
    the producer stands between its value assignment and its slot-sequence
    store: then the slot it works on already has the next lap's value under the
    last lap's sequence.  `Overwritten` names that window.  Both the lossless
    and the lossy guarantee are read off `Published`. -/

namespace OsxRingSlot

open OsxRingBuffer

variable {T : Type}

/-! ## Sequences -/

theorem addSequence_eq {a b : Nat} (h : a + b < 2 ^ 64) :
    addSequence a b = a + b := Nat.mod_eq_of_lt h

theorem subSequence_eq {a b : Nat} (hba : b ≤ a) (ha : a < 2 ^ 64) :
    subSequence a b = a - b := by
  rw [subSequence, Nat.mod_eq_of_lt (Nat.lt_of_le_of_lt hba ha)]
  have hsplit : a + (2 ^ 64 - b) = (a - b) + 2 ^ 64 := by omega
  rw [hsplit, Nat.add_mod_right, Nat.mod_eq_of_lt (by omega)]

theorem bitCeil_pow (n : Nat) : ∃ k, bitCeil n = 2 ^ k := by
  by_cases h : n ≤ 1
  · exact ⟨0, if_pos h⟩
  · exact ⟨_, if_neg h⟩

/-! ## Slot indices -/

/-- The mask selects the remainder by the capacity. -/
def Masked (b : RingBuffer T) : Prop := ∃ k, b.capacity = 2 ^ k

theorem index_val {b : RingBuffer T} (h : Masked b) (sequence : Nat) :
    (b.index sequence).val = sequence % b.capacity := by
  obtain ⟨k, hk⟩ := h
  have hmask : b.mask = 2 ^ k - 1 := by
    rw [← hk]
    rfl
  show sequence &&& b.mask = _
  rw [hmask, Nat.and_two_pow_sub_one_eq_mod, hk]

theorem index_eq_iff {b : RingBuffer T} (h : Masked b) {m n : Nat} :
    b.index m = b.index n ↔ m % b.capacity = n % b.capacity := by
  rw [← index_val h, ← index_val h]
  exact Fin.ext_iff

/-- Two sequences less than a lap apart share a slot only if they are one. -/
theorem index_ne {b : RingBuffer T} (h : Masked b) {m n : Nat}
    (hlt : m < n) (hlap : n < m + b.capacity) : b.index m ≠ b.index n := by
  intro heq
  have hmod := (index_eq_iff h).mp heq
  have hdvd : b.capacity ∣ n - m :=
    Nat.dvd_of_mod_eq_zero (Nat.sub_mod_eq_zero_of_mod_eq hmod.symm)
  have hle := Nat.le_of_dvd (by omega) hdvd
  omega

/-- Of the sequences of the last lap, one shares the slot of any before. -/
theorem exists_last_lap {capacity want next : Nat} (hcap : 0 < capacity)
    (h : want < next) :
    ∃ m, m % capacity = want % capacity ∧ want ≤ m ∧ m < next ∧
      next ≤ m + capacity := by
  have hdiv := Nat.mod_add_div (next - 1 - want) capacity
  have hmod := Nat.mod_lt (next - 1 - want) hcap
  refine ⟨want + capacity * ((next - 1 - want) / capacity), ?_, ?_, ?_, ?_⟩
  · exact Nat.add_mul_mod_self_left ..
  · exact Nat.le_add_right ..
  · omega
  · omega

/-! ## The invariant -/

/-- `m` is the last sequence published in its slot. -/
def Current (b : RingBuffer T) (m : Nat) : Prop :=
  m < b.nextToClaim ∧ b.nextToClaim ≤ m + b.capacity

/-- The slot of `m` has been assigned the next lap's value, and not yet its
    sequence. -/
def Overwritten (b : RingBuffer T) (m : Nat) : Prop :=
  b.pushing = .assigned (m + b.capacity)

instance (b : RingBuffer T) (m : Nat) : Decidable (Overwritten b m) :=
  inferInstanceAs (Decidable (_ = _))

/-- Outside the window nothing is overwritten. -/
theorem not_overwritten {b : RingBuffer T}
    (h : ∀ sequence, b.pushing ≠ .assigned sequence) (m : Nat) :
    ¬ Overwritten b m := h _

/-- The value a push carries. -/
def pushed : Push T → T
  | .blocking value => value
  | .overwrite value => value

/-- How far the producer has come with `values`, phase by phase. -/
def Progress (values : List T) (b : RingBuffer T) : Pushing → Prop
  | .claiming _ => b.producerSequence = b.nextToClaim ∧
      b.pushes.map pushed = values.drop b.nextToClaim
  | .assigned sequence => sequence = b.nextToClaim ∧
      b.producerSequence = b.nextToClaim ∧
      b.pushes.map pushed = values.drop (b.nextToClaim + 1) ∧
      values[sequence]? = some (b.slotOf sequence).value
  | .stored sequence => sequence + 1 = b.nextToClaim ∧
      b.producerSequence = sequence ∧
      b.pushes.map pushed = values.drop b.nextToClaim

/-- **WHAT THE SLOTS HOLD**, for the pushed `values`. -/
structure Published (values : List T) (b : RingBuffer T) : Prop where
  masked : Masked b
  within : b.nextToClaim ≤ values.length
  progress : Progress values b b.pushing
  sequences : ∀ m, Current b m → (b.slotOf m).seq = m
  contents : ∀ m, Current b m →
    values[if Overwritten b m then m + b.capacity else m]?
      = some (b.slotOf m).value

namespace Published

variable {values : List T} {b : RingBuffer T}

/-- The consumers never see an item before its slot is published. -/
theorem producer_le (h : Published values b) :
    b.producerSequence ≤ b.nextToClaim := by
  have hp := h.progress
  cases hph : b.pushing with
  | claiming next =>
      rw [hph] at hp
      exact Nat.le_of_eq hp.1
  | assigned sequence =>
      rw [hph] at hp
      exact Nat.le_of_eq hp.2.1
  | stored sequence =>
      rw [hph] at hp
      obtain ⟨h1, h2, -⟩ := hp
      omega

/-- A published sequence its slot still shows is the last one there. -/
theorem current_of_seq (h : Published values b) {want : Nat}
    (hlt : want < b.nextToClaim) (hseq : (b.slotOf want).seq = want) :
    Current b want := by
  obtain ⟨m, hmod, hle, hm, hlap⟩ :=
    exists_last_lap (Nat.succ_pos b.mask) hlt
  have hslot : b.slotOf m = b.slotOf want :=
    congrArg b.slots ((index_eq_iff h.masked).mpr hmod)
  have hmseq := h.sequences m ⟨hm, hlap⟩
  rw [hslot, hseq] at hmseq
  rw [hmseq]
  exact ⟨hm, hlap⟩

/-- Outside the window a current slot holds its own item. -/
theorem contents_quiet (h : Published values b)
    (hq : ∀ sequence, b.pushing ≠ .assigned sequence) :
    ∀ m, Current b m → values[m]? = some (b.slotOf m).value := by
  intro m hm
  have hold := h.contents m hm
  rw [if_neg (not_overwritten hq m)] at hold
  exact hold

/-- Consumers do not write the ring. -/
theorem consumers (h : Published values b) (cs : List (Consumer T)) :
    Published values { b with consumers := cs } where
  masked := h.masked
  within := h.within
  progress := by
    have hp := h.progress
    show Progress values _ b.pushing
    cases hph : b.pushing with
    | claiming next => rw [hph] at hp; exact hp
    | assigned sequence => rw [hph] at hp; exact hp
    | stored sequence => rw [hph] at hp; exact hp
  sequences := h.sequences
  contents := h.contents

end Published

/-! ## The producer's steps -/

/-- **WHAT THE PRODUCER'S NEXT ACCESS DOES.** -/
inductive Pushes (b : RingBuffer T) : RingBuffer T → Prop where
  | still {next : Nat} (hph : b.pushing = .claiming next) : Pushes b b
  | gated {next : Nat} {value : T} {pushes : List (Push T)}
      {consumer : Consumer T} (hph : b.pushing = .claiming next)
      (hpush : b.pushes = .blocking value :: pushes)
      (hgate : b.gate next = some consumer)
      (hfree : subSequence b.nextToClaim consumer.sequence < b.capacity) :
      Pushes b { b with pushing := .claiming (next + 1) }
  | assigned {next : Nat} {push : Push T} {pushes : List (Push T)}
      (hph : b.pushing = .claiming next) (hpush : b.pushes = push :: pushes)
      (hgate : ∀ value, push = .blocking value → b.gate next = none) :
      Pushes b (b.assign b.nextToClaim (pushed push) pushes)
  | stored {sequence : Nat} (hph : b.pushing = .assigned sequence) :
      Pushes b { b with
        slots := Function.update b.slots (b.index sequence)
          { b.slotOf sequence with seq := sequence }
        nextToClaim := addSequence sequence 1
        pushing := .stored sequence }
  | produced {sequence : Nat} (hph : b.pushing = .stored sequence) :
      Pushes b { b with
        producerSequence := addSequence sequence 1
        pushing := .claiming 0 }

theorem push_spec (b : RingBuffer T) : Pushes b b.push := by
  rw [RingBuffer.push]
  cases hph : b.pushing with
  | claiming next =>
      cases hpush : b.pushes with
      | nil => exact .still hph
      | cons push pushes =>
          cases push with
          | overwrite value => exact .assigned hph hpush (by simp)
          | blocking value =>
              cases hgate : b.gate next with
              | none =>
                  simp only [hgate]
                  exact .assigned hph hpush (fun _ _ => hgate)
              | some consumer =>
                  simp only [hgate]
                  by_cases hfull :
                      subSequence b.nextToClaim consumer.sequence ≥ b.capacity
                  · rw [if_pos hfull]
                    exact .still hph
                  · rw [if_neg hfull, ← hpush]
                    exact .gated hph hpush hgate (Nat.lt_of_not_le hfull)
  | assigned sequence => exact .stored hph
  | stored sequence => exact .produced hph

/-- The producer leaves the consumers alone, and only counts up. -/
theorem Pushes.frame {values : List T} {b b' : RingBuffer T}
    (hsize : values.length < 2 ^ 64) (h : Published values b)
    (hp : Pushes b b') :
    b'.mask = b.mask ∧ b'.consumers = b.consumers ∧
      b'.losslessConsumers = b.losslessConsumers ∧
      b.producerSequence ≤ b'.producerSequence := by
  have hprog := h.progress
  have hwithin := h.within
  cases hp with
  | still _ => exact ⟨rfl, rfl, rfl, Nat.le_refl _⟩
  | gated _ _ _ _ => exact ⟨rfl, rfl, rfl, Nat.le_refl _⟩
  | assigned _ _ _ => exact ⟨rfl, rfl, rfl, Nat.le_refl _⟩
  | stored _ => exact ⟨rfl, rfl, rfl, Nat.le_refl _⟩
  | produced hph =>
      rw [hph] at hprog
      obtain ⟨h1, h2, -⟩ := hprog
      refine ⟨rfl, rfl, rfl, ?_⟩
      show b.producerSequence ≤ addSequence _ 1
      rw [addSequence_eq (by omega)]
      omega

/-- Writing one slot leaves the others. -/
theorem slotOf_update {b b' : RingBuffer T} {slot : Slot T} {m n : Nat}
    (hmask : b' = { b with
      slots := Function.update b.slots (b.index n) slot
      producerSequence := b'.producerSequence
      nextToClaim := b'.nextToClaim
      pushing := b'.pushing
      pushes := b'.pushes }) :
    b'.slotOf m = if b.index m = b.index n then slot else b.slotOf m := by
  rw [hmask]
  show Function.update b.slots (b.index n) slot (b.index m) = _
  rw [Function.update_apply]
  rfl

namespace Published

variable {values : List T} {b : RingBuffer T}

theorem assign (h : Published values b) {next : Nat} {push : Push T}
    {pushes : List (Push T)} (hph : b.pushing = .claiming next)
    (hpush : b.pushes = push :: pushes) :
    Published values (b.assign b.nextToClaim (pushed push) pushes) := by
  have hprog := h.progress
  rw [hph] at hprog
  obtain ⟨hproduced, hrest⟩ := hprog
  rw [hpush, List.map_cons] at hrest
  have hslot : ∀ m, (b.assign b.nextToClaim (pushed push) pushes).slotOf m
      = if b.index m = b.index b.nextToClaim then
          { b.slotOf b.nextToClaim with value := pushed push }
        else b.slotOf m := fun m => slotOf_update rfl
  have hhead : values[b.nextToClaim]? = some (pushed push) := by
    rw [← List.head?_drop, ← hrest]
    rfl
  have htail : pushes.map pushed = values.drop (b.nextToClaim + 1) := by
    rw [← List.tail_drop, ← hrest]
    rfl
  refine ⟨h.masked, h.within, ?_, fun m hm => ?_, fun m hm => ?_⟩
  · refine ⟨rfl, hproduced, htail, ?_⟩
    rw [hslot, if_pos rfl]
    exact hhead
  · -- only the value of the slot changes
    rw [hslot]
    by_cases heq : b.index m = b.index b.nextToClaim
    · rw [if_pos heq]
      have hsame : b.slotOf b.nextToClaim = b.slotOf m :=
        congrArg b.slots heq.symm
      show (b.slotOf b.nextToClaim).seq = m
      rw [hsame]
      exact h.sequences m hm
    · rw [if_neg heq]
      exact h.sequences m hm
  · have hcap : (b.assign b.nextToClaim (pushed push) pushes).capacity
        = b.capacity := rfl
    rw [hslot]
    by_cases heq : b.index m = b.index b.nextToClaim
    · -- the slot of the last lap's item is the one written
      have hlap : m + b.capacity = b.nextToClaim := by
        by_contra hne
        have hlt : b.nextToClaim < m + b.capacity :=
          Nat.lt_of_le_of_ne hm.2 (Ne.symm hne)
        exact index_ne h.masked hm.1 hlt heq
      have hover : Overwritten
          (b.assign b.nextToClaim (pushed push) pushes) m := by
        rw [Overwritten, hcap, hlap]
        rfl
      rw [if_pos heq, if_pos hover, hcap, hlap]
      exact hhead
    · have hnot : ¬ Overwritten
          (b.assign b.nextToClaim (pushed push) pushes) m := by
        intro hover
        have hlap : b.nextToClaim = m + b.capacity :=
          Pushing.assigned.inj hover
        refine heq ((index_eq_iff h.masked).mpr ?_)
        rw [hlap, Nat.add_mod_right]
      rw [if_neg heq, if_neg hnot]
      exact h.contents_quiet (by simp [hph]) m hm

theorem store (h : Published values b) (hsize : values.length < 2 ^ 64)
    {sequence : Nat} (hph : b.pushing = .assigned sequence) :
    Published values { b with
      slots := Function.update b.slots (b.index sequence)
        { b.slotOf sequence with seq := sequence }
      nextToClaim := addSequence sequence 1
      pushing := .stored sequence } := by
  have hprog := h.progress
  rw [hph] at hprog
  obtain ⟨hnext, hproduced, hrest, hvalue⟩ := hprog
  obtain ⟨hlt, -⟩ := List.getElem?_eq_some_iff.mp hvalue
  have hone : addSequence sequence 1 = sequence + 1 :=
    addSequence_eq (by omega)
  rw [hone]
  generalize hb' : ({ b with
    slots := Function.update b.slots (b.index sequence)
      { b.slotOf sequence with seq := sequence }
    nextToClaim := sequence + 1
    pushing := .stored sequence } : RingBuffer T) = b'
  have hslot : ∀ m, b'.slotOf m
      = if b.index m = b.index sequence then
          { b.slotOf sequence with seq := sequence }
        else b.slotOf m := by
    intro m
    subst hb'
    exact slotOf_update rfl
  have hcap : b'.capacity = b.capacity := by rw [← hb']; rfl
  have hclaim : b'.nextToClaim = sequence + 1 := by rw [← hb']
  have hpushing : b'.pushing = .stored sequence := by rw [← hb']
  have hnot : ∀ m, ¬ Overwritten b' m :=
    not_overwritten (by simp [hpushing])
  -- the other current items were current, and are not overwritten
  have hbefore : ∀ m, Current b' m → m ≠ sequence → Current b m ∧
      sequence < m + b.capacity := by
    rintro m ⟨h1, h2⟩ hne
    rw [hclaim] at h1 h2
    rw [hcap] at h2
    exact ⟨⟨by omega, by omega⟩, by omega⟩
  refine ⟨?_, ?_, ?_, fun m hm => ?_, fun m hm => ?_⟩
  · obtain ⟨k, hk⟩ := h.masked
    exact ⟨k, by rw [hcap]; exact hk⟩
  · rw [hclaim]
    exact hlt
  · rw [hpushing]
    subst hb'
    exact ⟨rfl, by rw [hproduced, hnext], by rw [hrest, hnext]⟩
  · rw [hslot]
    by_cases hm' : m = sequence
    · subst hm'
      rw [if_pos rfl]
    · obtain ⟨hcur, hlap⟩ := hbefore m hm hm'
      have hlt' : m < sequence := by
        have := hcur.1
        omega
      rw [if_neg (index_ne h.masked hlt' hlap)]
      exact h.sequences m hcur
  · rw [hslot, if_neg (hnot m)]
    by_cases hm' : m = sequence
    · subst hm'
      rw [if_pos rfl]
      exact hvalue
    · obtain ⟨hcur, hlap⟩ := hbefore m hm hm'
      have hlt' : m < sequence := by
        have := hcur.1
        omega
      have hold := h.contents m hcur
      have hover : ¬ Overwritten b m := by
        intro hover
        rw [Overwritten, hph] at hover
        have := Pushing.assigned.inj hover
        omega
      rw [if_neg hover] at hold
      rw [if_neg (index_ne h.masked hlt' hlap)]
      exact hold

/-- **EVERY PRODUCER STEP KEEPS THE SLOTS.** -/
theorem push (h : Published values b) (hsize : values.length < 2 ^ 64)
    {b' : RingBuffer T} (hp : Pushes b b') : Published values b' := by
  have hprog := h.progress
  have hwithin := h.within
  cases hp with
  | still _ => exact h
  | @gated next _ _ _ hph hpush hgate hfree =>
      rw [hph] at hprog
      refine ⟨h.masked, h.within, hprog, h.sequences, fun m hm => ?_⟩
      refine (congrArg (values[·]?) (if_neg (not_overwritten ?_ m))).trans
        (h.contents_quiet (by simp [hph]) m hm)
      simp
  | assigned hph hpush _ => exact h.assign hph hpush
  | stored hph => exact h.store hsize hph
  | @produced sequence hph =>
      rw [hph] at hprog
      obtain ⟨h1, h2, h3⟩ := hprog
      have hone : addSequence sequence 1 = b.nextToClaim := by
        rw [addSequence_eq (by omega), h1]
      refine ⟨h.masked, h.within, ⟨hone, h3⟩, h.sequences, fun m hm => ?_⟩
      refine (congrArg (values[·]?) (if_neg (not_overwritten ?_ m))).trans
        (h.contents_quiet (by simp [hph]) m hm)
      simp

end Published

/-! ## The consumers' steps -/

/-- **WHAT A CONSUMER'S NEXT ACCESS DOES.** -/
inductive Reads (b : RingBuffer T) (c : Consumer T) :
    Consumer T → Option (ReadResult T) → Prop where
  | called (hph : c.reading = .idle) :
      Reads b c { c with reading := .wanting c.sequence } none
  | empty {want : Nat} (hph : c.reading = .wanting want)
      (hle : b.producerSequence ≤ want) :
      Reads b c { c with reading := .idle } (some .empty)
  | skipped {want : Nat} (hph : c.reading = .wanting want)
      (hlt : want < b.producerSequence) (hpolicy : c.policy = .lossy)
      (hfar : b.capacity < subSequence b.producerSequence want) :
      Reads b c { c with
        dropped := addSequence c.dropped
          (subSequence (subSequence b.producerSequence b.capacity) want)
        reading := .claimed (subSequence b.producerSequence b.capacity) }
        none
  | claimed {want : Nat} (hph : c.reading = .wanting want)
      (hlt : want < b.producerSequence) :
      Reads b c { c with reading := .claimed want } none
  | checked {want : Nat} (hph : c.reading = .claimed want)
      (hseq : (b.slotOf want).seq = want) :
      Reads b c { c with reading := .checked want } none
  | copied {want : Nat} (hph : c.reading = .checked want) :
      Reads b c { c with reading := .copied want (b.slotOf want).value } none
  | confirmed {want : Nat} {out : T} (hph : c.reading = .copied want out)
      (hseq : (b.slotOf want).seq = want) :
      Reads b c { c with reading := .confirmed want out } none
  | stale {want : Nat} (hpolicy : c.policy = .lossy)
      (hph : c.reading = .claimed want ∨ ∃ out, c.reading = .copied want out)
      (hseq : (b.slotOf want).seq ≠ want) :
      Reads b c { c with
        dropped := addSequence c.dropped 1
        reading := .stale want } none
  | returned {want : Nat} {out : T} (hph : c.reading = .confirmed want out) :
      Reads b c { c with
        sequence := addSequence want 1
        reading := .idle } (some (.ok (addSequence want 1) out))
  | gaveUp {want : Nat} (hph : c.reading = .stale want) :
      Reads b c { c with
        sequence := addSequence want 1
        reading := .idle } (some (.dropped (addSequence want 1)))

/-- The slot a consumer is about to check no longer shows its sequence. -/
def Outrun (b : RingBuffer T) (c : Consumer T) : Prop :=
  ∃ want, (c.reading = .claimed want ∨ ∃ out, c.reading = .copied want out) ∧
    (b.slotOf want).seq ≠ want

/-- A consumer's access goes through unless a Lossless one is outrun. -/
theorem tryRead_spec (b : RingBuffer T) (c : Consumer T)
    (h : c.policy = .lossless → ¬ Outrun b c) :
    ∃ c' r, c.tryRead b = .ok (c', r) ∧ Reads b c c' r := by
  have hstale : ∀ want,
      (c.reading = .claimed want ∨ ∃ out, c.reading = .copied want out) →
      (b.slotOf want).seq ≠ want →
      c.policy = .lossy := by
    intro want hph hseq
    cases hpolicy : c.policy with
    | lossy => rfl
    | lossless => exact absurd ⟨want, hph, hseq⟩ (h hpolicy)
  rw [Consumer.tryRead]
  cases hph : c.reading with
  | idle => exact ⟨_, _, rfl, .called hph⟩
  | wanting want =>
      by_cases hle : want ≥ b.producerSequence
      · refine ⟨_, _, if_pos hle, .empty hph hle⟩
      · have hlt : want < b.producerSequence := Nat.lt_of_not_le hle
        by_cases hfar : c.policy = .lossy ∧
            subSequence b.producerSequence want > b.capacity
        · refine ⟨_, _, (if_neg hle).trans (if_pos hfar), ?_⟩
          exact .skipped hph hlt hfar.1 hfar.2
        · exact ⟨_, _, (if_neg hle).trans (if_neg hfar), .claimed hph hlt⟩
  | claimed want =>
      by_cases hseq : (b.slotOf want).seq ≠ want
      · have hlossy := hstale want (Or.inl hph) hseq
        exact ⟨_, _, (if_pos hseq).trans (if_pos hlossy),
          .stale hlossy (Or.inl hph) hseq⟩
      · exact ⟨_, _, if_neg hseq, .checked hph (not_not.mp hseq)⟩
  | checked want => exact ⟨_, _, rfl, .copied hph⟩
  | copied want out =>
      by_cases hseq : (b.slotOf want).seq ≠ want
      · have hlossy := hstale want (Or.inr ⟨out, hph⟩) hseq
        exact ⟨_, _, (if_pos hseq).trans (if_pos hlossy),
          .stale hlossy (Or.inr ⟨out, hph⟩) hseq⟩
      · exact ⟨_, _, if_neg hseq, .confirmed hph (not_not.mp hseq)⟩
  | confirmed want out => exact ⟨_, _, rfl, .returned hph⟩
  | stale want => exact ⟨_, _, rfl, .gaveUp hph⟩

theorem Reads.policy {b : RingBuffer T} {c c' : Consumer T}
    {r : Option (ReadResult T)} (h : Reads b c c' r) :
    c'.policy = c.policy := by
  cases h <;> rfl

theorem step_consumer {b : RingBuffer T} {id : ConsumerId}
    {c c' : Consumer T} {r : Option (ReadResult T)}
    (hc : b.consumers[id]? = some c) (h : c.tryRead b = .ok (c', r)) :
    b.step (.consumer id)
      = .ok ({ b with consumers := b.consumers.set id c' }, r.map (id, ·)) := by
  rw [RingBuffer.step]
  simp only [hc, h]
  rfl

theorem step_absent {b : RingBuffer T} {id : ConsumerId}
    (hc : b.consumers[id]? = none) : b.step (.consumer id) = .ok (b, none) := by
  rw [RingBuffer.step]
  simp only [hc]

/-- A consumer after one of them moved: the one that moved, or as it was. -/
theorem consumer_set {cs : List (Consumer T)} {id i : ConsumerId}
    {c' d : Consumer T} (h : (cs.set id c')[i]? = some d) :
    (i = id ∧ d = c') ∨ (i ≠ id ∧ cs[i]? = some d) := by
  by_cases hi : id = i
  · subst hi
    rw [List.getElem?_set_self'] at h
    obtain ⟨d', -, rfl⟩ := Option.map_eq_some_iff.mp h
    exact Or.inl ⟨rfl, rfl⟩
  · rw [List.getElem?_set_ne hi] at h
    exact Or.inr ⟨Ne.symm hi, h⟩

/-! ## Deliveries -/

/-- What a step returns, and to whom. -/
abbrev Output (T : Type) := Option (ConsumerId × ReadResult T)

/-- The cursor's new position and the value, when a call of `id` returns
    `Ok`. -/
def deliveredBy (id : ConsumerId) : Output T → Option (Nat × T)
  | some (i, .ok position out) => if i = id then some (position, out) else none
  | _ => none

/-- The deliveries to consumer `id`, in order. -/
def delivered (id : ConsumerId) (outs : List (Output T)) : List (Nat × T) :=
  outs.filterMap (deliveredBy id)

/-- An output that delivers nothing. -/
theorem delivered_quiet {id : ConsumerId} {o : Output T}
    (h : deliveredBy id o = none) (outs : List (Output T)) :
    delivered id (outs ++ [o]) = delivered id outs := by
  rw [delivered, List.filterMap_append, List.filterMap_cons_none h]
  exact List.append_nil _

theorem delivered_ok (id : ConsumerId) (position : Nat) (out : T)
    (outs : List (Output T)) :
    delivered id (outs ++ [(some (ReadResult.ok position out)).map (id, ·)])
      = delivered id outs ++ [(position, out)] := by
  have h : deliveredBy id ((some (ReadResult.ok position out)).map (id, ·))
      = some (position, out) := if_pos rfl
  rw [delivered, List.filterMap_append, List.filterMap_cons_some h]
  rfl

/-- Another consumer's result delivers nothing. -/
theorem deliveredBy_ne {id i : ConsumerId} (h : i ≠ id)
    (r : Option (ReadResult T)) : deliveredBy id (r.map (i, ·)) = none := by
  cases r with
  | none => rfl
  | some r =>
      cases r with
      | empty => rfl
      | ok _ _ => exact if_neg h
      | dropped _ => rfl

/-! ## The start -/

/-- A consumer just registered. -/
def registered (policy : ConsumerPolicy) : Consumer T := ⟨policy, 0, 0, .idle⟩

/-- The gating loop looks at the Lossless consumers, and at no other. -/
def Gated (b : RingBuffer T) : Prop :=
  ∀ id, id ∈ b.losslessConsumers ↔
    ∃ c, b.consumers[id]? = some c ∧ c.policy = .lossless

theorem gated_addConsumer {b : RingBuffer T} (h : Gated b)
    (policy : ConsumerPolicy) : Gated (b.addConsumer policy) := by
  intro id
  have hcs : (b.addConsumer policy).consumers
      = b.consumers ++ [registered policy] := rfl
  have hlast : ∀ c, (b.addConsumer policy).consumers[id]? = some c ↔
      b.consumers[id]? = some c ∨
        (id = b.consumers.length ∧ c = registered policy) := by
    intro c
    rw [hcs]
    rcases Nat.lt_trichotomy id b.consumers.length with hid | hid | hid
    · rw [List.getElem?_append_left hid]
      constructor
      · exact Or.inl
      · rintro (h1 | ⟨h1, -⟩)
        · exact h1
        · exact absurd h1 (Nat.ne_of_lt hid)
    · subst hid
      rw [List.getElem?_concat_length, List.getElem?_eq_none (Nat.le_refl _)]
      constructor
      · exact fun h1 => Or.inr ⟨rfl, (Option.some.inj h1).symm⟩
      · rintro (h1 | ⟨-, rfl⟩)
        · cases h1
        · rfl
    · rw [List.getElem?_eq_none (by rw [List.length_append]; exact hid),
        List.getElem?_eq_none (Nat.le_of_lt hid)]
      constructor
      · simp
      · rintro (h1 | ⟨h1, -⟩)
        · cases h1
        · exact absurd h1 (Nat.ne_of_gt hid)
  have hids : id ∈ (b.addConsumer policy).losslessConsumers ↔
      id ∈ b.losslessConsumers ∨
        (id = b.consumers.length ∧ policy = .lossless) := by
    show id ∈ (if policy = .lossless then
      b.losslessConsumers ++ [b.consumers.length]
      else b.losslessConsumers) ↔ _
    by_cases hp : policy = .lossless
    · rw [if_pos hp, List.mem_append, List.mem_singleton]
      tauto
    · rw [if_neg hp]
      tauto
  rw [hids, h id]
  constructor
  · rintro (⟨c, hc, hp⟩ | ⟨hid, hp⟩)
    · exact ⟨c, (hlast c).mpr (Or.inl hc), hp⟩
    · exact ⟨_, (hlast _).mpr (Or.inr ⟨hid, rfl⟩), hp⟩
  · rintro ⟨c, hc, hp⟩
    rcases (hlast c).mp hc with hc | ⟨hid, rfl⟩
    · exact Or.inl ⟨c, hc, hp⟩
    · exact Or.inr ⟨hid, hp⟩

/-- Registering the consumers changes nothing else. -/
theorem addConsumers_spec (policies : List ConsumerPolicy) :
    ∀ b : RingBuffer T, Gated b →
      ∃ ids, policies.foldl RingBuffer.addConsumer b = { b with
          consumers := b.consumers ++ policies.map registered
          losslessConsumers := ids } ∧
        Gated (policies.foldl RingBuffer.addConsumer b) := by
  induction policies with
  | nil =>
      intro b h
      refine ⟨b.losslessConsumers, ?_, h⟩
      rw [List.map_nil, List.append_nil]
      rfl
  | cons policy policies ih =>
      intro b h
      obtain ⟨ids, heq, hg⟩ := ih _ (gated_addConsumer h policy)
      refine ⟨ids, ?_, hg⟩
      rw [List.foldl_cons, heq, List.map_cons]
      simp only [RingBuffer.addConsumer, List.append_assoc]
      rfl

variable [Inhabited T]

/-- **THE BUFFER AT THE START** of production. -/
theorem start_spec (capacity : Nat) (policies : List ConsumerPolicy)
    (pushes : List (Push T)) :
    ∃ ids, RingBuffer.start capacity policies pushes
      = { RingBuffer.new capacity pushes with
          consumers := policies.map registered
          losslessConsumers := ids } ∧
      Gated (RingBuffer.start capacity policies pushes) := by
  have hg : Gated (RingBuffer.new capacity pushes) := by
    intro id
    constructor
    · intro h
      cases h
    · rintro ⟨c, hc, -⟩
      cases hc
  obtain ⟨ids, heq, hg'⟩ := addConsumers_spec policies _ hg
  exact ⟨ids, heq, hg'⟩

/-- The capacity is the one asked for, rounded up to a power of two. -/
theorem capacity_start (capacity : Nat) (policies : List ConsumerPolicy)
    (pushes : List (Push T)) :
    (RingBuffer.start capacity policies pushes).capacity
      = bitCeil (if capacity = 0 then 1 else capacity) := by
  obtain ⟨ids, heq, -⟩ := start_spec capacity policies pushes
  rw [heq]
  obtain ⟨k, hk⟩ := bitCeil_pow (if capacity = 0 then 1 else capacity)
  show bitCeil (if capacity = 0 then 1 else capacity) - 1 + 1 = _
  have hpos : 0 < 2 ^ k := Nat.two_pow_pos k
  omega

theorem published_start (capacity : Nat) (policies : List ConsumerPolicy)
    (pushes : List (Push T)) :
    Published (pushes.map pushed)
      (RingBuffer.start capacity policies pushes) := by
  have hcap := capacity_start capacity policies pushes
  obtain ⟨ids, heq, -⟩ := start_spec capacity policies pushes
  obtain ⟨k, hk⟩ := bitCeil_pow (if capacity = 0 then 1 else capacity)
  refine ⟨⟨k, hcap.trans hk⟩, ?_, ?_, ?_, ?_⟩
  · rw [heq]
    exact Nat.zero_le _
  · rw [heq]
    exact ⟨rfl, rfl⟩
  · rintro m ⟨hm, -⟩
    rw [heq] at hm
    exact absurd hm (Nat.not_lt_zero m)
  · rintro m ⟨hm, -⟩
    rw [heq] at hm
    exact absurd hm (Nat.not_lt_zero m)

end OsxRingSlot
