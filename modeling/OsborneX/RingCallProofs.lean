import OsborneX.RingSlotProofs

/-! # Whole calls — a push and a read without interruption

    Where a call of the ring buffer is taken as one step, `pushOverwrite` and
    `tryRead` are what it does; they are the accesses of the interleaved model
    made in a row (`push_steps`, `read_steps`).  Between whole calls the ring
    holds its last lap, so a Lossy cursor never finds a slot stale: it reads the
    next item, or jumps to the last lap and counts what it skips. -/

namespace OsxRingCall

open OsxRingBuffer OsxRingSlot Execution

variable {T : Type}

/-! ## The calls -/

/-- `push_overwrite`. -/
def pushOverwrite (b : RingBuffer T) (value : T) : RingBuffer T :=
  let sequence := b.nextToClaim
  { b with
    slots := Function.update b.slots (b.index sequence) ⟨sequence, value⟩
    nextToClaim := addSequence sequence 1
    producerSequence := addSequence sequence 1 }

/-- Where a read starts, and the losses counted so far: a Lossy cursor too far
    behind is moved up. -/
def catchUp (owner : RingBuffer T) (c : Consumer T) : Nat × Nat :=
  let produced := owner.producerSequence
  if c.policy = .lossy ∧ subSequence produced c.sequence > owner.capacity then
    let target := subSequence produced owner.capacity
    (target, addSequence c.dropped (subSequence target c.sequence))
  else (c.sequence, c.dropped)

/-- `try_read`. -/
def tryRead (owner : RingBuffer T) (c : Consumer T) :
    Except OsxRingBuffer.Fault (Consumer T × ReadResult T) :=
  if c.sequence ≥ owner.producerSequence then .ok (c, .empty)
  else
    let (want, dropped) := catchUp owner c
    let position := addSequence want 1
    if (owner.slotOf want).seq ≠ want then
      if c.policy = .lossy then
        .ok ({ c with sequence := position, dropped := addSequence dropped 1 },
          .dropped position)
      else .error .gatingBroken
    else
      .ok ({ c with sequence := position, dropped := dropped },
        .ok position (owner.slotOf want).value)

/-- A push is the producer's accesses in a row. -/
theorem push_steps {b : RingBuffer T} {value : T} {pushes : List (Push T)}
    {next : Nat} (hclaiming : b.pushing = .claiming next)
    (hpushes : b.pushes = .overwrite value :: pushes) :
    b.push.push.push = { pushOverwrite b value with
      pushing := .claiming 0, pushes := pushes } := by
  have hassign : b.push = b.assign b.nextToClaim value pushes := by
    rw [RingBuffer.push, hclaiming, hpushes]
  have hslot : (b.assign b.nextToClaim value pushes).slotOf b.nextToClaim
      = { b.slotOf b.nextToClaim with value := value } :=
    Function.update_self ..
  rw [hassign, RingBuffer.push]
  show RingBuffer.push { b with
    slots := Function.update (Function.update b.slots (b.index b.nextToClaim) _)
      (b.index b.nextToClaim)
      { (b.assign b.nextToClaim value pushes).slotOf b.nextToClaim with
        seq := b.nextToClaim }
    nextToClaim := addSequence b.nextToClaim 1
    pushing := .stored b.nextToClaim
    pushes := pushes } = _
  rw [hslot, Function.update_idem]
  rfl

/-- The second access of a read that finds something moves the cursor up. -/
theorem catchUp_step {owner : RingBuffer T} {c : Consumer T}
    (hlt : c.sequence < owner.producerSequence) :
    Consumer.tryRead { c with reading := .wanting c.sequence } owner
      = .ok ({ c with
          dropped := (catchUp owner c).2
          reading := .claimed (catchUp owner c).1 }, none) := by
  rw [Consumer.tryRead, catchUp]
  dsimp only
  rw [if_neg (Nat.not_le.mpr hlt)]
  split <;> rfl

/-- A read is the consumer's accesses in a row. -/
theorem read_steps {owner : RingBuffer T} {c c' : Consumer T}
    {r : ReadResult T} (hidle : c.reading = .idle)
    (h : tryRead owner c = .ok (c', r)) :
    ∃ n, execute (fun (c : Consumer T) (_ : Unit) => c.tryRead owner) c
        (List.replicate (n + 1) ())
      = .ok (c', List.replicate n none ++ [some r]) := by
  have hcalled : c.tryRead owner
      = .ok ({ c with reading := .wanting c.sequence }, none) := by
    rw [Consumer.tryRead, hidle]
  rw [tryRead] at h
  -- one case for each path through the call: empty, stale or copied
  by_cases hge : c.sequence ≥ owner.producerSequence
  · rw [if_pos hge] at h
    cases h
    refine ⟨1, execute_cons_of hcalled (execute_cons_of ?_ rfl)⟩
    rw [Consumer.tryRead]
    dsimp only
    rw [if_pos hge, ← hidle]
  · rw [if_neg hge] at h
    have hstep := catchUp_step (Nat.lt_of_not_le hge)
    dsimp only at h
    by_cases hseq : (owner.slotOf (catchUp owner c).1).seq ≠ (catchUp owner c).1
    · rw [if_pos hseq] at h
      split at h
      · rename_i hlossy
        cases h
        have hstale : Consumer.tryRead { c with
            dropped := (catchUp owner c).2
            reading := .claimed (catchUp owner c).1 } owner
            = .ok ({ c with
                dropped := addSequence (catchUp owner c).2 1
                reading := .stale (catchUp owner c).1 }, none) := by
          rw [Consumer.tryRead]
          dsimp only
          rw [if_pos hseq, Consumer.reportStaleSlot, if_pos hlossy]
        have hgaveUp : Consumer.tryRead { c with
            dropped := addSequence (catchUp owner c).2 1
            reading := .stale (catchUp owner c).1 } owner
            = .ok ({ c with
                sequence := addSequence (catchUp owner c).1 1
                dropped := addSequence (catchUp owner c).2 1 },
              some (.dropped (addSequence (catchUp owner c).1 1))) := by
          rw [Consumer.tryRead, ← hidle]
        exact ⟨3, execute_cons_of hcalled (execute_cons_of hstep
          (execute_cons_of hstale (execute_cons_of hgaveUp rfl)))⟩
      · cases h
    · rw [if_neg hseq] at h
      cases h
      have hchecked : ∀ d : Nat, Consumer.tryRead { c with
          dropped := d, reading := .claimed (catchUp owner c).1 } owner
          = .ok ({ c with
              dropped := d, reading := .checked (catchUp owner c).1 }, none) := by
        intro d
        rw [Consumer.tryRead]
        dsimp only
        rw [if_neg hseq]
      have hconfirmed : ∀ (d : Nat) (out : T), Consumer.tryRead { c with
          dropped := d, reading := .copied (catchUp owner c).1 out } owner
          = .ok ({ c with
              dropped := d
              reading := .confirmed (catchUp owner c).1 out }, none) := by
        intro d out
        rw [Consumer.tryRead]
        dsimp only
        rw [if_neg hseq]
      refine ⟨5, execute_cons_of hcalled (execute_cons_of hstep
        (execute_cons_of (hchecked _) (execute_cons_of rfl
          (execute_cons_of (hconfirmed _ _) (execute_cons_of rfl ?_)))))⟩
      rw [← hidle]
      rfl

/-! ## The ring between calls -/

/-- No push is under way, and `values` were pushed. -/
structure Settled (values : List T) (b : RingBuffer T) : Prop where
  published : Published values b
  claiming : b.pushing = .claiming 0
  done : b.pushes = []

variable {values : List T} {b : RingBuffer T}

theorem Settled.produced (h : Settled values b) :
    b.nextToClaim = values.length ∧ b.producerSequence = values.length := by
  have hprogress := h.published.progress
  rw [h.claiming] at hprogress
  obtain ⟨hsame, hrest⟩ := hprogress
  have hwithin := h.published.within
  rw [h.done, List.map_nil] at hrest
  have hall := List.drop_eq_nil_iff.mp hrest.symm
  omega

theorem settled_new [Inhabited T] (capacity : Nat) :
    Settled ([] : List T) (.new capacity []) :=
  ⟨published_start capacity [] [], rfl, rfl⟩

/-- Consumers do not write the ring. -/
theorem Settled.consumers (h : Settled values b) (cs : List (Consumer T)) :
    Settled values { b with consumers := cs } :=
  ⟨h.published.consumers cs, h.claiming, h.done⟩

theorem addConsumer_lossy (b : RingBuffer T) :
    b.addConsumer .lossy
      = { b with consumers := b.consumers ++ [⟨.lossy, 0, 0, .idle⟩] } := by
  rw [RingBuffer.addConsumer, if_neg ConsumerPolicy.noConfusion]

/-- One value more, still to be pushed. -/
theorem Settled.extend (h : Settled values b) (value : T) :
    Published (values ++ [value]) { b with pushes := [.overwrite value] } := by
  obtain ⟨hnext, hproduced⟩ := h.produced
  have hquiet : ∀ sequence, b.pushing ≠ .assigned sequence := by
    rw [h.claiming]
    exact fun _ => Pushing.noConfusion
  refine ⟨h.published.masked, ?_, ?_, h.published.sequences, fun m hm => ?_⟩
  · rw [List.length_append]
    exact Nat.le_trans h.published.within (Nat.le_add_right ..)
  · show Progress _ _ b.pushing
    rw [h.claiming]
    refine ⟨hproduced.trans hnext.symm, ?_⟩
    show [value] = (values ++ [value]).drop b.nextToClaim
    rw [hnext, List.drop_left]
  · have hold := h.published.contents_quiet hquiet m hm
    obtain ⟨hlt, -⟩ := List.getElem?_eq_some_iff.mp hold
    refine (congrArg _ (if_neg (not_overwritten hquiet m))).trans ?_
    rw [List.getElem?_append_left hlt]
    exact hold

/-- **A PUSH** leaves the ring settled with one value more. -/
theorem Settled.push (h : Settled values b) (value : T)
    (hsize : values.length + 1 < 2 ^ 64) :
    Settled (values ++ [value]) (pushOverwrite b value) := by
  have hsize' : (values ++ [value]).length < 2 ^ 64 := by
    rw [List.length_append]
    exact hsize
  have h₀ := h.extend value
  have h₁ := h₀.push hsize' (push_spec _)
  have h₂ := h₁.push hsize' (push_spec _)
  have h₃ := h₂.push hsize' (push_spec _)
  rw [push_steps (b := { b with pushes := [.overwrite value] }) h.claiming
    rfl] at h₃
  have hsame : ({ pushOverwrite { b with pushes := [.overwrite value] } value with
      pushing := .claiming 0, pushes := [] } : RingBuffer T)
      = pushOverwrite b value := by
    rw [pushOverwrite, pushOverwrite, h.claiming, h.done]
    rfl
  rw [hsame] at h₃
  exact ⟨h₃, h.claiming, h.done⟩

/-- A Lossy cursor between calls, and what it has delivered: nothing is missing
    from the items before its position but what it counted. -/
structure Reader (values : List T) (c : Consumer T) (delivered : List T) :
    Prop where
  policy : c.policy = .lossy
  behind : c.sequence ≤ values.length
  delivers : delivered.Sublist (values.take c.sequence)
  counted : delivered.length + c.dropped = c.sequence

theorem reader_new (values : List T) : Reader values ⟨.lossy, 0, 0, .idle⟩ [] :=
  ⟨rfl, Nat.zero_le _, List.Sublist.refl _, rfl⟩

/-- A push is still to be read. -/
theorem Reader.push {c : Consumer T} {delivered : List T}
    (h : Reader values c delivered) (value : T) :
    Reader (values ++ [value]) c delivered := by
  refine ⟨h.policy, ?_, ?_, h.counted⟩
  · rw [List.length_append]
    exact Nat.le_trans h.behind (Nat.le_add_right ..)
  · rw [List.take_append_of_le_length h.behind]
    exact h.delivers

/-- Where a read starts: at the cursor, or at the last lap. -/
theorem catchUp_eq (h : Settled values b) (hsize : values.length < 2 ^ 64)
    {c : Consumer T} {delivered : List T} (hr : Reader values c delivered)
    (hlt : c.sequence < values.length) :
    ∃ want, catchUp b c = (want, c.dropped + (want - c.sequence)) ∧
      c.sequence ≤ want ∧ want < values.length ∧
      values.length ≤ want + b.capacity := by
  obtain ⟨-, hproduced⟩ := h.produced
  have hcounted := hr.counted
  rw [catchUp, hproduced]
  dsimp only
  rw [subSequence_eq (Nat.le_of_lt hlt) hsize]
  by_cases hfar : values.length - c.sequence > b.capacity
  · have htarget : subSequence values.length b.capacity
        = values.length - b.capacity := subSequence_eq (by omega) hsize
    have hjump : subSequence (values.length - b.capacity) c.sequence
        = values.length - b.capacity - c.sequence :=
      subSequence_eq (by omega) (by omega)
    have hcap : 0 < b.capacity := Nat.succ_pos b.mask
    rw [if_pos ⟨hr.policy, hfar⟩, htarget, hjump, addSequence_eq (by omega)]
    exact ⟨_, rfl, by omega, by omega, by omega⟩
  · rw [if_neg (fun hboth => hfar hboth.2)]
    exact ⟨c.sequence, by rw [Nat.sub_self, Nat.add_zero], Nat.le_refl _, hlt,
      by omega⟩

/-- **A READ** of a settled ring finds it read to the end, or delivers an item
    not before the cursor's and counts what it skips; it finds nothing
    stale. -/
theorem Settled.read (h : Settled values b) (hsize : values.length < 2 ^ 64)
    {c : Consumer T} {delivered : List T} (hr : Reader values c delivered) :
    (c.sequence = values.length ∧ tryRead b c = .ok (c, .empty)) ∨
    ∃ c' position value, tryRead b c = .ok (c', .ok position value) ∧
      c.sequence < c'.sequence ∧
      Reader values c' (delivered ++ [value]) := by
  obtain ⟨hnext, hproduced⟩ := h.produced
  by_cases hend : c.sequence = values.length
  · refine Or.inl ⟨hend, ?_⟩
    rw [tryRead, if_pos (Nat.le_of_eq (hproduced.trans hend.symm))]
  · have hlt : c.sequence < values.length :=
      Nat.lt_of_le_of_ne hr.behind hend
    obtain ⟨want, hcatch, hle, hwant, hlap⟩ := catchUp_eq h hsize hr hlt
    have hcurrent : Current b want := ⟨hnext ▸ hwant, hnext ▸ hlap⟩
    have hquiet : ∀ sequence, b.pushing ≠ .assigned sequence := by
      rw [h.claiming]
      exact fun _ => Pushing.noConfusion
    have hvalue := h.published.contents_quiet hquiet want hcurrent
    have hseq := h.published.sequences want hcurrent
    have hposition : addSequence want 1 = want + 1 := addSequence_eq (by omega)
    refine Or.inr ⟨{ c with
      sequence := want + 1, dropped := c.dropped + (want - c.sequence) },
      want + 1, (b.slotOf want).value, ?_, ?_, hr.policy, ?_, ?_, ?_⟩
    · rw [tryRead, if_neg (by omega), hcatch]
      dsimp only
      rw [if_neg (not_not.mpr hseq), hposition]
    · exact Nat.lt_succ_of_le hle
    · exact hwant
    · show (delivered ++ [_]).Sublist (values.take (want + 1))
      rw [List.take_add_one, hvalue]
      refine List.Sublist.append ?_ (List.Sublist.refl _)
      exact hr.delivers.trans (List.take_sublist_take_left hle)
    · have hcounted := hr.counted
      rw [List.length_append]
      show _ + (c.dropped + (want - c.sequence)) = want + 1
      simp only [List.length_singleton]
      omega

end OsxRingCall
