import OsborneX.RingSlotProofs

/-! # Lossy cursors — when a delivered value is the right one

    `try_read` checks the slot's sequence before and after its copy.  The check
    catches a producer that has PUBLISHED over the slot, at any point and any
    number of laps; it cannot see one that has assigned the next value and not
    yet stored the sequence.  So a value is delivered under the wrong sequence
    exactly when the copy is made inside that window and confirmed before it
    closes.  `watch` runs the buffer and remembers which copies were made
    inside the open window. -/

namespace OsxLossy

open OsxRingBuffer OsxRingSlot

variable {T : Type}

/-! ## Watching the window -/

/-- The producer has assigned a value to the slot of `want`, and not yet stored
    its sequence. -/
def windowOpen (b : RingBuffer T) (want : Nat) : Bool :=
  match b.pushing with
  | .assigned sequence => decide (b.index sequence = b.index want)
  | _ => false

/-- The buffer, and which consumers hold a copy made inside the window now
    open. -/
structure Watched (T : Type) where
  buffer : RingBuffer T
  inside : ConsumerId → Bool

/-- A copy is inside if the window is open; the window closes when the producer
    stores the slot's sequence. -/
def insideAfter (w : Watched T) : Thread → ConsumerId → Bool
  | .producer =>
      match w.buffer.pushing with
      | .assigned _ => fun _ => false
      | _ => w.inside
  | .consumer id =>
      match (w.buffer.consumers[id]?).map Consumer.reading with
      | some (.checked want) =>
          Function.update w.inside id (windowOpen w.buffer want)
      | _ => w.inside

/-- A step, watched. -/
def watch (w : Watched T) (thread : Thread) :
    Except Fault (Watched T × Output T) :=
  (w.buffer.step thread).map fun r => (⟨r.1, insideAfter w thread⟩, r.2)

/-- The step does not confirm a copy made inside the window still open. -/
def ConfirmsOutside (w : Watched T) : Thread → Prop
  | .producer => True
  | .consumer id =>
      match (w.buffer.consumers[id]?).map Consumer.reading with
      | some (.copied want _) =>
          (w.buffer.slotOf want).seq = want → w.inside id = false
      | _ => True

instance (w : Watched T) (thread : Thread) :
    Decidable (ConfirmsOutside w thread) :=
  match thread with
  | .producer => inferInstanceAs (Decidable True)
  | .consumer id =>
      match h : (w.buffer.consumers[id]?).map Consumer.reading with
      | some (.copied want _) =>
          decidable_of_iff
            ((w.buffer.slotOf want).seq = want → w.inside id = false)
            (by rw [ConfirmsOutside, h])
      | none => isTrue (by rw [ConfirmsOutside, h]; trivial)
      | some .idle => isTrue (by rw [ConfirmsOutside, h]; trivial)
      | some (.wanting _) => isTrue (by rw [ConfirmsOutside, h]; trivial)
      | some (.claimed _) => isTrue (by rw [ConfirmsOutside, h]; trivial)
      | some (.checked _) => isTrue (by rw [ConfirmsOutside, h]; trivial)
      | some (.confirmed _ _) => isTrue (by rw [ConfirmsOutside, h]; trivial)
      | some (.stale _) => isTrue (by rw [ConfirmsOutside, h]; trivial)

/-- The output delivers the item it says it delivers. -/
def Delivers (values : List T) : Output T → Prop
  | some (_, .ok position out) =>
      ∃ k, position = k + 1 ∧ values[k]? = some out
  | _ => True

/-! ## The invariant -/

/-- What a Lossy consumer knows in each phase.  A copy whose slot has not been
    republished is the item wanted, or, inside the window, the one a lap
    later. -/
def Knows (values : List T) (b : RingBuffer T) (inside : Bool)
    (c : Consumer T) : Reading T → Prop
  | .idle => True
  | .wanting want => want = c.sequence
  | .claimed want => c.sequence ≤ want ∧ want < b.producerSequence
  | .checked want => c.sequence ≤ want ∧ want < b.producerSequence
  | .copied want out => c.sequence ≤ want ∧ want < b.producerSequence ∧
      (Current b want → if inside then
        Overwritten b want ∧ values[want + b.capacity]? = some out
        else values[want]? = some out)
  | .confirmed want out => c.sequence ≤ want ∧ want < b.producerSequence ∧
      values[want]? = some out
  | .stale want => c.sequence ≤ want ∧ want < b.producerSequence

/-- A Lossy consumer's state. -/
structure Cursor (values : List T) (b : RingBuffer T) (inside : Bool)
    (outs : List (Output T)) (id : ConsumerId) (c : Consumer T) : Prop where
  policy : c.policy = .lossy
  knows : Knows values b inside c c.reading
  behind : c.sequence ≤ b.producerSequence
  sorted : ((delivered id outs).map Prod.fst).Pairwise (· < ·)
  arrived : ∀ position ∈ (delivered id outs).map Prod.fst,
    position ≤ c.sequence

/-- **THE LOSSY GUARANTEE**, as the steps keep it. -/
structure Lossy (values : List T) (w : Watched T) (outs : List (Output T)) :
    Prop where
  published : Published values w.buffer
  cursors : ∀ id c, w.buffer.consumers[id]? = some c →
    Cursor values w.buffer (w.inside id) outs id c
  absent : ∀ id, w.buffer.consumers[id]? = none → delivered id outs = []
  delivers : ∀ o ∈ outs, Delivers values o

/-! ## One consumer's step -/

variable {values : List T} {b : RingBuffer T} {outs : List (Output T)}

/-- Inside the window it is the last lap's item that is overwritten. -/
theorem overwritten_iff (hp : Published values b) {want : Nat}
    (hcur : Current b want) :
    Overwritten b want ↔ windowOpen b want = true := by
  have hprog := hp.progress
  rw [Overwritten, windowOpen]
  cases hph : b.pushing with
  | claiming _ => simp
  | stored _ => simp
  | assigned sequence =>
      rw [hph] at hprog
      obtain ⟨hnext, -⟩ := hprog
      obtain ⟨h1, h2⟩ := hcur
      rw [decide_eq_true_iff, Pushing.assigned.injEq]
      constructor
      · intro heq
        rw [index_eq_iff hp.masked, heq, Nat.add_mod_right]
      · intro heq
        by_contra hne
        exact index_ne hp.masked (by omega) (by omega) heq.symm

/-- A step that delivers nothing leaves what was delivered behind the
    cursor. -/
theorem Cursor.quiet {inside inside' : Bool} {id : ConsumerId}
    {c c' : Consumer T} {o : Output T} (h : Cursor values b inside outs id c)
    (ho : deliveredBy id o = none) (hpolicy : c'.policy = c.policy)
    (hle : c.sequence ≤ c'.sequence)
    (hbehind : c'.sequence ≤ b.producerSequence)
    (hknows : Knows values b inside' c' c'.reading) :
    Cursor values b inside' (outs ++ [o]) id c' where
  policy := hpolicy.trans h.policy
  knows := hknows
  behind := hbehind
  sorted := by
    rw [delivered_quiet ho]
    exact h.sorted
  arrived := by
    rw [delivered_quiet ho]
    exact fun position hmem => Nat.le_trans (h.arrived position hmem) hle

/-- A step that delivers the next position moves the cursor there. -/
theorem Cursor.delivers {inside inside' : Bool} {id : ConsumerId}
    {c c' : Consumer T} {position : Nat} {out : T}
    (h : Cursor values b inside outs id c) (hpolicy : c'.policy = c.policy)
    (hlt : c.sequence < position) (hseq : c'.sequence = position)
    (hbehind : c'.sequence ≤ b.producerSequence)
    (hknows : Knows values b inside' c' c'.reading) :
    Cursor values b inside'
      (outs ++ [(some (ReadResult.ok position out)).map (id, ·)]) id c' where
  policy := hpolicy.trans h.policy
  knows := hknows
  behind := hbehind
  sorted := by
    rw [delivered_ok, List.map_append, List.pairwise_append]
    refine ⟨h.sorted, List.pairwise_singleton .., fun x hx y hy => ?_⟩
    have hy' : y = position := List.mem_singleton.mp hy
    have hx' := h.arrived x hx
    omega
  arrived := by
    rw [delivered_ok, List.map_append]
    intro x hx
    rcases List.mem_append.mp hx with hx | hx
    · have hx' := h.arrived x hx
      omega
    · have hx' : x = position := List.mem_singleton.mp hx
      omega

/-- What is copied outside the window is the item wanted; inside it, the one a
    lap later. -/
theorem Knows.copied (hp : Published values b) {c c' : Consumer T} {want : Nat}
    {inside : Bool} (h : Knows values b inside c (.checked want))
    (hseq : c'.sequence = c.sequence) :
    Knows values b (windowOpen b want) c'
      (.copied want (b.slotOf want).value) := by
  obtain ⟨hle, hlt⟩ := h
  refine ⟨hseq ▸ hle, hlt, fun hcur => ?_⟩
  have hvalue := hp.contents want hcur
  by_cases hopen : windowOpen b want = true
  · have hover := (overwritten_iff hp hcur).mpr hopen
    rw [if_pos hover] at hvalue
    rw [if_pos hopen]
    exact ⟨hover, hvalue⟩
  · rw [if_neg (fun hover => hopen ((overwritten_iff hp hcur).mp hover))]
      at hvalue
    rw [if_neg hopen]
    exact hvalue

/-- A copy confirmed outside the window is the item wanted. -/
theorem Knows.confirmed (hp : Published values b) {c : Consumer T} {want : Nat}
    {out : T} (h : Knows values b false c (.copied want out))
    (hseq : (b.slotOf want).seq = want) : values[want]? = some out := by
  obtain ⟨-, hlt, hvalue⟩ := h
  exact hvalue (hp.current_of_seq (Nat.lt_of_lt_of_le hlt hp.producer_le) hseq)

/-- A consumer's step, for a Lossy one: what it knows afterwards, with the
    window as `inside` remembers it. -/
theorem Cursor.reads (hp : Published values b)
    (hsize : values.length < 2 ^ 64) {inside : Bool} {id : ConsumerId}
    {c c' : Consumer T} {r : Option (ReadResult T)}
    (h : Cursor values b inside outs id c) (hr : Reads b c c' r)
    (hout : ∀ want out, c.reading = .copied want out →
      (b.slotOf want).seq = want → inside = false) :
    Cursor values b
      (match c.reading with
        | .checked want => windowOpen b want
        | _ => inside) (outs ++ [r.map (id, ·)]) id c' ∧
      Delivers values (r.map (id, ·)) := by
  have hknows := h.knows
  have hbehind := h.behind
  have hpub := hp.producer_le
  have hwithin := hp.within
  have hsame := Nat.le_refl c.sequence
  cases hr with
  | called hph => exact ⟨h.quiet rfl rfl hsame hbehind rfl, trivial⟩
  | empty hph hle => exact ⟨h.quiet rfl rfl hsame hbehind trivial, trivial⟩
  -- a consumer more than a lap behind wants the oldest item there is
  | @skipped want hph hlt hlossy hfar =>
      rw [hph] at hknows
      have hwant : want = c.sequence := hknows
      have hcap : 0 < b.capacity := Nat.succ_pos b.mask
      rw [subSequence_eq (Nat.le_of_lt hlt) (by omega)] at hfar
      have htarget : subSequence b.producerSequence b.capacity
          = b.producerSequence - b.capacity :=
        subSequence_eq (by omega) (by omega)
      rw [htarget]
      exact ⟨h.quiet rfl rfl hsame hbehind ⟨by dsimp only; omega, by omega⟩,
        trivial⟩
  | @claimed want hph hlt =>
      rw [hph] at hknows
      have hwant : want = c.sequence := hknows
      exact ⟨h.quiet rfl rfl hsame hbehind ⟨Nat.le_of_eq hwant.symm, hlt⟩,
        trivial⟩
  | checked hph hseq =>
      rw [hph] at hknows
      exact ⟨h.quiet rfl rfl hsame hbehind hknows, trivial⟩
  | @copied want hph =>
      rw [hph] at hknows ⊢
      exact ⟨h.quiet rfl rfl hsame hbehind (Knows.copied hp hknows rfl),
        trivial⟩
  | @confirmed want out hph hseq =>
      have hclosed := hout want out hph hseq
      rw [hph, hclosed] at hknows
      exact ⟨h.quiet rfl rfl hsame hbehind
        ⟨hknows.1, hknows.2.1, Knows.confirmed hp hknows hseq⟩, trivial⟩
  | @stale want hlossy hph hseq =>
      have hwant : c.sequence ≤ want ∧ want < b.producerSequence := by
        rcases hph with hph | ⟨out, hph⟩
        · rw [hph] at hknows
          exact hknows
        · rw [hph] at hknows
          exact ⟨hknows.1, hknows.2.1⟩
      exact ⟨h.quiet rfl rfl hsame hbehind hwant, trivial⟩
  | @returned want out hph =>
      rw [hph] at hknows
      obtain ⟨hle, hlt, hvalue⟩ := hknows
      have hone : addSequence want 1 = want + 1 := addSequence_eq (by omega)
      rw [hone]
      exact ⟨h.delivers rfl (Nat.lt_succ_of_le hle) rfl hlt trivial, want, rfl,
        hvalue⟩
  | @gaveUp want hph =>
      rw [hph] at hknows
      obtain ⟨hle, hlt⟩ := hknows
      have hone : addSequence want 1 = want + 1 := addSequence_eq (by omega)
      rw [hone]
      exact ⟨h.quiet rfl rfl (Nat.le_succ_of_le hle) hlt trivial, trivial⟩

/-- Another consumer's step changes nothing for this one. -/
theorem Cursor.other {inside : Bool} {id i : ConsumerId} {c : Consumer T}
    (h : Cursor values b inside outs id c) (hi : i ≠ id)
    (cs : List (Consumer T)) (r : Option (ReadResult T)) :
    Cursor values { b with consumers := cs } inside (outs ++ [r.map (i, ·)])
      id c where
  policy := h.policy
  knows := by
    have hk := h.knows
    cases hph : c.reading <;> (rw [hph] at hk; exact hk)
  behind := h.behind
  sorted := by
    rw [delivered_quiet (deliveredBy_ne hi r)]
    exact h.sorted
  arrived := by
    rw [delivered_quiet (deliveredBy_ne hi r)]
    exact h.arrived

theorem insideAfter_self {w : Watched T} {id : ConsumerId} {c : Consumer T}
    (hc : w.buffer.consumers[id]? = some c) :
    insideAfter w (.consumer id) id
      = match c.reading with
        | .checked want => windowOpen w.buffer want
        | _ => w.inside id := by
  rw [insideAfter]
  simp only [hc, Option.map_some]
  cases c.reading with
  | checked want => exact Function.update_self ..
  | idle => rfl
  | wanting _ => rfl
  | claimed _ => rfl
  | copied _ _ => rfl
  | confirmed _ _ => rfl
  | stale _ => rfl

theorem insideAfter_other {w : Watched T} {id i : ConsumerId} (hi : i ≠ id) :
    insideAfter w (.consumer id) i = w.inside i := by
  rw [insideAfter]
  cases (w.buffer.consumers[id]?).map Consumer.reading with
  | none => rfl
  | some reading =>
      cases reading with
      | checked want => exact Function.update_of_ne hi _ _
      | idle => rfl
      | wanting _ => rfl
      | claimed _ => rfl
      | copied _ _ => rfl
      | confirmed _ _ => rfl
      | stale _ => rfl

variable {w : Watched T}

/-- **EVERY CONSUMER STEP THAT CONFIRMS OUTSIDE** keeps the guarantee. -/
theorem Lossy.consumer (h : Lossy values w outs)
    (hsize : values.length < 2 ^ 64) {id : ConsumerId}
    (hout : ConfirmsOutside w (.consumer id)) :
    ∃ w' o, watch w (.consumer id) = .ok (w', o) ∧
      Lossy values w' (outs ++ [o]) := by
  have hdelivers : ∀ {o : Output T}, Delivers values o →
      ∀ o' ∈ outs ++ [o], Delivers values o' := by
    intro o ho o' ho'
    rcases List.mem_append.mp ho' with ho' | ho'
    · exact h.delivers o' ho'
    · rw [List.mem_singleton.mp ho']
      exact ho
  cases hc : w.buffer.consumers[id]? with
  | none =>
      refine ⟨⟨w.buffer, insideAfter w (.consumer id)⟩, none, ?_,
        h.published, fun i c hi => ?_, fun i hi => ?_, hdelivers trivial⟩
      · rw [watch, step_absent hc]
        rfl
      · have hne : i ≠ id := by
          rintro rfl
          rw [hc] at hi
          cases hi
        show Cursor values w.buffer (insideAfter w (.consumer id) i) _ i c
        rw [insideAfter_other hne]
        exact (h.cursors i c hi).other (Ne.symm hne) w.buffer.consumers none
      · rw [delivered_quiet rfl]
        exact h.absent i hi
  | some c =>
      have hcursor := h.cursors id c hc
      obtain ⟨c', r, hread, hr⟩ := tryRead_spec w.buffer c (by
        simp [hcursor.policy])
      -- what `hout` says of this consumer's own step
      have hguard : ∀ want out, c.reading = .copied want out →
          (w.buffer.slotOf want).seq = want → w.inside id = false := by
        intro want out hph hseq
        rw [ConfirmsOutside, hc, Option.map_some, hph] at hout
        exact hout hseq
      obtain ⟨hafter, hdel⟩ := hcursor.reads h.published hsize hr hguard
      rw [← insideAfter_self hc] at hafter
      refine ⟨⟨{ w.buffer with consumers := w.buffer.consumers.set id c' },
        insideAfter w (.consumer id)⟩, r.map (id, ·), ?_,
        h.published.consumers _, fun i d hd => ?_, fun i hi => ?_,
        hdelivers hdel⟩
      · rw [watch, step_consumer hc hread]
        rfl
      · -- its own cursor after the step, and the others as they were
        rcases consumer_set hd with ⟨rfl, rfl⟩ | ⟨hne, hd⟩
        · obtain ⟨h1, h2, h3, h4, h5⟩ := hafter
          refine ⟨h1, ?_, h3, h4, h5⟩
          cases hph : d.reading <;> (rw [hph] at h2; exact h2)
        · show Cursor values { w.buffer with
            consumers := w.buffer.consumers.set id c' }
            (insideAfter w (.consumer id) i) _ i d
          rw [insideAfter_other hne]
          exact (h.cursors i d hd).other (Ne.symm hne) _ r
      · have hlength : w.buffer.consumers.length ≤ i := by
          have := List.getElem?_eq_none_iff.mp hi
          rwa [List.length_set] at this
        have hold : w.buffer.consumers[i]? = none :=
          List.getElem?_eq_none hlength
        have hne : id ≠ i := by
          rintro rfl
          rw [hc] at hold
          cases hold
        rw [delivered_quiet (deliveredBy_ne hne r)]
        exact h.absent i hold

/-- **A COPY CONFIRMED INSIDE THE WINDOW** is the item of the next lap. -/
theorem Lossy.confirmed_inside (h : Lossy values w outs) {id : ConsumerId}
    {c : Consumer T} (hc : w.buffer.consumers[id]? = some c) {want : Nat}
    {out : T} (hph : c.reading = .copied want out)
    (hseq : (w.buffer.slotOf want).seq = want) (hin : w.inside id = true) :
    values[want + w.buffer.capacity]? = some out := by
  have hknows := (h.cursors id c hc).knows
  rw [hph] at hknows
  obtain ⟨-, hlt, hvalue⟩ := hknows
  have hpub := h.published.producer_le
  have hcur := h.published.current_of_seq (Nat.lt_of_lt_of_le hlt hpub) hseq
  have hv := hvalue hcur
  rw [hin, if_pos rfl] at hv
  exact hv.2

/-! ## The producer's step -/

/-- A copy made while no slot was being overwritten is the item wanted. -/
theorem Knows.outside {inside : Bool} {c : Consumer T} {want : Nat} {out : T}
    (h : Knows values b inside c (.copied want out))
    (hquiet : ∀ sequence, b.pushing ≠ .assigned sequence)
    (hcur : Current b want) : values[want]? = some out ∧ inside = false := by
  have hvalue := h.2.2 hcur
  cases inside with
  | true => exact absurd hvalue.1 (not_overwritten hquiet want)
  | false => exact ⟨hvalue, rfl⟩

/-- Republishing a slot makes its copies stale; any other step of the producer
    leaves what the copies are worth. -/
theorem Knows.push_copied (hp : Published values w.buffer)
    (hsize : values.length < 2 ^ 64) {id : ConsumerId} {c : Consumer T}
    {want : Nat} {out : T}
    (h : Knows values w.buffer (w.inside id) c (.copied want out)) :
    Knows values w.buffer.push (insideAfter w .producer id) c
      (.copied want out) := by
  have hb := push_spec w.buffer
  obtain ⟨hmask, -, -, hle⟩ := hb.frame hsize hp
  have hcap : w.buffer.push.capacity = w.buffer.capacity :=
    congrArg (· + 1) hmask
  have hpub := hp.producer_le
  have hprog := hp.progress
  refine ⟨h.1, Nat.lt_of_lt_of_le h.2.1 hle, fun hcur => ?_⟩
  have hlt := h.2.1
  rw [Current, hcap] at hcur
  rw [insideAfter]
  generalize w.buffer.push = b' at hb hcur ⊢
  cases hb with
  | @still next hph =>
      obtain ⟨hv, hin⟩ := h.outside (by simp [hph]) hcur
      simp only [hph, hin]
      exact hv
  | gated hph _ _ _ =>
      obtain ⟨hv, hin⟩ := h.outside (by simp [hph]) hcur
      simp only [hph, hin]
      exact hv
  | assigned hph _ _ =>
      obtain ⟨hv, hin⟩ := h.outside (by simp [hph]) hcur
      simp only [hph, hin]
      exact hv
  | @stored sequence hph =>
      -- still current, so not the slot that was being overwritten
      rw [hph] at hprog
      obtain ⟨hnext, hproduced, -, hput⟩ := hprog
      obtain ⟨hbound, -⟩ := List.getElem?_eq_some_iff.mp hput
      have hone : addSequence sequence 1 = sequence + 1 :=
        addSequence_eq (by omega)
      obtain ⟨h1, h2⟩ := hcur
      dsimp only at h1 h2
      rw [hone] at h1 h2
      have hv := h.2.2 ⟨by omega, by omega⟩
      simp only [hph]
      cases hin : w.inside id with
      | true =>
          rw [hin, if_pos rfl, Overwritten, hph] at hv
          have := Pushing.assigned.inj hv.1
          omega
      | false =>
          rw [hin] at hv
          exact hv
  | produced hph =>
      obtain ⟨hv, hin⟩ := h.outside (by simp [hph]) hcur
      simp only [hph, hin]
      exact hv

/-- The producer's step leaves what the consumers know. -/
theorem Cursor.push (hp : Published values w.buffer)
    (hsize : values.length < 2 ^ 64) {id : ConsumerId} {c : Consumer T}
    (h : Cursor values w.buffer (w.inside id) outs id c) :
    Cursor values w.buffer.push (insideAfter w .producer id) (outs ++ [none])
      id c := by
  obtain ⟨hpolicy, hknows, hbehind, hsorted, harrived⟩ := h
  have hle := ((push_spec w.buffer).frame hsize hp).2.2.2
  refine ⟨hpolicy, ?_, Nat.le_trans hbehind hle, ?_, ?_⟩
  · cases hph : c.reading with
    | idle => trivial
    | wanting want =>
        rw [hph] at hknows
        exact hknows
    | claimed want | checked want | stale want =>
        rw [hph] at hknows
        exact ⟨hknows.1, Nat.lt_of_lt_of_le hknows.2 hle⟩
    | copied want out =>
        rw [hph] at hknows
        exact Knows.push_copied hp hsize hknows
    | confirmed want out =>
        rw [hph] at hknows
        exact ⟨hknows.1, Nat.lt_of_lt_of_le hknows.2.1 hle, hknows.2.2⟩
  · rw [delivered_quiet rfl]
    exact hsorted
  · rw [delivered_quiet rfl]
    exact harrived

/-- **EVERY PRODUCER STEP** keeps the guarantee. -/
theorem Lossy.producer (h : Lossy values w outs)
    (hsize : values.length < 2 ^ 64) :
    ∃ w' o, watch w .producer = .ok (w', o) ∧
      Lossy values w' (outs ++ [o]) := by
  have hb := push_spec w.buffer
  obtain ⟨-, hcs, -, -⟩ := hb.frame hsize h.published
  refine ⟨⟨w.buffer.push, insideAfter w .producer⟩, none, rfl,
    h.published.push hsize hb, fun id c hc => ?_, fun id hid => ?_,
    fun o ho => ?_⟩
  · exact (h.cursors id c (by rw [← hcs]; exact hc)).push h.published hsize
  · rw [delivered_quiet rfl]
    exact h.absent id (by rw [← hcs]; exact hid)
  · rcases List.mem_append.mp ho with ho | ho
    · exact h.delivers o ho
    · rw [List.mem_singleton.mp ho]
      trivial

/-! ## Every interleaving -/

/-- The buffer with `count` Lossy consumers, watched from the start. -/
def watchedStart [Inhabited T] (capacity count : Nat) (values : List T) :
    Watched T :=
  ⟨.start capacity (.replicate count .lossy) (values.map .overwrite),
    fun _ => false⟩

theorem lossy_start [Inhabited T] (capacity count : Nat) (values : List T) :
    Lossy values (watchedStart capacity count values) [] := by
  have hpub := published_start capacity (List.replicate count .lossy)
    (values.map Push.overwrite)
  obtain ⟨ids, heq, -⟩ := start_spec capacity (List.replicate count .lossy)
    (values.map Push.overwrite)
  have hvalues : (values.map Push.overwrite).map pushed = values := by
    rw [List.map_map]
    exact List.map_id _
  rw [hvalues] at hpub
  refine ⟨hpub, fun id c hc => ?_, fun _ _ => rfl, List.forall_mem_nil _⟩
  have hc' : (RingBuffer.start capacity (List.replicate count .lossy)
      (values.map Push.overwrite)).consumers[id]? = some c := hc
  rw [heq] at hc'
  obtain ⟨policy, hpolicy, rfl⟩ := Option.map_eq_some_iff.mp
    ((List.getElem?_map ..).symm.trans hc')
  have hlossy : policy = .lossy :=
    List.eq_of_mem_replicate (List.mem_of_getElem? hpolicy)
  exact ⟨hlossy, trivial, Nat.zero_le _, List.Pairwise.nil,
    List.forall_mem_nil _⟩

/-- A watched step is a step. -/
theorem step_of_watch {w w' : Watched T} {thread : Thread} {o : Output T}
    (h : watch w thread = .ok (w', o)) :
    w.buffer.step thread = .ok (w'.buffer, o) := by
  rw [watch] at h
  cases hstep : w.buffer.step thread with
  | error e =>
      rw [hstep] at h
      cases h
  | ok r =>
      rw [hstep] at h
      cases h
      rfl

/-- Every value delivered is the item of its position, and no consumer is
    delivered a position twice. -/
structure DeliversRight (values : List T) (outs : List (Output T)) : Prop where
  items : ∀ o ∈ outs, Delivers values o
  once : ∀ id, ((delivered id outs).map Prod.fst).Nodup

/-- **A LOSSY CURSOR DELIVERS THE RIGHT ITEMS** under every schedule that
    confirms no copy inside the window it was made in. -/
theorem lossy_delivers [Inhabited T] (capacity count : Nat) (values : List T)
    (hsize : values.length < 2 ^ 64) (schedule : List Thread)
    (hout : Execution.Along watch ConfirmsOutside
      (watchedStart capacity count values) schedule) :
    ∃ b outs,
      Execution.execute RingBuffer.step
        (.start capacity (.replicate count .lossy) (values.map .overwrite))
        schedule = .ok (b, outs) ∧ DeliversRight values outs := by
  have hstep : ∀ (w : Watched T) (outs : List (Output T)) (thread : Thread),
      Lossy values w outs → ConfirmsOutside w thread →
      ∃ w' o, watch w thread = .ok (w', o) ∧
        Lossy values w' (outs ++ [o]) := by
    intro w outs thread h hout
    cases thread with
    | producer => exact h.producer hsize
    | consumer id => exact h.consumer hsize hout
  obtain ⟨w, outs, hrun, h⟩ := Execution.execute_history hstep schedule _ []
    (lossy_start capacity count values) hout
  have hplain := Execution.execute_forget (f := Watched.buffer)
    (fun _ _ _ _ => step_of_watch) schedule _ _ _ hrun
  rw [List.nil_append] at h
  refine ⟨w.buffer, outs, hplain, h.delivers, fun id => ?_⟩
  cases hc : w.buffer.consumers[id]? with
  | some c => exact (h.cursors id c hc).sorted.imp Nat.ne_of_lt
  | none =>
      rw [h.absent id hc]
      exact List.nodup_nil

/-- Two consumers over two slots, one of them lapped between its check and its
    copy by a push that completes before the second check. -/
theorem lossy_delivers_lapped :
    ∃ (b : RingBuffer Nat) (outs : List (Output Nat)),
      Execution.execute RingBuffer.step
        (.start 2 (.replicate 2 .lossy) ([10, 20, 30].map .overwrite))
        [.producer, .producer, .producer, .consumer 0, .consumer 0,
          .consumer 0, .producer, .producer, .producer, .producer,
          .consumer 0, .producer, .producer, .consumer 0, .consumer 0,
          .consumer 1, .consumer 1, .consumer 1, .consumer 1, .consumer 1,
          .consumer 1]
        = .ok (b, outs) ∧ DeliversRight [10, 20, 30] outs :=
  lossy_delivers 2 2 [10, 20, 30] (by decide) _ (by decide +kernel)

/-- Between its two checks the consumer copies a value the producer has
    assigned and not published: item 1 is delivered as item 0. -/
theorem lossy_delivers_other :
    ¬ ∀ (capacity count : Nat) (values : List Nat) (schedule : List Thread)
      (b : RingBuffer Nat) (outs : List (Output Nat)),
      Execution.execute RingBuffer.step
        (.start capacity (.replicate count .lossy) (values.map .overwrite))
        schedule = .ok (b, outs) → DeliversRight values outs := by
  intro h
  have hrun : ∃ b outs, Execution.execute RingBuffer.step
      (RingBuffer.start 1 (.replicate 1 .lossy) ([10, 20].map .overwrite))
      [.producer, .producer, .producer, .consumer 0, .consumer 0,
        .consumer 0, .producer, .consumer 0, .consumer 0, .consumer 0]
        = .ok (b, outs) ∧ some (0, .ok 1 20) ∈ outs :=
    ⟨_, _, rfl, by decide +kernel⟩
  obtain ⟨b, outs, hrun, hmem⟩ := hrun
  obtain ⟨k, hk, hvalue⟩ := (h 1 1 [10, 20] _ b outs hrun).items _ hmem
  cases hk
  exact absurd hvalue (by decide)

end OsxLossy
