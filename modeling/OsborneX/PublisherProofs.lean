import OsborneX.PublisherModel

/-! # The wiring is the full cross product, in whatever order it is made

    A call registers its subscriber (or buffer) with what the other list holds
    at that moment, and leaves the rest to the later calls.  `Wired` says, in
    closed form, what any sequence of distinct calls has then made: a
    subscriber's sources follow the order of the producers, and its cursor on a
    buffer stands at its own place among the subscribers.

    The order of the calls is in these lists only, so the pairs that are
    registered do not depend on it. -/

namespace OsxPublisher

open OsxRingBuffer

variable {S B T : Type} [DecidableEq S] [DecidableEq B]

/-! ## The two loops -/

/-- The buffer with `n` more Lossy cursors. -/
def withCursors (n : Nat) (b : RingBuffer T) : RingBuffer T :=
  (fun b => b.addConsumer .lossy)^[n] b

theorem withCursors_succ (n : Nat) (b : RingBuffer T) :
    withCursors (n + 1) b = (withCursors n b).addConsumer .lossy :=
  Function.iterate_succ_apply' _ n b

theorem withCursors_first (n : Nat) (b : RingBuffer T) :
    withCursors (n + 1) b = withCursors n (b.addConsumer .lossy) :=
  Function.iterate_succ_apply _ n b

/-- A new cursor goes behind the others. -/
theorem consumers_withCursors (n : Nat) (b : RingBuffer T) :
    (withCursors n b).consumers
      = b.consumers ++ List.replicate n ⟨.lossy, 0, 0, .idle⟩ := by
  induction n with
  | zero => exact (List.append_nil _).symm
  | succ n ih =>
      rw [withCursors_succ, List.replicate_succ', ← List.append_assoc, ← ih]
      rfl

/-- What the loop of `add_subscriber` does, over the producers so far. -/
theorem registerEach_producers (subscriber : S) :
    ∀ (producers : List B) (t : Topology S B T), producers.Nodup →
      producers.foldl (fun t b => t.registerProducer subscriber b) t
        = { t with
            sources := Function.update t.sources subscriber
              (t.sources subscriber ++ producers.map
                (fun b => (b, (t.buffers b).consumers.length)))
            buffers := fun b => if b ∈ producers then
              (t.buffers b).addConsumer .lossy else t.buffers b } := by
  intro producers
  induction producers with
  | nil =>
      intro t _
      simp
  | cons b rest ih =>
      intro t hnodup
      obtain ⟨hb, hrest⟩ := List.nodup_cons.mp hnodup
      rw [List.foldl_cons, ih _ hrest]
      simp only [Topology.registerProducer, Topology.mk.injEq, true_and]
      constructor
      · -- the cursors behind are counted on buffers this one left alone
        have hothers : rest.map (fun r => (r, (Function.update t.buffers b
              ((t.buffers b).addConsumer .lossy) r).consumers.length))
            = rest.map (fun r => (r, (t.buffers r).consumers.length)) := by
          refine List.map_congr_left (fun r hr => ?_)
          rw [Function.update_of_ne]
          rintro rfl
          exact hb hr
        rw [hothers, Function.update_self, Function.update_idem,
          List.map_cons, List.append_assoc]
        rfl
      · funext r
        by_cases hr : r = b
        · subst hr
          rw [if_neg hb, if_pos List.mem_cons_self, Function.update_self]
        · rw [Function.update_of_ne hr]
          simp [hr]

/-- What the loop of `add_producer` does, over the subscribers so far. -/
theorem registerEach_subscribers (producer : B) :
    ∀ (subscribers : List S) (t : Topology S B T), subscribers.Nodup →
      subscribers.foldl (fun t s => t.registerProducer s producer) t
        = { t with
            sources := fun s => t.sources s ++ if s ∈ subscribers then
              [(producer, (t.buffers producer).consumers.length
                + subscribers.idxOf s)] else []
            buffers := Function.update t.buffers producer
              (withCursors subscribers.length (t.buffers producer)) } := by
  intro subscribers
  induction subscribers with
  | nil =>
      intro t _
      simp [withCursors]
  | cons s rest ih =>
      intro t hnodup
      obtain ⟨hs, hrest⟩ := List.nodup_cons.mp hnodup
      rw [List.foldl_cons, ih _ hrest]
      simp only [Topology.registerProducer, Topology.mk.injEq, true_and,
        Function.update_self]
      constructor
      · funext r
        by_cases hr : r = s
        · subst hr
          rw [Function.update_self, if_neg hs, if_pos List.mem_cons_self,
            List.idxOf_cons_self]
          simp
        · rw [Function.update_of_ne hr]
          have hlater : List.idxOf r (s :: rest) = rest.idxOf r + 1 :=
            List.idxOf_cons_ne rest (Ne.symm hr)
          have hcount : ((t.buffers producer).addConsumer .lossy
              ).consumers.length = (t.buffers producer).consumers.length + 1 := by
            simp [RingBuffer.addConsumer]
          rw [hlater, hcount, Nat.add_right_comm, Nat.add_assoc]
          simp [hr]
      · rw [Function.update_idem, List.length_cons, withCursors_first]

/-- `add_subscriber` on an open topology. -/
theorem addSubscriber_eq {t : Topology S B T} (hopen : t.frozen = false)
    (honce : t.producers.Nodup) (subscriber : S) :
    t.addSubscriber subscriber = .ok
      { t with
        subscribers := t.subscribers ++ [subscriber]
        sources := Function.update t.sources subscriber
          (t.sources subscriber ++ t.producers.map
            (fun b => (b, (t.buffers b).consumers.length)))
        buffers := fun b => if b ∈ t.producers then
          (t.buffers b).addConsumer .lossy else t.buffers b } := by
  rw [Topology.addSubscriber, if_neg (by rw [hopen]; exact Bool.false_ne_true)]
  exact congrArg Except.ok (registerEach_producers subscriber _
    { t with subscribers := t.subscribers ++ [subscriber] } honce)

/-- `add_producer` on an open topology. -/
theorem addProducer_eq {t : Topology S B T} (hopen : t.frozen = false)
    (honce : t.subscribers.Nodup) (producer : B) :
    t.addProducer producer = .ok
      { t with
        producers := t.producers ++ [producer]
        sources := fun s => t.sources s ++ if s ∈ t.subscribers then
          [(producer, (t.buffers producer).consumers.length
            + t.subscribers.idxOf s)] else []
        buffers := Function.update t.buffers producer
          (withCursors t.subscribers.length (t.buffers producer)) } := by
  rw [Topology.addProducer, if_neg (by rw [hopen]; exact Bool.false_ne_true)]
  exact congrArg Except.ok (registerEach_subscribers producer _
    { t with producers := t.producers ++ [producer] } honce)

/-! ## What a sequence of calls has wired -/

/-- The wiring made since `start`: each subscriber follows the producers in
    their order, at its own place in each buffer. -/
structure Wired (start t : Topology S B T) : Prop where
  unfrozen : t.frozen = false
  subscribersOnce : t.subscribers.Nodup
  producersOnce : t.producers.Nodup
  sources : ∀ s, t.sources s = start.sources s ++
    if s ∈ t.subscribers then
      t.producers.map (fun b => (b, (start.buffers b).consumers.length
        + t.subscribers.idxOf s))
    else []
  buffers : ∀ b, t.buffers b = if b ∈ t.producers then
    withCursors t.subscribers.length (start.buffers b) else start.buffers b

/-- The consumers of a producer's buffer: those it had, and one for each
    subscriber. -/
theorem Wired.length_consumers {start t : Topology S B T}
    (h : Wired start t) {b : B} (hb : b ∈ t.producers) :
    (t.buffers b).consumers.length
      = (start.buffers b).consumers.length + t.subscribers.length := by
  rw [h.buffers b, if_pos hb, consumers_withCursors, List.length_append,
    List.length_replicate]

theorem Wired.addSubscriber {start t : Topology S B T} (h : Wired start t)
    {subscriber : S} (hnew : subscriber ∉ t.subscribers) :
    ∃ t', t.addSubscriber subscriber = .ok t' ∧ Wired start t' ∧
      t'.subscribers = t.subscribers ++ [subscriber] ∧
      t'.producers = t.producers := by
  refine ⟨_, addSubscriber_eq h.unfrozen h.producersOnce subscriber,
    ⟨h.unfrozen, ?_, h.producersOnce, ?_, ?_⟩, rfl, rfl⟩
  · exact List.nodup_append.mpr ⟨h.subscribersOnce, List.nodup_singleton _, by
      rintro s hs r hr rfl
      exact hnew (List.mem_singleton.mp hr ▸ hs)⟩
  · intro s
    show Function.update t.sources subscriber _ s = _
    by_cases hs : s = subscriber
    · subst hs
      rw [Function.update_self, h.sources s, if_neg hnew, List.append_nil,
        if_pos (by simp)]
      refine congrArg _ (List.map_congr_left (fun b hb => ?_))
      show (b, (t.buffers b).consumers.length) = _
      rw [h.length_consumers hb, List.idxOf_append_of_notMem hnew,
        List.idxOf_cons_self, Nat.add_zero]
    · rw [Function.update_of_ne hs, h.sources s]
      by_cases hmem : s ∈ t.subscribers
      · rw [if_pos hmem, if_pos (List.mem_append_left _ hmem)]
        simp only [List.idxOf_append_of_mem hmem]
      · rw [if_neg hmem, if_neg (by simp [hmem, hs])]
  · intro b
    show (if b ∈ t.producers then (t.buffers b).addConsumer .lossy
      else t.buffers b) = _
    rw [h.buffers b]
    by_cases hb : b ∈ t.producers
    · rw [if_pos hb, if_pos hb, if_pos hb, List.length_append,
        List.length_singleton, withCursors_succ]
    · rw [if_neg hb, if_neg hb, if_neg hb]

theorem Wired.addProducer {start t : Topology S B T} (h : Wired start t)
    {producer : B} (hnew : producer ∉ t.producers) :
    ∃ t', t.addProducer producer = .ok t' ∧ Wired start t' ∧
      t'.subscribers = t.subscribers ∧
      t'.producers = t.producers ++ [producer] := by
  have hbuffer : t.buffers producer = start.buffers producer := by
    rw [h.buffers producer, if_neg hnew]
  refine ⟨_, addProducer_eq h.unfrozen h.subscribersOnce producer,
    ⟨h.unfrozen, h.subscribersOnce, ?_, ?_, ?_⟩, rfl, rfl⟩
  · exact List.nodup_append.mpr ⟨h.producersOnce, List.nodup_singleton _, by
      rintro b hb r hr rfl
      exact hnew (List.mem_singleton.mp hr ▸ hb)⟩
  · intro s
    show t.sources s ++ _ = _
    rw [h.sources s, List.append_assoc]
    by_cases hs : s ∈ t.subscribers
    · rw [if_pos hs, if_pos hs, if_pos hs, List.map_append, List.map_singleton,
        ← hbuffer]
    · rw [if_neg hs, if_neg hs, if_neg hs, List.append_nil]
  · intro b
    show Function.update t.buffers producer _ b = _
    by_cases hb : b = producer
    · subst hb
      rw [Function.update_self, if_pos (by simp), ← hbuffer]
    · rw [Function.update_of_ne hb, h.buffers b]
      simp only [List.mem_append, List.mem_singleton, hb, or_false]

/-- Has the call been made? -/
def Made (t : Topology S B T) : Call S B → Prop
  | .addSubscriber subscriber => subscriber ∈ t.subscribers
  | .addProducer producer => producer ∈ t.producers

/-- **ONE CALL** that was not made before. -/
theorem Wired.call {start t : Topology S B T} (h : Wired start t)
    {c : Call S B} (hnew : ¬ Made t c) :
    ∃ t', t.call c = .ok t' ∧ Wired start t' ∧
      ∀ c', Made t' c' ↔ Made t c' ∨ c' = c := by
  cases c with
  | addSubscriber subscriber =>
      obtain ⟨t', hcall, hwired, hsubscribers, hproducers⟩ :=
        h.addSubscriber hnew
      refine ⟨t', hcall, hwired, fun c' => ?_⟩
      cases c' with
      | addSubscriber s => simp [Made, hsubscribers]
      | addProducer b => simp [Made, hproducers]
  | addProducer producer =>
      obtain ⟨t', hcall, hwired, hsubscribers, hproducers⟩ :=
        h.addProducer hnew
      refine ⟨t', hcall, hwired, fun c' => ?_⟩
      cases c' with
      | addSubscriber s => simp [Made, hsubscribers]
      | addProducer b => simp [Made, hproducers]

/-- **ANY SEQUENCE OF DISTINCT CALLS**, from any subscribers and buffers. -/
theorem Wired.run {start : Topology S B T} :
    ∀ {calls : List (Call S B)} {t : Topology S B T}, Wired start t →
      calls.Nodup → (∀ c ∈ calls, ¬ Made t c) →
      ∃ t', t.run calls = .ok t' ∧ Wired start t' ∧
        ∀ c, Made t' c ↔ Made t c ∨ c ∈ calls := by
  intro calls
  induction calls with
  | nil =>
      intro t h _ _
      exact ⟨t, rfl, h, fun c => by simp⟩
  | cons c rest ih =>
      intro t h hnodup hnew
      obtain ⟨hc, hrest⟩ := List.nodup_cons.mp hnodup
      obtain ⟨t1, hcall, hwired, hmade⟩ := h.call (hnew c List.mem_cons_self)
      obtain ⟨t', hrun, hwired', hmade'⟩ := ih hwired hrest (by
        intro d hd hm
        rcases (hmade d).mp hm with hm | rfl
        · exact hnew d (List.mem_cons_of_mem _ hd) hm
        · exact hc hd)
      refine ⟨t', ?_, hwired', fun d => ?_⟩
      · rw [Topology.run, List.foldlM_cons, hcall]
        exact hrun
      · rw [hmade', hmade, List.mem_cons, or_assoc]

/-! ## The cross product -/

/-- The registered pairs. -/
def registered (t : Topology S B T) : Set (S × B) :=
  {pair | ∃ id, (pair.2, id) ∈ t.sources pair.1}

/-- Every subscriber the calls name has one cursor on every buffer they name,
    every cursor of such a buffer is that of one subscriber, and nothing else
    is registered. -/
structure FullCross (calls : List (Call S B)) (t : Topology S B T) :
    Prop where
  oneSource : ∀ s b, .addSubscriber s ∈ calls → .addProducer b ∈ calls →
    ∃ id, (t.sources s).filter (fun e => e.1 = b) = [(b, id)]
  oneSubscriber : ∀ b, .addProducer b ∈ calls →
    ∀ id < (t.buffers b).consumers.length, ∃! s, (b, id) ∈ t.sources s
  cursors : ∀ s b id, (b, id) ∈ t.sources s →
    (t.buffers b).consumers[id]? = some ⟨.lossy, 0, 0, .idle⟩
  pairs : registered t
    = {pair | .addSubscriber pair.1 ∈ calls ∧ .addProducer pair.2 ∈ calls}

theorem wired_new [Inhabited T] (capacity : B → Nat) :
    Wired (.new capacity : Topology S B T) (.new capacity) where
  unfrozen := rfl
  subscribersOnce := List.nodup_nil
  producersOnce := List.nodup_nil
  sources := fun _ => rfl
  buffers := fun _ => rfl

/-- A new subscriber's sources. -/
theorem Wired.mem_sources [Inhabited T] {capacity : B → Nat}
    {t : Topology S B T} (h : Wired (.new capacity) t) {s : S} {b : B}
    {id : ConsumerId} :
    (b, id) ∈ t.sources s ↔
      s ∈ t.subscribers ∧ b ∈ t.producers ∧ id = t.subscribers.idxOf s := by
  have hnone : ∀ r, ((Topology.new capacity : Topology S B T).buffers
      r).consumers.length = 0 := fun _ => rfl
  rw [h.sources s]
  show (b, id) ∈ [] ++ _ ↔ _
  rw [List.nil_append]
  by_cases hs : s ∈ t.subscribers
  · rw [if_pos hs]
    simp only [List.mem_map, Prod.mk.injEq, hnone, Nat.zero_add, hs, true_and]
    constructor
    · rintro ⟨r, hr, rfl, hid⟩
      exact ⟨hr, hid.symm⟩
    · rintro ⟨hb, hid⟩
      exact ⟨b, hb, rfl, hid.symm⟩
  · simp [hs]

/-- New objects, wired, are a full cross product. -/
theorem Wired.fullCross [Inhabited T] {capacity : B → Nat}
    {t : Topology S B T} (h : Wired (.new capacity) t)
    {calls : List (Call S B)} (hmade : ∀ c, Made t c ↔ c ∈ calls) :
    FullCross calls t where
  oneSource := by
    intro s b hs hb
    have hs : s ∈ t.subscribers := (hmade (.addSubscriber s)).mpr hs
    have hb : b ∈ t.producers := (hmade (.addProducer b)).mpr hb
    have hone : t.producers.filter (fun r => r = b) = [b] := by
      rw [List.filter_eq, List.count_eq_one_of_mem h.producersOnce hb]
      rfl
    refine ⟨t.subscribers.idxOf s, ?_⟩
    rw [h.sources s, if_pos hs]
    show ([] ++ _ : List (B × ConsumerId)).filter _ = _
    rw [List.nil_append, List.filter_map]
    show (t.producers.filter (fun r => r = b)).map _ = _
    rw [hone]
    exact congrArg (fun n => [(b, n)]) (Nat.zero_add _)
  oneSubscriber := by
    intro b hb id hid
    have hb : b ∈ t.producers := (hmade (.addProducer b)).mpr hb
    have hid : id < t.subscribers.length := by
      rw [h.length_consumers hb] at hid
      exact (Nat.zero_add t.subscribers.length) ▸ hid
    refine ⟨t.subscribers[id], ?_, ?_⟩
    · exact h.mem_sources.mpr ⟨List.getElem_mem hid, hb,
        (h.subscribersOnce.idxOf_getElem id hid).symm⟩
    · intro s hs
      obtain ⟨hmem, -, hat⟩ := h.mem_sources.mp hs
      subst hat
      exact (List.getElem_idxOf hid).symm
  cursors := by
    intro s b id hsource
    obtain ⟨hs, hb, hid⟩ := h.mem_sources.mp hsource
    rw [h.buffers b, if_pos hb, consumers_withCursors]
    show ([] ++ _ : List (Consumer T))[id]? = _
    rw [List.nil_append, List.getElem?_replicate, if_pos]
    exact hid ▸ List.idxOf_lt_length_of_mem hs
  pairs := by
    ext ⟨s, b⟩
    have hs := hmade (.addSubscriber s)
    have hb := hmade (.addProducer b)
    constructor
    · rintro ⟨id, hsource⟩
      obtain ⟨hsub, hprod, -⟩ := h.mem_sources.mp hsource
      exact ⟨hs.mp hsub, hb.mp hprod⟩
    · rintro ⟨hsub, hprod⟩
      exact ⟨_, h.mem_sources.mpr ⟨hs.mpr hsub, hb.mpr hprod, rfl⟩⟩

/-- **THE WIRING IS COMPLETE AND ORDER-INDEPENDENT**: distinct calls in any
    order never fault and make the full cross product, and every other order
    of them registers the same pairs. -/
theorem wiring_complete [Inhabited T] (capacity : B → Nat)
    {calls : List (Call S B)} (hdistinct : calls.Nodup) :
    ∃ t, (.new capacity : Topology S B T).run calls = .ok t ∧
      FullCross calls t ∧
      ∀ calls', calls'.Perm calls →
        ∃ t', (.new capacity : Topology S B T).run calls' = .ok t' ∧
          FullCross calls t' ∧ registered t' = registered t := by
  have hrun : ∀ calls' : List (Call S B), calls'.Perm calls →
      ∃ t', (.new capacity : Topology S B T).run calls' = .ok t' ∧
        FullCross calls t' := by
    intro calls' hperm
    have hnew : Wired (.new capacity : Topology S B T) (.new capacity) :=
      wired_new capacity
    obtain ⟨t', hrun, hwired, hmade⟩ :=
      hnew.run (hperm.nodup_iff.mpr hdistinct) (fun c _ => by
        cases c <;> exact List.not_mem_nil)
    refine ⟨t', hrun, hwired.fullCross (fun c => ?_)⟩
    rw [hmade c, hperm.mem_iff]
    cases c <;> simp [Made, Topology.new]
  obtain ⟨t, ht, hcross⟩ := hrun calls (.refl _)
  refine ⟨t, ht, hcross, fun calls' hperm => ?_⟩
  obtain ⟨t', ht', hcross'⟩ := hrun calls' hperm
  exact ⟨t', ht', hcross', hcross'.pairs.trans hcross.pairs.symm⟩

/-- Two subscribers and two buffers, in turn. -/
def wiringCalls : List (Call Nat Nat) :=
  [.addSubscriber 0, .addProducer 0, .addProducer 1, .addSubscriber 1]

theorem wiring_complete_inTurn :
    ∃ t, (.new (fun _ => 16) : Topology Nat Nat Nat).run wiringCalls = .ok t ∧
      FullCross wiringCalls t ∧
      ∀ calls', calls'.Perm wiringCalls →
        ∃ t', (.new (fun _ => 16) : Topology Nat Nat Nat).run calls'
            = .ok t' ∧
          FullCross wiringCalls t' ∧ registered t' = registered t :=
  wiring_complete (fun _ => 16) (by decide)

/-! ## The feed's wiring

    The simulation gives its publisher a buffer for each shard when it is
    constructed, and subscribers later. -/

section Feed

open OsxMarketFeed OsxShard

variable {count : Nat}

/-- The publisher of a simulation. -/
def publisherOf (market : Market count) :
    Topology Nat (Fin count) TopOfBookUpdate where
  frozen := market.simulation.frozen
  subscribers := List.range market.subscribers.length
  producers := List.finRange count
  sources := fun s => (market.subscribers[s]?.map (·.sources)).getD []
  buffers := market.outbound

/-- Without subscribers, producers are only noted. -/
theorem run_addProducers :
    ∀ (producers : List B) (t : Topology S B T), t.frozen = false →
      t.subscribers = [] →
      t.run (producers.map .addProducer)
        = .ok { t with producers := t.producers ++ producers } := by
  intro producers
  induction producers with
  | nil =>
      intro t _ _
      rw [List.append_nil]
      rfl
  | cons b rest ih =>
      intro t hopen hnone
      have hcall : t.call (.addProducer b)
          = .ok { t with producers := t.producers ++ [b] } := by
        show t.addProducer b = _
        rw [Topology.addProducer, if_neg (by rw [hopen]; exact Bool.false_ne_true)]
        simp only [hnone, List.foldl_nil]
      rw [List.map_cons, Topology.run, List.foldlM_cons, hcall]
      show ({ t with producers := t.producers ++ [b] }).run _ = _
      rw [ih { t with producers := t.producers ++ [b] } hopen hnone,
        List.append_assoc]
      rfl

/-- The constructor's loop makes the publisher of a new market. -/
theorem run_new_market (inbound outbound : Nat) :
    (.new (fun _ => outbound) : Topology Nat (Fin count) TopOfBookUpdate).run
        ((List.finRange count).map .addProducer)
      = .ok (publisherOf (.new count inbound outbound)) :=
  run_addProducers (List.finRange count) _ rfl rfl

/-- The feed's `add_subscriber` is the publisher's. -/
theorem addSubscriber_market (market : Market count)
    (hopen : market.simulation.frozen = false) :
    ∃ market', market.addSubscriber = .ok market' ∧
      (publisherOf market).addSubscriber market.subscribers.length
        = .ok (publisherOf market') := by
  refine ⟨_, if_neg (by rw [hopen]; exact Bool.false_ne_true), ?_⟩
  have hnone : market.subscribers[market.subscribers.length]? = none :=
    List.getElem?_eq_none (Nat.le_refl _)
  refine (addSubscriber_eq hopen (List.nodup_finRange count) _).trans
    (congrArg Except.ok ?_)
  simp only [publisherOf, Topology.mk.injEq, true_and]
  refine ⟨?_, ?_, ?_⟩
  · rw [List.length_append, List.length_singleton, List.range_succ]
  · funext s
    by_cases hs : s = market.subscribers.length
    · subst hs
      rw [Function.update_self, hnone, List.getElem?_concat_length]
      rfl
    · rw [Function.update_of_ne hs]
      rcases Nat.lt_or_gt_of_ne hs with hlt | hgt
      · rw [List.getElem?_append_left hlt]
      · rw [List.getElem?_eq_none (Nat.le_of_lt hgt), List.getElem?_eq_none]
        rw [List.length_append, List.length_singleton]
        exact hgt
  · funext shard
    exact if_pos (List.mem_finRange shard)

end Feed

end OsxPublisher
