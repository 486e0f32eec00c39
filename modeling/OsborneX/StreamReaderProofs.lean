import OsborneX.StreamReaderModel
import OsborneX.MarketFeedProofs

/-! # The stream reader — every loss is an old item, and counted

    A Lossy cursor that is lapped jumps to the oldest item the ring still holds.
    So of the items before its position it has delivered the whole last lap, and
    delivered or counted the rest (`Following`).  Every step of the reader keeps
    this of every producer's cursor (`Streaming`).  Once nothing is pushed any
    more, the pass of `stop` that finds nothing has found every buffer read to
    its end, and its newest items are among those the handler was called
    with. -/

namespace OsxStream

open OsxRingBuffer OsxRingSlot OsxRingCall Execution
open OsxMarketFeed (Poller Stopper)

variable {T : Type} {count capacity : Nat}

/-! ## A cursor passes over old items only -/

section Cursor

variable {values delivered : List T} {b : RingBuffer T} {c c' : Consumer T}

/-- A Lossy cursor between calls, and what it has delivered: of the last lap,
    everything before its position. -/
structure Following (capacity : Nat) (values : List T) (c : Consumer T)
    (delivered : List T) : Prop where
  reader : Reader values c delivered
  newest : (values.take c.sequence).drop (values.length - capacity)
    <:+ delivered

theorem following_new (capacity : Nat) :
    Following capacity ([] : List T) ⟨.lossy, 0, 0, .idle⟩ [] :=
  ⟨reader_new [], by simp⟩

/-- A push moves the last lap on, and the cursor's part of it shrinks. -/
theorem Following.push (h : Following capacity values c delivered) (value : T) :
    Following capacity (values ++ [value]) c delivered := by
  refine ⟨h.reader.push value, ?_⟩
  rw [List.take_append_of_le_length h.reader.behind, List.length_append]
  refine (List.drop_suffix_drop_left _ ?_).trans h.newest
  omega

/-- A cursor that was never lapped delivered everything before its position. -/
theorem Following.exact (h : Following capacity values c delivered)
    (hfew : values.length ≤ capacity) : delivered = values.take c.sequence := by
  have hnewest := h.newest
  rw [Nat.sub_eq_zero_of_le hfew, List.drop_zero] at hnewest
  exact (hnewest.sublist.antisymm h.reader.delivers).symm

/-- A cursor at the end delivered the last lap, and counted what it did not
    deliver. -/
theorem Following.ended (h : Following capacity values c delivered)
    (hend : c.sequence = values.length) :
    values.drop (values.length - capacity) <:+ delivered ∧
      delivered.length + c.dropped = values.length := by
  have hnewest := h.newest
  rw [hend, List.take_length] at hnewest
  exact ⟨hnewest, h.reader.counted.trans hend⟩

/-- What a read that finds an item returns. -/
theorem tryRead_ok {position : Nat} {value : T}
    (h : tryRead b c = .ok (c', .ok position value)) :
    c'.sequence = addSequence (catchUp b c).1 1 ∧
      value = (b.slotOf (catchUp b c).1).value := by
  rw [tryRead] at h
  split at h
  · cases h
  · dsimp only at h
    split at h
    · split at h <;> cases h
    · cases h
      exact ⟨rfl, rfl⟩

/-- Where a read starts: at the cursor, or at the oldest item there is. -/
theorem catchUp_max (h : Settled values b) (hsize : values.length < 2 ^ 64)
    (hr : Reader values c delivered) (hlt : c.sequence < values.length) :
    (catchUp b c).1 = max c.sequence (values.length - b.capacity) := by
  obtain ⟨-, hproduced⟩ := h.produced
  rw [catchUp, hproduced]
  dsimp only
  rw [subSequence_eq (Nat.le_of_lt hlt) hsize]
  by_cases hfar : values.length - c.sequence > b.capacity
  · rw [if_pos ⟨hr.policy, hfar⟩]
    show subSequence values.length b.capacity = _
    rw [subSequence_eq (by omega) hsize]
    omega
  · rw [if_neg (fun hboth => hfar hboth.2)]
    show c.sequence = _
    omega

/-- **A READ DROPS NO ITEM OF THE LAST LAP**: it finds the ring read to its end,
    or delivers the next item, or the oldest one there is. -/
theorem settled_follow (h : Settled values b) (hsize : values.length < 2 ^ 64)
    (hf : Following b.capacity values c delivered) :
    (c.sequence = values.length ∧ tryRead b c = .ok (c, .empty)) ∨
    ∃ c' position value, tryRead b c = .ok (c', .ok position value) ∧
      c.sequence < c'.sequence ∧
      Following b.capacity values c' (delivered ++ [value]) := by
  obtain hend | ⟨c', position, value, hread, hlt, hreader⟩ :=
    h.read hsize hf.reader
  · exact Or.inl hend
  · refine Or.inr ⟨c', position, value, hread, hlt, hreader, ?_⟩
    have hbefore : c.sequence < values.length :=
      Nat.lt_of_lt_of_le hlt hreader.behind
    obtain ⟨hnext, hproduced⟩ := h.produced
    obtain ⟨hsequence, hvalue⟩ := tryRead_ok hread
    rw [catchUp_max h hsize hf.reader hbefore] at hsequence hvalue
    have hcap : 0 < b.capacity := Nat.succ_pos b.mask
    rw [addSequence_eq (by omega)] at hsequence
    generalize hwant : max c.sequence (values.length - b.capacity) = want
      at hsequence hvalue
    -- the slot holds the item of that position
    have hquiet : ∀ sequence, b.pushing ≠ .assigned sequence := by
      rw [h.claiming]
      exact fun _ => Pushing.noConfusion
    have hcontents := h.published.contents_quiet hquiet want
      ⟨by omega, by omega⟩
    have hlength : (values.take want).length = want := by
      rw [List.length_take]
      omega
    rw [hsequence, List.take_add_one, hcontents, hvalue, Option.toList_some,
      List.drop_append_of_le_length (by omega)]
    refine List.suffix_append_self_iff.mpr ?_
    rcases Nat.le_total (values.length - b.capacity) c.sequence with hle | hle
    · rw [← hwant, Nat.max_eq_left hle]
      exact hf.newest
    · -- it jumped: nothing before the item is of the last lap
      rw [List.drop_eq_nil_of_le (by omega)]
      exact List.nil_suffix

end Cursor

/-! ## The log -/

section Log

variable (producer producer' : Fin count) (item : T)
  (log log' : List (Event T count))

@[simp] theorem pushedTo_append : pushedTo producer (log ++ log')
    = pushedTo producer log ++ pushedTo producer log' :=
  List.filterMap_append ..

@[simp] theorem deliveredFrom_append : deliveredFrom producer (log ++ log')
    = deliveredFrom producer log ++ deliveredFrom producer log' :=
  List.filterMap_append ..

@[simp] theorem pushedTo_nil : pushedTo producer ([] : List (Event T count))
    = [] := rfl

@[simp] theorem deliveredFrom_nil :
    deliveredFrom producer ([] : List (Event T count)) = [] := rfl

@[simp] theorem pushedTo_quiet :
    pushedTo producer [(.quiet : Event T count)] = [] := rfl

@[simp] theorem deliveredFrom_quiet :
    deliveredFrom producer [(.quiet : Event T count)] = [] := rfl

@[simp] theorem pushedTo_pushed : pushedTo producer [.pushed producer' item]
    = if producer' = producer then [item] else [] := by
  by_cases h : producer' = producer
  · simp [pushedTo, h]
  · simp [pushedTo, h]

@[simp] theorem deliveredFrom_pushed :
    deliveredFrom producer [.pushed producer' item] = [] := rfl

@[simp] theorem pushedTo_delivered :
    pushedTo producer [.delivered producer' item] = [] := rfl

@[simp] theorem deliveredFrom_delivered :
    deliveredFrom producer [.delivered producer' item]
      = if producer' = producer then [item] else [] := by
  by_cases h : producer' = producer
  · simp [deliveredFrom, h]
  · simp [deliveredFrom, h]

end Log

/-- What is delivered of a key that one producer alone pushes comes from that
    producer. -/
theorem delivered_routed {κ : Type} [DecidableEq κ] (key : T → κ)
    (route : κ → Fin count) {log : List (Event T count)}
    (h : ∀ i, ∀ item ∈ deliveredFrom i log, route (key item) = i) (k : κ) :
    (delivered log).filter (fun item => key item = k)
      = (deliveredFrom (route k) log).filter (fun item => key item = k) := by
  rw [delivered, deliveredFrom, List.filter_filterMap, List.filter_filterMap]
  refine List.filterMap_congr (fun event hmem => ?_)
  cases event with
  | quiet => rfl
  | pushed producer item => rfl
  | delivered producer item =>
      have hroute : route (key item) = producer := by
        refine h producer item (List.mem_filterMap.mpr ⟨_, hmem, ?_⟩)
        exact if_pos rfl
      by_cases hkey : key item = k
      · subst hkey
        simp [hroute]
      · by_cases hproducer : producer = route k
        · simp [hproducer]
        · simp [hproducer, hkey]

/-! ## The buffers and their cursors -/

/-- Each buffer holds what its producer pushed, and its one cursor follows. -/
structure Tapped (capacity : Nat) (buffers : Fin count → RingBuffer T)
    (log : List (Event T count)) : Prop where
  settled : ∀ i, Settled (pushedTo i log) (buffers i)
  lap : ∀ i, (buffers i).capacity = capacity
  cursor : ∀ i, ∃ c, (buffers i).consumers = [c] ∧
    Following capacity (pushedTo i log) c (deliveredFrom i log)

/-- The cursor has read the buffer to its end. -/
def AtEnd (buffers : Fin count → RingBuffer T) (log : List (Event T count))
    (i : Fin count) : Prop :=
  ∃ c, (buffers i).consumers = [c] ∧ c.sequence = (pushedTo i log).length

section Tapped

variable {buffers : Fin count → RingBuffer T} {log : List (Event T count)}

/-- A buffer read to its end: its last lap was delivered, and what was not was
    counted. -/
theorem Tapped.ended (h : Tapped capacity buffers log) {i : Fin count}
    (hend : AtEnd buffers log i) :
    (pushedTo i log).drop ((pushedTo i log).length - capacity)
        <:+ deliveredFrom i log ∧
      ∃ c, (buffers i).consumers = [c] ∧
        (deliveredFrom i log).length + c.dropped = (pushedTo i log).length := by
  obtain ⟨c, hc, hsequence⟩ := hend
  obtain ⟨c', hc', hfollow⟩ := h.cursor i
  rw [hc] at hc'
  cases hc'
  obtain ⟨hnewest, hcounted⟩ := hfollow.ended hsequence
  exact ⟨hnewest, c, hc, hcounted⟩

/-- What was delivered was pushed, in that order. -/
theorem Tapped.sublist (h : Tapped capacity buffers log) (i : Fin count) :
    (deliveredFrom i log).Sublist (pushedTo i log) := by
  obtain ⟨c, -, hfollow⟩ := h.cursor i
  exact hfollow.reader.delivers.trans (List.take_sublist _ _)

/-- A producer that pushed no more than its buffer holds lost nothing. -/
theorem Tapped.few (h : Tapped capacity buffers log) {i : Fin count}
    (hfew : (pushedTo i log).length ≤ capacity) :
    deliveredFrom i log <+: pushedTo i log := by
  obtain ⟨c, -, hfollow⟩ := h.cursor i
  rw [hfollow.exact hfew]
  exact List.take_prefix _ _

theorem Tapped.quiet (h : Tapped capacity buffers log) :
    Tapped capacity buffers (log ++ [.quiet]) := by
  obtain ⟨hsettled, hlap, hcursor⟩ := h
  exact ⟨by simpa using hsettled, hlap, by simpa using hcursor⟩

theorem AtEnd.quiet {i : Fin count} (h : AtEnd buffers log i) :
    AtEnd buffers (log ++ [.quiet]) i := by
  obtain ⟨c, hc, hend⟩ := h
  exact ⟨c, hc, by simpa using hend⟩

/-- **A PRODUCER PUSHES** to its own buffer. -/
theorem Tapped.push (h : Tapped capacity buffers log) {producer : Fin count}
    {item : T} (hsize : (pushedTo producer log).length + 1 < 2 ^ 64) :
    Tapped capacity (Function.update buffers producer
        (pushOverwrite (buffers producer) item))
      (log ++ [.pushed producer item]) := by
  refine ⟨fun i => ?_, fun i => ?_, fun i => ?_⟩
  · by_cases heq : producer = i
    · subst heq
      rw [Function.update_self, pushedTo_append, pushedTo_pushed, if_pos rfl]
      exact (h.settled producer).push item hsize
    · rw [Function.update_of_ne (Ne.symm heq), pushedTo_append,
        pushedTo_pushed, if_neg heq, List.append_nil]
      exact h.settled i
  · by_cases heq : producer = i
    · subst heq
      rw [Function.update_self]
      exact h.lap producer
    · rw [Function.update_of_ne (Ne.symm heq)]
      exact h.lap i
  · obtain ⟨c, hc, hfollow⟩ := h.cursor i
    refine ⟨c, ?_, ?_⟩
    · by_cases heq : producer = i
      · subst heq
        rw [Function.update_self]
        exact hc
      · rw [Function.update_of_ne (Ne.symm heq)]
        exact hc
    · rw [pushedTo_append, deliveredFrom_append, deliveredFrom_pushed,
        List.append_nil, pushedTo_pushed]
      split
      · exact hfollow.push item
      · rw [List.append_nil]
        exact hfollow

/-- An item was read: the cursor went on, and the other buffers are as they
    were. -/
theorem Tapped.delivered (h : Tapped capacity buffers log) {i : Fin count}
    {item : T} {c' : Consumer T}
    (hfollow : Following capacity (pushedTo i log) c'
      (deliveredFrom i log ++ [item])) :
    Tapped capacity (Function.update buffers i
        { buffers i with consumers := [c'] })
      (log ++ [.delivered i item]) := by
  refine ⟨fun j => ?_, fun j => ?_, fun j => ?_⟩
  · rw [pushedTo_append, pushedTo_delivered, List.append_nil]
    by_cases heq : i = j
    · subst heq
      rw [Function.update_self]
      exact (h.settled i).consumers _
    · rw [Function.update_of_ne (Ne.symm heq)]
      exact h.settled j
  · by_cases heq : i = j
    · subst heq
      rw [Function.update_self]
      exact h.lap i
    · rw [Function.update_of_ne (Ne.symm heq)]
      exact h.lap j
  · rw [pushedTo_append, deliveredFrom_append, pushedTo_delivered,
      deliveredFrom_delivered, List.append_nil]
    by_cases heq : i = j
    · subst heq
      rw [Function.update_self, if_pos rfl]
      exact ⟨c', rfl, hfollow⟩
    · rw [Function.update_of_ne (Ne.symm heq), if_neg heq, List.append_nil]
      exact h.cursor j

/-- The other buffers stay read to their ends. -/
theorem AtEnd.delivered {i j : Fin count} (h : AtEnd buffers log j)
    (hne : j ≠ i) (item : T) (consumers : List (Consumer T)) :
    AtEnd (Function.update buffers i { buffers i with consumers := consumers })
      (log ++ [.delivered i item]) j := by
  obtain ⟨c, hc, hend⟩ := h
  refine ⟨c, ?_, by simpa using hend⟩
  rw [Function.update_of_ne hne]
  exact hc

end Tapped

/-! ## The reader's steps -/

/-- The reader as it is once every producer is registered: a cursor on each
    buffer, which follows what is pushed there. -/
structure Streaming (capacity : Nat) (s : StreamReader T count)
    (log : List (Event T count)) : Prop where
  sources : s.sources = (List.finRange count).map (·, 0)
  tapped : Tapped capacity s.buffers log

section Steps

variable {s s' : StreamReader T count} {log : List (Event T count)}
  {event : Event T count}

/-- The sources are the cursors in the order of their producers. -/
theorem Streaming.source (h : Streaming capacity s log) {next : Nat}
    {source : Fin count × ConsumerId} (hsource : s.sources[next]? = some source) :
    ∃ i : Fin count, source = (i, 0) ∧ i.val = next := by
  rw [h.sources, List.getElem?_map] at hsource
  obtain ⟨i, hi, rfl⟩ := Option.map_eq_some_iff.mp hsource
  obtain ⟨hlt, rfl⟩ := List.getElem?_eq_some_iff.mp hi
  rw [List.getElem_finRange]
  exact ⟨_, rfl, rfl⟩

/-- **ONE READ** never fails: the buffer is read to its end and nothing happens,
    or the handler is called and the pass has progressed. -/
theorem Streaming.read (h : Streaming capacity s log) {i : Fin count}
    (hsize : (pushedTo i log).length < 2 ^ 64) (progressed : Bool) :
    (AtEnd s.buffers log i ∧
      s.read (i, 0) progressed = .ok (s.buffers, progressed, .quiet)) ∨
    ∃ c c' item, (s.buffers i).consumers = [c] ∧
      c.sequence < c'.sequence ∧ c'.sequence ≤ (pushedTo i log).length ∧
      s.read (i, 0) progressed = .ok (Function.update s.buffers i
        { s.buffers i with consumers := [c'] }, true, .delivered i item) ∧
      Tapped capacity (Function.update s.buffers i
        { s.buffers i with consumers := [c'] }) (log ++ [.delivered i item]) := by
  obtain ⟨c, hc, hfollow⟩ := h.tapped.cursor i
  have hlap := h.tapped.lap i
  rw [StreamReader.read]
  dsimp only
  rw [hc, List.getElem?_cons_zero]
  obtain ⟨hend, hread⟩ | ⟨c', position, item, hread, hlt, hfollow'⟩ :=
    settled_follow (h.tapped.settled i) hsize (hlap ▸ hfollow)
  · refine Or.inl ⟨⟨c, hc, hend⟩, ?_⟩
    dsimp only
    rw [hread]
    have hsame : { s.buffers i with consumers := [c].set 0 c } = s.buffers i := by
      rw [List.set_cons_zero, ← hc]
    dsimp only
    rw [hsame, Function.update_eq_self]
  · rw [hlap] at hfollow'
    refine Or.inr ⟨c, c', item, rfl, hlt, hfollow'.reader.behind, ?_,
      h.tapped.delivered hfollow'⟩
    dsimp only
    rw [hread]
    rfl

/-- What a turn of the reader's thread can be. -/
theorem poll_ok (h : s.poll = .ok (s', event)) :
    s.thread ≠ .absent ∧
    ((∃ thread, s' = { s with thread := thread } ∧ event = .quiet) ∨
    ∃ next progressed source buffers progressed',
      s.sources[next]? = some source ∧
      s.read source progressed = .ok (buffers, progressed', event) ∧
      s' = { s with
        buffers := buffers, thread := .polling (next + 1) progressed' }) := by
  rw [StreamReader.poll] at h
  cases hthread : s.thread with
  | absent | finished =>
      rw [hthread] at h
      cases h
  | loading =>
      rw [hthread] at h
      cases h
      exact ⟨Poller.noConfusion, Or.inl ⟨_, rfl, rfl⟩⟩
  | polling next progressed =>
      rw [hthread] at h
      refine ⟨Poller.noConfusion, ?_⟩
      dsimp only at h
      split at h
      · cases h
        exact Or.inl ⟨_, rfl, rfl⟩
      · rename_i source hsource
        obtain ⟨⟨buffers, progressed', event'⟩, hread, heq⟩ := bind_ok h
        cases heq
        exact Or.inr ⟨next, progressed, source, buffers, progressed', hsource,
          hread, rfl⟩

/-- The thread's turns leave the flag, and a call of `stop` where it is. -/
theorem poll_keeps (h : s.poll = .ok (s', event)) :
    s'.running = s.running ∧ s'.stopper = s.stopper := by
  obtain ⟨-, ⟨thread, rfl, -⟩ | ⟨next, progressed, source, buffers,
    progressed', -, -, rfl⟩⟩ := poll_ok h
  · exact ⟨rfl, rfl⟩
  · exact ⟨rfl, rfl⟩

/-- What a turn of `stop` can be: the join, the end of a pass, or a read. -/
theorem stopperStep_ok (h : s.stopperStep = .ok (s', event)) :
    (s.stopper = .joining ∧ event = .quiet ∧
      s' = { s with thread := .absent, stopper := .polling 0 false }) ∨
    ∃ next progressed, s.stopper = .polling next progressed ∧
    ((s.sources[next]? = none ∧ event = .quiet ∧
      s' = { s with
        stopper := if progressed then .polling 0 false else .idle }) ∨
    ∃ source buffers progressed',
      s.sources[next]? = some source ∧
      s.read source progressed = .ok (buffers, progressed', event) ∧
      s' = { s with
        buffers := buffers, stopper := .polling (next + 1) progressed' }) := by
  rw [StreamReader.stopperStep] at h
  cases hstopper : s.stopper with
  | idle =>
      rw [hstopper] at h
      cases h
  | joining =>
      rw [hstopper] at h
      dsimp only at h
      split at h
      · cases h
        exact Or.inl ⟨rfl, rfl, rfl⟩
      · cases h
        exact Or.inl ⟨rfl, rfl, rfl⟩
      · cases h
  | polling next progressed =>
      rw [hstopper] at h
      dsimp only at h
      refine Or.inr ⟨next, progressed, rfl, ?_⟩
      split at h
      · rename_i hnone
        cases h
        exact Or.inl ⟨hnone, rfl, rfl⟩
      · rename_i source hsource
        obtain ⟨⟨buffers, progressed', event'⟩, hread, heq⟩ := bind_ok h
        cases heq
        exact Or.inr ⟨source, buffers, progressed', hsource, hread, rfl⟩

/-- Only a producer's push is one. -/
theorem step_pushes {action : Action T count}
    (hpush : ∀ i item, action ≠ .push i item)
    (h : s.step action = .ok (s', event)) (i : Fin count) :
    pushedTo i [event] = [] := by
  have hread : ∀ {source : Fin count × ConsumerId}
      {progressed progressed' : Bool} {buffers : Fin count → RingBuffer T},
      s.read source progressed = .ok (buffers, progressed', event) →
      pushedTo i [event] = [] := by
    intro source progressed progressed' buffers h
    rw [StreamReader.read] at h
    dsimp only at h
    split at h
    · cases h
    · split at h
      · cases h
      · split at h <;> cases h <;> rfl
  cases action with
  | push producer item => exact absurd rfl (hpush producer item)
  | start | stop =>
      obtain ⟨s₁, -, heq⟩ := map_ok h
      cases heq
      rfl
  | poll =>
      obtain ⟨-, ⟨thread, -, rfl⟩ | ⟨next, progressed, source, buffers,
        progressed', -, hsome, -⟩⟩ := poll_ok h
      · rfl
      · exact hread hsome
  | stopper =>
      obtain ⟨-, rfl, -⟩ | ⟨next, progressed, -, ⟨-, rfl, -⟩ | ⟨source,
        buffers, progressed', -, hsome, -⟩⟩ := stopperStep_ok h
      · rfl
      · rfl
      · exact hread hsome

/-- What `start` can be: nothing, or the thread is launched. -/
theorem start_ok (h : s.start = .ok s') :
    s.stopper = .idle ∧ (s' = s ∧ s.running = true ∨
      s' = { s with running := true, thread := .loading } ∧
        s.running = false ∧ s.thread = .absent) := by
  rw [StreamReader.start] at h
  cases hstopper : s.stopper with
  | idle =>
      rw [hstopper] at h
      dsimp only at h
      split at h
      · rename_i hrunning
        cases h
        exact ⟨rfl, Or.inl ⟨rfl, hrunning⟩⟩
      · rename_i hrunning
        split at h
        · rename_i habsent
          cases h
          exact ⟨rfl, Or.inr ⟨rfl, eq_false_of_ne_true hrunning, habsent⟩⟩
        · cases h
  | joining | polling next progressed =>
      rw [hstopper] at h
      cases h

/-- What `stop` can be: nothing, or the flag is reset and the join is next. -/
theorem stop_ok (h : s.stop = .ok s') :
    s.stopper = .idle ∧ (s' = s ∧ s.running = false ∨
      s' = { s with running := false, stopper := .joining } ∧
        s.running = true) := by
  rw [StreamReader.stop] at h
  cases hstopper : s.stopper with
  | idle =>
      rw [hstopper] at h
      dsimp only at h
      split at h
      · rename_i hrunning
        cases h
        exact ⟨rfl, Or.inr ⟨rfl, hrunning⟩⟩
      · rename_i hrunning
        cases h
        exact ⟨rfl, Or.inl ⟨rfl, eq_false_of_ne_true hrunning⟩⟩
  | joining | polling next progressed =>
      rw [hstopper] at h
      cases h

/-- What a read that returned did to the buffers. -/
theorem Streaming.reads (h : Streaming capacity s log) {i : Fin count}
    (hsize : (pushedTo i log).length < 2 ^ 64)
    {progressed progressed' : Bool} {buffers : Fin count → RingBuffer T}
    (hread : s.read (i, 0) progressed = .ok (buffers, progressed', event)) :
    Tapped capacity buffers (log ++ [event]) ∧
    (∀ j, AtEnd s.buffers log j → AtEnd buffers (log ++ [event]) j) ∧
    (progressed' = false →
      progressed = false ∧ AtEnd buffers (log ++ [event]) i) := by
  obtain ⟨hend, hnone⟩ | ⟨c, c', item, hc, hlt, hle, hsome, htapped⟩ :=
    h.read hsize progressed
  · rw [hnone] at hread
    cases hread
    exact ⟨h.tapped.quiet, fun _ hj => hj.quiet, fun hsame => ⟨hsame, hend.quiet⟩⟩
  · rw [hsome] at hread
    cases hread
    refine ⟨htapped, fun j hj => hj.delivered ?_ item _,
      fun hsame => Bool.noConfusion hsame⟩
    -- the buffer that was read was not at its end
    rintro rfl
    obtain ⟨c₀, hc₀, hsequence⟩ := hj
    rw [hc] at hc₀
    cases hc₀
    omega

/-- **EVERY STEP** keeps the buffers and their cursors. -/
theorem Streaming.step (h : Streaming capacity s log)
    {action : Action T count} (hstep : s.step action = .ok (s', event))
    (hsize : ∀ i, (pushedTo i (log ++ [event])).length < 2 ^ 64) :
    Streaming capacity s' (log ++ [event]) := by
  have hbefore : ∀ i, (pushedTo i log).length < 2 ^ 64 := by
    intro i
    have hi := hsize i
    rw [pushedTo_append, List.length_append] at hi
    omega
  cases action with
  | push producer item =>
      cases hstep
      refine ⟨h.sources, h.tapped.push ?_⟩
      have hi := hsize producer
      rw [pushedTo_append, pushedTo_pushed, if_pos rfl,
        List.length_append] at hi
      exact hi
  | start =>
      obtain ⟨s₁, hstart, heq⟩ := map_ok hstep
      cases heq
      obtain ⟨-, ⟨rfl, -⟩ | ⟨rfl, -⟩⟩ := start_ok hstart
      · exact ⟨h.sources, h.tapped.quiet⟩
      · exact ⟨h.sources, h.tapped.quiet⟩
  | stop =>
      obtain ⟨s₁, hstop, heq⟩ := map_ok hstep
      cases heq
      obtain ⟨-, ⟨rfl, -⟩ | ⟨rfl, -⟩⟩ := stop_ok hstop
      · exact ⟨h.sources, h.tapped.quiet⟩
      · exact ⟨h.sources, h.tapped.quiet⟩
  | poll =>
      obtain ⟨-, ⟨thread, rfl, rfl⟩ | ⟨next, progressed, source, buffers,
        progressed', hsource, hread, rfl⟩⟩ := poll_ok hstep
      · exact ⟨h.sources, h.tapped.quiet⟩
      · obtain ⟨i, rfl, -⟩ := h.source hsource
        exact ⟨h.sources, (h.reads (hbefore i) hread).1⟩
  | stopper =>
      obtain ⟨-, rfl, rfl⟩ | ⟨next, progressed, -, ⟨-, rfl, rfl⟩ | ⟨source,
        buffers, progressed', hsource, hread, rfl⟩⟩ := stopperStep_ok hstep
      · exact ⟨h.sources, h.tapped.quiet⟩
      · exact ⟨h.sources, h.tapped.quiet⟩
      · obtain ⟨i, rfl, -⟩ := h.source hsource
        exact ⟨h.sources, (h.reads (hbefore i) hread).1⟩

/-! ## The drain -/

/-- What a call of `stop` has read to the end: in a pass that has found nothing
    yet, the buffers before the next; after the call, every buffer. -/
def Drained (s : StreamReader T count) (log : List (Event T count)) : Prop :=
  match s.stopper with
  | .joining => True
  | .polling next progressed => progressed = false →
      ∀ i : Fin count, i.val < next → AtEnd s.buffers log i
  | .idle => ∀ i, AtEnd s.buffers log i

/-- Buffers that stay read to their ends leave the drain as far as it was. -/
theorem Drained.keeps (h : Drained s log) (hstopper : s'.stopper = s.stopper)
    (hkeeps : ∀ i, AtEnd s.buffers log i →
      AtEnd s'.buffers (log ++ [event]) i) :
    Drained s' (log ++ [event]) := by
  rw [Drained] at h ⊢
  rw [hstopper]
  cases hplace : s.stopper with
  | joining => trivial
  | polling next progressed =>
      rw [hplace] at h
      exact fun hnone i hlt => hkeeps i (h hnone i hlt)
  | idle =>
      rw [hplace] at h
      exact fun i => hkeeps i (h i)

/-- **ONE STEP OF THE DRAIN**: with nothing pushed, a pass that ends without
    progress has read every buffer to its end. -/
theorem Drained.step (h : Drained s log) (hs : Streaming capacity s log)
    (hsize : ∀ i, (pushedTo i log).length < 2 ^ 64)
    {action : Action T count} (hpush : ∀ i item, action ≠ .push i item)
    (hstep : s.step action = .ok (s', event)) :
    Drained s' (log ++ [event]) := by
  cases action with
  | push producer item => exact absurd rfl (hpush producer item)
  | start =>
      obtain ⟨s₁, hstart, heq⟩ := map_ok hstep
      cases heq
      obtain ⟨hidle, ⟨rfl, -⟩ | ⟨rfl, -⟩⟩ := start_ok hstart
      · exact h.keeps rfl (fun _ hi => hi.quiet)
      · exact h.keeps rfl (fun _ hi => hi.quiet)
  | stop =>
      obtain ⟨s₁, hstop, heq⟩ := map_ok hstep
      cases heq
      obtain ⟨hidle, ⟨rfl, -⟩ | ⟨rfl, -⟩⟩ := stop_ok hstop
      · exact h.keeps rfl (fun _ hi => hi.quiet)
      · exact trivial
  | poll =>
      obtain ⟨-, ⟨thread, rfl, rfl⟩ | ⟨next, progressed, source, buffers,
        progressed', hsource, hread, rfl⟩⟩ := poll_ok hstep
      · exact h.keeps rfl (fun _ hi => hi.quiet)
      · obtain ⟨i, rfl, -⟩ := hs.source hsource
        exact h.keeps rfl (hs.reads (hsize i) hread).2.1
  | stopper =>
      obtain ⟨-, rfl, rfl⟩ | ⟨next, progressed, hpolling, ⟨hnone, rfl, rfl⟩ |
        ⟨source, buffers, progressed', hsource, hread, rfl⟩⟩ :=
        stopperStep_ok hstep
      · exact fun _ i hlt => absurd hlt (Nat.not_lt_zero _)
      · rw [Drained, hpolling] at h
        cases progressed with
        | true => exact fun _ i hlt => absurd hlt (Nat.not_lt_zero _)
        | false =>
            -- the pass went over every source
            rw [hs.sources, List.getElem?_eq_none_iff, List.length_map,
              List.length_finRange] at hnone
            exact fun i => (h rfl i (Nat.lt_of_lt_of_le i.isLt hnone)).quiet
      · rw [Drained, hpolling] at h
        obtain ⟨i, rfl, rfl⟩ := hs.source hsource
        obtain ⟨-, hkeeps, hfound⟩ := hs.reads (hsize i) hread
        intro hsame j hlt
        obtain ⟨hnone, hend⟩ := hfound hsame
        by_cases hbefore : j.val < i.val
        · exact hkeeps j (h hnone j hbefore)
        · have heq : j = i := Fin.ext (by omega)
          rw [heq]
          exact hend

end Steps

/-! ## A subscriber is a stream reader -/

section Subscriber

open OsxShard (SymbolId TopOfBookUpdate)
open OsxMarketFeed (Market Subscriber)

/-- A subscriber of a market, with the buffers it reads. -/
def readerOf (s : Market count) (subscriber : Subscriber count) :
    StreamReader TopOfBookUpdate count where
  buffers := s.outbound
  sources := subscriber.sources
  running := subscriber.running
  thread := subscriber.thread
  stopper := subscriber.stopper

/-- What a subscriber's turn did. -/
def eventOf : OsxMarketFeed.Event count → Event TopOfBookUpdate count
  | .handled _ shard update => .delivered shard update
  | _ => .quiet

/-- A step of a market, as one of its subscribers sees it. -/
def seenBy (id : Nat) (r : Except OsxMarketFeed.Fault
      (Market count × OsxMarketFeed.Event count)) :
    Option (StreamReader TopOfBookUpdate count × Event TopOfBookUpdate count) :=
  match r with
  | .error _ => none
  | .ok (s, event) => s.subscribers[id]?.map fun subscriber =>
      (readerOf s subscriber, eventOf event)

/-- The turns of a subscriber. -/
def turnOf (id : Nat) :
    Action TopOfBookUpdate count → Option (OsxMarketFeed.Action count)
  | .push _ _ => none
  | .start => some (.startSubscriber id)
  | .stop => some (.stopSubscriber id)
  | .poll => some (.poll id)
  | .stopper => some (.stopper id)

variable {s : Market count} {id : Nat} {subscriber : Subscriber count}

theorem seenBy_setSubscriber (hid : s.subscribers[id]? = some subscriber)
    (outbound : OsxMarketFeed.Buffers count) (subscriber' : Subscriber count)
    (event : OsxMarketFeed.Event count) :
    seenBy id (.ok ({ s with outbound := outbound }.setSubscriber id subscriber',
        event))
      = some ({ readerOf s subscriber' with buffers := outbound },
        eventOf event) := by
  have hlt := (List.getElem?_eq_some_iff.mp hid).1
  have hset : (s.subscribers.set id subscriber')[id]? = some subscriber' :=
    List.getElem?_set_self hlt
  show (s.subscribers.set id subscriber')[id]?.map _ = _
  rw [hset]
  rfl

/-- Reading a source: both fail, or leave the same and call the handler with the
    same. -/
theorem readNext_read (s : Market count) (id : Nat)
    (subscriber : Subscriber count) (source : Fin count × ConsumerId)
    (progressed : Bool) :
    (∃ fault fault',
      s.readNext id subscriber source progressed = .error fault ∧
      (readerOf s subscriber).read source progressed = .error fault') ∨
    ∃ outbound events progressed' event,
      s.readNext id subscriber source progressed
        = .ok (outbound, events, progressed', event) ∧
      (readerOf s subscriber).read source progressed
        = .ok (outbound, progressed', eventOf event) := by
  rw [Market.readNext, OsxMarketFeed.readSource, StreamReader.read, readerOf]
  dsimp only
  cases (s.outbound source.1).consumers[source.2]? with
  | none => exact Or.inl ⟨_, _, rfl, rfl⟩
  | some cursor =>
      dsimp only
      cases tryRead (s.outbound source.1) cursor with
      | error fault => exact Or.inl ⟨_, _, rfl, rfl⟩
      | ok r =>
          obtain ⟨cursor', result⟩ := r
          cases result with
          | _ => exact Or.inr ⟨_, _, _, _, rfl, rfl⟩

/-- **A TURN OF A SUBSCRIBER** is one of the stream reader's on the same
    buffers: it can be taken when the reader's can, leaves the same and calls
    the handler with the same. -/
theorem subscriber_reader (hash : SymbolId → Nat) [NeZero count]
    (hid : s.subscribers[id]? = some subscriber)
    {action : Action TopOfBookUpdate count} {turn : OsxMarketFeed.Action count}
    (hturn : turnOf id action = some turn) :
    seenBy id (s.step hash turn)
      = ((readerOf s subscriber).step action).toOption := by
  have hset := seenBy_setSubscriber hid
  have hkeeps := hset s.outbound
  obtain ⟨running, thread, stopper, sources, events⟩ := subscriber
  cases action with
  | push producer item => cases hturn
  | start =>
      cases hturn
      rw [Market.step, Market.subscriberStep, hid]
      cases stopper with
      | idle =>
          cases running with
          | true => exact hkeeps _ .quiet
          | false =>
              cases thread with
              | absent => exact hkeeps _ .quiet
              | _ => rfl
      | _ => rfl
  | stop =>
      cases hturn
      rw [Market.step, Market.subscriberStep, hid]
      cases stopper with
      | idle =>
          cases running with
          | true => exact hkeeps _ .quiet
          | false => exact hkeeps _ .quiet
      | _ => rfl
  | poll =>
      cases hturn
      rw [Market.step, Market.subscriberStep, hid, StreamReader.step,
        StreamReader.poll]
      dsimp only [readerOf]
      rw [Market.pollStep]
      cases thread with
      | absent | finished => rfl
      | loading => exact hkeeps _ .quiet
      | polling next progressed =>
          dsimp only
          cases sources[next]? with
          | none => exact hkeeps _ .quiet
          | some source =>
              dsimp only
              obtain ⟨fault, fault', hnext, hread⟩ | ⟨outbound, events',
                progressed', event, hnext, hread⟩ := readNext_read s id
                  ⟨running, .polling next progressed, stopper, sources, events⟩
                  source progressed
              · dsimp only [readerOf] at hread
                rw [hnext, hread]
                rfl
              · dsimp only [readerOf] at hread
                rw [hnext, hread]
                exact hset outbound _ event
  | stopper =>
      cases hturn
      rw [Market.step, Market.subscriberStep, hid, StreamReader.step,
        StreamReader.stopperStep]
      dsimp only [readerOf]
      rw [Market.stopperStep]
      cases stopper with
      | idle => rfl
      | joining =>
          cases thread with
          | absent | finished => exact hkeeps _ .quiet
          | _ => rfl
      | polling next progressed =>
          dsimp only
          cases sources[next]? with
          | none => exact hkeeps _ .quiet
          | some source =>
              dsimp only
              obtain ⟨fault, fault', hnext, hread⟩ | ⟨outbound, events',
                progressed', event, hnext, hread⟩ := readNext_read s id
                  ⟨running, thread, .polling next progressed, sources, events⟩
                  source progressed
              · dsimp only [readerOf] at hread
                rw [hnext, hread]
                rfl
              · dsimp only [readerOf] at hread
                rw [hnext, hread]
                exact hset outbound _ event

end Subscriber

/-! ## Whole runs -/

/-- Registering producers gives each buffer a cursor, and the sources in their
    order. -/
theorem foldl_registerProducer (producers : List (Fin count)) :
    ∀ s : StreamReader T count, producers.Nodup →
      (∀ i ∈ producers, (s.buffers i).consumers = []) →
      producers.foldl StreamReader.registerProducer s
        = { s with
            buffers := fun i => if i ∈ producers
              then (s.buffers i).addConsumer .lossy else s.buffers i
            sources := s.sources ++ producers.map (·, 0) } := by
  induction producers with
  | nil =>
      intro s _ _
      simp
  | cons producer producers ih =>
      intro s hnodup hnone
      obtain ⟨hnew, hnodup⟩ := List.nodup_cons.mp hnodup
      have hother : ∀ i ∈ producers,
          (s.registerProducer producer).buffers i = s.buffers i := by
        rintro i hi
        refine Function.update_of_ne ?_ ..
        rintro rfl
        exact hnew hi
      rw [List.foldl_cons, ih _ hnodup (fun i hi => by
        rw [hother i hi]
        exact hnone i (List.mem_cons_of_mem _ hi))]
      have hlength := hnone producer List.mem_cons_self
      rw [StreamReader.registerProducer, hlength]
      congr 1
      · funext i
        by_cases heq : i = producer
        · subst heq
          simp [hnew]
        · simp [heq]
      · simp

variable [Inhabited T]

/-- A reader with every producer registered. -/
theorem streaming_new (count capacity : Nat) :
    Streaming (OsxRingBuffer.bitCeil (if capacity = 0 then 1 else capacity))
      (StreamReader.new count capacity : StreamReader T count).registerAll
      [] := by
  rw [StreamReader.registerAll, foldl_registerProducer _ _
    (List.nodup_finRange count) (fun _ _ => rfl)]
  refine ⟨List.nil_append _, fun i => ?_, fun i => ?_, fun i => ?_⟩
  · dsimp only
    rw [if_pos (List.mem_finRange i), addConsumer_lossy]
    exact (settled_new capacity).consumers _
  · dsimp only
    rw [if_pos (List.mem_finRange i), addConsumer_lossy]
    exact capacity_start (T := T) capacity [] []
  · dsimp only
    rw [if_pos (List.mem_finRange i), addConsumer_lossy]
    exact ⟨_, rfl, following_new _⟩

omit [Inhabited T] in
/-- Every run keeps the buffers and their cursors. -/
theorem run_streaming {s t : StreamReader T count} {actions : List (Action T count)}
    {before log : List (Event T count)} (h : Streaming capacity s before)
    (hrun : execute StreamReader.step s actions = .ok (t, log))
    (hsize : ∀ i, (pushedTo i (before ++ log)).length < 2 ^ 64) :
    Streaming capacity t (before ++ log) := by
  refine execute_account
    (I := fun s log => (∀ i, (pushedTo i (before ++ log)).length < 2 ^ 64) →
      Streaming capacity s (before ++ log))
    ?_ (fun _ => by rw [List.append_nil]; exact h) hrun hsize
  intro s log action s' event ih hstep hsize
  rw [← List.append_assoc] at hsize ⊢
  refine (ih (fun i => ?_)).step hstep hsize
  -- what was pushed before is no more than what was pushed
  have hi := hsize i
  rw [pushedTo_append, List.length_append] at hi
  omega

omit [Inhabited T] in
/-- **THE DRAIN**, along any run in which nothing is pushed. -/
theorem run_drained {actions : List (Action T count)} :
    ∀ {s t : StreamReader T count} {before log : List (Event T count)},
      Drained s before → Streaming capacity s before →
      (∀ i item, .push i item ∉ actions) →
      execute StreamReader.step s actions = .ok (t, log) →
      (∀ i, (pushedTo i (before ++ log)).length < 2 ^ 64) →
      Drained t (before ++ log) := by
  induction actions with
  | nil =>
      intro s t before log h _ _ hrun _
      cases hrun
      rw [List.append_nil]
      exact h
  | cons action actions ih =>
      intro s t before log h hs hpush hrun hsize
      obtain ⟨s₁, event, log', hstep, hrest, rfl⟩ := execute_cons_ok hrun
      rw [List.append_cons] at hsize ⊢
      have hone : ∀ i, (pushedTo i (before ++ [event])).length < 2 ^ 64 := by
        intro i
        have hi := hsize i
        rw [pushedTo_append, List.length_append] at hi
        omega
      have hnone : ∀ i, (pushedTo i before).length < 2 ^ 64 := by
        intro i
        have hi := hone i
        rw [pushedTo_append, List.length_append] at hi
        omega
      refine ih (h.step hs hnone (fun i item heq => ?_) hstep)
        (hs.step hstep hone)
        (fun i item hmem => hpush i item (List.mem_cons_of_mem _ hmem)) hrest hsize
      exact hpush i item (heq ▸ List.mem_cons_self)

/-- **THE READER LOSES OLD ITEMS ONLY, AND COUNTS THEM**: what the handler is
    called with of each producer is what it pushed, in order, but for items that
    were overwritten; a producer that pushed no more than its buffer holds loses
    none; and when `stop` has returned, with nothing pushed since it was called,
    the newest items that a buffer holds were delivered and the others
    delivered or counted. -/
theorem reader_stream (count capacity lap : Nat)
    (hlap : OsxRingBuffer.bitCeil (if capacity = 0 then 1 else capacity) = lap)
    {actions : List (Action T count)} {t : StreamReader T count}
    {log : List (Event T count)}
    (h : execute StreamReader.step (StreamReader.new count capacity).registerAll
      actions = .ok (t, log))
    (hsize : ∀ i, (pushedTo i log).length < 2 ^ 64) :
    (∀ i, (deliveredFrom i log).Sublist (pushedTo i log) ∧
      ((pushedTo i log).length ≤ lap →
        deliveredFrom i log <+: pushedTo i log)) ∧
    ∀ before after s log', actions = before ++ .stop :: after →
      execute StreamReader.step (StreamReader.new count capacity).registerAll
        before = .ok (s, log') →
      s.running = true → (∀ i item, .push i item ∉ after) →
      t.stopper = .idle →
      ∀ i, (pushedTo i log).drop ((pushedTo i log).length - lap)
          <:+ deliveredFrom i log ∧
        (deliveredFrom i log).length + t.droppedAt (i, 0)
          = (pushedTo i log).length := by
  subst hlap
  have hstreaming := run_streaming (streaming_new count capacity) h hsize
  rw [List.nil_append] at hstreaming
  refine ⟨fun i => ⟨hstreaming.tapped.sublist i, hstreaming.tapped.few⟩, ?_⟩
  rintro before after s log' rfl hbefore hrunning hpush hidle i
  obtain ⟨s', log₁, log₂, hrun₁, hrun₂, rfl⟩ := execute_append.mp h
  rw [hbefore] at hrun₁
  cases hrun₁
  obtain ⟨s₁, event, log₃, hstop, hafter, rfl⟩ := execute_cons_ok hrun₂
  rw [List.append_cons] at hsize hstreaming ⊢
  have hone : ∀ i, (pushedTo i (log' ++ [event])).length < 2 ^ 64 := by
    intro i
    have hi := hsize i
    rw [pushedTo_append, List.length_append] at hi
    omega
  have hnone : ∀ i, (pushedTo i log').length < 2 ^ 64 := by
    intro i
    have hi := hone i
    rw [pushedTo_append, List.length_append] at hi
    omega
  have hs := run_streaming (streaming_new count capacity) hbefore
    (by rw [List.nil_append]; exact hnone)
  rw [List.nil_append] at hs
  -- the call begins: it is about to join
  have hjoining : Drained s₁ (log' ++ [event]) := by
    obtain ⟨s₂, hok, heq⟩ := map_ok hstop
    cases heq
    obtain ⟨-, ⟨-, hnot⟩ | ⟨rfl, -⟩⟩ := stop_ok hok
    · rw [hrunning] at hnot
      cases hnot
    · exact trivial
  have hdrained := run_drained hjoining (hs.step hstop hone) hpush hafter hsize
  rw [Drained, hidle] at hdrained
  obtain ⟨hnewest, c, hc, hcounted⟩ := hstreaming.tapped.ended (hdrained i)
  refine ⟨hnewest, ?_⟩
  rw [StreamReader.droppedAt]
  dsimp only
  rw [hc]
  exact hcounted

/-- Two producers with buffers of two slots: the first pushes four numbers, the
    second one, while the thread reads in between. -/
def sampleReads : List (Action Nat 2) :=
  let first : Fin 2 := ⟨0, Nat.zero_lt_two⟩
  let second : Fin 2 := ⟨1, Nat.one_lt_two⟩
  [.start, .push first 1, .poll, .poll, .push first 2, .push second 10,
    .push first 3, .push first 4, .poll, .stop, .poll, .poll] ++
    List.replicate 10 .stopper

theorem reader_stream_two : ∃ t log,
    execute StreamReader.step (StreamReader.new 2 2).registerAll sampleReads
      = .ok (t, log) ∧
    ∀ i, (pushedTo i log).drop ((pushedTo i log).length - 2)
        <:+ deliveredFrom i log ∧
      (deliveredFrom i log).length + t.droppedAt (i, 0)
        = (pushedTo i log).length := by
  have hafter : (execute StreamReader.step (StreamReader.new 2 2).registerAll
      sampleReads).toOption.map (fun r => (decide (∀ i, (pushedTo i r.2).length
        < 2 ^ 64), r.1.stopper)) = some (true, .idle) := by
    decide +kernel
  have hbefore : (execute StreamReader.step (StreamReader.new 2 2).registerAll
      (sampleReads.take 9)).toOption.map (·.1.running) = some true := by
    decide +kernel
  cases hrun : execute StreamReader.step (StreamReader.new 2 2).registerAll
      sampleReads with
  | error e =>
      rw [hrun] at hafter
      cases hafter
  | ok r =>
      cases huntil : execute StreamReader.step
          (StreamReader.new 2 2).registerAll (sampleReads.take 9) with
      | error e =>
          rw [huntil] at hbefore
          cases hbefore
      | ok r₀ =>
          rw [hrun] at hafter
          rw [huntil] at hbefore
          obtain ⟨hsize, hidle⟩ := Prod.mk.inj (Option.some.inj hafter)
          obtain ⟨-, hstopped⟩ := reader_stream 2 2 2 (by decide) hrun
            (of_decide_eq_true hsize)
          exact ⟨r.1, r.2, rfl, hstopped (sampleReads.take 9)
            (sampleReads.drop 10) r₀.1 r₀.2 rfl huntil
            (Option.some.inj hbefore) (by simp [sampleReads]) hidle⟩

end OsxStream
