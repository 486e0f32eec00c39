import OsborneX.ParticipantModel
import OsborneX.TicketProofs
import OsborneX.DuplicateProofs

/-! # Order ids never collide

    Whatever is done with a participant, it goes through the moves of a ticket
    dispenser: `BotAt` and `ClientAt` say how its counter, its lock and the
    places of its threads stand for one.  The dispenser gives no number twice,
    and an id keeps the number and the source apart, so no two orders of any
    participants have one id, and no book has ever heard of the id of an Add. -/

namespace OsxParticipant

open OsxOrderbook OsxShard OsxStrategy OsxDuplicate Ticket

/-! ## The two formulas -/

/-- The source above, the local id below. -/
theorem makeOrderId_eq (source localId : Nat) :
    makeOrderId source localId = source * 2 ^ 48 + localId % 2 ^ 48 := by
  have hmask : localId &&& localIdMask = localId % 2 ^ 48 :=
    Nat.and_two_pow_sub_one_eq_mod localId 48
  rw [makeOrderId, hmask, localIdBits,
    ← Nat.shiftLeft_add_eq_or_of_lt (Nat.mod_lt _ (by decide)),
    Nat.shiftLeft_eq]

theorem makeOrderId_source (source localId : Nat) :
    makeOrderId source localId >>> 48 = source := by
  rw [makeOrderId_eq, Nat.shiftRight_eq_div_pow]
  show (_ : Nat) = _
  omega

theorem makeOrderId_lt {source : Nat} (h : source < 2 ^ 16) (localId : Nat) :
    makeOrderId source localId < 2 ^ 64 := by
  rw [makeOrderId_eq]
  show (_ : Nat) < _
  omega

theorem makeOrderId_inj {source n m : Nat} (hn : n < 2 ^ 48)
    (hm : m < 2 ^ 48) (h : makeOrderId source n = makeOrderId source m) :
    n = m := by
  have h : source * 2 ^ 48 + n % 2 ^ 48 = source * 2 ^ 48 + m % 2 ^ 48 := by
    rw [← makeOrderId_eq, ← makeOrderId_eq, h]
  omega

/-- The 64-bit counter and the unbounded one give the same id. -/
theorem makeOrderId_mod (source n : Nat) :
    makeOrderId source (n % 2 ^ 64) = makeOrderId source n := by
  rw [makeOrderId_eq, makeOrderId_eq]
  show (_ : Nat) = _
  omega

/-- **ONE FORMULA**, in 64-bit words and in Python's integers. -/
theorem randomOrderId_eq (source : UInt16) (counter : UInt64) :
    (randomOrderId source counter).toNat
      = makeOrderId source.toNat counter.toNat := by
  have hbound : source.toNat <<< 48 < 2 ^ 64 := by
    have := source.toNat_lt
    rw [Nat.shiftLeft_eq]
    omega
  rw [randomOrderId, UInt64.toNat_or, UInt64.toNat_shiftLeft,
    UInt64.toNat_and, UInt16.toNat_toUInt64]
  show (source.toNat <<< 48) % 2 ^ 64 ||| (counter.toNat &&& localIdMask) = _
  rw [Nat.mod_eq_of_lt hbound]
  rfl

/-! ## What a turn amounts to -/

variable {C : Type} [DecidableEq C]

/-- A turn of a participant with this source, as a move of its dispenser. -/
inductive Amounts (source : Nat) :
    Dispenser C → Event → Dispenser C → Prop where
  | quiet (d : Dispenser C) : Amounts source d .quiet d
  | counted {d : Dispenser C} {c : C} (h : d.held c = none) :
      Amounts source d .counted (d.take c)
  | generated {d : Dispenser C} {c : C} {n : Nat} (h : d.held c = some n)
      (now : Nat) (terms : Terms) :
      Amounts source d (.generated
        (orderOf source now (makeOrderId source n) terms)) (d.use c n)

theorem Amounts.moves {source : Nat} {d d' : Dispenser C} {event : Event}
    (h : Amounts source d event d') : Moves d d' := by
  cases h with
  | quiet => exact .stay d
  | counted h => exact .take h
  | generated h _ _ => exact .use h

/-! ## The bot -/

/-- What a thread got from `fetch_add`. -/
def Making.holds : Making → Option UInt64
  | .idle => none
  | .counted _ counter => some counter

/-- The counter and the threads of a bot, for a dispenser. -/
structure BotAt (b : Bot C) (d : Dispenser C) : Prop where
  counter : b.nextOrderId = UInt64.ofNat (d.handed + 1)
  held : ∀ c, (b.making c).holds = (d.held c).map UInt64.ofNat

omit [DecidableEq C] in
theorem botAt_new (source : UInt16) : BotAt (.new source : Bot C) .new where
  counter := rfl
  held := fun _ => rfl

/-- **A TURN OF A BOT.** -/
theorem BotAt.turn {b : Bot C} {d : Dispenser C} (h : BotAt b d) (c : C)
    (turn : Turn) :
    ∃ d', Amounts b.source.toNat d (b.turn c turn).2 d' ∧
      BotAt (b.turn c turn).1 d' ∧ (b.turn c turn).1.source = b.source := by
  have hheld := h.held c
  fun_cases Bot.turn b c turn with
  | case1 terms hc =>
      rw [hc] at hheld
      have hnone : d.held c = none := Option.map_eq_none_iff.mp hheld.symm
      refine ⟨d.take c, .counted hnone, ⟨?_, fun r => ?_⟩, rfl⟩
      · show b.nextOrderId + 1 = UInt64.ofNat (d.handed + 1 + 1)
        rw [h.counter]
        simp
      · by_cases hr : r = c
        · subst hr
          simp [Making.holds, h.counter]
        · simp only [Dispenser.held_take, Function.update_of_ne hr]
          exact h.held r
  | case2 terms counter now delivered hc =>
      rw [hc] at hheld
      obtain ⟨n, hn, hcounter⟩ := Option.map_eq_some_iff.mp hheld.symm
      have hid : (randomOrderId b.source counter).toNat
          = makeOrderId b.source.toNat n := by
        rw [randomOrderId_eq, ← hcounter, UInt64.toNat_ofNat', makeOrderId_mod]
      rw [hid]
      refine ⟨d.use c n, .generated hn 0 terms, ⟨h.counter, fun r => ?_⟩, rfl⟩
      by_cases hr : r = c
      · subst hr
        simp [Making.holds]
      · simp only [Dispenser.held_use, Function.update_of_ne hr]
        exact h.held r
  | case3 => exact ⟨d, .quiet d, h, rfl⟩

/-! ## The Python client -/

/-- Is the thread inside one of the two `with self._send_lock`? -/
def Calling.locked : Calling → Bool
  | .reading _ => true
  | .loading _ _ => true
  | .storing _ _ _ => true
  | .leaving _ _ => true
  | .holding _ => true
  | _ => false

/-- The local id a thread has counted and not used yet. -/
def Calling.holds : Calling → Option Nat
  | .leaving _ localId => some localId
  | .making _ localId => some localId
  | _ => none

/-- What a thread has read of the counter, while it stands at `next`. -/
def Calling.Reads (next : Nat) : Calling → Prop
  | .loading _ localId => localId = next
  | .storing _ localId value => localId = next ∧ value = next
  | _ => True

/-- Only inside the lock is the counter read. -/
theorem Calling.reads_of_unlocked {calling : Calling}
    (h : calling.locked = false) (next : Nat) : calling.Reads next := by
  cases calling with
  | loading terms localId => cases h
  | storing terms localId value => cases h
  | _ => trivial

/-- The counter, the lock and the threads of a client, for a dispenser. -/
structure ClientAt (s : SharedClient C) (d : Dispenser C) : Prop where
  counter : s.client.nextLocalId = d.handed + 1
  lock : ∀ c, s.sendLock = some c ↔ (s.calling c).locked = true
  held : ∀ c, (s.calling c).holds = d.held c
  reads : ∀ c, (s.calling c).Reads (d.handed + 1)

omit [DecidableEq C] in
theorem clientAt_new (source : Nat) :
    ClientAt (.new source : SharedClient C) .new where
  counter := rfl
  lock := by
    intro c
    constructor
    · intro h
      cases h
    · intro h
      cases h
  held := fun _ => rfl
  reads := fun _ => trivial

/-- A client with one thread elsewhere, for a dispenser whose other callers
    hold what they held. -/
theorem ClientAt.place {s s' : SharedClient C} {d' : Dispenser C} {c : C}
    {calling : Calling} (hcounter : s'.client.nextLocalId = d'.handed + 1)
    (hcalling : s'.calling = Function.update s.calling c calling)
    (hself : (s'.sendLock = some c ↔ calling.locked = true) ∧
      calling.holds = d'.held c ∧ calling.Reads (d'.handed + 1))
    (hothers : ∀ r, r ≠ c →
      (s'.sendLock = some r ↔ (s.calling r).locked = true) ∧
      (s.calling r).holds = d'.held r ∧
      (s.calling r).Reads (d'.handed + 1)) : ClientAt s' d' := by
  have hall : ∀ r, (s'.sendLock = some r ↔ (s'.calling r).locked = true) ∧
      (s'.calling r).holds = d'.held r ∧
      (s'.calling r).Reads (d'.handed + 1) := by
    intro r
    rw [hcalling]
    by_cases hr : r = c
    · subst hr
      rw [Function.update_self]
      exact hself
    · rw [Function.update_of_ne hr]
      exact hothers r hr
  exact ⟨hcounter, fun r => (hall r).1, fun r => (hall r).2.1,
    fun r => (hall r).2.2⟩

variable {s : SharedClient C} {d : Dispenser C} {c : C}

/-- A thread goes on, in or out of the lock as before, holding what it held. -/
theorem ClientAt.goes_on (h : ClientAt s d) {calling : Calling}
    (hlocked : calling.locked = (s.calling c).locked)
    (hholds : calling.holds = (s.calling c).holds)
    (hreads : calling.Reads (d.handed + 1)) :
    ClientAt (s.goTo c calling) d :=
  .place h.counter rfl
    ⟨hlocked ▸ h.lock c, hholds ▸ h.held c, hreads⟩
    (fun r _ => ⟨h.lock r, h.held r, h.reads r⟩)

/-- A thread enters the lock, or waits. -/
theorem ClientAt.acquire (h : ClientAt s d) {inside : Calling}
    (hin : inside.locked = true) (hholds : inside.holds = (s.calling c).holds)
    (hreads : inside.Reads (d.handed + 1)) :
    ClientAt (s.acquire c inside) d := by
  rw [SharedClient.acquire]
  cases hlock : s.sendLock with
  | some holder => exact h
  | none =>
      refine .place h.counter rfl ⟨iff_of_true rfl hin, hholds ▸ h.held c,
        hreads⟩ (fun r hr => ⟨?_, h.held r, h.reads r⟩)
      rw [← h.lock r, hlock]
      exact iff_of_false (fun heq => hr (Option.some.inj heq).symm)
        (fun heq => by cases heq)

/-- The thread in the lock leaves it. -/
theorem ClientAt.release (h : ClientAt s d) {outside : Calling}
    (hin : (s.calling c).locked = true) (hout : outside.locked = false)
    (hholds : outside.holds = (s.calling c).holds) :
    ClientAt (s.release c outside) d := by
  have hlock : s.sendLock = some c := (h.lock c).mpr hin
  refine .place h.counter rfl ⟨?_, hholds ▸ h.held c,
    Calling.reads_of_unlocked hout _⟩ (fun r hr => ⟨?_, h.held r, h.reads r⟩)
  · exact iff_of_false (fun heq => by cases heq) (by rw [hout]; exact Bool.false_ne_true)
  · rw [← h.lock r, hlock]
    exact iff_of_false (fun heq => by cases heq)
      (fun heq => hr (Option.some.inj heq).symm)

omit [DecidableEq C] in
/-- Nothing here depends on the client but its counter. -/
theorem ClientAt.of_client (h : ClientAt s d) {client : OsxStrategy.Client}
    (hcounter : client.nextLocalId = s.client.nextLocalId) :
    ClientAt { s with client := client } d :=
  ⟨hcounter.trans h.counter, h.lock, h.held, h.reads⟩

/-- The thread in the lock has counted. -/
theorem ClientAt.count (h : ClientAt s d) {terms : Terms}
    {localId value : Nat} (hc : s.calling c = .storing terms localId value) :
    Amounts s.client.source d .counted (d.take c) ∧
      ClientAt ({ s with client := { s.client with
        nextLocalId := value + 1 } }.goTo c (.leaving terms localId))
        (d.take c) := by
  have hin : (s.calling c).locked = true := by rw [hc]; rfl
  have hlock : s.sendLock = some c := (h.lock c).mpr hin
  have hnone : d.held c = none := by rw [← h.held c, hc]; rfl
  obtain ⟨hlocalId, hvalue⟩ : localId = d.handed + 1 ∧ value = d.handed + 1 := by
    have hreads := h.reads c
    rw [hc] at hreads
    exact hreads
  refine ⟨.counted hnone, .place ?_ rfl ⟨?_, ?_, trivial⟩ (fun r hr => ?_)⟩
  · show value + 1 = d.handed + 1 + 1
    rw [hvalue]
  · exact iff_of_true hlock rfl
  · rw [Dispenser.held_take, Function.update_self, ← hlocalId]
    rfl
  · -- no other thread is in the lock, so none has read the counter
    have hout : (s.calling r).locked = false := by
      refine Bool.eq_false_iff.mpr (fun hr' => hr ?_)
      exact Option.some.inj (((h.lock r).mpr hr').symm.trans hlock)
    refine ⟨h.lock r, ?_, Calling.reads_of_unlocked hout _⟩
    rw [Dispenser.held_take, Function.update_of_ne hr]
    exact h.held r

/-- A thread makes the id of what it has counted. -/
theorem ClientAt.make (h : ClientAt s d) {terms : Terms} {localId : Nat}
    (hc : s.calling c = .making terms localId) (now : Nat)
    (message : OrderMessage) :
    Amounts s.client.source d (.generated (orderOf s.client.source now
        (makeOrderId s.client.source localId) terms)) (d.use c localId) ∧
      ClientAt (s.goTo c (.sending message)) (d.use c localId) := by
  have hheld : d.held c = some localId := by rw [← h.held c, hc]; rfl
  have hout : (s.calling c).locked = false := by rw [hc]; rfl
  refine ⟨.generated hheld now terms, .place h.counter rfl ⟨?_, ?_, trivial⟩
    (fun r hr => ⟨h.lock r, ?_, h.reads r⟩)⟩
  · rw [show (Calling.sending message).locked = (s.calling c).locked from
      hout.symm]
    exact h.lock c
  · rw [Dispenser.held_use, Function.update_self]
    rfl
  · rw [Dispenser.held_use, Function.update_of_ne hr]
    exact h.held r

theorem SharedClient.turn_source (s : SharedClient C) (c : C) (turn : Turn) :
    (s.turn c turn).1.client.source = s.client.source := by
  have hacquire : ∀ inside, (s.acquire c inside).client = s.client := by
    intro inside
    rw [SharedClient.acquire]
    cases s.sendLock <;> rfl
  have hcancel : ∀ now orderId, (s.cancel c now orderId).client = s.client := by
    intro now orderId
    rw [SharedClient.cancel]
    cases s.client.orderSymbols.find? orderId <;> rfl
  fun_cases SharedClient.turn s c turn
  all_goals first
    | rfl
    | exact congrArg _ (hacquire _)
    | exact congrArg _ (hcancel _ _)

/-- **A TURN OF A CLIENT.** -/
theorem ClientAt.turn (h : ClientAt s d) (c : C) (turn : Turn) :
    ∃ d', Amounts s.client.source d (s.turn c turn).2 d' ∧
      ClientAt (s.turn c turn).1 d' := by
  fun_cases SharedClient.turn s c turn with
  | case1 terms hc =>
      exact ⟨d, .quiet d, h.goes_on (by rw [hc]; rfl) (by rw [hc]; rfl) trivial⟩
  | case2 now orderId hc =>
      refine ⟨d, .quiet d, ?_⟩
      show ClientAt (s.cancel c now orderId) d
      rw [SharedClient.cancel]
      cases s.client.orderSymbols.find? orderId with
      | none => exact h
      | some symbol =>
          exact h.goes_on (by rw [hc]; rfl) (by rw [hc]; rfl) trivial
  | case3 hc => exact ⟨d, .quiet d, h.of_client rfl⟩
  | case4 terms now delivered hc =>
      exact ⟨d, .quiet d, h.acquire rfl (by rw [hc]; rfl) trivial⟩
  | case5 terms now delivered hc =>
      exact ⟨d, .quiet d,
        h.goes_on (by rw [hc]; rfl) (by rw [hc]; rfl) h.counter⟩
  | case6 terms localId now delivered hc =>
      have hreads := h.reads c
      rw [hc] at hreads
      exact ⟨d, .quiet d, h.goes_on (by rw [hc]; rfl) (by rw [hc]; rfl)
        ⟨hreads, h.counter⟩⟩
  | case7 terms localId value now delivered hc => exact ⟨_, h.count hc⟩
  | case8 terms localId now delivered hc =>
      exact ⟨d, .quiet d, h.release (by rw [hc]; rfl) rfl (by rw [hc]; rfl)⟩
  | case9 terms localId now delivered hc =>
      exact ⟨_, h.make hc now _⟩
  | case10 message now delivered hc hready =>
      exact ⟨d, .quiet d, h.goes_on (by rw [hc]; rfl) (by rw [hc]; rfl) trivial⟩
  | case11 message now delivered hc hraised =>
      exact ⟨d, .quiet d, h.goes_on (by rw [hc]; rfl) (by rw [hc]; rfl) trivial⟩
  | case12 message now delivered hc =>
      exact ⟨d, .quiet d, h.acquire rfl (by rw [hc]; rfl) trivial⟩
  | case13 message now delivered hc =>
      refine ⟨d, .quiet d, ?_⟩
      show ClientAt (s.release c (if _ then _ else _)) d
      split
      · exact h.release (by rw [hc]; rfl) rfl (by rw [hc]; rfl)
      · exact h.release (by rw [hc]; rfl) rfl (by rw [hc]; rfl)
  | case14 message now delivered hc =>
      have hrecorded : ClientAt { s with client := { s.client with
          orderSymbols := s.client.orderSymbols.upsert message.orderId
            (fun _ => message.symbol) } } d := h.of_client rfl
      exact ⟨d, .quiet d, hrecorded.goes_on (by rw [hc]; rfl)
        (by rw [hc]; rfl) trivial⟩
  | case15 => exact ⟨d, .quiet d, h⟩

/-! ## All of them -/

/-- A participant with this source, for a dispenser. -/
def Participant.At (source : Nat) (d : Dispenser C) : Participant C → Prop
  | .bot b => b.source.toNat = source ∧ BotAt b d
  | .client s => s.client.source = source ∧ ClientAt s d

omit [DecidableEq C] in
theorem at_new (setup : Setup) :
    (Participant.new setup : Participant C).At setup.source .new := by
  cases setup with
  | bot source => exact ⟨rfl, botAt_new source⟩
  | client source => exact ⟨rfl, clientAt_new source⟩

/-- **A TURN OF A PARTICIPANT.** -/
theorem Participant.At.turn {source : Nat} {p : Participant C}
    (h : p.At source d) (c : C) (turn : Turn) :
    ∃ d', Amounts source d (p.turn c turn).2 d' ∧
      (p.turn c turn).1.At source d' := by
  cases p with
  | bot b =>
      obtain ⟨rfl, hb⟩ := h
      obtain ⟨d', hamounts, hb', hsource⟩ := hb.turn c turn
      exact ⟨d', hamounts, congrArg UInt16.toNat hsource, hb'⟩
  | client s =>
      obtain ⟨rfl, hs⟩ := h
      obtain ⟨d', hamounts, hs'⟩ := hs.turn c turn
      exact ⟨d', hamounts, s.turn_source c turn, hs'⟩

section Log

variable {ι : Type} [DecidableEq ι]

/-- The orders of one participant. -/
def generatedBy (i : ι) (log : List (ι × Event)) : List (ι × OrderMessage) :=
  (generated log).filter (fun entry => entry.1 = i)

omit [DecidableEq ι] in
@[simp] theorem generated_append (log later : List (ι × Event)) :
    generated (log ++ later) = generated log ++ generated later := by
  induction log with
  | nil => rfl
  | cons entry log ih =>
      obtain ⟨i, event⟩ := entry
      cases event with
      | quiet => exact ih
      | counted => exact ih
      | generated message => exact congrArg (_ :: ·) ih

/-- What a participant's log says of its dispenser: how many numbers it gave,
    and that they are the local ids of the orders, in turn. -/
structure Account (source : Nat) (i : ι) (log : List (ι × Event))
    (d : Dispenser C) : Prop where
  taken : taken i log = d.handed
  ids : (generatedBy i log).map (fun entry => entry.2.orderId)
    = d.used.map (makeOrderId source)

omit [DecidableEq C] in
/-- Another participant's turn is not in the account. -/
theorem Account.other {source : Nat} {i j : ι} {log : List (ι × Event)}
    {d : Dispenser C} (h : Account source i log d) (hij : j ≠ i)
    (event : Event) : Account source i (log ++ [(j, event)]) d := by
  constructor
  · rw [OsxParticipant.taken, List.count_append, ← h.taken]
    simp [OsxParticipant.taken, hij]
  · rw [generatedBy, generated_append, List.filter_append, List.map_append]
    have hnone : (generated [(j, event)]).filter (fun entry => entry.1 = i)
        = [] := by
      cases event <;> simp [generated, hij]
    rw [hnone]
    exact (List.append_nil _).trans h.ids

/-- A participant's own turn moves its dispenser. -/
theorem Account.own {source : Nat} {i : ι} {log : List (ι × Event)}
    {d d' : Dispenser C} {event : Event} (h : Account source i log d)
    (hamounts : Amounts source d event d') :
    Account source i (log ++ [(i, event)]) d' := by
  obtain ⟨htaken, hids⟩ := h
  rw [OsxParticipant.taken] at htaken
  rw [generatedBy] at hids
  cases hamounts with
  | quiet =>
      constructor
      · simpa [OsxParticipant.taken] using htaken
      · simpa [generatedBy, generated] using hids
  | counted hc =>
      constructor
      · simpa [OsxParticipant.taken] using htaken
      · simpa [generatedBy, generated] using hids
  | generated hc now terms =>
      constructor
      · simpa [OsxParticipant.taken] using htaken
      · simp [generatedBy, generated, orderOf, hids]

/-- Every participant stands for a dispenser that the log is the account of. -/
def Accounted (source : ι → Nat) (w : ι → Participant C)
    (log : List (ι × Event)) : Prop :=
  ∀ i, ∃ d : Dispenser C, (w i).At (source i) d ∧ Distinct d ∧
    Account (source i) i log d

/-- **ONE TURN**, of any thread of any participant. -/
theorem Accounted.turn {source : ι → Nat} {w : ι → Participant C}
    {log : List (ι × Event)} (h : Accounted source w log) (i : ι) (c : C)
    (turn : Turn) :
    Accounted source (Function.update w i ((w i).turn c turn).1)
      (log ++ [(i, ((w i).turn c turn).2)]) := by
  intro j
  obtain ⟨d, hat, hdistinct, haccount⟩ := h j
  by_cases hij : j = i
  · subst hij
    obtain ⟨d', hamounts, hat'⟩ := hat.turn c turn
    refine ⟨d', ?_, hdistinct.moves hamounts.moves, haccount.own hamounts⟩
    rw [Function.update_self]
    exact hat'
  · refine ⟨d, ?_, hdistinct, haccount.other (Ne.symm hij) _⟩
    rw [Function.update_of_ne hij]
    exact hat

/-- **ANY RUN.** -/
theorem Accounted.run {source : ι → Nat} :
    ∀ {turns : List (ι × C × Turn)} {w w' : ι → Participant C}
      {log later : List (ι × Event)}, Accounted source w log →
      OsxParticipant.run w turns = (w', later) →
      Accounted source w' (log ++ later) := by
  intro turns
  induction turns with
  | nil =>
      intro w w' log later h hrun
      cases hrun
      exact (List.append_nil log).symm ▸ h
  | cons next turns ih =>
      obtain ⟨i, c, turn⟩ := next
      intro w w' log later h hrun
      cases hrun
      have := ih (h.turn i c turn) rfl
      rwa [List.append_assoc] at this

/-- Values are distinct when they are for each key, and across keys. -/
theorem nodup_map_of_keys {A B : Type} {f : ι × A → B} :
    ∀ {l : List (ι × A)},
      (∀ i, ((l.filter (fun entry => entry.1 = i)).map f).Nodup) →
      (∀ x ∈ l, ∀ y ∈ l, f x = f y → x.1 = y.1) → (l.map f).Nodup := by
  intro l
  induction l with
  | nil => exact fun _ _ => List.nodup_nil
  | cons x l ih =>
      intro hkeys hacross
      have hrest : ∀ i, ((l.filter (fun entry => entry.1 = i)).map f).Nodup := by
        intro i
        refine (hkeys i).sublist (List.Sublist.map f ?_)
        exact (List.sublist_cons_self x l).filter _
      refine List.nodup_cons.mpr ⟨fun hmem => ?_, ih hrest (fun y hy z hz =>
        hacross y (List.mem_cons_of_mem _ hy) z (List.mem_cons_of_mem _ hz))⟩
      obtain ⟨y, hy, heq⟩ := List.mem_map.mp hmem
      have hkey : y.1 = x.1 :=
        hacross y (List.mem_cons_of_mem _ hy) x List.mem_cons_self heq
      have hown := hkeys x.1
      rw [List.filter_cons_of_pos (by simp), List.map_cons] at hown
      refine (List.nodup_cons.mp hown).1 (List.mem_map.mpr ⟨y, ?_, heq⟩)
      exact List.mem_filter.mpr ⟨hy, decide_eq_true hkey⟩

/-- **ORDER IDS NEVER COLLIDE**: participants with distinct 16-bit sources, each
    of which has taken fewer than 2^48 local ids, in any run of their threads.
    The ids are distinct 64-bit values that tell the source, and no book a
    shard has by then holds the id of an Add it is handed, as long as no order
    is sent as two Adds. -/
theorem orderIds_never_collide {setups : ι → Setup}
    (hbound : ∀ i, (setups i).source < 2 ^ 16)
    (hsources : Function.Injective (fun i => (setups i).source))
    {turns : List (ι × C × Turn)} {w : ι → Participant C}
    {log : List (ι × Event)}
    (hrun : OsxParticipant.run (fun i => .new (setups i)) turns = (w, log))
    (hfew : ∀ i, taken i log < 2 ^ 48) :
    ((generated log).map (fun entry => entry.2.orderId)).Nodup ∧
      (∀ i message, (i, message) ∈ generated log →
        message.orderId < 2 ^ 64 ∧
          message.orderId >>> 48 = (setups i).source) ∧
      (∀ before (message : OrderMessage) after, message.action = .add →
        (addIds (before ++ message :: after)).Subperm
          ((generated log).map (fun entry => entry.2.orderId)) →
        ∀ s published, Execution.execute Shard.process .empty before
            = .ok (s, published) →
          (s.book message.symbol).orders.contains message.orderId = false) ∧
      ∀ (source : UInt16) (counter : UInt64),
        (randomOrderId source counter).toNat
          = makeOrderId source.toNat counter.toNat := by
  have hstart : Accounted (fun i => (setups i).source)
      (fun i => (Participant.new (setups i) : Participant C))
      ([] : List (ι × Event)) :=
    fun i => ⟨.new, at_new (setups i), distinct_new, rfl, rfl⟩
  have haccounted : Accounted (fun i => (setups i).source) w log :=
    hstart.run hrun
  have hids : ∀ i message, (i, message) ∈ generated log →
      ∃ n, message.orderId = makeOrderId (setups i).source n := by
    intro i message hmem
    obtain ⟨d, -, -, haccount⟩ := haccounted i
    have hmap : message.orderId ∈ d.used.map (makeOrderId (setups i).source) :=
      haccount.ids ▸ List.mem_map.mpr
        ⟨(i, message), List.mem_filter.mpr ⟨hmem, by simp⟩, rfl⟩
    obtain ⟨n, -, hn⟩ := List.mem_map.mp hmap
    exact ⟨n, hn.symm⟩
  have hsource : ∀ i message, (i, message) ∈ generated log →
      message.orderId >>> 48 = (setups i).source := by
    intro i message hmem
    obtain ⟨n, hn⟩ := hids i message hmem
    rw [hn, makeOrderId_source]
  have hnodup : ((generated log).map (fun entry => entry.2.orderId)).Nodup := by
    refine nodup_map_of_keys (fun i => ?_) ?_
    · obtain ⟨d, -, hdistinct, haccount⟩ := haccounted i
      have hbelow : ∀ n ∈ d.used, n < 2 ^ 48 := by
        intro n hn
        exact Nat.lt_of_le_of_lt (hdistinct.usedHanded n hn).2
          (haccount.taken ▸ hfew i)
      show ((generatedBy i log).map (fun entry => entry.2.orderId)).Nodup
      rw [haccount.ids]
      exact List.Nodup.map_on (fun n hn m hm heq =>
        makeOrderId_inj (hbelow n hn) (hbelow m hm) heq) hdistinct.usedOnce
    · rintro ⟨i, message⟩ hmem ⟨j, other⟩ hother heq
      refine hsources ?_
      show (setups i).source = (setups j).source
      rw [← hsource i message hmem, ← hsource j other hother]
      exact congrArg (· >>> 48) heq
  refine ⟨hnodup, fun i message hmem => ⟨?_, hsource i message hmem⟩, ?_,
    randomOrderId_eq⟩
  · obtain ⟨n, hn⟩ := hids i message hmem
    rw [hn]
    exact makeOrderId_lt (hbound i) n
  · intro before message after hadd hsub s published hexecute
    obtain ⟨ids, hperm, hsub⟩ := hsub
    exact add_not_duplicate hadd (hperm.nodup_iff.mp (hnodup.sublist hsub))
      hexecute

/-- A bot and a client, each called from two threads. -/
def sampleSetups : Bool → Setup
  | false => .bot 1
  | true => .client 65535

def sampleTerms : Terms := ⟨7, .buy, ⟨0x4059000000000000⟩, 10⟩

/-- The second caller of each overtakes the first one. -/
def sampleTurns : List (Bool × Bool × Turn) :=
  [(false, false, Turn.add sampleTerms), (true, false, Turn.add sampleTerms),
    (true, false, Turn.go 0 true), (false, true, Turn.add sampleTerms),
    (true, true, Turn.add sampleTerms), (true, true, Turn.go 0 true),
    (false, true, Turn.go 0 true), (false, false, Turn.go 0 true)]
    ++ List.replicate 5 (true, false, Turn.go 0 true)
    ++ List.replicate 10 (true, true, Turn.go 0 true)

def sampleLog : List (Bool × Event) :=
  (OsxParticipant.run (fun i => .new (sampleSetups i)) sampleTurns).2

theorem orderIds_never_collide_overtaken :
    ((generated sampleLog).map (fun entry => entry.2.orderId)).Nodup ∧
      (∀ i message, (i, message) ∈ generated sampleLog →
        message.orderId < 2 ^ 64 ∧
          message.orderId >>> 48 = (sampleSetups i).source) ∧
      (∀ before (message : OrderMessage) after, message.action = .add →
        (addIds (before ++ message :: after)).Subperm
          ((generated sampleLog).map (fun entry => entry.2.orderId)) →
        ∀ s published, Execution.execute Shard.process .empty before
            = .ok (s, published) →
          (s.book message.symbol).orders.contains message.orderId = false) ∧
      ∀ (source : UInt16) (counter : UInt64),
        (randomOrderId source counter).toNat
          = makeOrderId source.toNat counter.toNat :=
  orderIds_never_collide (by decide) (by decide +kernel)
    (Prod.ext rfl rfl) (by decide +kernel)

end Log

/-! ## One caller alone -/

section Alone

/-- One thread of a client makes its turns while no other does. -/
def SharedClient.turns (s : SharedClient C) (c : C) (turns : List Turn) :
    SharedClient C :=
  turns.foldl (fun s turn => (s.turn c turn).1) s

/-- The turns of `_add` up to its call of `_send`. -/
theorem turns_add {s : SharedClient C} {c : C} (hidle : s.calling c = .idle)
    (hfree : s.sendLock = none) (terms : Terms) (now : Nat)
    (delivered : Bool) :
    s.turns c (.add terms :: List.replicate 6 (.go now delivered))
      = { s with client := { s.client with
          nextLocalId := s.client.nextLocalId + 1 } }.goTo c
        (.sending (orderOf s.client.source now
          (makeOrderId s.client.source s.client.nextLocalId) terms)) := by
  simp [SharedClient.turns, SharedClient.turn, SharedClient.goTo,
    SharedClient.acquire, SharedClient.release, hidle, hfree,
    List.replicate_succ]

/-- The turns of `_send`, and of what `_add` does behind it. -/
theorem turns_send {s : SharedClient C} {c : C} {message : OrderMessage}
    (hc : s.calling c = .sending message) (hfree : s.sendLock = none)
    (hadd : message.action = .add) (now : Nat) (delivered : Bool) :
    s.turns c (List.replicate 4 (.go now delivered))
      = match s.client.send message delivered with
        | .error _ => s.goTo c .idle
        | .ok _ => { s with client := { s.client with
            orderSymbols := s.client.orderSymbols.upsert message.orderId
              (fun _ => message.symbol) } }.goTo c .idle := by
  cases hconnected : s.client.connected with
  | false =>
      simp [SharedClient.turns, SharedClient.turn, SharedClient.goTo, hc,
        List.replicate_succ, Client.send, hconnected]
  | true =>
      cases hframe : OsxOrderEntry.pythonFrame message with
      | none =>
          simp [SharedClient.turns, SharedClient.turn, SharedClient.goTo, hc,
            List.replicate_succ, Client.send, hconnected, hframe]
      | some frame =>
          cases delivered with
          | false =>
              simp [SharedClient.turns, SharedClient.turn, SharedClient.goTo,
                SharedClient.acquire, SharedClient.release, hc, hfree,
                List.replicate_succ, Client.send, hconnected, hframe]
          | true =>
              simp [SharedClient.turns, SharedClient.turn, SharedClient.goTo,
                SharedClient.acquire, SharedClient.release, hc, hfree, hadd,
                List.replicate_succ, Client.send, hconnected, hframe]

/-- A thread that calls `_add` and is not disturbed does what `_add` does. -/
theorem add_alone {s : SharedClient C} {c : C} (hidle : s.calling c = .idle)
    (hfree : s.sendLock = none) (terms : Terms) (now : Nat)
    (delivered : Bool) :
    s.turns c (.add terms :: List.replicate 10 (.go now delivered))
      = { s with client := (s.client.add now terms.symbol terms.side
          terms.price terms.quantity delivered).1 } := by
  have hsplit : Turn.add terms :: List.replicate 10 (.go now delivered)
      = (.add terms :: List.replicate 6 (.go now delivered))
        ++ List.replicate 4 (.go now delivered) := rfl
  have hback : ∀ calling : Calling, Function.update
      (Function.update s.calling c calling) c .idle = s.calling := by
    intro calling
    rw [Function.update_idem, ← hidle, Function.update_eq_self]
  have hsend := turns_send (s := { s with client := { s.client with
      nextLocalId := s.client.nextLocalId + 1 } }.goTo c
        (.sending (orderOf s.client.source now
          (makeOrderId s.client.source s.client.nextLocalId) terms)))
    (Function.update_self ..) hfree rfl now delivered
  rw [hsplit, SharedClient.turns, List.foldl_append]
  show ((s.turns c _).turns c _) = _
  rw [turns_add hidle hfree, hsend]
  show (match Client.send { s.client with
      nextLocalId := s.client.nextLocalId + 1 } _ delivered with
    | .error _ => _ | .ok _ => _) = _
  rw [Client.add]
  dsimp only [orderOf]
  cases Client.send { s.client with
      nextLocalId := s.client.nextLocalId + 1 } _ delivered with
  | error raised => simp [SharedClient.goTo, hback]
  | ok sent => simp [SharedClient.goTo, hback]

end Alone

end OsxParticipant
