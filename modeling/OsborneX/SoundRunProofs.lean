import OsborneX.PriceLimitProofs

/-! # Sound runs — the book of numbers behind the book of doubles

    When no message carries a NaN, every call a shard makes on a book is made
    by its mirror over the integers, in lockstep and whatever the sides of the
    orders.  So a shard that has processed such messages is `Mirrored`, and
    what is known of books over a linear order can be said of its own. -/

namespace OsxSoundRun

open OsxOrderbook OsxCrossing OsxLink OsxCalls OsxRepresentation OsxReachable
open OsxMirror OsxUnreachable OsxPriceLimit Outcome

variable {P Q : Type}

/-! ## Calls -/

section Unsided

variable [LT P] [DecidableLT P] [LE P] [DecidableLE P] [BEq P]
  [IsTrans P (fun a b => a > b)] [IsTrans P (fun a b => a < b)]

/-- An order on neither side is turned away, where the call returns. -/
theorem addOrder_unsided {b b' : Orderbook P} {o : Order P}
    {ts : List (Trade P)} (hs : ¬ Sided o.side)
    (hrun : (b.makeShared o).addOrder b.next = .ok (b', ts)) :
    b' = b.makeShared o ∧ ts = [] := by
  have hat : (b.makeShared o).heap b.next = o := Function.update_self ..
  by_cases hnew : (b.makeShared o).orders.contains o.orderId = true
  · rw [Orderbook.addOrder, hat, if_pos hnew] at hrun
    cases hrun
    exact ⟨rfl, rfl⟩
  · have hfresh : b.orders.find? o.orderId = none := by
      rw [HashTable.contains] at hnew
      exact Option.not_isSome_iff_eq_none.mp hnew
    by_cases hm : o.orderType = .market
    · -- neither branch of the conversion takes it
      have hconvert : (b.makeShared o).convertMarket b.next = .ok none := by
        rw [Orderbook.convertMarket, hat, if_pos hm]
        cases hside : o.side with
        | buy => exact absurd (Or.inl hside) hs
        | sell => exact absurd (Or.inr hside) hs
        | other value =>
            cases (b.makeShared o).asks.rbegin? <;>
              cases (b.makeShared o).bids.rbegin? <;> rfl
      rw [Orderbook.addOrder, hat, if_neg hnew, Orderbook.dropsFillAndKill,
        if_neg (by simp [hm]), hconvert] at hrun
      cases hrun
      exact ⟨rfl, rfl⟩
    · rw [addOrder_odd hs hm hfresh] at hrun
      cases hrun

end Unsided

section Linear

variable [LinearOrder P] {b b' : Orderbook P}

/-- A call that returned leaves the book linked, whatever its side. -/
theorem call_linked (h : Linked b) {c : Call P} {ts : List (Trade P)}
    (hrun : b.call c = .ok (b', ts)) : Linked b' := by
  by_cases hs : callSided c
  · exact (Does.of_call h hs hrun).linked h
  · cases c with
    | addOrder orderType orderId side price quantity =>
        obtain ⟨rfl, -⟩ := addOrder_unsided
          (o := .new orderType orderId side price quantity) hs hrun
        exact Linked.makeShared h _
    | cancelOrder orderId => exact absurd trivial hs
    | modifyOrder x =>
        have hrun : b.modifyOrder x = .ok (b', ts) := hrun
        rcases known_or_not h x.orderId with hn | ⟨p, hp, hid, hfind⟩
        · simp only [Orderbook.modifyOrder, hn] at hrun
          cases hrun
          exact h
        · obtain ⟨b1, hcancel, hr⟩ := cancelOrder_resting h hp
          rw [← hid] at hcancel
          simp only [Orderbook.modifyOrder, hfind, hcancel] at hrun
          obtain ⟨rfl, -⟩ := addOrder_unsided
            (o := x.toOrder (b.heap p).orderType) hs hrun
          exact Linked.makeShared hr.linked _

end Linear

section Lockstep

variable [LT P] [DecidableLT P] [LE P] [DecidableLE P] [BEq P]
  [IsTrans P (fun a b => a > b)] [IsTrans P (fun a b => a < b)]
  [LinearOrder Q] {m : Scale P Q} {b : Orderbook P} {k : Orderbook Q}

/-- **A CALL WITH A SOUND PRICE** is made by the mirror in lockstep. -/
theorem call_lockstep (h : Mirrors m b k) (hk : Linked k) {c : Call P}
    (hc : CallSound m c) :
    Lockstep (Matches m) (b.call c) (k.call (rescaleCall m.value c)) := by
  cases c with
  | addOrder orderType orderId side price quantity =>
      have h1 := h.makeShared hk (.new orderType orderId side price quantity)
      show Lockstep _ ((b.makeShared _).addOrder b.next)
        ((k.makeShared _).addOrder k.next)
      rw [h.next]
      refine h1.addOrder (fun _ => ?_)
      have hat : (b.makeShared (.new orderType orderId side price
          quantity)).heap b.next
            = .new orderType orderId side price quantity :=
        Function.update_self ..
      rw [hat]
      exact hc
  | cancelOrder orderId =>
      exact (h.cancelOrderInternal orderId).map (fun _ _ h1 => ⟨h1, .nil⟩)
  | modifyOrder x =>
      show Lockstep _ (b.modifyOrder x) (k.modifyOrder _)
      rw [Orderbook.modifyOrder, Orderbook.modifyOrder, ← h.orders]
      rcases known_or_not hk x.orderId with hn | ⟨p, hp, hid, hfind⟩
      · rw [hn]
        exact ⟨h, .nil⟩
      · rw [hfind]
        obtain ⟨k1, hcancel, hr⟩ := cancelOrder_resting hk hp
        rw [← hid, Orderbook.cancelOrder] at hcancel
        have hstep := h.cancelOrderInternal x.orderId
        obtain ⟨b1, hcancel', h1⟩ := hstep.of_ok hcancel
        have h2 := h1.makeShared hr.linked
          (x.toOrder (b.heap p).orderType)
        have hat : (b1.makeShared (x.toOrder (b.heap p).orderType)).heap
            b1.next = x.toOrder (b.heap p).orderType :=
          Function.update_self ..
        show Lockstep _ (b.cancelOrderInternal x.orderId >>= _)
          (k.cancelOrderInternal x.orderId >>= _)
        rw [hcancel', hcancel]
        show Lockstep _ ((b1.makeShared _).addOrder b1.next)
          ((k1.makeShared _).addOrder k1.next)
        rw [h1.next, h.heap p]
        refine h2.addOrder (fun _ => ?_)
        rw [hat]
        exact Or.inl hc

end Lockstep

/-! ## Messages -/

section Messages

open OsxPrice OsxShard Execution

/-- The message carries a number. -/
def Priced (message : OrderMessage) : Prop := message.price.isNaN = false

instance (message : OrderMessage) : Decidable (Priced message) :=
  inferInstanceAs (Decidable (_ = _))

theorem callSound_of_priced {message : OrderMessage} (hp : Priced message) :
    ∀ c ∈ Shard.callOf message, CallSound numbers c := by
  intro c hc
  rw [Shard.callOf] at hc
  cases haction : message.action with
  | add =>
      rw [haction] at hc
      cases hc
      exact Or.inl hp
  | cancel =>
      rw [haction] at hc
      cases hc
      trivial
  | modify =>
      rw [haction] at hc
      cases hc
      exact hp
  | other value =>
      rw [haction] at hc
      cases hc

/-- What the mirror does for a message. -/
def executeOn (k : Orderbook Int) (message : OrderMessage) :
    Except Fault (Orderbook Int × List (Trade Int)) :=
  match Shard.callOf message with
  | some c => k.call (rescaleCall numbers.value c)
  | none => .ok (k, [])

theorem execute_lockstep {b : Orderbook Double} {k : Orderbook Int}
    (h : Mirrors numbers b k) (hk : Linked k) {message : OrderMessage}
    (hp : Priced message) :
    Lockstep (Matches numbers) (Shard.execute b message)
      (executeOn k message) := by
  have hsound := callSound_of_priced hp
  rw [Shard.execute, executeOn]
  cases hc : Shard.callOf message with
  | none => exact ⟨h, .nil⟩
  | some c => exact call_lockstep h hk (hsound c hc)

theorem executeOn_linked {k k' : Orderbook Int} (hk : Linked k)
    {message : OrderMessage} {us : List (Trade Int)}
    (hrun : executeOn k message = .ok (k', us)) : Linked k' := by
  rw [executeOn] at hrun
  cases hc : Shard.callOf message with
  | none =>
      rw [hc] at hrun
      cases hrun
      exact hk
  | some c =>
      rw [hc] at hrun
      exact call_linked hk hrun

/-- Processing a message is executing its call, and publishing. -/
theorem execute_of_process {s s' : Shard} {message : OrderMessage}
    {published : Published} (hok : s.process message = .ok (s', published)) :
    ∃ b ts, Shard.execute (s.book message.symbol) message = .ok (b, ts) ∧
      published.trades = ts.map (executionOf message) ∧
      ∀ symbol, s'.book symbol
        = if symbol = message.symbol then b else s.book symbol := by
  cases hexec : Shard.execute (s.book message.symbol) message with
  | error fault =>
      rw [Shard.process, hexec] at hok
      cases hok
  | ok r =>
      obtain ⟨s1, published1, hok1, htrades, hbook⟩ := Shard.process_ok hexec
      rw [hok] at hok1
      cases hok1
      exact ⟨r.1, r.2, rfl, htrades, hbook⟩

/-- **PROCESSING NUMBERS** keeps every book mirrored. -/
theorem process_mirrored {s s' : Shard} (h : Mirrored s)
    {message : OrderMessage} (hp : Priced message) {published : Published}
    (hok : s.process message = .ok (s', published)) : Mirrored s' := by
  obtain ⟨b, ts, hexec, -, hbook⟩ := execute_of_process hok
  obtain ⟨k, hmirror, hk⟩ := h.mirror message.symbol
  refine ⟨process_tame h.tame hok, ?_⟩
  intro symbol
  rw [hbook]
  by_cases hsymbol : symbol = message.symbol
  · rw [if_pos hsymbol]
    have hstep := execute_lockstep hmirror hk hp
    rw [hexec] at hstep
    cases hrun : executeOn k message with
    | error fault =>
        rw [hrun] at hstep
        exact hstep.elim
    | ok r =>
        rw [hrun] at hstep
        exact ⟨r.1, hstep.1, executeOn_linked hk hrun⟩
  · rw [if_neg hsymbol]
    exact h.mirror symbol

/-- A sided message with a number is always processed. -/
theorem process_returns {s : Shard} (h : Mirrored s) {message : OrderMessage}
    (hs : Sided message.side) (hp : Priced message) :
    ∃ s' published, s.process message = .ok (s', published) := by
  have htakes : ¬ TakesNaN s message := by
    rintro ⟨c, hc, hu⟩
    have hsound := callSound_of_priced hp c hc
    rw [Shard.callOf] at hc
    cases haction : message.action with
    | add =>
        rw [haction] at hc
        cases hc
        exact hu.1 hp
    | cancel =>
        rw [haction] at hc
        cases hc
        exact hu.elim
    | modify =>
        rw [haction] at hc
        cases hc
        exact hu.1 hp
    | other value =>
        rw [haction] at hc
        cases hc
  obtain ⟨s', published, hok, -⟩ := process_respectsLimits h hs htakes
  exact ⟨s', published, hok⟩

/-- **EVERY RUN OVER NUMBERS**, of sided orders, returns. -/
theorem run_returns (messages : List OrderMessage)
    (hs : ∀ message ∈ messages, Sided message.side)
    (hp : ∀ message ∈ messages, Priced message) :
    ∃ s log, execute Shard.process .empty messages = .ok (s, log) := by
  have hstep : ∀ (s : Shard) (message : OrderMessage), Mirrored s →
      (Sided message.side ∧ Priced message) →
      ∃ s' published, s.process message = .ok (s', published) ∧
        Mirrored s' ∧ True := by
    intro s message h hc
    obtain ⟨s', published, hok⟩ := process_returns h hc.1 hc.2
    exact ⟨s', published, hok, process_mirrored h hc.2 hok, trivial⟩
  obtain ⟨s, log, hrun, -⟩ := execute_spec hstep messages .empty mirrored_empty
    (along_of_forall (fun message hm => ⟨hs message hm, hp message hm⟩) _)
  exact ⟨s, log, hrun⟩

end Messages

end OsxSoundRun
