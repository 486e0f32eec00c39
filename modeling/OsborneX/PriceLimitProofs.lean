import OsborneX.LockstepProofs
import OsborneX.ReachableProofs
import OsborneX.UnreachableProofs

/-! # Price limits — no order trades beyond its limit while no NaN rests

    Matching tests `bid < ask` and goes on when that is FALSE, so a resting NaN
    crosses everything.  As long as no order with a NaN price is accepted the
    prices of a book are sound, the book has a mirror over the integers, and no
    trade is beyond the limit of either order. -/

namespace OsxPriceLimit

open OsxOrderbook OsxCrossing OsxLink OsxCalls OsxRepresentation OsxReachable
open OsxMirror OsxUnreachable

variable {P : Type}

/-! ## Limits -/

section Limits

variable [LT P] [BEq P]

/-- The limit an order rests with. -/
def restingLimit (b : Orderbook P) (id : OrderId) : Option P :=
  (b.orders.find? id).map (fun entry => (b.heap entry.order).price)

/-- The limit an order has during a call; a market order has none. -/
def limit (b : Orderbook P) (c : Call P) (id : OrderId) : Option P :=
  match c with
  | .addOrder orderType orderId _ price _ =>
      if id = orderId then if orderType = .market then none else some price
      else restingLimit b id
  | .cancelOrder _ => restingLimit b id
  | .modifyOrder o =>
      if id = o.orderId then some o.price else restingLimit b id

/-- The two prices of the trade cross, and neither is beyond a limit. -/
structure WithinLimits [LE P] (limitOf : OrderId → Option P) (t : Trade P) :
    Prop where
  crossed : t.askTrade.price ≤ t.bidTrade.price
  buyer : ∀ l ∈ limitOf t.bidTrade.orderId,
    t.bidTrade.price ≤ l ∧ t.askTrade.price ≤ l
  seller : ∀ l ∈ limitOf t.askTrade.orderId,
    l ≤ t.askTrade.price ∧ l ≤ t.bidTrade.price

end Limits

/-! ## Over a linear order -/

section Linear

variable [LinearOrder P] {b b' : Orderbook P}

/-- `x` is the incoming order `o`, or rested before it. -/
def Party (b : Orderbook P) (o x : Order P) : Prop :=
  (x.orderId = o.orderId ∧ (o.orderType ≠ .market → x.price = o.price)) ∨
    (x.orderId ≠ o.orderId ∧ x ∈ resting b)

/-- Every trade of an added order is between two parties whose prices cross. -/
theorem Adds.parties (h : Linked b) {o : Order P} {ts : List (Trade P)}
    (ha : Adds b o b' ts) (hs : Sided o.side) :
    ∀ t ∈ ts, ∃ x y, Party b o x ∧ Party b o y ∧
      t.bidTrade.orderId = x.orderId ∧ t.bidTrade.price = x.price ∧
      t.askTrade.orderId = y.orderId ∧ t.askTrade.price = y.price ∧
      y.price ≤ x.price := by
  cases ha with
  | rejected hno => exact List.forall_mem_nil _
  | @admitted o' b2 _ log ha he =>
      obtain ⟨hside, hid, -, -⟩ := effective_terms ha.effective
      have hparty : ∀ x ∈ resting b2, Party b o x := by
        intro x hx
        rw [resting_eq] at hx
        obtain ⟨p, hp, rfl⟩ := List.mem_map.mp hx
        have hperm := he.opened.pointers_perm (by rw [hside]; exact hs)
        rw [he.opened.heap]
        rcases List.mem_cons.mp (hperm.mem_iff.mp hp) with rfl | hpb
        · rw [Function.update_self]
          refine Or.inl ⟨hid, fun hm => ?_⟩
          have heff := ha.effective
          rw [effective, if_neg hm] at heff
          cases heff
          rfl
        · have hne : p ≠ b.next := by
            rintro rfl
            exact Linked.next_fresh h hpb
          have hmem : b.heap p ∈ resting b := by
            rw [resting_eq]
            exact List.mem_map_of_mem hpb
          rw [Function.update_of_ne hne]
          exact Or.inr ⟨Linked.fresh h ha.fresh _ hmem, hmem⟩
      intro t ht
      obtain ⟨x, hx, y, hy, hbid, hbidPrice, hask, haskPrice, hcross⟩ :=
        he.rounds.traded t ht
      exact ⟨x, y, hparty x (List.mem_append_left _ hx),
        hparty y (List.mem_append_right _ hy), hbid, hbidPrice, hask,
        haskPrice, not_lt.mp hcross⟩

/-- A resting order is known to the index by its limit. -/
theorem restingLimit_eq (h : Linked b) {x : Order P} (hx : x ∈ resting b) :
    restingLimit b x.orderId = some x.price := by
  rw [resting_eq] at hx
  obtain ⟨p, hp, rfl⟩ := List.mem_map.mp hx
  rw [restingLimit, (h.index _ ⟨p, p⟩).mpr ⟨p, hp, rfl, rfl⟩]
  rfl

/-- Where every order's limit is its own price, crossing is all it takes. -/
theorem withinLimits_of_parties {limitOf : OrderId → Option P} {x y : Order P}
    {t : Trade P} (hx : ∀ l ∈ limitOf x.orderId, x.price = l)
    (hy : ∀ l ∈ limitOf y.orderId, y.price = l)
    (hbid : t.bidTrade.orderId = x.orderId)
    (hbidPrice : t.bidTrade.price = x.price)
    (hask : t.askTrade.orderId = y.orderId)
    (haskPrice : t.askTrade.price = y.price) (hle : y.price ≤ x.price) :
    WithinLimits limitOf t := by
  refine ⟨?_, ?_, ?_⟩
  · rw [hbidPrice, haskPrice]
    exact hle
  · rw [hbid, hbidPrice, haskPrice]
    intro l hl
    rw [← hx l hl]
    exact ⟨le_refl _, hle⟩
  · rw [hask, haskPrice, hbidPrice]
    intro l hl
    rw [← hy l hl]
    exact ⟨le_refl _, hle⟩

/-- **EVERY TRADE OF A CALL IS WITHIN THE LIMITS** of both orders. -/
theorem Does.withinLimits (h : Linked b)
    (hm : ∀ x ∈ resting b, x.orderType ≠ .market) {c : Call P}
    (hs : callSided c) {ts : List (Trade P)} (hd : Does b c b' ts) :
    ∀ t ∈ ts, WithinLimits (limit b c) t := by
  cases hd with
  | @added orderType orderId side price quantity _ _ ha =>
      have hlimit : ∀ x : Order P,
          Party b (.new orderType orderId side price quantity) x →
          ∀ l ∈ limit b (.addOrder orderType orderId side price quantity)
            x.orderId, x.price = l := by
        intro x hx l hl
        rw [limit] at hl
        rcases hx with ⟨hid, hprice⟩ | ⟨hid, hrest⟩
        · rw [if_pos (show x.orderId = orderId from hid)] at hl
          by_cases hmarket : orderType = .market
          · rw [if_pos hmarket] at hl
            cases hl
          · rw [if_neg hmarket] at hl
            cases hl
            exact hprice hmarket
        · rw [if_neg (show ¬ x.orderId = orderId from hid),
            restingLimit_eq h hrest] at hl
          exact Option.some.inj hl
      intro t ht
      obtain ⟨x, y, hx, hy, hrest⟩ := Adds.parties h ha hs t ht
      exact withinLimits_of_parties (hlimit x hx) (hlimit y hy) hrest.1
        hrest.2.1 hrest.2.2.1 hrest.2.2.2.1 hrest.2.2.2.2
  | cancelled _ _ _ => exact List.forall_mem_nil _
  | notFound _ => exact List.forall_mem_nil _
  | @modified o p b1 _ _ hp hid hr ha =>
      have htype : (b.heap p).orderType ≠ .market := by
        refine hm _ ?_
        rw [resting_eq]
        exact List.mem_map_of_mem hp
      have hlimit : ∀ x : Order P,
          Party b1 (o.toOrder (b.heap p).orderType) x →
          ∀ l ∈ limit b (.modifyOrder o) x.orderId, x.price = l := by
        intro x hx l hl
        rw [limit] at hl
        rcases hx with ⟨hid, hprice⟩ | ⟨hid, hrest⟩
        · rw [if_pos (show x.orderId = o.orderId from hid)] at hl
          cases hl
          exact hprice htype
        · rw [if_neg (show ¬ x.orderId = o.orderId from hid),
            restingLimit_eq h (Removed.resting_sub hr x hrest)] at hl
          exact Option.some.inj hl
      intro t ht
      obtain ⟨x, y, hx, hy, hrest⟩ := Adds.parties hr.linked ha hs t ht
      exact withinLimits_of_parties (hlimit x hx) (hlimit y hy) hrest.1
        hrest.2.1 hrest.2.2.1 hrest.2.2.2.1 hrest.2.2.2.2
  | unknown _ => exact List.forall_mem_nil _

end Linear

/-! ## Over sound prices -/

section Mirrored

variable {Q : Type} [LT P] [LE P] [BEq P] [LinearOrder Q] {m : Scale P Q}
  {b : Orderbook P} {k : Orderbook Q}

theorem restingLimit_mirror (h : Mirrors m b k) (id : OrderId) :
    restingLimit k id = (restingLimit b id).map m.value := by
  rw [restingLimit, restingLimit, h.orders, Option.map_map]
  refine Option.map_congr (fun entry _ => ?_)
  rw [h.heap]
  rfl

/-- The mirror has the limits of the book, on its own scale. -/
theorem limit_mirror (h : Mirrors m b k) (c : Call P) (id : OrderId) :
    limit k (rescaleCall m.value c) id = (limit b c id).map m.value := by
  cases c with
  | addOrder orderType orderId side price quantity =>
      rw [rescaleCall, limit, limit, restingLimit_mirror h]
      split_ifs <;> rfl
  | cancelOrder orderId => exact restingLimit_mirror h id
  | modifyOrder o =>
      rw [rescaleCall, limit, limit, restingLimit_mirror h]
      split_ifs <;> rfl

/-- Every limit is sound when the call's own is. -/
theorem limit_sound (h : Mirrors m b k) {c : Call P} (hc : CallSound m c)
    (id : OrderId) : ∀ l ∈ limit b c id, m.sound l := by
  have hresting : ∀ l ∈ restingLimit b id, m.sound l := by
    intro l hl
    obtain ⟨entry, hentry, rfl⟩ := Option.map_eq_some_iff.mp hl
    exact h.indexed id entry hentry
  intro l hl
  cases c with
  | addOrder orderType orderId side price quantity =>
      rw [limit] at hl
      by_cases hid : id = orderId
      · rw [if_pos hid] at hl
        by_cases hm : orderType = .market
        · rw [if_pos hm] at hl
          cases hl
        · rw [if_neg hm] at hl
          cases hl
          exact hc.resolve_right hm
      · rw [if_neg hid] at hl
        exact hresting l hl
  | cancelOrder orderId => exact hresting l hl
  | modifyOrder o =>
      rw [limit] at hl
      by_cases hid : id = o.orderId
      · rw [if_pos hid] at hl
        cases hl
        exact hc
      · rw [if_neg hid] at hl
        exact hresting l hl

/-- A trade whose mirror is within the limits is within the limits. -/
theorem WithinLimits.of_mirror {limitOf : OrderId → Option P}
    {limitOf' : OrderId → Option Q} {t : Trade P}
    (hlimit : ∀ id, limitOf' id = (limitOf id).map m.value)
    (hsound : ∀ id, ∀ l ∈ limitOf id, m.sound l)
    (ht : m.sound t.bidTrade.price ∧ m.sound t.askTrade.price)
    (h : WithinLimits limitOf' (rescaleTrade m.value t)) :
    WithinLimits limitOf t := by
  have hmem : ∀ {id : OrderId} {l : P}, l ∈ limitOf id →
      m.value l ∈ limitOf' id := by
    intro id l hl
    rw [hlimit]
    exact Option.mem_map_of_mem m.value hl
  refine ⟨(m.le_iff ht.2 ht.1).mpr h.crossed, fun l hl => ?_, fun l hl => ?_⟩
  · have hl' := hsound _ l hl
    obtain ⟨hbid, hask⟩ := h.buyer _ (hmem hl)
    exact ⟨(m.le_iff ht.1 hl').mpr hbid, (m.le_iff ht.2 hl').mpr hask⟩
  · have hl' := hsound _ l hl
    obtain ⟨hask, hbid⟩ := h.seller _ (hmem hl)
    exact ⟨(m.le_iff hl' ht.2).mpr hask, (m.le_iff hl' ht.1).mpr hbid⟩

/-- No market order rests in the mirror of a tame book. -/
theorem Mirrors.noMarket (h : Mirrors m b k) (hk : Linked k) (ht : Tame b) :
    ∀ x ∈ resting k, x.orderType ≠ .market := by
  intro x hx
  rw [resting_eq] at hx
  obtain ⟨p, hp, rfl⟩ := List.mem_map.mp hx
  have hfind := (hk.index (k.heap p).orderId ⟨p, p⟩).mpr ⟨p, hp, rfl, rfl⟩
  rw [h.orders] at hfind
  rw [h.heap p]
  exact (ht _ _ hfind).1.2

variable [DecidableLT P] [DecidableLE P] [IsTrans P (fun a b => a > b)]
  [IsTrans P (fun a b => a < b)]

/-- **ONE CALL**: its trades are sound and within the limits. -/
theorem call_withinLimits (h : Mirrors m b k) (hk : Linked k) (ht : Tame b)
    {c : Call P} (hs : callSided c) (hc : ¬ TakesUnsound m b c) :
    ∃ b' ts k', b.call c = .ok (b', ts) ∧ Mirrors m b' k' ∧ Linked k' ∧
      ∀ t ∈ ts, (m.sound t.bidTrade.price ∧ m.sound t.askTrade.price) ∧
        WithinLimits (limit b c) t := by
  obtain ⟨b', ts, k', us, hrun, hmatch, hk', hus⟩ :=
    h.call hk (fun id entry hid => (ht id entry hid).1.2) hs hc
  refine ⟨b', ts, k', hrun, hmatch.1, hk', fun t hmem => ?_⟩
  have hsound := hmatch.2.sound t hmem
  have hu : rescaleTrade m.value t ∈ us := by
    rw [show us = ts.map (rescaleTrade m.value) from hmatch.2.trades]
    exact List.mem_map_of_mem hmem
  refine ⟨hsound, ?_⟩
  rcases hus with rfl | ⟨hdoes, hcall⟩
  · cases hu
  · have hs' : callSided (rescaleCall m.value c) := by
      cases c <;> exact hs
    exact WithinLimits.of_mirror (limit_mirror h c) (limit_sound h hcall)
      hsound (Does.withinLimits hk (Mirrors.noMarket h hk ht) hs' hdoes _ hu)

end Mirrored

/-! ## Shards -/

section Shards

open OsxPrice OsxShard Execution

/-- Doubles read as integers; the numbers among them are sound. -/
def numbers : Scale Double Int where
  sound d := d.isNaN = false
  value := Double.key
  lt_iff := Double.lt_iff
  le_iff := Double.le_iff
  beq_eq ha hb := (Double.beq_eq ha hb).symm
  sound_of_le h := ⟨h.1, h.2.1⟩

/-- The message makes the book of its symbol accept an order at NaN. -/
def TakesNaN (s : Shard) (message : OrderMessage) : Prop :=
  ∃ c ∈ Shard.callOf message,
    TakesUnsound numbers (s.book message.symbol) c

instance (b : Orderbook Double) (c : Call Double) :
    Decidable (TakesUnsound numbers b c) :=
  match c with
  | .addOrder orderType orderId _ price _ =>
      inferInstanceAs (Decidable (¬ price.isNaN = false ∧ Unchecked orderType ∧
        b.orders.find? orderId = none))
  | .cancelOrder _ => inferInstanceAs (Decidable False)
  | .modifyOrder o =>
      inferInstanceAs (Decidable (¬ o.price.isNaN = false ∧
        ∃ entry ∈ b.orders.find? o.orderId,
          Unchecked (b.heap entry.order).orderType))

instance (s : Shard) (message : OrderMessage) : Decidable (TakesNaN s message) :=
  inferInstanceAs (Decidable (∃ c ∈ Shard.callOf message, _))

/-- The limit of an order while a message is processed. -/
def limitOf (s : Shard) (message : OrderMessage) (id : OrderId) :
    Option Double :=
  (Shard.callOf message).bind fun c => limit (s.book message.symbol) c id

/-- The published prices are numbers, they cross, and neither is beyond the
    limit of the buyer or of the seller. -/
structure RespectsLimits (s : Shard) (message : OrderMessage)
    (e : TradeExecution) : Prop where
  bid : e.bidPrice.isNaN = false
  ask : e.askPrice.isNaN = false
  crossed : e.bidPrice ≥ e.askPrice
  buyer : ∀ l ∈ limitOf s message e.bidOrderId,
    e.bidPrice ≤ l ∧ e.askPrice ≤ l
  seller : ∀ l ∈ limitOf s message e.askOrderId,
    l ≤ e.askPrice ∧ l ≤ e.bidPrice

/-- Every book of the shard is tame and has a mirror over the integers. -/
structure Mirrored (s : Shard) : Prop where
  tame : TameShard s
  mirror : ∀ symbol, ∃ k : Orderbook Int,
    Mirrors numbers (s.book symbol) k ∧ Linked k

theorem mirrors_empty :
    Mirrors numbers (.empty : Orderbook Double) (.empty : Orderbook Int) where
  levelData := ⟨rfl, List.forall_mem_nil _⟩
  bids := ⟨rfl, List.forall_mem_nil _⟩
  asks := ⟨rfl, List.forall_mem_nil _⟩
  orders := rfl
  indexed := fun _ _ hid => by cases hid
  heap := fun _ => rfl
  next := rfl

theorem mirrored_empty : Mirrored .empty where
  tame := tameShard_empty
  mirror := fun _ => ⟨.empty, mirrors_empty, wellFormed_empty.linked⟩

/-- What a message's call does to its book. -/
theorem execute_respectsLimits {s : Shard} (h : Mirrored s)
    {message : OrderMessage} (hs : Sided message.side)
    (hc : ¬ TakesNaN s message) :
    ∃ b' ts k', Shard.execute (s.book message.symbol) message = .ok (b', ts) ∧
      Mirrors numbers b' k' ∧ Linked k' ∧
      ∀ t ∈ ts, RespectsLimits s message (executionOf message t) := by
  obtain ⟨k, hmirror, hk⟩ := h.mirror message.symbol
  rw [Shard.execute]
  cases hcall : Shard.callOf message with
  | none => exact ⟨_, [], k, rfl, hmirror, hk, List.forall_mem_nil _⟩
  | some c =>
      have hsided : callSided c := by
        rw [Shard.callOf] at hcall
        cases haction : message.action with
        | add =>
            rw [haction] at hcall
            cases hcall
            exact hs
        | cancel =>
            rw [haction] at hcall
            cases hcall
            trivial
        | modify =>
            rw [haction] at hcall
            cases hcall
            exact hs
        | other value =>
            rw [haction] at hcall
            cases hcall
      obtain ⟨b', ts, k', hrun, hmirror', hk', hts⟩ :=
        call_withinLimits hmirror hk (h.tame message.symbol) hsided
          (fun hu => hc ⟨c, hcall, hu⟩)
      refine ⟨b', ts, k', hrun, hmirror', hk', fun t ht => ?_⟩
      obtain ⟨⟨hbid, hask⟩, hw⟩ := hts t ht
      have hlimit : limitOf s message
          = limit (s.book message.symbol) c := by
        funext id
        rw [limitOf, hcall]
        rfl
      refine ⟨hbid, hask, hw.crossed, ?_, ?_⟩
      · rw [hlimit]
        exact hw.buyer
      · rw [hlimit]
        exact hw.seller

/-- **ONE MESSAGE** that takes no NaN is processed, and its trades respect the
    limits. -/
theorem process_respectsLimits {s : Shard} (h : Mirrored s)
    {message : OrderMessage} (hs : Sided message.side)
    (hc : ¬ TakesNaN s message) :
    ∃ s' published, s.process message = .ok (s', published) ∧ Mirrored s' ∧
      ∀ e ∈ published.trades, RespectsLimits s message e := by
  obtain ⟨b', ts, k', hexec, hmirror, hk, hts⟩ :=
    execute_respectsLimits h hs hc
  obtain ⟨s', published, hok, htrades, hbook⟩ := Shard.process_ok hexec
  refine ⟨s', published, hok, ⟨process_tame h.tame hok, fun symbol => ?_⟩, ?_⟩
  · rw [hbook]
    by_cases hsymbol : symbol = message.symbol
    · rw [if_pos hsymbol]
      exact ⟨k', hmirror, hk⟩
    · rw [if_neg hsymbol]
      exact h.mirror symbol
  · rw [htrades]
    intro e he
    obtain ⟨t, ht, rfl⟩ := List.mem_map.mp he
    exact hts t ht

/-- **PRICE LIMITS HOLD ALONG EVERY RUN THAT TAKES NO NaN**: whatever the
    messages, none faults, and every published trade respects the limits. -/
theorem run_respectsLimits (messages : List OrderMessage)
    (hs : ∀ message ∈ messages, Sided message.side)
    (hnan : Along Shard.process (fun s message => ¬ TakesNaN s message)
      .empty messages) :
    ∃ s log, execute Shard.process .empty messages = .ok (s, log) ∧
      (∀ published ∈ log, ∀ e ∈ published.trades, e.bidPrice ≥ e.askPrice) ∧
      Along Shard.process (fun s message => ∀ s' published,
        s.process message = .ok (s', published) →
        ∀ e ∈ published.trades, RespectsLimits s message e)
        .empty messages := by
  have hcond := (along_of_forall hs Shard.empty).and hnan
  obtain ⟨s, log, hrun, -, hlog⟩ := execute_spec (I := Mirrored)
    (R := fun published => ∀ e ∈ published.trades, e.bidPrice ≥ e.askPrice)
    (fun s message h hc => by
      obtain ⟨s', published, hok, h', he⟩ := process_respectsLimits h hc.1 hc.2
      exact ⟨s', published, hok, h', fun e hmem => (he e hmem).crossed⟩)
    messages .empty mirrored_empty hcond
  refine ⟨s, log, hrun, hlog, ?_⟩
  refine Along.of_invariant (I := Mirrored) ?_ ?_ mirrored_empty hcond
  · intro s message h hc s' published hok
    obtain ⟨s1, published1, hok1, -, he⟩ := process_respectsLimits h hc.1 hc.2
    rw [hok] at hok1
    cases hok1
    exact he
  · intro s message s' published h hc hok
    obtain ⟨s1, published1, hok1, h1, -⟩ := process_respectsLimits h hc.1 hc.2
    rw [hok] at hok1
    cases hok1
    exact h1

/-- A message for symbol 1. -/
def messageOf (action : OrderAction) (type : OsxOrderbook.OrderType)
    (orderId : OrderId)
    (side : Side) (price : Double) (quantity : Nat) : OrderMessage where
  sourceTimestamp := 0
  ingressTimestamp := 0
  ingressSequence := 0
  source := 0
  symbol := 1
  orderId := orderId
  side := side
  price := price
  quantity := quantity
  type := type
  action := action

/-- A crossing at 100 and 101, a Fill-And-Kill order and a market order at NaN,
    and a modification. -/
def sampleMessages : List OrderMessage :=
  [messageOf .add .goodTillCancel 1 .sell ⟨0x4059000000000000⟩ 5,
    messageOf .add .goodTillCancel 2 .buy ⟨0x4059400000000000⟩ 3,
    messageOf .add .fillAndKill 3 .buy .quietNaN 1,
    messageOf .add .market 4 .buy .quietNaN 1,
    messageOf .modify .goodTillCancel 1 .sell ⟨0x4059400000000000⟩ 4]

theorem run_respectsLimits_sample :
    ∃ s log, execute Shard.process .empty sampleMessages = .ok (s, log) ∧
      (∀ published ∈ log, ∀ e ∈ published.trades, e.bidPrice ≥ e.askPrice) ∧
      Along Shard.process (fun s message => ∀ s' published,
        s.process message = .ok (s', published) →
        ∀ e ∈ published.trades, RespectsLimits s message e)
        .empty sampleMessages :=
  run_respectsLimits sampleMessages (by decide) (by decide +kernel)

/-- A side, an order type and an action that have an enumerator. -/
def Valid (message : OrderMessage) : Prop :=
  Sided message.side ∧ (∀ value, message.type ≠ .other value) ∧
    ∀ value, message.action ≠ .other value

theorem messageOf_valid (orderId : OrderId) {side : Side} (hs : Sided side)
    (price : Double) (quantity : Nat) :
    Valid (messageOf .add .goodTillCancel orderId side price quantity) :=
  ⟨hs, by simp [messageOf], by simp [messageOf]⟩

/-- A resting ask at 100 and a bid at NaN trade with each other. -/
theorem run_takesNaN :
    ¬ ∀ (messages : List OrderMessage) (symbol : SymbolId),
      (∀ message ∈ messages, Valid message ∧ message.symbol = symbol) →
      ∀ s log, execute Shard.process .empty messages = .ok (s, log) →
      ∀ published ∈ log, ∀ e ∈ published.trades,
        e.bidPrice ≥ e.askPrice := by
  intro h
  have hbad : ∃ s log, execute Shard.process .empty
      [messageOf .add .goodTillCancel 1 .sell ⟨0x4059000000000000⟩ 1,
        messageOf .add .goodTillCancel 2 .buy .quietNaN 1] = .ok (s, log) ∧
      ∃ published ∈ log, ∃ e ∈ published.trades,
        ¬ e.bidPrice ≥ e.askPrice :=
    ⟨_, _, rfl, by decide +kernel⟩
  obtain ⟨s, log, hrun, published, hp, e, he, hno⟩ := hbad
  refine hno (h _ 1 ?_ s log hrun published hp e he)
  intro message hmem
  rcases List.mem_cons.mp hmem with rfl | hmem
  · exact ⟨messageOf_valid 1 (Or.inr rfl) _ _, rfl⟩
  · rw [List.mem_singleton.mp hmem]
    exact ⟨messageOf_valid 2 (Or.inl rfl) _ _, rfl⟩

end Shards

end OsxPriceLimit
