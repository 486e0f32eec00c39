import OsborneX.OutcomeProofs
import OsborneX.OrderbookCallProofs

/-! # Mirrors — a book on prices of one type, and the same book on another

    The book only compares prices, so a book whose prices are read on another
    scale goes through the same steps.  A `Scale` reads some of the prices, the
    SOUND ones, as values of a linear order, faithfully for every comparison.

    `Mirrors` relates a book that holds sound prices only to the book of their
    values.  Every operation keeps it in LOCKSTEP: both books fault alike, and
    what one returns mirrors what the other does.  So whatever is known of
    books over a linear order is known of books over sound prices. -/

namespace OsxMirror

open OsxOrderbook OsxLink OsxCalls Outcome

/-- Prices of type `P` read as values of type `Q`. -/
structure Scale (P Q : Type) [LT P] [LE P] [BEq P] [LT Q] [LE Q] [BEq Q] where
  sound : P → Prop
  value : P → Q
  lt_iff : ∀ {a b : P}, sound a → sound b → (a < b ↔ value a < value b)
  le_iff : ∀ {a b : P}, sound a → sound b → (a ≤ b ↔ value a ≤ value b)
  beq_eq : ∀ {a b : P}, sound a → sound b → (value a == value b) = (a == b)
  /-- an unsound price is not within any limit, nor a limit -/
  sound_of_le : ∀ {a b : P}, a ≤ b → sound a ∧ sound b

variable {P Q : Type}

/-- The order at another price scale. -/
def rescale (g : P → Q) (o : Order P) : Order Q where
  orderType := o.orderType
  orderId := o.orderId
  side := o.side
  price := g o.price
  initialQuantity := o.initialQuantity
  remainingQuantity := o.remainingQuantity

theorem rescale_fill (g : P → Q) (o : Order P) (quantity : Nat) :
    (rescale g o).fill quantity = rescale g (o.fill quantity) := by
  rw [Order.fill, Order.fill]
  by_cases h : quantity > o.remainingQuantity
  · have h' : quantity > (rescale g o).remainingQuantity := h
    rw [if_pos h, if_pos h']
  · have h' : ¬ quantity > (rescale g o).remainingQuantity := h
    rw [if_neg h, if_neg h']
    rfl

/-- The trade at another price scale. -/
def rescaleTrade (g : P → Q) (t : Trade P) : Trade Q where
  bidTrade := ⟨t.bidTrade.orderId, g t.bidTrade.price, t.bidTrade.quantity⟩
  askTrade := ⟨t.askTrade.orderId, g t.askTrade.price, t.askTrade.quantity⟩

variable [LT P] [LE P] [BEq P] [LinearOrder Q] (m : Scale P Q)

/-! ## One side of the book -/

section Levels

variable {lt : P → P → Prop} {lt' : Q → Q → Prop}

/-- The levels, at the values of their prices; all of it is sound. -/
structure LevelsMirror (heap : OrderPointer → Order P) (levels : Levels P lt)
    (levels' : Levels Q lt') : Prop where
  entries : levels'.entries = levels.entries.map (Prod.map m.value id)
  sound : ∀ e ∈ levels.entries,
    m.sound e.1 ∧ ∀ p ∈ e.2, m.sound (heap p).price

/-- The two comparisons agree on sound prices. -/
def Agree (lt : P → P → Prop) (lt' : Q → Q → Prop) : Prop :=
  ∀ a b, m.sound a → m.sound b → (lt a b ↔ lt' (m.value a) (m.value b))

variable {m} {heap : OrderPointer → Order P} {levels : Levels P lt}
  {levels' : Levels Q lt'}

theorem LevelsMirror.begin? (h : LevelsMirror m heap levels levels') :
    levels'.begin? = levels.begin?.map (Prod.map m.value id) := by
  rw [OrderedMap.begin?, OrderedMap.begin?, h.entries, List.head?_map]

theorem LevelsMirror.rbegin? (h : LevelsMirror m heap levels levels') :
    levels'.rbegin? = levels.rbegin?.map (Prod.map m.value id) := by
  rw [OrderedMap.rbegin?, OrderedMap.rbegin?, h.entries, List.getLast?_map]

/-- The level at an end of the map is sound. -/
theorem LevelsMirror.sound_begin (h : LevelsMirror m heap levels levels')
    {e : P × List OrderPointer} (he : levels.begin? = some e) :
    m.sound e.1 ∧ ∀ p ∈ e.2, m.sound (heap p).price :=
  h.sound e (List.mem_of_mem_head? he)

theorem LevelsMirror.sound_rbegin (h : LevelsMirror m heap levels levels')
    {e : P × List OrderPointer} (he : levels.rbegin? = some e) :
    m.sound e.1 :=
  (h.sound e (List.mem_of_getLast? he)).1

/-- Only the prices of the listed orders matter. -/
theorem LevelsMirror.mono {heap' : OrderPointer → Order P}
    (h : LevelsMirror m heap levels levels')
    (hheap : ∀ e ∈ levels.entries, ∀ p ∈ e.2, m.sound (heap p).price →
      m.sound (heap' p).price) : LevelsMirror m heap' levels levels' :=
  ⟨h.entries, fun e he => ⟨(h.sound e he).1,
    fun p hp => hheap e he p hp ((h.sound e he).2 p hp)⟩⟩

theorem LevelsMirror.keeps (h : LevelsMirror m heap levels levels')
    (hlt : Agree m lt lt') {price : P} (hp : m.sound price) :
    OrderedMap.Keeps lt lt' m.value price levels.entries :=
  fun e he => ⟨hlt _ _ (h.sound e he).1 hp, hlt _ _ hp (h.sound e he).1⟩

variable [DecidableRel lt]

/-- The orders of a level found are sound. -/
theorem LevelsMirror.sound_levelAt (h : LevelsMirror m heap levels levels')
    {price : P} {level : List OrderPointer}
    (hl : levelAt levels price = .ok level) :
    ∀ p ∈ level, m.sound (heap p).price := by
  rw [levelAt] at hl
  cases hf : levels.find? price with
  | none =>
      rw [hf] at hl
      cases hl
  | some found =>
      rw [hf] at hl
      cases hl
      obtain ⟨k, hk⟩ := OrderedMap.findIn_mem hf
      exact (h.sound _ hk).2

variable [DecidableRel lt']

theorem LevelsMirror.find?_eq (h : LevelsMirror m heap levels levels')
    (hlt : Agree m lt lt') {price : P} (hp : m.sound price) :
    levels'.find? (m.value price) = levels.find? price := by
  rw [OrderedMap.find?, h.entries]
  exact OrderedMap.findIn_rekey (h.keeps hlt hp)

theorem LevelsMirror.levelAt_eq (h : LevelsMirror m heap levels levels')
    (hlt : Agree m lt lt') {price : P} (hp : m.sound price) :
    levelAt levels' (m.value price) = levelAt levels price := by
  rw [levelAt, levelAt, h.find?_eq hlt hp]

/-- Looking a level up, in lockstep. -/
theorem LevelsMirror.levelAt (h : LevelsMirror m heap levels levels')
    (hlt : Agree m lt lt') {price : P} (hp : m.sound price) :
    Lockstep (fun level level' => level' = level ∧
        ∀ p ∈ level, m.sound (heap p).price)
      (levelAt levels price) (levelAt levels' (m.value price)) := by
  rw [h.levelAt_eq hlt hp]
  cases hl : OsxOrderbook.levelAt levels price with
  | error e => exact rfl
  | ok level => exact ⟨rfl, h.sound_levelAt hl⟩

theorem LevelsMirror.storeLevel (h : LevelsMirror m heap levels levels')
    (hlt : Agree m lt lt') {price : P} (hp : m.sound price)
    {level : List OrderPointer} (hl : ∀ p ∈ level, m.sound (heap p).price) :
    LevelsMirror m heap (storeLevel levels price level)
      (storeLevel levels' (m.value price) level) := by
  rw [OsxOrderbook.storeLevel, OsxOrderbook.storeLevel]
  by_cases hempty : level.isEmpty = true
  · rw [if_pos hempty, if_pos hempty]
    refine ⟨?_, fun e he => h.sound e (List.mem_of_mem_filter he)⟩
    rw [OrderedMap.entries_erase, OrderedMap.entries_erase, h.entries]
    exact OrderedMap.eraseIn_rekey (h.keeps hlt hp)
  · rw [if_neg hempty, if_neg hempty]
    refine ⟨?_, OrderedMap.forall_adjustIn (fun k _ hk => ⟨hk.1, hl⟩) h.sound⟩
    rw [OrderedMap.entries_adjust, OrderedMap.entries_adjust, h.entries]
    exact OrderedMap.adjustIn_rekey (h.keeps hlt hp) _

theorem LevelsMirror.eraseFromLevel (h : LevelsMirror m heap levels levels')
    (hlt : Agree m lt lt') {price : P} (hp : m.sound price)
    (location : OrderPointer) :
    Lockstep (LevelsMirror m heap) (eraseFromLevel levels price location)
      (eraseFromLevel levels' (m.value price) location) := by
  refine (h.levelAt hlt hp).bind ?_
  rintro _ level ⟨rfl, hlevel⟩
  rw [eraseIterator]
  by_cases hmem : location ∈ level
  · rw [if_pos hmem]
    exact h.storeLevel hlt hp (fun p hp' => hlevel p (List.mem_of_mem_erase hp'))
  · rw [if_neg hmem]
    exact rfl

theorem LevelsMirror.pushBack [IsTrans P lt] [IsTrans Q lt']
    (h : LevelsMirror m heap levels levels') (hlt : Agree m lt lt')
    {price : P} (hp : m.sound price) {order : OrderPointer}
    (ho : m.sound (heap order).price) :
    LevelsMirror m heap (pushBack levels price order)
      (pushBack levels' (m.value price) order) := by
  refine ⟨?_, OrderedMap.forall_upsertIn ⟨hp, ?_⟩ (fun k level hk =>
    ⟨hk.1, ?_⟩) h.sound⟩
  · rw [OsxOrderbook.pushBack, OsxOrderbook.pushBack,
      OrderedMap.entries_upsert, OrderedMap.entries_upsert, h.entries]
    exact OrderedMap.upsertIn_rekey (h.keeps hlt hp) _
  · exact List.forall_mem_singleton.mpr ho
  · exact List.forall_mem_append.mpr ⟨hk.2, List.forall_mem_singleton.mpr ho⟩

end Levels

/-! ## The aggregates -/

/-- The aggregates, at the values of their prices; all of them sound. -/
structure DataMirror (levelData : LevelDataMap P) (levelData' : LevelDataMap Q) :
    Prop where
  entries : levelData'.entries = levelData.entries.map (Prod.map m.value id)
  sound : ∀ e ∈ levelData.entries, m.sound e.1

variable {m}

section Data

variable {levelData : LevelDataMap P} {levelData' : LevelDataMap Q}

theorem DataMirror.keeps (h : DataMirror m levelData levelData') {price : P}
    (hp : m.sound price) :
    HashTable.Keeps m.value price levelData.entries :=
  fun e he => m.beq_eq (h.sound e he) hp

theorem DataMirror.find? (h : DataMirror m levelData levelData') {price : P}
    (hp : m.sound price) :
    levelData'.find? (m.value price) = levelData.find? price := by
  rw [HashTable.find?, h.entries]
  exact HashTable.findIn_rekey (h.keeps hp)

theorem DataMirror.erase (h : DataMirror m levelData levelData') {price : P}
    (hp : m.sound price) :
    DataMirror m (levelData.erase price)
      (levelData'.erase (m.value price)) := by
  refine ⟨?_, fun e he => h.sound e (List.mem_of_mem_filter he)⟩
  show levelData'.entries.filter _ = _
  rw [h.entries]
  exact HashTable.eraseIn_rekey (h.keeps hp)

theorem DataMirror.upsert (h : DataMirror m levelData levelData') {price : P}
    (hp : m.sound price) (f : Option LevelData → LevelData) :
    DataMirror m (levelData.upsert price f)
      (levelData'.upsert (m.value price) f) := by
  refine ⟨?_, HashTable.forall_upsertIn hp (fun _ _ hk => hk) h.sound⟩
  show HashTable.upsertIn _ f levelData'.entries = _
  rw [h.entries]
  exact HashTable.upsertIn_rekey (h.keeps hp) f

theorem DataMirror.update (h : DataMirror m levelData levelData') {price : P}
    (hp : m.sound price) (quantity : Nat) (action : Action) :
    DataMirror m (updateLevelData levelData price quantity action)
      (updateLevelData levelData' (m.value price) quantity action) := by
  rw [updateLevelData, updateLevelData, h.find? hp]
  have hupsert := h.upsert hp (fun _ =>
    ((levelData.find? price).getD .zero).apply quantity action)
  by_cases hcount :
      (((levelData.find? price).getD .zero).apply quantity action).count = 0
  · rw [if_pos hcount, if_pos hcount]
    exact hupsert.erase hp
  · rw [if_neg hcount, if_neg hcount]
    exact hupsert

end Data

/-! ## The book -/

/-- **THE SAME BOOK ON TWO SCALES**: `k` has the values of the prices of `b`,
    all of which are sound.  An order that is neither listed nor indexed may
    have any price. -/
structure Mirrors (m : Scale P Q) (b : Orderbook P) (k : Orderbook Q) :
    Prop where
  levelData : DataMirror m b.levelData k.levelData
  bids : LevelsMirror m b.heap b.bids k.bids
  asks : LevelsMirror m b.heap b.asks k.asks
  orders : k.orders = b.orders
  indexed : ∀ id entry, b.orders.find? id = some entry →
    m.sound (b.heap entry.order).price
  heap : ∀ p, k.heap p = rescale m.value (b.heap p)
  next : k.next = b.next

theorem agree_gt (m : Scale P Q) :
    Agree m (fun a b : P => a > b) (fun a b : Q => a > b) :=
  fun _ _ ha hb => m.lt_iff hb ha

theorem agree_lt (m : Scale P Q) :
    Agree m (fun a b : P => a < b) (fun a b : Q => a < b) :=
  fun _ _ ha hb => m.lt_iff ha hb

/-- A list of trades, and the trades between the values; all of it sound. -/
structure TradesMirror (m : Scale P Q) (ts : List (Trade P))
    (us : List (Trade Q)) : Prop where
  trades : us = ts.map (rescaleTrade m.value)
  sound : ∀ t ∈ ts, m.sound t.bidTrade.price ∧ m.sound t.askTrade.price

theorem TradesMirror.nil : TradesMirror m [] [] :=
  ⟨rfl, List.forall_mem_nil _⟩

theorem TradesMirror.snoc {ts : List (Trade P)} {us : List (Trade Q)}
    (h : TradesMirror m ts us) {t : Trade P}
    (ht : m.sound t.bidTrade.price ∧ m.sound t.askTrade.price) :
    TradesMirror m (ts ++ [t]) (us ++ [rescaleTrade m.value t]) := by
  refine ⟨?_, List.forall_mem_append.mpr
    ⟨h.sound, List.forall_mem_singleton.mpr ht⟩⟩
  rw [h.trades, List.map_append]
  rfl

/-- What a matching step returns, in both books. -/
def Matches (m : Scale P Q) (r : Orderbook P × List (Trade P))
    (r' : Orderbook Q × List (Trade Q)) : Prop :=
  Mirrors m r.1 r'.1 ∧ TradesMirror m r.2 r'.2

variable {b : Orderbook P} {k : Orderbook Q}

/-- Overwriting an order by one that is sound if it was. -/
theorem Mirrors.store (h : Mirrors m b k) {ptr : OrderPointer} {o : Order P}
    (ho : m.sound (b.heap ptr).price → m.sound o.price) :
    Mirrors m (b.store ptr o) (k.store ptr (rescale m.value o)) := by
  have hsound : ∀ p, m.sound (b.heap p).price →
      m.sound ((b.store ptr o).heap p).price := by
    intro p hp
    show m.sound (Function.update b.heap ptr o p).price
    by_cases heq : p = ptr
    · subst heq
      rw [Function.update_self]
      exact ho hp
    · rw [Function.update_of_ne heq]
      exact hp
  refine ⟨h.levelData, h.bids.mono (fun _ _ p _ => hsound p),
    h.asks.mono (fun _ _ p _ => hsound p), h.orders,
    fun id entry hid => hsound _ (h.indexed id entry hid), fun p => ?_, h.next⟩
  show Function.update k.heap ptr (rescale m.value o) p
    = rescale m.value (Function.update b.heap ptr o p)
  by_cases heq : p = ptr
  · subst heq
    rw [Function.update_self, Function.update_self]
  · rw [Function.update_of_ne heq, Function.update_of_ne heq]
    exact h.heap p

/-- Filling an order. -/
theorem Mirrors.fill (h : Mirrors m b k) (ptr : OrderPointer)
    (quantity : Nat) :
    Mirrors m (b.store ptr ((b.heap ptr).fill quantity))
      (k.store ptr ((k.heap ptr).fill quantity)) := by
  rw [h.heap ptr, rescale_fill]
  refine h.store (fun hp => ?_)
  rw [OsxCrossing.fill_price]
  exact hp

/-- An index that only forgets orders. -/
theorem Mirrors.forget (h : Mirrors m b k)
    {orders : HashTable OrderId OrderEntry}
    (horders : ∀ id entry, orders.find? id = some entry →
      b.orders.find? id = some entry) {levelData : LevelDataMap P}
    {levelData' : LevelDataMap Q} (hdata : DataMirror m levelData levelData') :
    Mirrors m { b with orders := orders, levelData := levelData }
      { k with orders := orders, levelData := levelData' } :=
  ⟨hdata, h.bids, h.asks, rfl,
    fun id entry hid => h.indexed id entry (horders id entry hid),
    h.heap, h.next⟩

theorem Mirrors.onOrderAdded (h : Mirrors m b k) {ptr : OrderPointer}
    (hp : m.sound (b.heap ptr).price) :
    Mirrors m (b.onOrderAdded (b.heap ptr)) (k.onOrderAdded (k.heap ptr)) := by
  rw [h.heap ptr]
  exact { h with levelData := h.levelData.update hp _ _ }

/-- A new object, at an address no list and no entry leads to. -/
theorem Mirrors.makeShared (h : Mirrors m b k) (hk : Linked k) (o : Order P) :
    Mirrors m (b.makeShared o) (k.makeShared (rescale m.value o)) := by
  have hother : ∀ p, p ≠ b.next →
      m.sound (b.heap p).price → m.sound ((b.makeShared o).heap p).price := by
    intro p hne hp
    show m.sound (Function.update b.heap b.next o p).price
    rw [Function.update_of_ne hne]
    exact hp
  have hlisted : ∀ p ∈ pointers k, p ≠ b.next := by
    intro p hp heq
    refine Linked.next_fresh hk ?_
    rw [h.next, ← heq]
    exact hp
  have hbids : ∀ e ∈ b.bids.entries, ∀ p ∈ e.2, p ∈ pointers k := by
    intro e he p hp
    refine List.mem_append_left _ (mem_pointersOf.mpr
      ⟨Prod.map m.value id e, ?_, hp⟩)
    rw [h.bids.entries]
    exact List.mem_map_of_mem he
  have hasks : ∀ e ∈ b.asks.entries, ∀ p ∈ e.2, p ∈ pointers k := by
    intro e he p hp
    refine List.mem_append_right _ (mem_pointersOf.mpr
      ⟨Prod.map m.value id e, ?_, hp⟩)
    rw [h.asks.entries]
    exact List.mem_map_of_mem he
  refine ⟨h.levelData,
    h.bids.mono (fun e he p hp => hother p (hlisted p (hbids e he p hp))),
    h.asks.mono (fun e he p hp => hother p (hlisted p (hasks e he p hp))),
    h.orders, fun id entry hid => ?_, fun p => ?_, congrArg (· + 1) h.next⟩
  · refine hother _ (hlisted _ ?_) (h.indexed id entry hid)
    have hid : b.orders.find? id = some entry := hid
    rw [← h.orders] at hid
    obtain ⟨p, hp, -, rfl⟩ := (hk.index id entry).mp hid
    exact hp
  · show Function.update k.heap k.next (rescale m.value o) p
      = rescale m.value (Function.update b.heap b.next o p)
    rw [h.next]
    by_cases heq : p = b.next
    · subst heq
      rw [Function.update_self, Function.update_self]
    · rw [Function.update_of_ne heq, Function.update_of_ne heq]
      exact h.heap p

end OsxMirror
