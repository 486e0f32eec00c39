import OsborneX.SoundRunProofs

/-! # Duplicates — an id is in the index because an order was added under it

    Matching, killing, cancelling and modifying only take ids out of the index,
    or put one back that was in it.  So the duplicate check of `AddOrder` finds
    an id only where an earlier Add of the same book had it, whatever the
    prices and sides are. -/

namespace OsxDuplicate

open OsxOrderbook Outcome

variable {P : Type}

/-- The computation ends in a value with `Q`, if it ends in a value. -/
abbrev Yields {A : Type} (Q : A → Prop) (x : Except Fault A) : Prop :=
  Ends (fun _ => True) Q x

theorem yields_any {A : Type} (x : Except Fault A) :
    Yields (fun _ => True) x := by
  cases x with
  | error e => trivial
  | ok a => trivial

section Book

variable [LT P] [BEq P] {b b' : Orderbook P} {ids : OrderId → Prop}

/-- Only these ids are in the index. -/
def Known (ids : OrderId → Prop) (b : Orderbook P) : Prop :=
  ∀ id entry, b.orders.find? id = some entry → ids id

/-- An index that lost entries. -/
theorem Known.shrink (h : Known ids b)
    (horders : ∀ id entry, b'.orders.find? id = some entry →
      b.orders.find? id = some entry) : Known ids b' :=
  fun id entry hid => h id entry (horders id entry hid)

/-- A market order that is converted keeps its id. -/
theorem convertMarket_known (h : Known ids b) {ptr : OrderPointer}
    (hid : ids (b.heap ptr).orderId) :
    Yields (fun r => ∀ b' ∈ r, Known ids b' ∧ ids (b'.heap ptr).orderId)
      (b.convertMarket ptr) := by
  have hstored : ∀ price : P, Yields (fun r => ∀ b' ∈ r, Known ids b' ∧
      ids (b'.heap ptr).orderId)
      (((b.heap ptr).toGoodTillCancel price).map (some ∘ b.store ptr)) := by
    intro price
    rw [Order.toGoodTillCancel]
    split
    · trivial
    · rintro b' hb'
      cases hb'
      refine ⟨h.shrink (fun _ _ hid => hid), ?_⟩
      show ids (Function.update b.heap ptr _ ptr).orderId
      rw [Function.update_self]
      exact hid
  have hnone : Yields (fun r => ∀ b' ∈ r, Known ids b' ∧
      ids (b'.heap ptr).orderId) (.ok (none : Option (Orderbook P))) := by
    intro b' hb'
    cases hb'
  rw [Orderbook.convertMarket]
  refine Ends.ite (fun _ => ?_) (fun _ => ?_)
  · split
    · exact hstored _
    · exact hstored _
    · exact hnone
  · rintro b' hb'
    cases hb'
    exact ⟨h, hid⟩

variable [DecidableLT P]

theorem cancelOrderInternal_known (h : Known ids b) (orderId : OrderId) :
    Yields (Known ids) (b.cancelOrderInternal orderId) := by
  rw [Orderbook.cancelOrderInternal]
  cases hf : b.orders.find? orderId with
  | none => exact h
  | some entry =>
      have herased : ∀ b' : Orderbook P,
          b'.orders = b.orders.erase orderId → Known ids b' := by
        intro b' horders
        refine h.shrink (fun id e hid => ?_)
        rw [horders] at hid
        exact HashTable.find?_of_erase hid
      cases hside : (b.heap entry.order).side with
      | buy =>
          simp only [hside]
          exact (yields_any _).bind (fun bids _ => herased _ rfl)
      | sell =>
          simp only [hside]
          exact (yields_any _).bind (fun asks _ => herased _ rfl)
      | other value =>
          simp only [hside]
          trivial

/-- Matching puts no id into the index. -/
theorem known_kept : OsxMatchingRule.Keeps (fun _ => True) (Known (P := P) ids)
    where
  outOfFuel := trivial
  outOfRange := trivial
  emptyFront := trivial
  fills _ _ h := h.shrink (fun _ _ hid =>
    HashTable.find?_of_eraseIf (HashTable.find?_of_eraseIf hid))
  stores _ _ _ _ h := h.shrink (fun _ _ hid => hid)
  cancels orderId h := cancelOrderInternal_known h orderId

variable [IsTrans P (fun a b => a > b)] [IsTrans P (fun a b => a < b)]

theorem rest_known (h : Known ids b) {ptr : OrderPointer}
    (hid : ids (b.heap ptr).orderId) : Yields (Known ids) (b.rest ptr) := by
  have hadded : ∀ b' : Orderbook P, b'.orders = b.orders.emplace
      (b.heap ptr).orderId { order := ptr, location := ptr } →
      Known ids b' := by
    intro b' horders id entry hfind
    rw [horders, HashTable.emplace, HashTable.find?_upsert] at hfind
    by_cases heq : id = (b.heap ptr).orderId
    · rw [heq]
      exact hid
    · rw [if_neg heq] at hfind
      exact h id entry hfind
  rw [Orderbook.rest]
  cases hside : (b.heap ptr).side with
  | buy =>
      simp only
      exact hadded _ rfl
  | sell =>
      simp only
      exact hadded _ rfl
  | other value => trivial

variable [LE P] [DecidableLE P]

/-- `AddOrder` puts no id but the new order's into the index. -/
theorem addOrder_known (h : Known ids b) {o : Order P} (ho : ids o.orderId) :
    Yields (fun r => Known ids r.1) ((b.makeShared o).addOrder b.next) := by
  have h : Known ids (b.makeShared o) := h.shrink (fun _ _ hid => hid)
  have hid : ids ((b.makeShared o).heap b.next).orderId := by
    show ids (Function.update b.heap b.next o b.next).orderId
    rw [Function.update_self]
    exact ho
  rw [Orderbook.addOrder]
  refine Ends.ite (fun _ => h) (fun _ => (yields_any _).bind (fun drops _ =>
    Ends.ite (fun _ => h) (fun _ =>
      (convertMarket_known h hid).bind (fun converted hconverted => ?_))))
  cases converted with
  | none => exact h
  | some b2 =>
      obtain ⟨h2, hid2⟩ := hconverted b2 rfl
      refine (yields_any _).bind (fun drops _ => Ends.ite (fun _ => h2)
        (fun _ => (rest_known h2 hid2).bind (fun b3 h3 =>
          known_kept.matchOrders (h3.shrink (fun _ _ hid => hid)))))

/-- The id a call adds an order under. -/
def addedId : Call P → Option OrderId
  | .addOrder _ orderId _ _ _ => some orderId
  | .cancelOrder _ => none
  | .modifyOrder _ => none

/-- **WHAT A CALL PUTS INTO THE INDEX**: the id it adds an order under. -/
theorem call_known (h : Known ids b) {c : Call P}
    (hadded : ∀ id ∈ addedId c, ids id) {ts : List (Trade P)}
    (hrun : b.call c = .ok (b', ts)) : Known ids b' := by
  cases c with
  | addOrder orderType orderId side price quantity =>
      have ho : ids (Order.new orderType orderId side price quantity).orderId :=
        hadded orderId rfl
      exact (addOrder_known h ho).of_ok hrun
  | cancelOrder orderId =>
      obtain ⟨b1, hcancel, heq⟩ := Execution.map_ok hrun
      cases heq
      exact (cancelOrderInternal_known h orderId).of_ok hcancel
  | modifyOrder order =>
      have hrun : b.modifyOrder order = .ok (b', ts) := hrun
      rw [Orderbook.modifyOrder] at hrun
      cases hfind : b.orders.find? order.orderId with
      | none =>
          simp only [hfind] at hrun
          cases hrun
          exact h
      | some entry =>
          simp only [hfind] at hrun
          obtain ⟨b1, hcancel, hrun⟩ := Execution.bind_ok hrun
          have h1 : Known ids b1 :=
            (cancelOrderInternal_known h order.orderId).of_ok hcancel
          -- the id that is added afresh was in the index
          have ho : ids (order.toOrder (b.heap entry.order).orderType).orderId :=
            h order.orderId entry hfind
          exact (addOrder_known h1 ho).of_ok hrun

end Book

/-! ## The shard -/

section Shard

open OsxShard

/-- The ids the Adds among the messages have. -/
def addIds (messages : List OrderMessage) : List OrderId :=
  (messages.filter (fun message => message.action = .add)).map
    OrderMessage.orderId

@[simp] theorem addIds_append (messages later : List OrderMessage) :
    addIds (messages ++ later) = addIds messages ++ addIds later := by
  simp [addIds]

theorem mem_addIds {messages : List OrderMessage} {id : OrderId} :
    id ∈ addIds messages ↔
      ∃ message ∈ messages, message.action = .add ∧ message.orderId = id := by
  simp [addIds, and_assoc]

/-- Executing a message puts no id into its book but that of an Add. -/
theorem execute_known {ids : OrderId → Prop} {b b' : Orderbook OsxPrice.Double}
    (h : Known ids b) {message : OrderMessage}
    (hadded : message.action = .add → ids message.orderId)
    {ts : List (Trade OsxPrice.Double)}
    (hrun : Shard.execute b message = .ok (b', ts)) : Known ids b' := by
  rw [Shard.execute] at hrun
  cases haction : message.action with
  | add =>
      simp only [Shard.callOf, haction] at hrun
      refine call_known h (fun id hid => ?_) hrun
      cases hid
      exact hadded haction
  | cancel =>
      simp only [Shard.callOf, haction] at hrun
      exact call_known h (fun id hid => by cases hid) hrun
  | modify =>
      simp only [Shard.callOf, haction] at hrun
      exact call_known h (fun id hid => by cases hid) hrun
  | other value =>
      simp only [Shard.callOf, haction] at hrun
      cases hrun
      exact h

/-- Processing a message puts no id into a book but that of an Add. -/
theorem process_known {ids : OrderId → Prop} {s s' : Shard}
    (h : ∀ symbol, Known ids (s.book symbol)) {message : OrderMessage}
    (hadded : message.action = .add → ids message.orderId)
    {published : Published} (hrun : s.process message = .ok (s', published)) :
    ∀ symbol, Known ids (s'.book symbol) := by
  obtain ⟨b, ts, hexecute, -, hbooks⟩ := OsxSoundRun.execute_of_process hrun
  intro symbol
  rw [hbooks symbol]
  by_cases hsymbol : symbol = message.symbol
  · rw [if_pos hsymbol]
    exact execute_known (h message.symbol) hadded hexecute
  · rw [if_neg hsymbol]
    exact h symbol

/-- **ONLY ADDED IDS** are in the books of a shard. -/
theorem run_known {messages : List OrderMessage} {s : Shard}
    {published : List Published}
    (hrun : Execution.execute Shard.process .empty messages
      = .ok (s, published)) (symbol : SymbolId) :
    Known (fun id => id ∈ addIds messages) (s.book symbol) := by
  refine Execution.execute_trace (I := fun messages s _ =>
    ∀ symbol, Known (fun id => id ∈ addIds messages) (s.book symbol))
    (fun messages s _ message s' _ h hstep => ?_) ?_ hrun symbol
  · refine process_known (fun symbol id entry hid => ?_) (fun hadd => ?_) hstep
    · exact addIds_append messages [message] ▸
        List.mem_append_left _ (h symbol id entry hid)
    · exact mem_addIds.mpr ⟨message, by simp, hadd, rfl⟩
  · intro symbol id entry hid
    cases hid

/-- **NO ADD IS A DUPLICATE** where the Adds have distinct ids: whatever the
    shard was handed before, cancels and modifications included. -/
theorem add_not_duplicate {before after : List OrderMessage}
    {message : OrderMessage} (hadd : message.action = .add)
    (hdistinct : (addIds (before ++ message :: after)).Nodup) {s : Shard}
    {published : List Published}
    (hrun : Execution.execute Shard.process .empty before
      = .ok (s, published)) :
    (s.book message.symbol).orders.contains message.orderId = false := by
  cases hfind : (s.book message.symbol).orders.find? message.orderId with
  | none => rw [HashTable.contains, hfind]; rfl
  | some entry =>
      have hold := run_known hrun message.symbol message.orderId entry hfind
      have hnew : message.orderId ∈ addIds (message :: after) :=
        mem_addIds.mpr ⟨message, List.mem_cons_self, hadd, rfl⟩
      rw [addIds_append] at hdistinct
      exact absurd rfl ((List.nodup_append.mp hdistinct).2.2 _ hold _ hnew)

end Shard

end OsxDuplicate
