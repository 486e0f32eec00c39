import OsborneX.MatchingRefinementProofs

/-! # Calls — what `AddOrder`, `CancelOrder` and `ModifyOrder` do

    One specification for each call on a linked book.  An added order is either
    turned away, and the book is as it was, or `Admits` it under its effective
    terms; then the book is `Opened` with the order behind its price level and
    matched by `Rounds`.  `Does` collects every outcome a call can have. -/

namespace OsxCalls

open OsxOrderbook OsxCrossing OsxLink OsxMatching

variable {P : Type}

/-! ## Admission -/

/-- The two sides an order can be on. -/
def Sided (side : Side) : Prop := side = .buy ∨ side = .sell

instance (side : Side) : Decidable (Sided side) :=
  inferInstanceAs (Decidable (_ ∨ _))

/-- The order as it is matched: a market order takes the worst opposite price
    as its limit, any other order is as it came. -/
def effective (opp : List (Order P)) (o : Order P) : Option (Order P) :=
  if o.orderType = .market then
    opp.getLast?.map fun worst =>
      { o with price := worst.price, orderType := .goodTillCancel }
  else some o

/-- Becoming effective changes at most the price and the type. -/
theorem effective_terms {opp : List (Order P)} {o o' : Order P}
    (h : effective opp o = some o') :
    o'.side = o.side ∧ o'.orderId = o.orderId ∧
      o'.initialQuantity = o.initialQuantity ∧
      o'.remainingQuantity = o.remainingQuantity := by
  rw [effective] at h
  by_cases hm : o.orderType = .market
  · rw [if_pos hm] at h
    obtain ⟨w, -, rfl⟩ := Option.map_eq_some_iff.mp h
    exact ⟨rfl, rfl, rfl, rfl⟩
  · rw [if_neg hm] at h
    cases h
    exact ⟨rfl, rfl, rfl, rfl⟩

/-- No order is matched as a market order. -/
theorem effective_orderType {opp : List (Order P)} {o o' : Order P}
    (h : effective opp o = some o') :
    o'.orderType
      = if o.orderType = .market then .goodTillCancel else o.orderType := by
  rw [effective] at h
  by_cases hm : o.orderType = .market
  · rw [if_pos hm] at h ⊢
    obtain ⟨w, -, rfl⟩ := Option.map_eq_some_iff.mp h
    rfl
  · rw [if_neg hm] at h ⊢
    cases h
    rfl

/-- Only an order that came as Fill-And-Kill is matched as one. -/
theorem effective_killable {opp : List (Order P)} {o o' : Order P}
    (h : effective opp o = some o') (hk : o'.orderType = .fillAndKill) :
    o.orderType = .fillAndKill ∧ o' = o := by
  have htype := effective_orderType h
  have hm : o.orderType ≠ .market := by
    intro hm
    rw [if_pos hm, hk] at htype
    cases htype
  rw [if_neg hm] at htype
  rw [effective, if_neg hm] at h
  cases h
  exact ⟨hk, rfl⟩

/-- The best level decides whether some resting order has an acceptable
    price, when every price better than an acceptable one is acceptable. -/
theorem exists_acceptable_iff {lt : P → P → Prop} {levels : Levels P lt}
    {heap : OrderPointer → Order P} {side : Side}
    (h : Housed heap side levels) {R : P → Prop}
    (hR : ∀ k p, lt k p → R p → R k) :
    (∃ y ∈ (pointersOf levels).map heap, R y.price) ↔
      ∃ e ∈ levels.begin?, R e.1 := by
  rw [OrderedMap.begin?]
  cases hent : levels.entries with
  | nil =>
      rw [pointersOf, hent]
      simp
  | cons e rest =>
      obtain ⟨k, l⟩ := e
      obtain ⟨hl, hr⟩ := h.behind_best hent
      have hne : l ≠ [] := h.nonempty (k, l) (by rw [hent]; simp)
      rw [pointersOf_best hent, List.map_append]
      constructor
      · rintro ⟨y, hy, hRy⟩
        refine ⟨(k, l), rfl, ?_⟩
        rcases List.mem_append.mp hy with h1 | h1
        · rw [← hl y h1]; exact hRy
        · exact hR _ _ (hr y h1) hRy
      · rintro ⟨e, he, hRe⟩
        cases he
        obtain ⟨p, hp⟩ := List.exists_mem_of_ne_nil l hne
        have hmem : heap p ∈ l.map heap := List.mem_map_of_mem hp
        refine ⟨heap p, List.mem_append.mpr (Or.inl hmem), ?_⟩
        rw [hl _ hmem]
        exact hRe

/-- A question about the best level answers that about the orders. -/
theorem decide_acceptable {lt : P → P → Prop} {levels : Levels P lt}
    {orders : List (Order P)} {q : P → Prop} [DecidablePred q]
    {answer : Except Fault Bool}
    (hiff : (∃ y ∈ orders, q y.price) ↔
      ∃ e ∈ levels.begin?, q e.1)
    (hnone : levels.begin? = none → answer = .ok false)
    (hsome : ∀ e, levels.begin? = some e →
      answer = .ok (decide (q e.1))) :
    answer = .ok (decide (∃ y ∈ orders, q y.price)) := by
  cases hb : levels.begin? with
  | none =>
      rw [hb] at hiff
      have hno : ¬ ∃ y ∈ orders, q y.price :=
        fun hex => by simpa using hiff.mp hex
      rw [hnone hb, decide_eq_false hno]
  | some e =>
      rw [hb] at hiff
      rw [hsome e hb]
      congr 1
      refine decide_eq_decide.mpr ⟨fun hle => ?_, fun hex => ?_⟩
      · exact hiff.mpr ⟨e, rfl, hle⟩
      · obtain ⟨e', he', hle⟩ := hiff.mp hex
        cases he'
        exact hle

/-- The first level of a side holds its best price. -/
theorem begin?_eq {lt : P → P → Prop} {levels : Levels P lt}
    {heap : OrderPointer → Order P} {side : Side}
    (h : Housed heap side levels) :
    levels.begin?.map Prod.fst
      = ((pointersOf levels).map heap).head?.map Order.price := by
  rw [OrderedMap.begin?]
  cases hent : levels.entries with
  | nil =>
      rw [pointersOf, hent]
      rfl
  | cons e rest =>
      obtain ⟨k, l⟩ := e
      have hmem : (k, l) ∈ levels.entries := by
        rw [hent]
        exact List.mem_cons_self
      cases l with
      | nil => exact absurd rfl (h.nonempty _ hmem)
      | cons p l =>
          rw [pointersOf_best hent]
          exact congrArg some
            (h.placed _ hmem p List.mem_cons_self).2.symm

/-- The last level of a side holds its worst price. -/
theorem rbegin?_eq {lt : P → P → Prop} {levels : Levels P lt} {side : Side}
    {heap : OrderPointer → Order P} (h : Housed heap side levels) :
    levels.rbegin?.map Prod.fst
      = ((pointersOf levels).map heap).getLast?.map Order.price := by
  rw [OrderedMap.rbegin?]
  rcases List.eq_nil_or_concat' levels.entries with hnil | ⟨init, e, heq⟩
  · rw [pointersOf, hnil]; rfl
  · obtain ⟨k, l⟩ := e
    have hmem : (k, l) ∈ levels.entries := by rw [heq]; simp
    rcases List.eq_nil_or_concat' l with hl | ⟨l', p, hl⟩
    · exact absurd hl (h.nonempty (k, l) hmem)
    · have hp : (heap p).price = k :=
        (h.placed (k, l) hmem p (by rw [hl]; simp)).2
      rw [pointersOf, heq, hl]
      simp [List.flatMap_append, hp, ← List.append_assoc]

/-- Writing an address no list holds moves nothing that rests. -/
theorem map_update_fresh {heap : OrderPointer → Order P} {ptr : OrderPointer}
    {o : Order P} {l : List OrderPointer} (h : ptr ∉ l) :
    l.map (Function.update heap ptr o) = l.map heap := by
  refine List.map_congr_left (fun p hp => ?_)
  rw [Function.update_of_ne]
  rintro rfl
  exact h hp

variable [LinearOrder P] {b : Orderbook P}

/-- The orders resting on the other side. -/
def opposite (b : Orderbook P) : Side → List (Order P)
  | .buy => restingAsks b
  | .sell => restingBids b
  | .other _ => []

/-- `price` is acceptable to an order on `side` with this limit. -/
def reaches (side : Side) (limit price : P) : Prop :=
  match side with
  | .buy => price ≤ limit
  | .sell => limit ≤ price
  | .other _ => False

instance (side : Side) (limit price : P) :
    Decidable (reaches side limit price) :=
  match side with
  | .buy => inferInstanceAs (Decidable (price ≤ limit))
  | .sell => inferInstanceAs (Decidable (limit ≤ price))
  | .other _ => inferInstanceAs (Decidable False)

/-- The book admits `o`, with effective terms `o'`. -/
structure Admits (b : Orderbook P) (o o' : Order P) : Prop where
  fresh : b.orders.find? o.orderId = none
  effective : effective (opposite b o.side) o = some o'
  killable : o.orderType = .fillAndKill →
    ∃ y ∈ opposite b o.side, reaches o.side o.price y.price
  fillable : o.orderType = .fillOrKill →
    b.canFullyFill o.side o.price o.initialQuantity = .ok true

/-- The effective terms of an order, if the book admits it. -/
def admitted (b : Orderbook P) (o : Order P) : Option (Order P) :=
  if b.orders.find? o.orderId = none ∧
      (o.orderType = .fillAndKill →
        ∃ y ∈ opposite b o.side, reaches o.side o.price y.price) ∧
      (o.orderType = .fillOrKill →
        b.canFullyFill o.side o.price o.initialQuantity = .ok true) then
    OsxCalls.effective (opposite b o.side) o
  else none

theorem admits_iff {o o' : Order P} :
    Admits b o o' ↔ admitted b o = some o' := by
  rw [admitted]
  constructor
  · rintro ⟨h1, h2, h3, h4⟩
    rw [if_pos ⟨h1, h3, h4⟩]
    exact h2
  · intro h
    by_cases hc : b.orders.find? o.orderId = none ∧
        (o.orderType = .fillAndKill →
          ∃ y ∈ opposite b o.side, reaches o.side o.price y.price) ∧
        (o.orderType = .fillOrKill →
          b.canFullyFill o.side o.price o.initialQuantity = .ok true)
    · rw [if_pos hc] at h
      exact ⟨hc.1, h, hc.2.1, hc.2.2⟩
    · rw [if_neg hc] at h
      cases h

/-- An order is admitted under one set of terms. -/
theorem Admits.unique {o o' o'' : Order P} (h' : Admits b o o')
    (h'' : Admits b o o'') : o'' = o' :=
  Option.some.inj ((admits_iff.mp h'').symm.trans (admits_iff.mp h'))

/-- `CanMatch` asks whether some opposite order is acceptable. -/
theorem canMatch_eq (h : Linked b) {side : Side} (hs : Sided side)
    (price : P) :
    b.canMatch side price
      = .ok (decide (∃ y ∈ opposite b side, reaches side price y.price)) := by
  rcases hs with rfl | rfl
  · have hiff : (∃ y ∈ restingAsks b, y.price ≤ price) ↔
        ∃ e ∈ b.asks.begin?, e.1 ≤ price :=
      exists_acceptable_iff h.asks
        (fun _ _ hlt hle => le_trans (le_of_lt hlt) hle)
    refine decide_acceptable (q := (· ≤ price)) hiff (fun hb => ?_)
      (fun e hb => ?_)
    · rw [Orderbook.canMatch, hb]
    · rw [Orderbook.canMatch, hb]
  · have hiff : (∃ y ∈ restingBids b, price ≤ y.price) ↔
        ∃ e ∈ b.bids.begin?, price ≤ e.1 :=
      exists_acceptable_iff h.bids
        (fun _ _ hlt hle => le_trans hle (le_of_lt hlt))
    refine decide_acceptable (q := (price ≤ ·)) hiff (fun hb => ?_)
      (fun e hb => ?_)
    · rw [Orderbook.canMatch, hb]
    · rw [Orderbook.canMatch, hb]

/-! ## Opening the book for an admitted order -/

/-- `b2` is `b` with the admitted order `o`, at the next address, behind its
    level. -/
structure Opened (b : Orderbook P) (o : Order P) (b2 : Orderbook P) :
    Prop where
  linked : Linked b2
  heap : b2.heap = Function.update b.heap b.next o
  next : b2.next = b.next + 1
  buy : o.side = .buy →
    (pointersOf b2.bids).Perm (b.next :: pointersOf b.bids) ∧
    pointersOf b2.asks = pointersOf b.asks ∧
    restingBids b2 = restBehind (fun a b => a > b) o (restingBids b) ∧
    restingAsks b2 = restingAsks b
  sell : o.side = .sell →
    (pointersOf b2.asks).Perm (b.next :: pointersOf b.asks) ∧
    pointersOf b2.bids = pointersOf b.bids ∧
    restingAsks b2 = restBehind (fun a b => a < b) o (restingAsks b) ∧
    restingBids b2 = restingBids b
  levelData : b2.levelData
    = updateLevelData b.levelData o.price o.initialQuantity .add

/-- An opened book holds the admitted order and what rested before. -/
theorem Opened.pointers_perm {o : Order P} {b2 : Orderbook P}
    (h : Opened b o b2) (hs : Sided o.side) :
    (pointers b2).Perm (b.next :: pointers b) := by
  rcases hs with hside | hside
  · obtain ⟨hperm, hasks, -, -⟩ := h.buy hside
    rw [pointers, hasks]
    exact hperm.append_right _
  · obtain ⟨hperm, hbids, -, -⟩ := h.sell hside
    rw [pointers, hbids]
    exact (hperm.append_left _).trans List.perm_middle

/-- The next address is in no list. -/
theorem Linked.next_fresh (h : Linked b) : b.next ∉ pointers b :=
  fun hmem => Nat.lt_irrefl _ (h.allocated _ hmem)

/-- A new object moves nothing that rests. -/
theorem resting_makeShared (h : Linked b) (o : Order P) :
    restingBids (b.makeShared o) = restingBids b ∧
      restingAsks (b.makeShared o) = restingAsks b := by
  have hfresh := Linked.next_fresh h
  have hnot : b.next ∉ pointersOf b.bids ∧ b.next ∉ pointersOf b.asks :=
    ⟨fun hm => hfresh (List.mem_append.mpr (Or.inl hm)),
      fun hm => hfresh (List.mem_append.mpr (Or.inr hm))⟩
  exact ⟨map_update_fresh hnot.1, map_update_fresh hnot.2⟩

/-- The links survive a new object. -/
theorem Linked.makeShared (h : Linked b) (o : Order P) :
    Linked (b.makeShared o) := by
  have hheap : ∀ p ∈ pointers b, (b.makeShared o).heap p = b.heap p := by
    intro p hp
    show Function.update b.heap b.next o p = _
    rw [Function.update_of_ne]
    rintro rfl
    exact Linked.next_fresh h hp
  have hlift : ∀ p, (p ∈ pointersOf b.bids ∨ p ∈ pointersOf b.asks) →
      (b.makeShared o).heap p = b.heap p :=
    fun p hp => hheap p (List.mem_append.mpr hp)
  refine h.shrink ?_ ?_ ?_ ?_ ?_ ?_
  · exact h.bids.congr (fun p hp => by rw [hlift p (Or.inl hp)])
      (fun p hp => by rw [hlift p (Or.inl hp)])
  · exact h.asks.congr (fun p hp => by rw [hlift p (Or.inr hp)])
      (fun p hp => by rw [hlift p (Or.inr hp)])
  · exact List.Sublist.refl _
  · intro p hp
    rw [hheap p hp]
    exact ⟨.refl _, Nat.le_refl _⟩
  · intro id e
    constructor
    · intro hsome
      obtain ⟨p, hp, -, rfl⟩ := (h.index id e).mp hsome
      exact ⟨hsome, hp⟩
    · exact fun hsome => hsome.1
  · exact Nat.le_succ _

/-- The links survive one more node, indexed under an id that is not there. -/
theorem Linked.extend {b' : Orderbook P} (h : Linked b) {ptr : OrderPointer}
    (hbids : Housed b'.heap .buy b'.bids)
    (hasks : Housed b'.heap .sell b'.asks)
    (hperm : (pointers b').Perm (ptr :: pointers b))
    (hheap : b'.heap = b.heap) (hnext : b'.next = b.next)
    (hptr : ptr < b.next)
    (hfresh : b.orders.find? (b.heap ptr).orderId = none)
    (hle : (b.heap ptr).remainingQuantity ≤ (b.heap ptr).initialQuantity)
    (horders : b'.orders = b.orders.emplace (b.heap ptr).orderId
      { order := ptr, location := ptr }) : Linked b' := by
  have hnew : ∀ p ∈ pointers b, (b.heap p).orderId ≠ (b.heap ptr).orderId :=
    h.find?_eq_none.mp hfresh
  have hmem : ∀ p, p ∈ pointers b' ↔ p = ptr ∨ p ∈ pointers b := by
    intro p
    rw [hperm.mem_iff, List.mem_cons]
  refine ⟨hbids, hasks, ?_, ?_, ?_, ?_⟩
  · rw [hheap]
    refine (hperm.map _).nodup_iff.mpr ?_
    rw [List.map_cons]
    refine List.nodup_cons.mpr ⟨?_, h.ids⟩
    intro hin
    obtain ⟨p, hp, hid⟩ := List.mem_map.mp hin
    exact hnew p hp hid
  · -- the new id leads to the new node, every other id where it led
    intro id e
    rw [horders, HashTable.find?_emplace _ _ _ _ hfresh, hheap]
    by_cases hid : id = (b.heap ptr).orderId
    · rw [if_pos hid]
      constructor
      · intro heq
        exact ⟨ptr, (hmem ptr).mpr (Or.inl rfl), hid.symm,
          (Option.some.inj heq).symm⟩
      · rintro ⟨p, hp, hpid, rfl⟩
        rcases (hmem p).mp hp with rfl | hp
        · rfl
        · exact absurd (hpid.trans hid) (hnew p hp)
    · rw [if_neg hid, h.index]
      constructor
      · rintro ⟨p, hp, hpid, rfl⟩
        exact ⟨p, (hmem p).mpr (Or.inr hp), hpid, rfl⟩
      · rintro ⟨p, hp, hpid, rfl⟩
        rcases (hmem p).mp hp with rfl | hp
        · exact absurd hpid.symm hid
        · exact ⟨p, hp, hpid, rfl⟩
  · intro p hp
    rw [hnext]
    rcases (hmem p).mp hp with rfl | hp
    · exact hptr
    · exact h.allocated p hp
  · intro p hp
    rw [hheap]
    rcases (hmem p).mp hp with rfl | hp
    · exact hle
    · exact h.bounded p hp

/-- **RESTING A FRESH ORDER** opens the book for it. -/
theorem opened_of_fresh (h : Linked b) {o : Order P} (hs : Sided o.side)
    (hfresh : b.orders.find? o.orderId = none)
    (hle : o.remainingQuantity ≤ o.initialQuantity) :
    ∃ b2, (b.makeShared o).rest b.next = .ok b2 ∧
      Opened b o (b2.onOrderAdded (b2.heap b.next)) := by
  have h1 := Linked.makeShared h o
  have hheap : (b.makeShared o).heap b.next = o := Function.update_self ..
  obtain ⟨hrb, hra⟩ := resting_makeShared h o
  have hat : (b.makeShared o).heap b.next = o ∧
      b.next < (b.makeShared o).next := ⟨hheap, Nat.lt_succ_self _⟩
  -- the node is pushed behind the others at its price, on its own side
  rcases hs with hside | hside
  · obtain ⟨hhoused, hmap, hperm⟩ := pushBack_spec h1.bids
      (by rw [hheap]; exact hside : ((b.makeShared o).heap b.next).side = .buy)
    have hok : (b.makeShared o).rest b.next = .ok { b.makeShared o with
        bids := pushBack b.bids o.price b.next,
        orders := b.orders.emplace o.orderId
          { order := b.next, location := b.next } } := by
      rw [Orderbook.rest, hheap, hside]
      rfl
    refine ⟨_, hok, ?_⟩
    rw [hheap] at hhoused hmap hperm
    refine ⟨?_, rfl, rfl, fun _ => ⟨hperm, rfl, ?_, ?_⟩, ?_, ?_⟩
    · refine Linked.extend h1 hhoused h1.asks ?_ rfl rfl hat.2 ?_ ?_ ?_
      · exact hperm.append_right _
      · rw [hheap]; exact hfresh
      · rw [hheap]; exact hle
      · rw [hheap]; rfl
    · rw [← hrb]; exact hmap
    · exact hra
    · intro hno
      rw [hside] at hno
      cases hno
    · show updateLevelData b.levelData ((b.makeShared o).heap b.next).price
        ((b.makeShared o).heap b.next).initialQuantity .add = _
      rw [hheap]
  · obtain ⟨hhoused, hmap, hperm⟩ := pushBack_spec h1.asks
      (by rw [hheap]; exact hside : ((b.makeShared o).heap b.next).side = .sell)
    have hok : (b.makeShared o).rest b.next = .ok { b.makeShared o with
        asks := pushBack b.asks o.price b.next,
        orders := b.orders.emplace o.orderId
          { order := b.next, location := b.next } } := by
      rw [Orderbook.rest, hheap, hside]
      rfl
    refine ⟨_, hok, ?_⟩
    rw [hheap] at hhoused hmap hperm
    refine ⟨?_, rfl, rfl, ?_, fun _ => ⟨hperm, rfl, ?_, ?_⟩, ?_⟩
    · refine Linked.extend h1 h1.bids hhoused ?_ rfl rfl hat.2 ?_ ?_ ?_
      · exact (hperm.append_left _).trans List.perm_middle
      · rw [hheap]; exact hfresh
      · rw [hheap]; exact hle
      · rw [hheap]; rfl
    · intro hno
      rw [hside] at hno
      cases hno
    · rw [← hra]; exact hmap
    · exact hrb
    · show updateLevelData b.levelData ((b.makeShared o).heap b.next).price
        ((b.makeShared o).heap b.next).initialQuantity .add = _
      rw [hheap]

/-! ## `AddOrder` -/

/-- A market order is given its effective terms in place. -/
theorem convertMarket_eq (h : Linked b) {o : Order P} (hs : Sided o.side) :
    (b.makeShared o).convertMarket b.next
      = .ok ((effective (opposite b o.side) o).map b.makeShared) := by
  have hat : (b.makeShared o).heap b.next = o := Function.update_self ..
  have hasks : (b.makeShared o).asks = b.asks := rfl
  have hbids : (b.makeShared o).bids = b.bids := rfl
  rw [Orderbook.convertMarket, effective, hat, hasks, hbids]
  by_cases hm : o.orderType = .market
  · rw [if_pos hm, if_pos hm]
    have hstore : ∀ price, (o.toGoodTillCancel price).map
        (some ∘ (b.makeShared o).store b.next)
          = .ok (some (b.makeShared
              { o with price := price, orderType := .goodTillCancel })) := by
      intro price
      have hno : ¬ o.orderType ≠ .market := fun hne => hne hm
      rw [Order.toGoodTillCancel, if_neg hno]
      show Except.ok (some _) = _
      simp [Orderbook.store, Orderbook.makeShared]
    -- the terms come from the worst level of the other side, if it has one
    rcases hs with hside | hside
    · have hworst := rbegin?_eq h.asks
      rw [hside]
      cases hr : b.asks.rbegin? with
      | none =>
          rw [hr] at hworst
          have hnil : ((pointersOf b.asks).map b.heap).getLast? = none :=
            Option.map_eq_none_iff.mp hworst.symm
          show _ = Except.ok (((restingAsks b).getLast?.map _).map _)
          rw [restingAsks, hnil]
          rfl
      | some e =>
          rw [hr] at hworst
          obtain ⟨w, hw, hprice⟩ := Option.map_eq_some_iff.mp hworst.symm
          show (o.toGoodTillCancel e.1).map _
            = Except.ok (((restingAsks b).getLast?.map _).map _)
          rw [restingAsks, hw, hstore, ← hprice, ← hside]
          rfl
    · have hworst := rbegin?_eq h.bids
      rw [hside]
      cases hr : b.bids.rbegin? with
      | none =>
          rw [hr] at hworst
          have hnil : ((pointersOf b.bids).map b.heap).getLast? = none :=
            Option.map_eq_none_iff.mp hworst.symm
          show _ = Except.ok (((restingBids b).getLast?.map _).map _)
          rw [restingBids, hnil]
          cases b.asks.rbegin? <;> rfl
      | some e =>
          rw [hr] at hworst
          obtain ⟨w, hw, hprice⟩ := Option.map_eq_some_iff.mp hworst.symm
          have hworst : (o.toGoodTillCancel e.1).map
              (some ∘ (b.makeShared o).store b.next)
              = Except.ok ((opposite b o.side).getLast?.map fun worst =>
                  b.makeShared { o with
                    price := worst.price, orderType := .goodTillCancel }) := by
            have hopp : opposite b o.side = restingBids b := by
              rw [hside]
              rfl
            rw [hopp, restingBids, hw, hstore, ← hprice]
            rfl
          rw [hside] at hworst
          rw [Option.map_map]
          cases b.asks.rbegin? <;> exact hworst
  · rw [if_neg hm, if_neg hm]
    rfl

/-- `CanFullyFill` answers for every sided order. -/
theorem canFullyFill_ok (h : Linked b) {side : Side} (hs : Sided side)
    (price : P) (quantity : Nat) :
    ∃ r, b.canFullyFill side price quantity = .ok r := by
  rw [Orderbook.canFullyFill]
  rw [canMatch_eq h hs]
  by_cases hm : ∃ y ∈ opposite b side, reaches side price y.price
  · rw [decide_eq_true hm]
    rcases hs with rfl | rfl
    · exact ⟨_, rfl⟩
    · exact ⟨_, rfl⟩
  · rw [decide_eq_false hm]
    exact ⟨false, rfl⟩

/-- The Fill-And-Kill check, on the book before the order. -/
theorem dropsFillAndKill_eq (h : Linked b) {o : Order P} (hs : Sided o.side) :
    (b.makeShared o).dropsFillAndKill o
      = .ok (decide (o.orderType = .fillAndKill ∧
          ¬ ∃ y ∈ opposite b o.side, reaches o.side o.price y.price)) := by
  rw [Orderbook.dropsFillAndKill]
  by_cases hf : o.orderType = .fillAndKill
  · rw [if_pos hf]
    show (b.canMatch o.side o.price).map _ = _
    rw [canMatch_eq h hs]
    by_cases hex : ∃ y ∈ opposite b o.side, reaches o.side o.price y.price
    · rw [decide_eq_true hex, decide_eq_false (fun hc => hc.2 hex)]
      rfl
    · rw [decide_eq_false hex, decide_eq_true ⟨hf, hex⟩]
      rfl
  · rw [if_neg hf, decide_eq_false (fun hc => hf hc.1)]

/-- The Fill-Or-Kill check, on the book before the order: an order of that type
    was no market order, so its terms are its own. -/
theorem dropsFillOrKill_eq (h : Linked b) {o o' : Order P} (hs : Sided o.side)
    (heff : effective (opposite b o.side) o = some o') :
    (b.makeShared o').dropsFillOrKill o'
      = .ok (decide (o.orderType = .fillOrKill ∧
          b.canFullyFill o.side o.price o.initialQuantity = .ok false)) := by
  rw [Orderbook.dropsFillOrKill]
  have htype := effective_orderType heff
  by_cases hf : o.orderType = .fillOrKill
  · have hno : o.orderType ≠ .market := by simp [hf]
    rw [effective, if_neg hno] at heff
    cases heff
    obtain ⟨r, hr⟩ := canFullyFill_ok h hs o.price o.initialQuantity
    rw [if_pos hf]
    show (b.canFullyFill o.side o.price o.initialQuantity).map _ = _
    rw [hr]
    cases r with
    | false =>
        rw [decide_eq_true ⟨hf, rfl⟩]
        rfl
    | true =>
        rw [decide_eq_false (fun hc => by cases hc.2)]
        rfl
  · have hno : o'.orderType ≠ .fillOrKill := by
      rw [htype]
      split
      · simp
      · exact hf
    rw [if_neg hno, decide_eq_false (fun hc => hf hc.1)]

/-- The admission checks of `AddOrder`, each read on the book before it. -/
theorem addOrder_eq (h : Linked b) {o : Order P} (hs : Sided o.side) :
    (b.makeShared o).addOrder b.next
      = if (b.orders.find? o.orderId).isSome then .ok (b.makeShared o, [])
        else if o.orderType = .fillAndKill ∧
            ¬ ∃ y ∈ opposite b o.side, reaches o.side o.price y.price then
          .ok (b.makeShared o, [])
        else match effective (opposite b o.side) o with
          | none => .ok (b.makeShared o, [])
          | some o' =>
              if o.orderType = .fillOrKill ∧
                  b.canFullyFill o.side o.price o.initialQuantity
                    = .ok false then
                .ok (b.makeShared o, [])
              else (b.makeShared o').rest b.next >>= fun b2 =>
                (b2.onOrderAdded (b2.heap b.next)).matchOrders := by
  have hat : ∀ o', (b.makeShared o').heap b.next = o' :=
    fun o' => Function.update_self ..
  rw [Orderbook.addOrder, hat, dropsFillAndKill_eq h hs,
    convertMarket_eq h hs]
  -- the checks, in the order the code makes them
  by_cases hid : (b.orders.find? o.orderId).isSome
  · rw [if_pos hid]
    exact if_pos hid
  · rw [if_neg hid]
    refine (if_neg hid).trans ?_
    by_cases hk : o.orderType = .fillAndKill ∧
        ¬ ∃ y ∈ opposite b o.side, reaches o.side o.price y.price
    · rw [if_pos hk, decide_eq_true hk]
      rfl
    · rw [if_neg hk, decide_eq_false hk]
      cases heff : effective (opposite b o.side) o with
      | none => rfl
      | some o' =>
          simp only [Option.map_some, bind, Except.bind, Bool.false_eq_true,
            if_false, hat, dropsFillOrKill_eq h hs heff]
          by_cases hd : o.orderType = .fillOrKill ∧
              b.canFullyFill o.side o.price o.initialQuantity = .ok false
          · rw [if_pos hd, decide_eq_true hd, if_pos rfl]
            have hno : o.orderType ≠ .market := by simp [hd.1]
            rw [effective, if_neg hno] at heff
            cases heff
            rfl
          · rw [if_neg hd, decide_eq_false hd]
            rfl

/-- What became of an admitted order: the book opened for it, then matched. -/
structure Executed (b : Orderbook P) (o : Order P) (b2 b' : Orderbook P)
    (log : List (Round P)) : Prop where
  opened : Opened b o b2
  linked : Linked b'
  conserved : Conserved b2 b' (trades log)
  rounds : Rounds (restingBids b2) (restingAsks b2) log
    (restingBids b') (restingAsks b')
  levelData : b'.levelData = log.foldl Round.apply b2.levelData

/-- **WHAT `AddOrder` DOES** with a new order. -/
inductive Adds (b : Orderbook P) (o : Order P) :
    Orderbook P → List (Trade P) → Prop where
  | rejected (hno : ∀ o', ¬ Admits b o o') : Adds b o (b.makeShared o) []
  | admitted {o' : Order P} {b2 b' : Orderbook P} {log : List (Round P)}
      (ha : Admits b o o') (he : Executed b o' b2 b' log) :
      Adds b o b' (trades log)

/-- An order that is not admitted leaves the book as it was. -/
theorem addOrder_rejected (h : Linked b) {o : Order P} (hs : Sided o.side)
    (hno : ∀ o', ¬ Admits b o o') :
    (b.makeShared o).addOrder b.next = .ok (b.makeShared o, []) := by
  rw [addOrder_eq h hs]
  by_cases hid : (b.orders.find? o.orderId).isSome
  · rw [if_pos hid]
  · rw [if_neg hid]
    have hfresh : b.orders.find? o.orderId = none := by simpa using hid
    by_cases hk : o.orderType = .fillAndKill ∧
        ¬ ∃ y ∈ opposite b o.side, reaches o.side o.price y.price
    · rw [if_pos hk]
    · rw [if_neg hk]
      cases heff : effective (opposite b o.side) o with
      | none => rfl
      | some o' =>
          show (if _ then _ else _) = _
          by_cases hd : o.orderType = .fillOrKill ∧
              b.canFullyFill o.side o.price o.initialQuantity = .ok false
          · rw [if_pos hd]
          · refine absurd ⟨hfresh, heff, ?_, ?_⟩ (hno o')
            · intro hf
              by_contra hex
              exact hk ⟨hf, hex⟩
            · intro hf
              obtain ⟨r, hr⟩ :=
                canFullyFill_ok h hs o.price o.initialQuantity
              cases r with
              | false => exact absurd ⟨hf, hr⟩ hd
              | true => exact hr

/-- An admitted order opens the book under its effective terms, and the book is
    matched. -/
theorem addOrder_admitted (h : Linked b) {o o' : Order P}
    (hs : Sided o.side) (hle : o.remainingQuantity ≤ o.initialQuantity)
    (ha : Admits b o o') :
    ∃ b2 b' log,
      (b.makeShared o).addOrder b.next = .ok (b', trades log) ∧
      Executed b o' b2 b' log := by
  obtain ⟨hside, hid, hinit, hrem⟩ := effective_terms ha.effective
  obtain ⟨b1, hrest, hopen⟩ := opened_of_fresh h
    (show Sided o'.side by rw [hside]; exact hs)
    (by rw [hid]; exact ha.fresh)
    (by rw [hinit, hrem]; exact hle)
  obtain ⟨b', log, hrun, hl, hc, hr, hld⟩ := matchOrders_refines hopen.linked
  refine ⟨_, b', log, ?_, hopen, hl, hc, hr, hld⟩
  have hk : ¬ (o.orderType = .fillAndKill ∧
      ¬ ∃ y ∈ opposite b o.side, reaches o.side o.price y.price) :=
    fun hc => hc.2 (ha.killable hc.1)
  have hd : ¬ (o.orderType = .fillOrKill ∧
      b.canFullyFill o.side o.price o.initialQuantity = .ok false) := by
    rintro ⟨hf, hno⟩
    rw [ha.fillable hf] at hno
    cases hno
  rw [addOrder_eq h hs, ha.fresh, if_neg (by simp), if_neg hk, ha.effective]
  show (if _ then _ else _) = _
  rw [if_neg hd, hrest]
  exact hrun

/-- `AddOrder` always returns, and `Adds` says with what. -/
theorem addOrder_spec (h : Linked b) (o : Order P) (hs : Sided o.side)
    (hle : o.remainingQuantity ≤ o.initialQuantity) :
    ∃ b' ts, (b.makeShared o).addOrder b.next = .ok (b', ts) ∧
      Adds b o b' ts := by
  by_cases hex : ∃ o', Admits b o o'
  · obtain ⟨o', ha⟩ := hex
    obtain ⟨b2, b', log, hrun, he⟩ := addOrder_admitted h hs hle ha
    exact ⟨b', trades log, hrun, .admitted ha he⟩
  · have hno : ∀ o', ¬ Admits b o o' := fun o' ha => hex ⟨o', ha⟩
    exact ⟨_, [], addOrder_rejected h hs hno, .rejected hno⟩

theorem Adds.linked (h : Linked b) {o : Order P} {b' : Orderbook P}
    {ts : List (Trade P)} (ha : Adds b o b' ts) : Linked b' := by
  cases ha with
  | rejected hno => exact Linked.makeShared h o
  | admitted ha he => exact he.linked

/-! ## Calls -/

/-- `b'` is `b` without the resting order at `p`. -/
structure Removed (b : Orderbook P) (p : OrderPointer) (b' : Orderbook P) :
    Prop where
  cancelled : b.cancelOrder (b.heap p).orderId = .ok b'
  linked : Linked b'
  heap : b'.heap = b.heap
  next : b'.next = b.next
  levelData : b'.levelData = dropOrder b.levelData (some (b.heap p))
  bids : pointersOf b'.bids = (pointersOf b.bids).filter (fun r => r ≠ p)
  asks : pointersOf b'.asks = (pointersOf b.asks).filter (fun r => r ≠ p)

/-- **WHAT A CALL DOES.** -/
inductive Does (b : Orderbook P) :
    Call P → Orderbook P → List (Trade P) → Prop where
  | added {orderType : OsxOrderbook.OrderType} {orderId : OrderId} {side : Side}
      {price : P} {quantity : Nat} {b' : Orderbook P} {ts : List (Trade P)}
      (h : Adds b (.new orderType orderId side price quantity) b' ts) :
      Does b (.addOrder orderType orderId side price quantity) b' ts
  | cancelled {orderId : OrderId} {p : OrderPointer} {b' : Orderbook P}
      (hp : p ∈ pointers b) (hid : orderId = (b.heap p).orderId)
      (hr : Removed b p b') : Does b (.cancelOrder orderId) b' []
  | notFound {orderId : OrderId} (hn : b.orders.find? orderId = none) :
      Does b (.cancelOrder orderId) b []
  | modified {m : OrderModify P} {p : OrderPointer} {b1 b' : Orderbook P}
      {ts : List (Trade P)} (hp : p ∈ pointers b)
      (hid : m.orderId = (b.heap p).orderId) (hr : Removed b p b1)
      (h : Adds b1 (m.toOrder (b.heap p).orderType) b' ts) :
      Does b (.modifyOrder m) b' ts
  | unknown {m : OrderModify P} (hn : b.orders.find? m.orderId = none) :
      Does b (.modifyOrder m) b []

theorem Does.linked (h : Linked b) {c : Call P} {b' : Orderbook P}
    {ts : List (Trade P)} (hd : Does b c b' ts) : Linked b' := by
  cases hd with
  | added ha => exact ha.linked h
  | cancelled _ _ hr => exact hr.linked
  | notFound _ => exact h
  | modified _ _ hr ha => exact ha.linked hr.linked
  | unknown _ => exact h

/-- Cancelling a resting order removes it. -/
theorem cancelOrder_resting (h : Linked b) {p : OrderPointer}
    (hp : p ∈ pointers b) :
    ∃ b', b.cancelOrder (b.heap p).orderId = .ok b' ∧ Removed b p b' := by
  obtain ⟨b', hok, hl, hheap, hnext, hld, hbids, hasks, -, -⟩ :=
    cancelOrderInternal_resting h hp
  exact ⟨b', hok, hok, hl, hheap, hnext, hld, hbids, hasks⟩

/-- The sides a call names. -/
def callSided : Call P → Prop
  | .addOrder _ _ side _ _ => Sided side
  | .cancelOrder _ => True
  | .modifyOrder m => Sided m.side

instance (c : Call P) : Decidable (callSided c) :=
  match c with
  | .addOrder _ _ side _ _ => inferInstanceAs (Decidable (Sided side))
  | .cancelOrder _ => inferInstanceAs (Decidable True)
  | .modifyOrder m => inferInstanceAs (Decidable (Sided m.side))

/-- An id is either unknown or the id of one resting order. -/
theorem known_or_not (h : Linked b) (id : OrderId) :
    b.orders.find? id = none ∨ ∃ p ∈ pointers b, id = (b.heap p).orderId ∧
      b.orders.find? id = some ⟨p, p⟩ := by
  cases hf : b.orders.find? id with
  | none => exact Or.inl rfl
  | some e =>
      obtain ⟨p, hp, hid, rfl⟩ := (h.index id e).mp hf
      exact Or.inr ⟨p, hp, hid.symm, rfl⟩

/-- **EVERY CALL ON A LINKED BOOK RETURNS**, and `Does` says with what. -/
theorem call_spec (h : Linked b) {c : Call P} (hs : callSided c) :
    ∃ b' ts, b.call c = .ok (b', ts) ∧ Does b c b' ts := by
  cases c with
  | addOrder orderType orderId side price quantity =>
      obtain ⟨b', ts, hrun, ha⟩ := addOrder_spec h
        (.new orderType orderId side price quantity) hs (Nat.le_refl _)
      exact ⟨b', ts, hrun, .added ha⟩
  | cancelOrder orderId =>
      rcases known_or_not h orderId with hn | ⟨p, hp, rfl, -⟩
      · refine ⟨b, [], ?_, .notFound hn⟩
        show (b.cancelOrderInternal orderId).map _ = _
        rw [cancelOrderInternal_absent hn]
        rfl
      · obtain ⟨b', hok, hr⟩ := cancelOrder_resting h hp
        refine ⟨b', [], ?_, .cancelled hp rfl hr⟩
        show (b.cancelOrder (b.heap p).orderId).map _ = _
        rw [hok]
        rfl
  | modifyOrder m =>
      rcases known_or_not h m.orderId with hn | ⟨p, hp, hid, hfind⟩
      · refine ⟨b, [], ?_, .unknown hn⟩
        show b.modifyOrder m = _
        simp only [Orderbook.modifyOrder, hn]
      · obtain ⟨b1, hok, hr⟩ := cancelOrder_resting h hp
        obtain ⟨b', ts, hrun, ha⟩ := addOrder_spec hr.linked
          (m.toOrder (b.heap p).orderType) hs (Nat.le_refl _)
        refine ⟨b', ts, ?_, .modified hp hid hr ha⟩
        show b.modifyOrder m = _
        rw [Orderbook.modifyOrder, hfind]
        show (b.cancelOrder m.orderId >>= _) = _
        rw [hid, hok]
        exact hrun

/-- A call that returned did what `Does` says. -/
theorem Does.of_call (h : Linked b) {c : Call P} (hs : callSided c)
    {b' : Orderbook P} {ts : List (Trade P)} (hrun : b.call c = .ok (b', ts)) :
    Does b c b' ts := by
  obtain ⟨b'', ts', hrun', hd⟩ := call_spec h hs
  rw [hrun'] at hrun
  cases hrun
  exact hd

end OsxCalls
