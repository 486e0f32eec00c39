import OsborneX.MatchingRuleProofs
import OsborneX.OrderbookCallProofs
import OsborneX.OrderEntryModel

/-! # Unreachable branches — which payloads run into them

    Every `switch` on a side ends in `std::unreachable()`.  Nothing checks the
    side byte before it is cast, so a payload with another byte runs into one
    of them when its order gets as far as being rested or compared.  No order
    with such a side is ever STORED, so cancelling, matching and killing never
    do: `Tame` says so, for any price type and any comparison whatever, NaN
    included.

    An order that was added at NaN can be in another level than the one found at
    its price.  `std::list::erase` does not stop at an iterator of another list:
    what it leaves of the lists is not determined (`Disturbed`), and the call
    goes on. -/

namespace OsxUnreachable

open OsxOrderbook OsxCalls Outcome

/-- Any fault but an unreachable branch. -/
def Defined (fault : Fault) : Prop := fault ≠ .unreachable

variable {P : Type}

theorem outOfRange_defined : Defined .outOfRange := by simp [Defined]

theorem outOfFuel_defined : Defined .outOfFuel := by simp [Defined]

theorem emptyFront_defined : Defined .emptyFront := by simp [Defined]

theorem danglingIterator_defined : Defined .danglingIterator := by
  simp [Defined]

/-- On one of the two sides, and no market order. -/
def Plain (o : Order P) : Prop := Sided o.side ∧ o.orderType ≠ .market

/-- Looking a level up can only miss it. -/
theorem levelAt_ends {lt : P → P → Prop} [DecidableRel lt]
    (levels : Levels P lt) (price : P) :
    Ends Defined (fun _ => True) (levelAt levels price) := by
  rw [levelAt]
  cases levels.find? price with
  | none => exact outOfRange_defined
  | some level => trivial

/-- Taking a node out of a level can only miss the level or the node. -/
theorem eraseFromLevel_ends {lt : P → P → Prop} [DecidableRel lt]
    (levels : Levels P lt) (price : P) (location : OrderPointer) :
    Ends Defined (fun _ => True) (eraseFromLevel levels price location) := by
  refine (levelAt_ends levels price).bind (fun level _ =>
    Ends.bind (Q := fun _ => True) ?_ (fun level _ => trivial))
  exact Ends.ite (fun _ => trivial)
    (fun _ => danglingIterator_defined)

/-- Where a level is found, its node is taken out, or the iterator is of another
    list. -/
theorem eraseFromLevel_found {lt : P → P → Prop} [DecidableRel lt]
    (levels : Levels P lt) (price : P) (location : OrderPointer) :
    (levels.find? price).isSome ↔
      (∃ levels', eraseFromLevel levels price location = .ok levels') ∨
      eraseFromLevel levels price location = .error .danglingIterator := by
  rw [eraseFromLevel, levelAt]
  cases levels.find? price with
  | none =>
      refine iff_of_false Bool.false_ne_true ?_
      rintro (⟨levels', h⟩ | h)
      · cases h
      · cases h
  | some level =>
      refine iff_of_true rfl ?_
      show (∃ levels', (eraseIterator level location >>=
          fun level => Except.ok (storeLevel levels price level))
          = .ok levels') ∨ (eraseIterator level location >>= _) = _
      rw [eraseIterator]
      by_cases hmem : location ∈ level
      · rw [if_pos hmem]
        exact Or.inl ⟨_, rfl⟩
      · rw [if_neg hmem]
        exact Or.inr rfl

/-- What is put back after the node was taken out. -/
theorem erased_then {A B : Type} {x : Except Fault A} {f : A → B}
    {Q : B → Prop} (hQ : ∀ a, Q (f a)) :
    ((∃ a, x = .ok a) ∨ x = .error .danglingIterator) ↔
      (∃ b, (x >>= fun a => Except.ok (f a)) = .ok b ∧ Q b) ∨
        (x >>= fun a => Except.ok (f a)) = .error .danglingIterator := by
  cases x with
  | ok a => exact iff_of_true (Or.inl ⟨a, rfl⟩) (Or.inl ⟨f a, rfl, hQ a⟩)
  | error e =>
      constructor
      · rintro (⟨a, h⟩ | h)
        · cases h
        · cases h
          exact Or.inr rfl
      · rintro (⟨b, h, -⟩ | h)
        · cases h
        · cases h
          exact Or.inr rfl

section Book

variable [LT P] [BEq P] {b b' : Orderbook P}

/-- Every indexed order is on one of the two sides, and is no market order. -/
def Tame (b : Orderbook P) : Prop :=
  ∀ id entry, b.orders.find? id = some entry →
    Plain (b.heap entry.order) ∧ entry.order < b.next

/-- Tameness only looks at the index, and at what orders it leads to. -/
theorem Tame.shrink (h : Tame b)
    (horders : ∀ id entry, b'.orders.find? id = some entry →
      b.orders.find? id = some entry)
    (hheap : ∀ p, Plain (b.heap p) → Plain (b'.heap p))
    (hnext : b'.next = b.next) : Tame b' := by
  intro id entry hid
  obtain ⟨hp, hlt⟩ := h id entry (horders id entry hid)
  rw [hnext]
  exact ⟨hheap _ hp, hlt⟩

/-- Filling the two fronts changes no side, and at most drops them from the
    index. -/
theorem Tame.matchFronts (h : Tame b) (bid ask : OrderPointer) :
    Tame (b.matchFronts bid ask).1 := by
  have hstore : ∀ (b : Orderbook P) (p r : OrderPointer) (q : Nat),
      Plain (b.heap r) → Plain ((b.store p ((b.heap p).fill q)).heap r) := by
    intro b p r q hr
    show Plain (Function.update b.heap p ((b.heap p).fill q) r)
    by_cases heq : r = p
    · subst heq
      rw [Function.update_self, Plain, OsxCrossing.fill_side,
        OsxCrossing.fill_orderType]
      exact hr
    · rw [Function.update_of_ne heq]
      exact hr
  refine h.shrink (fun id entry hid => ?_) (fun r hr => ?_) rfl
  · exact HashTable.find?_of_eraseIf (HashTable.find?_of_eraseIf hid)
  · exact hstore _ ask r _ (hstore b bid r _ hr)

/-! ## Disturbed levels -/

/-- The book after `erase` was given an iterator of another list: the id is out
    of the index, and nothing is known of the levels. -/
structure Disturbed (b : Orderbook P) (orderId : OrderId) (b' : Orderbook P) :
    Prop where
  heap : b'.heap = b.heap
  next : b'.next = b.next
  orders : b'.orders = b.orders.erase orderId

theorem Tame.disturbed (h : Tame b) {orderId : OrderId}
    (hd : Disturbed b orderId b') : Tame b' := by
  refine h.shrink (fun id entry hid => ?_) (fun p hp => ?_) hd.next
  · rw [hd.orders] at hid
    exact HashTable.find?_of_erase hid
  · rw [hd.heap]
    exact hp

theorem Disturbed.gone {orderId : OrderId} (hd : Disturbed b orderId b') :
    b'.orders.find? orderId = none := by
  rw [hd.orders, HashTable.find?_erase, if_pos rfl]

/-- What a call that erased with an iterator of another list may leave: nothing
    is known of the levels, but no order changes its terms, and what is new in
    the index is behind the `switch` on its side. -/
structure WentOn (b b' : Orderbook P) : Prop where
  next : b.next ≤ b'.next
  kept : ∀ id entry, b'.orders.find? id = some entry →
    (b.orders.find? id = some entry ∧
      OsxCrossing.SameTerms (b.heap entry.order) (b'.heap entry.order)) ∨
    (Plain (b'.heap entry.order) ∧ entry.order < b'.next)

theorem Tame.wentOn (h : Tame b) (hb : WentOn b b') : Tame b' := by
  intro id entry hid
  rcases hb.kept id entry hid with ⟨hold, hterms⟩ | hnew
  · obtain ⟨hp, hlt⟩ := h id entry hold
    refine ⟨?_, Nat.lt_of_lt_of_le hlt hb.next⟩
    rw [Plain, hterms.fields.1, hterms.fields.2.2.1]
    exact hp
  · exact hnew

/-! ## The order being added -/

theorem Tame.makeShared (h : Tame b) (o : Order P) :
    Tame (b.makeShared o) := by
  intro id entry hid
  obtain ⟨hs, hlt⟩ := h id entry hid
  refine ⟨?_, Nat.lt_succ_of_lt hlt⟩
  show Plain (Function.update b.heap b.next o entry.order)
  rw [Function.update_of_ne (Nat.ne_of_lt hlt)]
  exact hs

/-- The order an `addOrder` works on, and the book around it. -/
structure Working (b : Orderbook P) (ptr : OrderPointer) : Prop where
  tame : Tame b
  allocated : ptr < b.next
  fresh : b.orders.find? (b.heap ptr).orderId = none

variable {ptr : OrderPointer}

/-- A market order with an odd side is dropped; any other becomes plain. -/
theorem convertMarket_ends (h : Working b ptr)
    (hs : Sided (b.heap ptr).side ∨ (b.heap ptr).orderType = .market) :
    Ends Defined (fun r => ∀ b' ∈ r, Working b' ptr ∧
      Plain (b'.heap ptr)) (b.convertMarket ptr) := by
  have hconvert : ∀ price, (b.heap ptr).orderType = .market →
      Sided (b.heap ptr).side →
      Ends Defined (fun r => ∀ b' ∈ r, Working b' ptr ∧
        Plain (b'.heap ptr))
        (((b.heap ptr).toGoodTillCancel price).map
          (some ∘ b.store ptr)) := by
    intro price hm hside
    rw [Order.toGoodTillCancel, if_neg (not_not_intro hm)]
    rintro b' hb'
    cases hb'
    have hself : (b.store ptr { b.heap ptr with
        price := price, orderType := .goodTillCancel }).heap ptr
          = { b.heap ptr with
            price := price, orderType := .goodTillCancel } :=
      Function.update_self ..
    refine ⟨⟨?_, h.allocated, ?_⟩, ?_⟩
    · refine h.tame.shrink (fun _ _ hid => hid) (fun r hr => ?_) rfl
      show Plain (Function.update b.heap ptr _ r)
      by_cases heq : r = ptr
      · subst heq
        rw [Function.update_self]
        exact ⟨hside, by simp⟩
      · rw [Function.update_of_ne heq]
        exact hr
    · rw [hself]
      exact h.fresh
    · rw [hself]
      exact ⟨hside, by simp⟩
  rw [Orderbook.convertMarket]
  refine Ends.ite (fun hm => ?_) (fun hm => ?_)
  · cases hside : (b.heap ptr).side with
    | buy =>
        cases b.asks.rbegin? with
        | none => simp [Ends]
        | some worst => exact hconvert worst.1 hm (Or.inl hside)
    | sell =>
        cases b.bids.rbegin? with
        | none => cases b.asks.rbegin? <;> simp [Ends]
        | some worst =>
            cases b.asks.rbegin? <;> exact hconvert worst.1 hm (Or.inr hside)
    | other value =>
        cases b.asks.rbegin? <;> simp [Ends]
  · rintro b' hb'
    cases hb'
    exact ⟨h, hs.resolve_right hm, hm⟩

section Comparing

variable [LE P] [DecidableLE P]

/-- With no third side there is nothing unreachable in a comparison. -/
theorem canMatch_ends {side : Side} (hs : Sided side) (price : P) :
    Ends Defined (fun _ => True) (b.canMatch side price) := by
  rcases hs with rfl | rfl
  · rw [Orderbook.canMatch]
    cases b.asks.begin? <;> trivial
  · rw [Orderbook.canMatch]
    cases b.bids.begin? <;> trivial

theorem canMatch_odd {side : Side} (hs : ¬ Sided side) (price : P) :
    b.canMatch side price = .error .unreachable := by
  cases side with
  | buy => exact absurd (Or.inl rfl) hs
  | sell => exact absurd (Or.inr rfl) hs
  | other value => rfl

variable [DecidableLT P]

theorem canFullyFill_ends {side : Side} (hs : Sided side) (price : P)
    (quantity : Nat) :
    Ends Defined (fun _ => True) (b.canFullyFill side price quantity) := by
  refine (canMatch_ends hs price).bind (fun matches' _ =>
    Ends.ite (fun _ => trivial) (fun _ => ?_))
  rcases hs with rfl | rfl
  · trivial
  · trivial

theorem canFullyFill_odd {side : Side} (hs : ¬ Sided side) (price : P)
    (quantity : Nat) :
    b.canFullyFill side price quantity = .error .unreachable := by
  rw [Orderbook.canFullyFill, canMatch_odd hs]
  rfl

end Comparing

/-! ## Cancelling and matching -/

variable [DecidableLT P]

theorem cancelOrderInternal_ends (h : Tame b) (orderId : OrderId) :
    Ends Defined Tame (b.cancelOrderInternal orderId) := by
  rw [Orderbook.cancelOrderInternal]
  cases hf : b.orders.find? orderId with
  | none => exact h
  | some entry =>
      obtain ⟨⟨hs, -⟩, -⟩ := h orderId entry hf
      rcases hs with hside | hside
      · simp only [hside]
        refine (eraseFromLevel_ends _ _ _).bind (fun bids _ => ?_)
        simp only [Orderbook.onOrderCancelled]
        exact Tame.shrink (b := b) h (fun id e hid => HashTable.find?_of_erase hid)
          (fun _ hp => hp) rfl
      · simp only [hside]
        refine (eraseFromLevel_ends _ _ _).bind (fun asks _ => ?_)
        simp only [Orderbook.onOrderCancelled]
        exact Tame.shrink (b := b) h (fun id e hid => HashTable.find?_of_erase hid)
          (fun _ hp => hp) rfl

/-- A level is found at the order's price. -/
def LevelFound (b : Orderbook P) (entry : OrderEntry) : Prop :=
  match (b.heap entry.order).side with
  | .buy => (b.bids.find? (b.heap entry.order).price).isSome
  | .sell => (b.asks.find? (b.heap entry.order).price).isSome
  | .other _ => False

/-- **CANCELLING AN INDEXED ORDER** takes the id out, or goes on with disturbed
    levels, exactly where a level is found. -/
theorem cancelOrder_found {orderId : OrderId} {entry : OrderEntry}
    (hf : b.orders.find? orderId = some entry) :
    LevelFound b entry ↔
      (∃ b', b.cancelOrder orderId = .ok b' ∧
        b'.orders.find? orderId = none) ∨
      b.cancelOrder orderId = .error .danglingIterator := by
  have hgone : (b.orders.erase orderId).find? orderId = none := by
    rw [HashTable.find?_erase, if_pos rfl]
  rw [LevelFound, Orderbook.cancelOrder, Orderbook.cancelOrderInternal]
  simp only [hf]
  cases hside : (b.heap entry.order).side with
  | buy =>
      exact (eraseFromLevel_found _ _ entry.location).trans
        (erased_then (fun _ => hgone))
  | sell =>
      exact (eraseFromLevel_found _ _ entry.location).trans
        (erased_then (fun _ => hgone))
  | other value =>
      refine iff_of_false not_false ?_
      rintro (⟨b', h, -⟩ | h)
      · cases h
      · cases h

/-- Matching stays among the plain orders of the index. -/
theorem tame_kept : OsxMatchingRule.Keeps (P := P) Defined Tame where
  outOfFuel := outOfFuel_defined
  outOfRange := outOfRange_defined
  emptyFront := emptyFront_defined
  fills bid ask h := h.matchFronts bid ask
  stores _ _ _ _ h := h.shrink (fun _ _ hid => hid) (fun _ hp => hp) rfl
  cancels orderId h := cancelOrderInternal_ends h orderId

/-! ## Adding and modifying -/

variable [IsTrans P (fun a b => a > b)] [IsTrans P (fun a b => a < b)]

/-- Resting a plain order. -/
theorem rest_ends (h : Working b ptr) (hs : Plain (b.heap ptr)) :
    Ends Defined Tame (b.rest ptr) := by
  have htame : ∀ b' : Orderbook P, b'.heap = b.heap → b'.next = b.next →
      b'.orders = b.orders.emplace (b.heap ptr).orderId
        { order := ptr, location := ptr } → Tame b' := by
    intro b' hheap hnext horders id entry hid
    rw [horders, HashTable.find?_emplace _ _ _ _ h.fresh] at hid
    rw [hheap, hnext]
    by_cases heq : id = (b.heap ptr).orderId
    · rw [if_pos heq] at hid
      cases hid
      exact ⟨hs, h.allocated⟩
    · rw [if_neg heq] at hid
      exact h.tame id entry hid
  rw [Orderbook.rest]
  rcases hs.1 with hside | hside
  · simp only [hside]
    exact htame _ rfl rfl rfl
  · simp only [hside]
    exact htame _ rfl rfl rfl

variable [LE P] [DecidableLE P]

/-- **ADDING AN ORDER** runs into no unreachable branch if it is on one of the
    two sides, or a market order, or a duplicate. -/
theorem addOrder_ends (h : Tame b) {o : Order P}
    (hs : b.orders.find? o.orderId = none →
      Sided o.side ∨ o.orderType = .market) :
    Ends Defined (fun r => Tame r.1)
      ((b.makeShared o).addOrder b.next) := by
  have hat : (b.makeShared o).heap b.next = o := Function.update_self ..
  have h1 := h.makeShared o
  rw [Orderbook.addOrder, hat]
  refine Ends.ite (fun _ => h1) (fun hnew => ?_)
  have hfresh : b.orders.find? o.orderId = none := by
    rw [HashTable.contains] at hnew
    exact Option.not_isSome_iff_eq_none.mp hnew
  have hside := hs hfresh
  have hdrops : Ends Defined (fun _ => True)
      ((b.makeShared o).dropsFillAndKill o) := by
    refine Ends.ite (fun hk => ?_) (fun _ => trivial)
    have hsided : Sided o.side := by
      refine hside.resolve_right (fun hm => ?_)
      rw [hm] at hk
      cases hk
    exact (canMatch_ends hsided o.price).map (fun _ _ => trivial)
  refine hdrops.bind (fun drops _ => Ends.ite (fun _ => h1) (fun _ => ?_))
  have hworking : Working (b.makeShared o) b.next :=
    ⟨h1, Nat.lt_succ_self _, by rw [hat]; exact hfresh⟩
  refine (convertMarket_ends hworking (by rw [hat]; exact hside)).bind
    (fun converted hconverted => ?_)
  cases converted with
  | none => exact h1
  | some b2 =>
      obtain ⟨h2, hs2⟩ := hconverted b2 rfl
      have hkills : Ends Defined (fun _ => True)
          (b2.dropsFillOrKill (b2.heap b.next)) := by
        refine Ends.ite (fun _ => ?_) (fun _ => trivial)
        exact (canFullyFill_ends hs2.1 _ _).map (fun _ _ => trivial)
      refine hkills.bind (fun drops _ =>
        Ends.ite (fun _ => h2.tame) (fun _ => ?_))
      refine (rest_ends h2 hs2).bind (fun b3 h3 =>
        tame_kept.matchOrders ?_)
      rw [Orderbook.onOrderAdded]
      exact h3.shrink (fun _ _ hid => hid) (fun _ hp => hp) rfl

/-- A new order with an odd side that is not a market order runs into one. -/
theorem addOrder_odd {o : Order P} (hs : ¬ Sided o.side)
    (hm : o.orderType ≠ .market) (hfresh : b.orders.find? o.orderId = none) :
    (b.makeShared o).addOrder b.next = .error .unreachable := by
  have hat : (b.makeShared o).heap b.next = o := Function.update_self ..
  have hnew : ¬ (b.makeShared o).orders.contains o.orderId = true := by
    show ¬ (b.orders.find? o.orderId).isSome = true
    rw [hfresh]
    exact Bool.false_ne_true
  rw [Orderbook.addOrder, hat, if_neg hnew]
  by_cases hk : o.orderType = .fillAndKill
  · -- stopped by the first comparison
    rw [Orderbook.dropsFillAndKill, if_pos hk, canMatch_odd hs]
    rfl
  · rw [Orderbook.dropsFillAndKill, if_neg hk, Orderbook.convertMarket, hat,
      if_neg hm]
    show ((b.makeShared o).dropsFillOrKill ((b.makeShared o).heap b.next)
      >>= fun drops => if drops then .ok (b.makeShared o, [])
        else (b.makeShared o).rest b.next >>= fun b2 =>
          (b2.onOrderAdded (b2.heap b.next)).matchOrders)
      = .error .unreachable
    rw [hat]
    by_cases hf : o.orderType = .fillOrKill
    · rw [Orderbook.dropsFillOrKill, if_pos hf, canFullyFill_odd hs]
      rfl
    · -- neither check applies: stopped where the order is rested
      rw [Orderbook.dropsFillOrKill, if_neg hf, Orderbook.rest, hat]
      cases hside : o.side with
      | buy => exact absurd (Or.inl hside) hs
      | sell => exact absurd (Or.inr hside) hs
      | other value => rfl

/-! ## Calls -/

/-- **THE CALL EXECUTES A `std::unreachable()`**: it runs into one, or
    `ModifyOrder` does after its `CancelOrder` has erased with an iterator of
    another list and gone on. -/
def Unreachable (b : Orderbook P) (c : Call P) : Prop :=
  b.call c = .error .unreachable ∨
    ∃ m entry b', c = .modifyOrder m ∧
      b.orders.find? m.orderId = some entry ∧
      b.cancelOrder m.orderId = .error .danglingIterator ∧
      Disturbed b m.orderId b' ∧
      (b'.makeShared (m.toOrder (b.heap entry.order).orderType)).addOrder
        b'.next = .error .unreachable

/-- The call's order reaches a `switch` with neither side. -/
def Odd (b : Orderbook P) : Call P → Prop
  | .addOrder orderType orderId side _ _ =>
      ¬ Sided side ∧ orderType ≠ .market ∧ b.orders.find? orderId = none
  | .cancelOrder _ => False
  | .modifyOrder m =>
      ¬ Sided m.side ∧
        ∃ entry ∈ b.orders.find? m.orderId, LevelFound b entry

/-- Such a call does not return. -/
theorem Unreachable.faults {c : Call P} (h : Unreachable b c) :
    ∃ fault, b.call c = .error fault := by
  rcases h with hrun | ⟨m, entry, b', rfl, hf, hcancel, -, -⟩
  · exact ⟨_, hrun⟩
  · refine ⟨.danglingIterator, ?_⟩
    show b.modifyOrder m = _
    rw [Orderbook.modifyOrder, hf]
    show (b.cancelOrder m.orderId >>= _) = _
    rw [hcancel]
    rfl

/-- A call that is not odd runs into no unreachable branch. -/
theorem call_ends (h : Tame b) {c : Call P} (hc : ¬ Odd b c) :
    Ends Defined (fun r => Tame r.1) (b.call c) := by
  cases c with
  | addOrder orderType orderId side price quantity =>
      refine addOrder_ends h (fun hfresh => ?_)
      by_contra hno
      exact hc ⟨fun hs => hno (Or.inl hs), fun hm => hno (Or.inr hm), hfresh⟩
  | cancelOrder orderId =>
      exact (cancelOrderInternal_ends h orderId).map (fun _ hb => hb)
  | modifyOrder m =>
      show Ends Defined _ (b.modifyOrder m)
      rw [Orderbook.modifyOrder]
      cases hf : b.orders.find? m.orderId with
      | none => exact h
      | some entry =>
          refine Ends.bind (Q := fun b' => Tame b' ∧
            b.cancelOrder m.orderId = .ok b') ?_ (fun b1 h1 => ?_)
          · have hends := cancelOrderInternal_ends h m.orderId
            rw [← Orderbook.cancelOrder] at hends
            cases hcancel : b.cancelOrder m.orderId with
            | error e =>
                rw [hcancel] at hends
                exact hends
            | ok b' =>
                rw [hcancel] at hends
                exact ⟨hends, rfl⟩
          · refine addOrder_ends h1.1 (fun hfresh => Or.inl ?_)
            by_contra hs
            exact hc ⟨hs, entry, hf, (cancelOrder_found hf).mpr
              (Or.inl ⟨b1, h1.2, hfresh⟩)⟩

/-- **WHICH CALLS EXECUTE ONE**: the odd ones. -/
theorem unreachable_iff (h : Tame b) {c : Call P} :
    Unreachable b c ↔ Odd b c := by
  constructor
  · rintro (hrun | ⟨m, entry, b', rfl, hf, hcancel, hd, hrun⟩)
    · by_contra hc
      exact (call_ends h hc).of_error hrun rfl
    · refine ⟨fun hs => ?_, entry, hf, (cancelOrder_found hf).mpr
        (Or.inr hcancel)⟩
      -- with one of the two sides `AddOrder` runs into none, on any levels
      have hends := addOrder_ends (h.disturbed hd)
        (o := m.toOrder (b.heap entry.order).orderType)
        (fun _ => Or.inl hs)
      exact hends.of_error hrun rfl
  · intro hc
    cases c with
    | addOrder orderType orderId side price quantity =>
        exact Or.inl (addOrder_odd hc.1 hc.2.1 hc.2.2)
    | cancelOrder orderId => exact hc.elim
    | modifyOrder m =>
        obtain ⟨hs, entry, hf, hfound⟩ := hc
        have hf : b.orders.find? m.orderId = some entry := hf
        have hmarket := (h m.orderId entry hf).1.2
        rcases (cancelOrder_found hf).mp hfound with
          ⟨b1, hcancel, hfresh⟩ | hcancel
        · refine Or.inl ?_
          show b.modifyOrder m = _
          rw [Orderbook.modifyOrder, hf]
          show (b.cancelOrder m.orderId >>= _) = _
          rw [hcancel]
          exact addOrder_odd hs hmarket hfresh
        · have hd : Disturbed b m.orderId
              { b with orders := b.orders.erase m.orderId } := ⟨rfl, rfl, rfl⟩
          exact Or.inr ⟨m, entry, _, rfl, hf, hcancel, hd,
            addOrder_odd hs hmarket hd.gone⟩

end Book

/-- An order at NaN went into the level at 101; the level at 102 in front of it
    is the one that `CancelOrder` finds. -/
example : ∃ (b : Orderbook OsxPrice.Double) (history : _),
    Orderbook.run .empty
      [.addOrder .goodTillCancel 1 .buy ⟨0x4059400000000000⟩ 1,
        .addOrder .goodTillCancel 2 .buy .quietNaN 1,
        .addOrder .goodTillCancel 3 .buy ⟨0x4059800000000000⟩ 1]
      = .ok (b, history) ∧
    b.cancelOrder 2 = .error .danglingIterator ∧
    Odd b (.modifyOrder ⟨2, .other 2, ⟨0x4059400000000000⟩, 1⟩) :=
  ⟨_, _, rfl, rfl, by decide, _, rfl, rfl⟩

/-! ## Shards and payloads -/

section Shards

open OsxShard OsxOrderEntry

/-- Every book of the shard is tame. -/
def TameShard (s : Shard) : Prop := ∀ symbol, Tame (s.book symbol)

theorem tame_empty : Tame (.empty : Orderbook OsxPrice.Double) :=
  fun _ _ hid => by cases hid

theorem tameShard_empty : TameShard .empty := fun _ => tame_empty

/-- The message's call reaches a `switch` with neither side. -/
def OddMessage (s : Shard) (message : OrderMessage) : Prop :=
  ∃ c ∈ Shard.callOf message, Odd (s.book message.symbol) c

theorem execute_ends {s : Shard} (h : TameShard s) {message : OrderMessage}
    (hm : ¬ OddMessage s message) :
    Ends Defined (fun r => Tame r.1)
      (Shard.execute (s.book message.symbol) message) := by
  rw [Shard.execute]
  cases hc : Shard.callOf message with
  | none => exact h message.symbol
  | some c => exact call_ends (h message.symbol) (fun hodd => hm ⟨c, hc, hodd⟩)

/-- Processing a message puts one book back. -/
theorem process_ends {s : Shard} (h : TameShard s) {message : OrderMessage}
    (hm : ¬ OddMessage s message) :
    Ends Defined (fun r => TameShard r.1) (s.process message) := by
  have hends := execute_ends h hm
  cases hexec : Shard.execute (s.book message.symbol) message with
  | error fault =>
      rw [hexec] at hends
      rw [Shard.process, hexec]
      exact hends
  | ok r =>
      obtain ⟨b, ts⟩ := r
      obtain ⟨s', published, hok, -, hbook⟩ := Shard.process_ok hexec
      rw [hexec] at hends
      rw [hok]
      intro symbol
      rw [hbook]
      by_cases hsymbol : symbol = message.symbol
      · rw [if_pos hsymbol]
        exact hends
      · rw [if_neg hsymbol]
        exact h symbol

/-- A message that was processed left the shard tame. -/
theorem process_tame {s s' : Shard} {message : OrderMessage}
    {published : Published} (h : TameShard s)
    (hok : s.process message = .ok (s', published)) : TameShard s' := by
  have hm : ¬ OddMessage s message := by
    rintro ⟨c, hc, hodd⟩
    have hc : Shard.callOf message = some c := hc
    obtain ⟨fault, hfault⟩ :=
      ((unreachable_iff (h message.symbol)).mpr hodd).faults
    rw [Shard.process, Shard.execute, hc] at hok
    change ((s.book message.symbol).call c >>= _) = _ at hok
    rw [hfault] at hok
    cases hok
  exact (process_ends h hm).of_ok hok

/-- **PROCESSING THE MESSAGE EXECUTES A `std::unreachable()`.** -/
def ReachesUnreachable (s : Shard) (message : OrderMessage) : Prop :=
  ∃ c ∈ Shard.callOf message, Unreachable (s.book message.symbol) c

/-- The states of a shard that processes payloads, one after the other; after an
    `erase` with an iterator of another list any levels may be there. -/
inductive Visited : Shard → Prop where
  | empty : Visited .empty
  | processed {s s' : Shard} {published : Published} (h : Visited s)
      (arrival : Arrival)
      (hok : s.process arrival.message = .ok (s', published)) : Visited s'
  | wentOn {s s' : Shard} (h : Visited s) (arrival : Arrival)
      (hfault : s.process arrival.message = .error .danglingIterator)
      (hbook : WentOn (s.book arrival.message.symbol)
        (s'.book arrival.message.symbol))
      (hother : ∀ symbol, symbol ≠ arrival.message.symbol →
        s'.book symbol = s.book symbol) : Visited s'

theorem Visited.tame {s : Shard} (h : Visited s) : TameShard s := by
  induction h with
  | empty => exact tameShard_empty
  | processed h arrival hok ih => exact process_tame ih hok
  | wentOn h arrival hfault hbook hother ih =>
      intro symbol
      by_cases heq : symbol = arrival.message.symbol
      · rw [heq]
        exact (ih _).wentOn hbook
      · rw [hother symbol heq]
        exact ih symbol

/-- **WHICH PAYLOADS REACH UNDEFINED CONTROL FLOW**, in every state a shard
    reaches: those whose side byte is neither 0 nor 1 and whose order is a new
    one that is not a market order, or is to replace a resting one at whose
    price a level is found. -/
theorem process_unreachable_iff {s : Shard} (h : Visited s)
    (arrival : Arrival) :
    ¬ ReachesUnreachable s arrival.message ↔
      ¬ OddMessage s arrival.message := by
  refine not_congr ⟨?_, ?_⟩
  · rintro ⟨c, hc, hreaches⟩
    exact ⟨c, hc, (unreachable_iff (h.tame _)).mp hreaches⟩
  · rintro ⟨c, hc, hodd⟩
    exact ⟨c, hc, (unreachable_iff (h.tame _)).mpr hodd⟩

/-- Symbol 1, id 9, Good-Till-Cancel, price 100, quantity 5. -/
def arrivalOf (side action : UInt8) : Arrival where
  payload :=
    #v[0, 0, 0, 0, 0, 0, 0, 0, 0, 0, 1, 0, 0, 0, 9, 0, 0, 0, 0, 0, 0, 0,
      side, 0, action, 0, 0, 0, 0, 0, 0, 0x59, 0x40, 5, 0, 0, 0]
  ingressTimestamp := 0
  ingressSequence := 0

/-- After a good order, a payload that modifies it to side byte 7. -/
theorem process_unreachable_iff_modify : ∃ s,
    (∃ published, Shard.empty.process (arrivalOf 1 0).message
      = .ok (s, published)) ∧
    (¬ ReachesUnreachable s (arrivalOf 7 2).message ↔
      ¬ OddMessage s (arrivalOf 7 2).message) :=
  ⟨_, ⟨_, rfl⟩, process_unreachable_iff (.processed .empty (arrivalOf 1 0) rfl)
    (arrivalOf 7 2)⟩

/-- The first payload of a connection, a Good-Till-Cancel order with side byte
    2, runs into the unreachable branch where the order is rested. -/
theorem process_sideByte :
    ¬ ∀ (s : Shard) (arrival : Arrival), Visited s →
      ¬ ReachesUnreachable s arrival.message := by
  intro h
  exact h .empty (arrivalOf 2 0) .empty ⟨_, rfl, Or.inl rfl⟩

end Shards

end OsxUnreachable
