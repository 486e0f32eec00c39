import OsborneX.OrderbookCallProofs

/-! # The representation invariant — on every reachable book

    A book is `WellFormed` when its four structures agree (`Linked`) and no
    resting bid reaches a resting ask.  Every call keeps it, whatever the order
    types and quantities, so it holds after every run from the empty book, and
    no access on the way faults. -/

namespace OsxRepresentation

open OsxOrderbook OsxCrossing OsxLink OsxMatching OsxCalls

variable {P : Type}

/-- A best price is the price of a resting order. -/
theorem best_mem {lt : P → P → Prop} {m : Levels P lt} {side : Side}
    {heap : OrderPointer → Order P} (h : Housed heap side m)
    {level : P × List OrderPointer} (hl : level ∈ m.begin?) :
    ∃ x ∈ (pointersOf m).map heap, x.price = level.1 := by
  have hmem : level ∈ m.entries := List.mem_of_mem_head? hl
  obtain ⟨p, hp⟩ := List.exists_mem_of_ne_nil _ (h.nonempty level hmem)
  exact ⟨heap p, List.mem_map_of_mem (mem_pointersOf.mpr ⟨level, hmem, hp⟩),
    (h.placed level hmem p hp).2⟩

variable [LinearOrder P] {b b' : Orderbook P}

/-- Linked and uncrossed. -/
structure WellFormed (b : Orderbook P) : Prop where
  linked : Linked b
  uncrossed : ∀ x ∈ restingBids b, ∀ y ∈ restingAsks b, x.price < y.price

theorem wellFormed_empty [Inhabited P] :
    WellFormed (Orderbook.empty : Orderbook P) where
  linked :=
    { bids := ⟨(List.forall_mem_nil _), (List.forall_mem_nil _)⟩
      asks := ⟨(List.forall_mem_nil _), (List.forall_mem_nil _)⟩
      ids := List.nodup_nil
      index := by
        intro id e
        constructor
        · intro h; cases h
        · rintro ⟨p, hp, -⟩; cases hp
      allocated := List.forall_mem_nil _
      bounded := List.forall_mem_nil _ }
  uncrossed := List.forall_mem_nil _

/-! ## One call -/

theorem Adds.wellFormed (h : WellFormed b) {o : Order P} {ts : List (Trade P)}
    (ha : Adds b o b' ts) : WellFormed b' := by
  refine ⟨ha.linked h.linked, ?_⟩
  cases ha with
  | rejected hno =>
      obtain ⟨hbids, hasks⟩ := resting_makeShared h.linked o
      rw [hbids, hasks]
      exact h.uncrossed
  | admitted ha he => exact he.rounds.uncrossed

/-- The orders of a side after a removal were there before it. -/
theorem Removed.sub {p : OrderPointer} (hr : Removed b p b') :
    (restingBids b').Sublist (restingBids b) ∧
      (restingAsks b').Sublist (restingAsks b) := by
  rw [restingBids, restingAsks]
  rw [hr.heap, hr.bids, hr.asks]
  exact ⟨List.filter_sublist.map _, List.filter_sublist.map _⟩

theorem Removed.wellFormed (h : WellFormed b) {p : OrderPointer}
    (hr : Removed b p b') : WellFormed b' := by
  refine ⟨hr.linked, ?_⟩
  intro x hx y hy
  obtain ⟨hbids, hasks⟩ := Removed.sub hr
  exact h.uncrossed x (hbids.subset hx) y (hasks.subset hy)

/-- **EVERY CALL KEEPS A BOOK WELL FORMED.** -/
theorem Does.wellFormed (h : WellFormed b) {c : Call P}
    {ts : List (Trade P)} (hd : Does b c b' ts) : WellFormed b' := by
  cases hd with
  | added ha => exact Adds.wellFormed h ha
  | cancelled _ _ hr => exact Removed.wellFormed h hr
  | notFound _ => exact h
  | modified _ _ hr ha => exact Adds.wellFormed (Removed.wellFormed h hr) ha
  | unknown _ => exact h

/-! ## Every run -/

/-- Calls on sided orders return and keep a book well formed. -/
theorem run_wellFormed (h : WellFormed b) {calls : List (Call P)}
    (hs : ∀ c ∈ calls, callSided c) :
    ∃ b' history, b.run calls = .ok (b', history) ∧ WellFormed b' := by
  have hstep : ∀ (b : Orderbook P) (c : Call P), WellFormed b → callSided c →
      ∃ b' ts, b.call c = .ok (b', ts) ∧ WellFormed b' ∧ True := by
    intro b c h hc
    obtain ⟨b', ts, hrun, hd⟩ := call_spec h.linked hc
    exact ⟨b', ts, hrun, Does.wellFormed h hd, trivial⟩
  obtain ⟨b', history, hrun, h', -⟩ := Execution.execute_spec hstep calls b h
    (Execution.along_of_forall hs b)
  exact ⟨b', history, hrun, h'⟩

/-! ## The invariant in the book's own terms -/

/-- Every stored level, bids first. -/
def levels (b : Orderbook P) : List (P × List OrderPointer) :=
  b.bids.entries ++ b.asks.entries

/-- The representation invariant, on the fields of the book. -/
structure Represented (b : Orderbook P) : Prop where
  /-- no stored level is empty -/
  nonempty : ∀ level ∈ levels b, level.2 ≠ []
  /-- every bid rests at its own price -/
  bids : ∀ level ∈ b.bids.entries, ∀ p ∈ level.2,
    (b.heap p).side = .buy ∧ (b.heap p).price = level.1
  /-- every ask rests at its own price -/
  asks : ∀ level ∈ b.asks.entries, ∀ p ∈ level.2,
    (b.heap p).side = .sell ∧ (b.heap p).price = level.1
  /-- each id occurs once over all the lists -/
  once : (((levels b).flatMap Prod.snd).map (fun p => (b.heap p).orderId)).Nodup
  /-- the index holds exactly the listed ids, each with its occurrence -/
  index : ∀ id e, b.orders.find? id = some e ↔
    e.order = e.location ∧ (b.heap e.order).orderId = id ∧
      ∃ level ∈ levels b, e.location ∈ level.2
  /-- no order has more left than it came with -/
  bounded : ∀ level ∈ levels b, ∀ p ∈ level.2,
    (b.heap p).remainingQuantity ≤ (b.heap p).initialQuantity
  /-- the best bid is strictly below the best ask -/
  uncrossed : ∀ bid ∈ b.bids.begin?, ∀ ask ∈ b.asks.begin?, bid.1 < ask.1

theorem levels_pointers (b : Orderbook P) :
    (levels b).flatMap Prod.snd = pointers b := by
  rw [levels, List.flatMap_append]
  rfl

theorem mem_levels {p : OrderPointer} :
    (∃ level ∈ levels b, p ∈ level.2) ↔ p ∈ pointers b := by
  rw [← levels_pointers, List.mem_flatMap]

theorem WellFormed.represented (h : WellFormed b) : Represented b where
  nonempty := by
    intro level hl
    rcases List.mem_append.mp hl with hl | hl
    · exact h.linked.bids.nonempty level hl
    · exact h.linked.asks.nonempty level hl
  bids := h.linked.bids.placed
  asks := h.linked.asks.placed
  once := by
    rw [levels_pointers]
    exact h.linked.ids
  index := by
    intro id e
    rw [h.linked.index]
    constructor
    · rintro ⟨p, hp, hid, rfl⟩
      exact ⟨rfl, hid, mem_levels.mpr hp⟩
    · rintro ⟨heq, hid, hl⟩
      obtain ⟨order, location⟩ := e
      dsimp only at heq hid hl
      subst heq
      exact ⟨order, mem_levels.mp hl, hid, rfl⟩
  bounded := fun level hl p hp =>
    h.linked.bounded p (mem_levels.mp ⟨level, hl, hp⟩)
  uncrossed := by
    intro bid hbid ask hask
    obtain ⟨x, hx, hxp⟩ := best_mem h.linked.bids hbid
    obtain ⟨y, hy, hyp⟩ := best_mem h.linked.asks hask
    rw [← hxp, ← hyp]
    exact h.uncrossed x hx y hy

/-- **EVERY RUN FROM THE EMPTY BOOK** faults nowhere and ends in a book that
    meets the representation invariant. -/
theorem run_represented [Inhabited P] (calls : List (Call P))
    (hs : ∀ c ∈ calls, callSided c) :
    ∃ b history, Orderbook.run .empty calls = .ok (b, history) ∧
      Represented b := by
  obtain ⟨b, history, hrun, h⟩ := run_wellFormed wellFormed_empty hs
  exact ⟨b, history, hrun, WellFormed.represented h⟩

/-- The four order types, a zero quantity, a crossing at an equal price, a
    modification and a cancellation. -/
theorem run_represented_mixed :
    ∃ (b : Orderbook Int) (history : List (List (Trade Int))),
      Orderbook.run .empty
      [.addOrder .goodTillCancel 1 .sell 100 3,
        .addOrder .goodTillCancel 2 .buy 100 5,
        .addOrder .goodTillCancel 3 .sell 101 0,
        .addOrder .fillAndKill 4 .sell 99 7,
        .modifyOrder ⟨3, .sell, 102, 4⟩,
        .addOrder .fillOrKill 5 .buy 102 4,
        .addOrder .market 6 .buy 0 1, .cancelOrder 2] = .ok (b, history) ∧
      Represented b :=
  run_represented _ (by decide)

end OsxRepresentation
