import OsborneX.SoundRunProofs

/-! # Zero quantities — an order for nothing, accepted

    No check on the way from the wire to the book looks at a quantity.  An
    order for nothing that `AddOrder` accepts either rests with nothing left,
    or crosses and prints a trade of nothing, as `IsFilled` is only asked after
    a fill.  So the book stays clean exactly as long as no such order is
    accepted; `Accepts` is the acceptance test, in the code's own terms. -/

namespace OsxZeroQuantity

open OsxOrderbook OsxCrossing OsxLink OsxCalls OsxRepresentation OsxSweep
open OsxReachable OsxMirror OsxSoundRun

variable {P : Type}

/-! ## Acceptance -/

section Acceptance

variable [LT P] [DecidableLT P] [LE P] [DecidableLE P] [BEq P]

/-- Is there an order on the other side? -/
def opposed (b : Orderbook P) : Side → Bool
  | .buy => b.asks.rbegin?.isSome
  | .sell => b.bids.rbegin?.isSome
  | .other _ => false

/-- The order's id is new, and the check of its type lets it in. -/
def Accepts (b : Orderbook P) (o : Order P) : Prop :=
  b.orders.find? o.orderId = none ∧
    (o.orderType = .fillAndKill → b.canMatch o.side o.price = .ok true) ∧
    (o.orderType = .market → opposed b o.side = true) ∧
    (o.orderType = .fillOrKill →
      b.canFullyFill o.side o.price o.initialQuantity = .ok true)

instance (b : Orderbook P) (o : Order P) : Decidable (Accepts b o) :=
  inferInstanceAs (Decidable (_ ∧ _ ∧ _ ∧ _))

/-- The order a call hands to `AddOrder`, and the book it is handed to: for a
    modification, the book without the old order. -/
def handed (b : Orderbook P) : Call P → Option (Orderbook P × Order P)
  | .addOrder orderType orderId side price quantity =>
      some (b, .new orderType orderId side price quantity)
  | .cancelOrder _ => none
  | .modifyOrder m =>
      match b.orders.find? m.orderId, b.cancelOrder m.orderId with
      | some entry, .ok b1 =>
          some (b1, m.toOrder (b.heap entry.order).orderType)
      | _, _ => none

/-- The call makes the book accept an order for nothing. -/
def TakesZero (b : Orderbook P) (c : Call P) : Prop :=
  ∃ r ∈ handed b c, r.2.initialQuantity = 0 ∧ Accepts r.1 r.2

instance (b : Orderbook P) (c : Call P) : Decidable (TakesZero b c) :=
  inferInstanceAs (Decidable (∃ r ∈ handed b c, _))

/-- Something is left of every resting order, and something was traded in
    every trade. -/
structure Clean (b : Orderbook P) (ts : List (Trade P)) : Prop where
  resting : ∀ x ∈ resting b, 0 < x.remainingQuantity
  trades : ∀ t ∈ ts, 0 < t.bidTrade.quantity

end Acceptance

/-! ## An order for nothing -/

/-- Orienting a log keeps what its pairings trade. -/
theorem quantity_of_oriented {side : Side} {log : List (Round P)}
    {r : Round P} (hr : r ∈ oriented side log) {p : Pairing P}
    (hp : p ∈ r.pairs) :
    ∃ t ∈ trades log, t.bidTrade.quantity = p.quantity := by
  have hplain : r ∈ log → ∃ t ∈ trades log,
      t.bidTrade.quantity = p.quantity := by
    intro hr
    exact ⟨p.trade, List.mem_flatMap.mpr ⟨r, hr, List.mem_map_of_mem hp⟩, rfl⟩
  cases side with
  | buy => exact hplain hr
  | other value => exact hplain hr
  | sell =>
      obtain ⟨r', hr', rfl⟩ := List.mem_map.mp hr
      obtain ⟨p', hp', rfl⟩ := List.mem_map.mp hp
      exact ⟨p'.trade, List.mem_flatMap.mpr
        ⟨r', hr', List.mem_map_of_mem hp'⟩, rfl⟩

/-- The first pairing of an order for nothing trades nothing. -/
theorem Cross.first_zero {o : Order P} {A xs ys : List (Order P)}
    {pairs : List (Pairing P)} (h : Cross [o] A pairs xs ys) (hA : A ≠ [])
    (hz : o.remainingQuantity = 0) : ∃ p ∈ pairs, p.quantity = 0 := by
  cases h with
  | done h =>
      rcases h with h | h
      · cases h
      · exact absurd h hA
  | pair q hq _ =>
      refine ⟨_, List.mem_cons_self, ?_⟩
      rw [hq, hz]
      exact Nat.zero_min _

/-- **AN ORDER FOR NOTHING** rests with nothing, or trades nothing. -/
theorem Sweep.zero {lt : P → P → Prop} [DecidableRel lt] {o : Order P}
    {own own' opp opp' : List (Order P)} {log : List (Round P)}
    (h : Sweep lt own o opp log own' opp') (hz : o.remainingQuantity = 0) :
    (∃ x ∈ own', x.remainingQuantity = 0) ∨
      ∃ r ∈ log, ∃ p ∈ r.pairs, p.quantity = 0 := by
  cases h with
  | rest _ =>
      exact Or.inl ⟨o, mem_restBehind.mpr (Or.inl rfl), hz⟩
  | filled _ _ hA0 _ hc =>
      exact Or.inr ⟨_, List.mem_cons_self, Cross.first_zero hc hA0 hz⟩
  | killed _ _ hA0 _ hc _ =>
      exact Or.inr ⟨_, List.mem_cons_self, Cross.first_zero hc hA0 hz⟩
  | next _ _ hA0 _ hc _ _ =>
      exact Or.inr ⟨_, List.mem_cons_self, Cross.first_zero hc hA0 hz⟩

/-! ## Over a linear order -/

section Linear

variable [LinearOrder P] {b b' : Orderbook P}

theorem opposed_iff (h : Linked b) {side : Side} (hs : Sided side) :
    opposed b side = true ↔ (opposite b side).getLast?.isSome = true := by
  have hmap : ∀ {A B : Type} {x : Option A} {y : Option B} {f : A → P}
      {g : B → P}, x.map f = y.map g → (x.isSome = true ↔ y.isSome = true) := by
    intro A B x y f g heq
    have hsome := congrArg Option.isSome heq
    rw [Option.isSome_map, Option.isSome_map] at hsome
    rw [hsome]
  rcases hs with rfl | rfl
  · exact hmap (rbegin?_eq h.asks)
  · exact hmap (rbegin?_eq h.bids)

/-- **ACCEPTANCE IS ADMISSION** under some effective terms. -/
theorem accepts_iff (h : Linked b) {o : Order P} (hs : Sided o.side) :
    Accepts b o ↔ ∃ o', Admits b o o' := by
  have hmatch : b.canMatch o.side o.price = .ok true ↔
      ∃ y ∈ opposite b o.side, reaches o.side o.price y.price := by
    rw [canMatch_eq h hs, Except.ok.injEq, decide_eq_true_iff]
  rw [Accepts, hmatch, opposed_iff h hs]
  constructor
  · rintro ⟨hfresh, hkill, hmarket, hfill⟩
    by_cases hm : o.orderType = .market
    · obtain ⟨worst, hworst⟩ := Option.isSome_iff_exists.mp (hmarket hm)
      have heff : effective (opposite b o.side) o = some
          { o with price := worst.price, orderType := .goodTillCancel } := by
        rw [effective, if_pos hm, hworst]
        rfl
      exact ⟨_, hfresh, heff, hkill, hfill⟩
    · exact ⟨o, hfresh, by rw [effective, if_neg hm], hkill, hfill⟩
  · rintro ⟨o', ha⟩
    refine ⟨ha.fresh, ha.killable, ?_, ha.fillable⟩
    intro hm
    have heff := ha.effective
    rw [effective, if_pos hm] at heff
    obtain ⟨worst, hworst, -⟩ := Option.map_eq_some_iff.mp heff
    rw [hworst]
    rfl

theorem positive_iff :
    Positive b ↔ ∀ x ∈ resting b, 0 < x.remainingQuantity := by
  constructor
  · intro h x hx
    rcases List.mem_append.mp hx with hx | hx
    · exact h .buy x hx
    · exact h .sell x hx
  · intro h side x hx
    cases side with
    | buy => exact h x (List.mem_append_left _ hx)
    | sell => exact h x (List.mem_append_right _ hx)
    | other value => cases hx

/-- The trades of an added order that asks for something. -/
theorem Adds.trades_positive (hpos : Positive b) {o : Order P}
    {ts : List (Trade P)} (ha : Adds b o b' ts) (hs : Sided o.side)
    (hq : 0 < o.remainingQuantity) : ∀ t ∈ ts, 0 < t.bidTrade.quantity := by
  cases ha with
  | rejected _ => exact List.forall_mem_nil _
  | @admitted o' b2 _ log ha he =>
      obtain ⟨hside, -, -, hrem⟩ := effective_terms ha.effective
      rw [← hrem] at hq
      have hbehind : ∀ {lt : P → P → Prop} [DecidableRel lt]
          {l : List (Order P)}, (∀ x ∈ l, 0 < x.remainingQuantity) →
          ∀ x ∈ restBehind lt o' l, 0 < x.remainingQuantity := by
        intro lt _ l h x hx
        rcases mem_restBehind.mp hx with rfl | hx
        · exact hq
        · exact h x hx
      have hr := he.rounds
      rcases hs with h1 | h1
      · obtain ⟨-, -, hbids, hasks⟩ := he.opened.buy (hside.trans h1)
        rw [hbids, hasks] at hr
        exact hr.trades_positive (hbehind (hpos .buy)) (hpos .sell)
      · obtain ⟨-, -, hasks, hbids⟩ := he.opened.sell (hside.trans h1)
        rw [hbids, hasks] at hr
        exact hr.trades_positive (hpos .buy) (hbehind (hpos .sell))

theorem Adds.clean_iff (hst : Steady b) (hpos : Positive b) {o : Order P}
    {ts : List (Trade P)} (ha : Adds b o b' ts) (hs : Sided o.side)
    (hnew : o.remainingQuantity = o.initialQuantity) :
    Clean b' ts ↔ ¬ (o.initialQuantity = 0 ∧ Accepts b o) := by
  have hl := hst.wellFormed.linked
  rw [accepts_iff hl hs]
  constructor
  · rintro hclean ⟨hz, o', ho'⟩
    cases ha with
    | rejected hno => exact hno o' ho'
    | @admitted o'' b2 _ log ha he =>
        obtain ⟨hside, -, -, hrem⟩ := effective_terms ha.effective
        have hs' : Sided o''.side := by rw [hside]; exact hs
        have hsweep := Executed.sweep hst.wellFormed hst.settled hs' he
        rcases Sweep.zero hsweep (by rw [hrem, hnew]; exact hz) with
          ⟨x, hx, hzero⟩ | ⟨r, hr, p, hp, hzero⟩
        · have hpos' := positive_iff.mpr hclean.resting _ x hx
          omega
        · obtain ⟨t, ht, hquantity⟩ := quantity_of_oriented hr hp
          have hpos' := hclean.trades t ht
          omega
  · intro hno
    by_cases hz : o.initialQuantity = 0
    · -- for nothing, and so turned away
      have hturned : ∀ o', ¬ Admits b o o' :=
        fun o' ho' => hno ⟨hz, o', ho'⟩
      cases ha with
      | rejected _ =>
          refine ⟨?_, List.forall_mem_nil _⟩
          refine positive_iff.mp ?_
          intro side x hx
          rw [own_makeShared hl] at hx
          exact hpos side x hx
      | admitted ha _ => exact absurd ha (hturned _)
    · have hq : 0 < o.remainingQuantity := by omega
      exact ⟨positive_iff.mp (Adds.positive hl hpos ha hs hq),
        Adds.trades_positive hpos ha hs hq⟩

/-- **EXACTLY WHEN A CALL LEAVES THE BOOK CLEAN**. -/
theorem Does.clean_iff (hst : Steady b) (hpos : Positive b) {c : Call P}
    (hs : callSided c) {ts : List (Trade P)} (hd : Does b c b' ts) :
    Clean b' ts ↔ ¬ TakesZero b c := by
  have hnothing : (∀ r ∈ handed b c, ¬ (r.2.initialQuantity = 0 ∧
      Accepts r.1 r.2)) → ¬ TakesZero b c := by
    rintro hno ⟨r, hr, hz⟩
    exact hno r hr hz
  cases hd with
  | @added orderType orderId side price quantity _ _ ha =>
      rw [Adds.clean_iff hst hpos ha hs rfl, TakesZero, handed]
      simp
  | cancelled _ _ hr =>
      have hclean := positive_iff.mp (Removed.positive hpos hr)
      exact iff_of_true ⟨hclean, List.forall_mem_nil _⟩
        (hnothing (by simp [handed]))
  | notFound _ =>
      exact iff_of_true ⟨positive_iff.mp hpos, List.forall_mem_nil _⟩
        (hnothing (by simp [handed]))
  | @modified m p b1 _ _ hp hid hr ha =>
      have hfind : b.orders.find? m.orderId = some ⟨p, p⟩ :=
        (hst.wellFormed.linked.index _ _).mpr ⟨p, hp, hid.symm, rfl⟩
      have hcancel := hr.cancelled
      rw [← hid] at hcancel
      rw [Adds.clean_iff (Removed.steady hst hr) (Removed.positive hpos hr) ha
        hs rfl, TakesZero, handed, hfind, hcancel]
      simp
  | @unknown m hn =>
      exact iff_of_true ⟨positive_iff.mp hpos, List.forall_mem_nil _⟩
        (hnothing (by simp [handed, hn]))

end Linear

/-! ## Over sound prices -/

section Mirrored

variable {Q : Type} [LT P] [LE P] [BEq P] [LinearOrder Q] {m : Scale P Q}
  {b : Orderbook P} {k : Orderbook Q}

theorem opposed_mirror (h : Mirrors m b k) (side : Side) :
    opposed k side = opposed b side := by
  cases side with
  | buy =>
      rw [opposed, opposed, h.asks.rbegin?]
      exact Option.isSome_map
  | sell =>
      rw [opposed, opposed, h.bids.rbegin?]
      exact Option.isSome_map
  | other value => rfl

/-- The orders of a side, in the mirror. -/
theorem side_mirror (h : Mirrors m b k) {lt : P → P → Prop}
    {lt' : Q → Q → Prop} {levels : Levels P lt} {levels' : Levels Q lt'}
    (hl : LevelsMirror m b.heap levels levels') :
    (pointersOf levels').map k.heap
      = ((pointersOf levels).map b.heap).map (rescale m.value) := by
  have hpointers : pointersOf levels' = pointersOf levels := by
    rw [pointersOf, pointersOf, hl.entries, List.flatMap_map]
    rfl
  rw [hpointers, List.map_map]
  exact List.map_congr_left (fun p _ => h.heap p)

/-- The orders resting in the mirror. -/
theorem resting_mirror (h : Mirrors m b k) :
    resting k = (resting b).map (rescale m.value) := by
  rw [resting, resting, restingBids, restingAsks, restingBids, restingAsks,
    side_mirror h h.bids, side_mirror h h.asks, List.map_append]

/-- A book and its mirror are clean together. -/
theorem clean_mirror (h : Mirrors m b k) {ts : List (Trade P)}
    {us : List (Trade Q)} (ht : TradesMirror m ts us) :
    Clean k us ↔ Clean b ts := by
  have hresting := resting_mirror h
  have htrades := ht.trades
  constructor
  · rintro ⟨h1, h2⟩
    rw [hresting] at h1
    rw [htrades] at h2
    exact ⟨fun x hx => h1 _ (List.mem_map_of_mem hx),
      fun t ht => h2 _ (List.mem_map_of_mem ht)⟩
  · rintro ⟨h1, h2⟩
    refine ⟨?_, ?_⟩
    · rw [hresting]
      intro x hx
      obtain ⟨y, hy, rfl⟩ := List.mem_map.mp hx
      exact h1 y hy
    · rw [htrades]
      intro u hu
      obtain ⟨t, ht, rfl⟩ := List.mem_map.mp hu
      exact h2 t ht

variable [DecidableLT P]

/-- The mirror is handed the same order, in the mirrored book. -/
theorem handed_mirror (h : Mirrors m b k) (c : Call P) :
    (handed b c = none ∧ handed k (rescaleCall m.value c) = none) ∨
      ∃ r k1, handed b c = some r ∧ Mirrors m r.1 k1 ∧
        handed k (rescaleCall m.value c) = some (k1, rescale m.value r.2) := by
  cases c with
  | addOrder orderType orderId side price quantity =>
      exact Or.inr ⟨_, k, rfl, h, rfl⟩
  | cancelOrder orderId => exact Or.inl ⟨rfl, rfl⟩
  | modifyOrder x =>
      have hcancel := h.cancelOrderInternal x.orderId
      simp only [handed, rescaleCall, h.orders, Orderbook.cancelOrder]
      cases b.orders.find? x.orderId with
      | none => exact Or.inl ⟨rfl, rfl⟩
      | some entry =>
          cases hb : b.cancelOrderInternal x.orderId with
          | error e =>
              rw [hb] at hcancel
              cases hk : k.cancelOrderInternal x.orderId with
              | error e' => exact Or.inl ⟨rfl, rfl⟩
              | ok k1 =>
                  rw [hk] at hcancel
                  exact hcancel.elim
          | ok b1 =>
              rw [hb] at hcancel
              cases hk : k.cancelOrderInternal x.orderId with
              | error e' =>
                  rw [hk] at hcancel
                  exact hcancel.elim
              | ok k1 =>
                  rw [hk] at hcancel
                  refine Or.inr ⟨_, k1, rfl, hcancel, ?_⟩
                  simp only [h.heap entry.order]
                  rfl

variable [DecidableLE P]

/-- An order with a sound price is accepted alike. -/
theorem accepts_mirror (h : Mirrors m b k) {o : Order P}
    (hp : m.sound o.price) : Accepts k (rescale m.value o) ↔ Accepts b o := by
  have hfind : k.orders.find? (rescale m.value o).orderId
      = b.orders.find? o.orderId := by
    rw [h.orders]
    rfl
  have hmatch : k.canMatch (rescale m.value o).side (rescale m.value o).price
      = b.canMatch o.side o.price := h.canMatch o.side hp
  have hfill : k.canFullyFill (rescale m.value o).side
      (rescale m.value o).price (rescale m.value o).initialQuantity
        = b.canFullyFill o.side o.price o.initialQuantity :=
    h.canFullyFill o.side hp o.initialQuantity
  have hopposed : opposed k (rescale m.value o).side = opposed b o.side :=
    opposed_mirror h o.side
  rw [Accepts, Accepts, hfind, hmatch, hfill, hopposed]
  exact Iff.rfl

/-- The condition of a call, read in the mirror. -/
theorem takesZero_mirror (h : Mirrors m b k) {c : Call P}
    (hc : ∀ r ∈ handed b c, m.sound r.2.price) :
    TakesZero k (rescaleCall m.value c) ↔ TakesZero b c := by
  rw [TakesZero, TakesZero]
  rcases handed_mirror h c with ⟨hb, hk⟩ | ⟨r, k1, hb, h1, hk⟩
  · rw [hb, hk]
    simp
  · have hiff := accepts_mirror h1 (hc r hb)
    rw [hb, hk]
    constructor
    · rintro ⟨r', hr, hz, ha⟩
      cases hr
      exact ⟨r, rfl, hz, hiff.mp ha⟩
    · rintro ⟨r', hr, hz, ha⟩
      cases hr
      exact ⟨_, rfl, hz, hiff.mpr ha⟩

end Mirrored

/-! ## Shards -/

section Shards

open OsxPrice OsxShard OsxPriceLimit Execution

/-- The message makes the book of its symbol accept an order for nothing. -/
def TakesNothing (s : Shard) (message : OrderMessage) : Prop :=
  ∃ c ∈ Shard.callOf message, TakesZero (s.book message.symbol) c

instance (s : Shard) (message : OrderMessage) :
    Decidable (TakesNothing s message) :=
  inferInstanceAs (Decidable (∃ c ∈ Shard.callOf message, _))

/-- Something is left of every order resting in the shard, and every published
    trade is of something. -/
structure NoPhantom (s : Shard) (published : Published) : Prop where
  resting : ∀ symbol, ∀ x ∈ resting (s.book symbol), 0 < x.remainingQuantity
  trades : ∀ e ∈ published.trades, 0 < e.quantity

/-- Every book of the shard mirrors a steady book with something left of every
    order. -/
def Solid (s : Shard) : Prop :=
  ∀ symbol, ∃ k : Orderbook Int, Mirrors numbers (s.book symbol) k ∧
    Steady k ∧ Positive k

theorem solid_empty : Solid .empty :=
  fun _ => ⟨.empty, mirrors_empty, steady_empty, positive_empty⟩

/-- What the handed order of a message with a number costs is a number. -/
theorem handed_sound {message : OrderMessage} (hp : Priced message)
    {c : Call Double} (hc : c ∈ Shard.callOf message) (b : Orderbook Double) :
    ∀ r ∈ handed b c, numbers.sound r.2.price := by
  intro r hr
  rw [Shard.callOf] at hc
  cases haction : message.action with
  | add =>
      rw [haction] at hc
      cases hc
      cases hr
      exact hp
  | cancel =>
      rw [haction] at hc
      cases hc
      cases hr
  | modify =>
      rw [haction] at hc
      cases hc
      rw [handed] at hr
      split at hr
      · cases hr
        exact hp
      · cases hr
  | other value =>
      rw [haction] at hc
      cases hc

theorem callSided_of_sided {message : OrderMessage}
    (hs : Sided message.side) {c : Call Double}
    (hc : c ∈ Shard.callOf message) :
    callSided (rescaleCall numbers.value c) := by
  rw [Shard.callOf] at hc
  cases haction : message.action with
  | add => rw [haction] at hc; cases hc; exact hs
  | cancel => rw [haction] at hc; cases hc; trivial
  | modify => rw [haction] at hc; cases hc; exact hs
  | other value => rw [haction] at hc; cases hc

/-- What a message does to its book, seen in the mirror. -/
theorem execute_clean {b : Orderbook Double} {k : Orderbook Int}
    (h : Mirrors numbers b k) (hst : Steady k) (hpos : Positive k)
    {message : OrderMessage} (hs : Sided message.side)
    (hp : Priced message) :
    ∃ b' ts k' us, Shard.execute b message = .ok (b', ts) ∧
      Mirrors numbers b' k' ∧ TradesMirror numbers ts us ∧ Steady k' ∧
      (Clean k' us ↔ ¬ ∃ c ∈ Shard.callOf message, TakesZero b c) := by
  have hl := hst.wellFormed.linked
  have hstep := execute_lockstep h hl hp
  cases hcall : Shard.callOf message with
  | none =>
      rw [executeOn, hcall] at hstep
      obtain ⟨⟨b', ts⟩, hrun, hmatch⟩ := hstep.of_ok rfl
      refine ⟨b', ts, k, [], hrun, hmatch.1, hmatch.2, hst, ?_⟩
      refine iff_of_true ⟨positive_iff.mp hpos, List.forall_mem_nil _⟩ ?_
      rintro ⟨c, hc, -⟩
      cases hc
  | some c =>
      have hsided := callSided_of_sided hs hcall
      obtain ⟨k', us, hrun, hd⟩ := call_spec hl hsided
      rw [executeOn, hcall] at hstep
      obtain ⟨⟨b', ts⟩, hrun', hmatch⟩ := hstep.of_ok hrun
      refine ⟨b', ts, k', us, hrun', hmatch.1, hmatch.2,
        Does.steady hst hsided hd, ?_⟩
      rw [Does.clean_iff hst hpos hsided hd,
        takesZero_mirror h (handed_sound hp hcall b)]
      constructor
      · rintro hno ⟨c', hc', hz⟩
        cases hc'
        exact hno hz
      · intro hno hz
        exact hno ⟨c, rfl, hz⟩

/-- **ONE MESSAGE** leaves no phantom exactly when it takes no order for
    nothing; and then the shard is solid again. -/
theorem process_noPhantom_iff {s : Shard} (h : Solid s)
    {message : OrderMessage} (hs : Sided message.side) (hp : Priced message)
    {s' : Shard} {published : Published}
    (hok : s.process message = .ok (s', published)) :
    (NoPhantom s' published ↔ ¬ TakesNothing s message) ∧
      (NoPhantom s' published → Solid s') := by
  obtain ⟨k, hmirror, hst, hpos⟩ := h message.symbol
  obtain ⟨b', ts, k', us, hexec, hmirror', hts, hst', hclean⟩ :=
    execute_clean hmirror hst hpos hs hp
  obtain ⟨b1, ts1, hexec1, htrades, hbook⟩ := execute_of_process hok
  rw [hexec] at hexec1
  cases hexec1
  -- the other books are as they were, and were solid
  have hphantom : NoPhantom s' published ↔ Clean b' ts := by
    constructor
    · rintro ⟨hresting, hpublished⟩
      refine ⟨?_, ?_⟩
      · have hsym := hresting message.symbol
        rw [hbook, if_pos rfl] at hsym
        exact hsym
      · intro t ht
        rw [htrades] at hpublished
        exact hpublished _ (List.mem_map_of_mem ht)
    · rintro ⟨hresting, hquantity⟩
      refine ⟨?_, ?_⟩
      · intro symbol
        rw [hbook]
        by_cases hsymbol : symbol = message.symbol
        · rw [if_pos hsymbol]
          exact hresting
        · rw [if_neg hsymbol]
          obtain ⟨k2, hmirror2, -, hpos2⟩ := h symbol
          exact ((clean_mirror hmirror2 .nil).mp
            ⟨positive_iff.mp hpos2, List.forall_mem_nil _⟩).resting
      · rw [htrades]
        intro e he
        obtain ⟨t, ht, rfl⟩ := List.mem_map.mp he
        exact hquantity t ht
  rw [hphantom, ← clean_mirror hmirror' hts]
  refine ⟨hclean, ?_⟩
  intro hc symbol
  rw [hbook]
  by_cases hsymbol : symbol = message.symbol
  · rw [if_pos hsymbol]
    exact ⟨k', hmirror', hst', positive_iff.mpr hc.resting⟩
  · rw [if_neg hsymbol]
    exact h symbol

/-- **NO PHANTOM LIQUIDITY, EXACTLY WHEN** no order for nothing is accepted:
    along every run of sided messages with numbers, which always returns. -/
theorem run_noPhantom_iff (messages : List OrderMessage)
    (hs : ∀ message ∈ messages, Sided message.side)
    (hp : ∀ message ∈ messages, Priced message) :
    (∃ s log, execute Shard.process .empty messages = .ok (s, log)) ∧
    (Along Shard.process (fun s message => ∀ s' published,
        s.process message = .ok (s', published) → NoPhantom s' published)
        .empty messages ↔
      Along Shard.process (fun s message => ¬ TakesNothing s message)
        .empty messages) := by
  refine ⟨run_returns messages hs hp, ?_⟩
  have hstep : ∀ (s : Shard) (message : OrderMessage), Solid s →
      Sided message.side ∧ Priced message →
      ∃ s' published, s.process message = .ok (s', published) := by
    intro s message h hc
    obtain ⟨k, hmirror, hst, hpos⟩ := h message.symbol
    obtain ⟨b', ts, -, -, hexec, -⟩ :=
      execute_clean hmirror hst hpos hc.1 hc.2
    obtain ⟨s', published, hok, -⟩ := Shard.process_ok hexec
    exact ⟨s', published, hok⟩
  refine along_iff (I := Solid)
    (p := fun message => Sided message.side ∧ Priced message) ?_ ?_
    solid_empty (fun message hm => ⟨hs message hm, hp message hm⟩)
  · intro s message h hc
    obtain ⟨s', published, hok⟩ := hstep s message h hc
    have hiff := (process_noPhantom_iff h hc.1 hc.2 hok).1
    constructor
    · exact fun hall => hiff.mp (hall s' published hok)
    · intro hno s1 published1 hok1
      rw [hok] at hok1
      cases hok1
      exact hiff.mpr hno
  · intro s message s' published h hc hall hok
    exact (process_noPhantom_iff h hc.1 hc.2 hok).2 (hall s' published hok)

/-- A bid of 2, orders for nothing that are turned away, a modification of the
    bid to 1, an ask that trades with it. -/
def solidMessages : List OrderMessage :=
  [messageOf .add .goodTillCancel 1 .buy ⟨0x4059000000000000⟩ 2,
    messageOf .add .fillAndKill 2 .sell ⟨0x4059400000000000⟩ 0,
    messageOf .add .goodTillCancel 1 .buy ⟨0x4059000000000000⟩ 0,
    messageOf .add .market 3 .buy ⟨0⟩ 0,
    messageOf .modify .goodTillCancel 1 .buy ⟨0x4059000000000000⟩ 1,
    messageOf .add .goodTillCancel 4 .sell ⟨0x4059000000000000⟩ 2]

theorem run_noPhantom_iff_solid :
    (∃ s log, execute Shard.process .empty solidMessages = .ok (s, log)) ∧
    (Along Shard.process (fun s message => ∀ s' published,
        s.process message = .ok (s', published) → NoPhantom s' published)
        .empty solidMessages ↔
      Along Shard.process (fun s message => ¬ TakesNothing s message)
        .empty solidMessages) :=
  run_noPhantom_iff solidMessages (by decide) (by decide)

/-- The messages of the sample take nothing for nothing. -/
example : Along Shard.process (fun s message => ¬ TakesNothing s message)
    .empty solidMessages := by decide +kernel

/-- A bid for nothing, first message of its symbol, rests with nothing left. -/
theorem run_phantom :
    ¬ ∀ (messages : List OrderMessage) (symbol : SymbolId),
      (∀ message ∈ messages, Valid message ∧ Priced message ∧
        message.symbol = symbol ∧ message.quantity < 2 ^ 32) →
      ∀ s log, execute Shard.process .empty messages = .ok (s, log) →
      (∀ symbol, ∀ x ∈ resting (s.book symbol), 0 < x.remainingQuantity) ∧
        ∀ published ∈ log, ∀ e ∈ published.trades, 0 < e.quantity := by
  intro h
  have hbad : ∃ s log, execute Shard.process .empty
      [messageOf .add .goodTillCancel 1 .buy ⟨0x4059000000000000⟩ 0]
        = .ok (s, log) ∧
      ∃ x ∈ resting (s.book 1), ¬ 0 < x.remainingQuantity :=
    ⟨_, _, rfl, by decide +kernel⟩
  obtain ⟨s, log, hrun, x, hx, hno⟩ := hbad
  refine hno ((h _ 1 ?_ s log hrun).1 1 x hx)
  intro message hmem
  rw [List.mem_singleton.mp hmem]
  exact ⟨messageOf_valid 1 (Or.inl rfl) _ _, by decide, rfl, by decide⟩

end Shards

end OsxZeroQuantity
