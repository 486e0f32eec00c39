import OsborneX.SymmetricRunProofs
import OsborneX.ZeroQuantityProofs

/-! # Traceless orders — a run with an order that never trades, and without it

    An order that rests, is never traded and is cancelled ought to leave no
    trace.  Two runs are made side by side, one with its two calls and one
    without.  Their sides stay the same but for that order (`Twin`), call by
    call, exactly as long as the other orders find the two books `Alike`:

    * a Market order takes the worst opposite price as its own limit and prints
      it, so the order must not stand alone there;
    * `CanFullyFill` reads the aggregates, which crossings at one price corrupt
      differently in the two runs. -/

namespace OsxTraceless

open OsxOrderbook OsxCrossing OsxLink OsxMatching OsxCalls OsxRepresentation
open OsxSweep OsxReachable OsxLevelData OsxSweepUnique OsxSymmetry
open OsxZeroQuantity

variable {P : Type}

/-! ## The orders of other ids -/

section Without

variable {orderId : OrderId} {o : Order P} {L M : List (Order P)}

/-- The orders of other ids. -/
def without (orderId : OrderId) (L : List (Order P)) : List (Order P) :=
  L.filter (fun x => x.orderId ≠ orderId)

@[simp] theorem mem_without {x : Order P} :
    x ∈ without orderId L ↔ x ∈ L ∧ x.orderId ≠ orderId := by
  rw [without, List.mem_filter, decide_eq_true_iff]

@[simp] theorem without_nil :
    without orderId ([] : List (Order P)) = [] := rfl

@[simp] theorem without_append :
    without orderId (L ++ M) = without orderId L ++ without orderId M :=
  List.filter_append ..

theorem without_cons (h : o.orderId ≠ orderId) :
    without orderId (o :: L) = o :: without orderId L :=
  List.filter_cons_of_pos (by simpa using h)

theorem without_cons_self (h : o.orderId = orderId) :
    without orderId (o :: L) = without orderId L :=
  List.filter_cons_of_neg (by simpa using h)

@[simp] theorem without_without :
    without orderId (without orderId L) = without orderId L := by
  simp [without]

theorem without_filter (id : OrderId) (L : List (Order P)) :
    without orderId (L.filter (fun x => x.orderId ≠ id))
      = (without orderId L).filter (fun x => x.orderId ≠ id) :=
  List.filter_comm ..

theorem without_eq_self (h : ∀ x ∈ L, x.orderId ≠ orderId) :
    without orderId L = L :=
  List.filter_eq_self.mpr (fun x hx => by simpa using h x hx)

theorem without_leave (h : o.orderId ≠ orderId) :
    without orderId (leave o L) = leave o (without orderId L) := by
  rw [leave, leave]
  by_cases hf : o.isFilled = true
  · rw [if_pos hf, if_pos hf]
  · rw [if_neg hf, if_neg hf, without_cons h]

/-- No pairing is with the order of this id. -/
def Silent (orderId : OrderId) (pairs : List (Pairing P)) : Prop :=
  ∀ p ∈ pairs, p.bid.orderId ≠ orderId ∧ p.ask.orderId ≠ orderId

/-- **THE INNER LOOP WITHOUT AN ORDER** that it does not pair. -/
theorem Cross.without {xs ys xs' ys' : List (Order P)}
    {pairs : List (Pairing P)} (h : Cross xs ys pairs xs' ys') :
    Silent orderId pairs →
      Cross (without orderId xs) (without orderId ys) pairs
        (without orderId xs') (without orderId ys') := by
  induction h with
  | done h =>
      intro _
      refine .done ?_
      rcases h with rfl | rfl
      · exact Or.inl rfl
      · exact Or.inr rfl
  | @pair x y xs ys _ _ pairs q hq _ ih =>
      intro hp
      obtain ⟨hx, hy⟩ := hp _ List.mem_cons_self
      have hx' : (x.fill q).orderId ≠ orderId := by
        rw [fill_orderId]
        exact hx
      have hy' : (y.fill q).orderId ≠ orderId := by
        rw [fill_orderId]
        exact hy
      have hrest := ih (fun p hmem => hp p (List.mem_cons_of_mem _ hmem))
      rw [without_leave hx', without_leave hy'] at hrest
      rw [without_cons hx, without_cons hy]
      exact .pair q hq hrest

/-- The two fronts are paired. -/
theorem Cross.fronts {x : Order P} {xs A xs' ys' : List (Order P)}
    {pairs : List (Pairing P)} (h : Cross (x :: xs) A pairs xs' ys')
    (hA : A ≠ []) : ∃ p ∈ pairs, p.bid = x ∧ p.ask ∈ A := by
  cases h with
  | done h =>
      rcases h with h | h
      · cases h
      · exact absurd h hA
  | pair q hq _ =>
      exact ⟨_, List.mem_cons_self, rfl, List.mem_cons_self⟩

end Without

/-! ## The sweep without an order -/

section Sweeps

variable {orderId : OrderId} {lt : P → P → Prop} [DecidableRel lt]
  {o : Order P} {own own' opp opp' : List (Order P)} {log : List (Round P)}

/-- An order with an acceptable price opposite trades. -/
theorem Sweep.trades_first (h : Sweep lt own o opp log own' opp')
    (hex : ∃ y ∈ opp, ¬ lt y.price o.price) :
    ∃ r ∈ log, ∃ p ∈ r.pairs, p.bid = o := by
  cases h with
  | rest hno =>
      obtain ⟨y, hy, hacc⟩ := hex
      exact absurd (hno y hy) hacc
  | filled _ _ hA0 _ hc =>
      obtain ⟨p, hp, hbid, -⟩ := Cross.fronts hc hA0
      exact ⟨_, List.mem_cons_self, p, hp, hbid⟩
  | killed _ _ hA0 _ hc _ =>
      obtain ⟨p, hp, hbid, -⟩ := Cross.fronts hc hA0
      exact ⟨_, List.mem_cons_self, p, hp, hbid⟩
  | next _ _ hA0 _ hc _ _ =>
      obtain ⟨p, hp, hbid, -⟩ := Cross.fronts hc hA0
      exact ⟨_, List.mem_cons_self, p, hp, hbid⟩

/-- The incoming order pays its own limit in every pairing. -/
theorem Sweep.own_terms_of_pair (h : Sweep lt own o opp log own' opp') :
    ∀ r ∈ log, ∀ p ∈ r.pairs, SameTerms o p.bid := by
  have hpairs : ∀ {o : Order P} {A B' A' : List (Order P)}
      {pairs : List (Pairing P)}, Cross [o] A pairs B' A' →
      ∀ p ∈ pairs, SameTerms o p.bid := by
    intro o A B' A' pairs hc p hp
    obtain ⟨⟨x, hx, hbid⟩, -⟩ := hc.pairs_from p hp
    rw [List.mem_singleton.mp hx] at hbid
    exact hbid
  induction h with
  | rest _ => exact List.forall_mem_nil _
  | filled _ _ _ _ hc =>
      intro r hr
      rw [List.mem_singleton.mp hr]
      exact hpairs hc
  | killed _ _ _ _ hc _ =>
      intro r hr
      rw [List.mem_singleton.mp hr]
      exact hpairs hc
  | next _ _ _ _ hc _ _ ih =>
      intro r hr
      rcases List.mem_cons.mp hr with rfl | hr
      · exact hpairs hc
      · intro p hp
        exact hc.remainder.trans (ih r hr p hp)

/-- Resting changes nothing for the others. -/
theorem without_restBehind_self (ho : o.orderId = orderId)
    (own : List (Order P)) :
    without orderId (restBehind lt o own) = without orderId own := by
  induction own with
  | nil => exact without_cons_self ho
  | cons r rs ih =>
      rw [restBehind]
      by_cases hlt : lt o.price r.price
      · rw [if_pos hlt, without_cons_self ho]
      · rw [if_neg hlt]
        by_cases hr : r.orderId = orderId
        · rw [without_cons_self hr, without_cons_self hr, ih]
        · rw [without_cons hr, without_cons hr, ih]

variable [IsStrictTotalOrder P lt]

/-- Resting in a side does not depend on an order of another id there. -/
theorem without_restBehind (ho : o.orderId ≠ orderId)
    (hsorted : own.Pairwise (fun x y => ¬ lt y.price x.price)) :
    without orderId (restBehind lt o own)
      = restBehind lt o (without orderId own) := by
  induction own with
  | nil => exact without_cons ho
  | cons r rs ih =>
      obtain ⟨hbest, hrest⟩ := List.pairwise_cons.mp hsorted
      rw [restBehind]
      by_cases hlt : lt o.price r.price
      · -- everything from here on is worse, whoever is taken away
        have hworse : ∀ x ∈ without orderId (r :: rs),
            lt o.price x.price := by
          intro x hx
          rcases List.mem_cons.mp (mem_without.mp hx).1 with rfl | hx
          · exact hlt
          · rcases trichotomous_of lt x.price r.price with h | h | h
            · exact absurd h (hbest x hx)
            · rw [h]
              exact hlt
            · exact trans_of lt hlt h
        rw [if_pos hlt, without_cons ho, restBehind_front hworse]
      · rw [if_neg hlt]
        by_cases hr : r.orderId = orderId
        · rw [without_cons_self hr, without_cons_self hr, ih hrest]
        · rw [without_cons hr, without_cons hr, ih hrest, restBehind,
            if_neg hlt]

/-- **THE SWEEP WITHOUT AN ORDER** that it does not trade with. -/
theorem Sweep.without (h : Sweep lt own o opp log own' opp') :
    own.Pairwise (fun x y => ¬ lt y.price x.price) →
    o.orderId ≠ orderId → (∀ r ∈ log, Silent orderId r.pairs) →
    ∃ log', Sweep lt (without orderId own) o (without orderId opp) log'
        (without orderId own') (without orderId opp') ∧
      log'.map Round.pairs = log.map Round.pairs := by
  have hprice : ∀ {A : List (Order P)} {pa : P}, (∀ y ∈ A, y.price = pa) →
      ∀ y ∈ OsxTraceless.without orderId A, y.price = pa :=
    fun hA y hy => hA y (mem_without.mp hy).1
  have hworse : ∀ {as : List (Order P)} {pa : P},
      (∀ y ∈ as, lt y.price pa) →
      ∀ y ∈ OsxTraceless.without orderId as, lt y.price pa :=
    fun has y hy => has y (mem_without.mp hy).1
  have hkept : ∀ {o : Order P} {A xs ys : List (Order P)}
      {pairs : List (Pairing P)}, Cross [o] A pairs xs ys → A ≠ [] →
      Silent orderId pairs → OsxTraceless.without orderId A ≠ [] := by
    intro o A xs ys pairs hc hA0 hsilent
    obtain ⟨p, hp, -, hask⟩ := Cross.fronts hc hA0
    exact List.ne_nil_of_mem (mem_without.mpr ⟨hask, (hsilent p hp).2⟩)
  have hsingle : ∀ {o : Order P}, o.orderId ≠ orderId →
      OsxTraceless.without orderId [o] = [o] := fun ho => without_cons ho
  -- each level is crossed without the silent order, or lost it alone
  induction h with
  | rest hno =>
      intro hsorted ho _
      rw [without_restBehind ho hsorted]
      exact ⟨[], .rest (hworse hno), rfl⟩
  | filled hA has hA0 hcross hc =>
      intro _ ho hlog
      have hsilent := hlog _ List.mem_cons_self
      have hc' := Cross.without hc hsilent
      rw [hsingle ho] at hc'
      rw [without_append, without_append]
      exact ⟨_, .filled (hprice hA) (hworse has) (hkept hc hA0 hsilent)
        hcross hc', rfl⟩
  | @killed o r A as pa pairs hA has hA0 hcross hc hk =>
      intro _ ho hlog
      have hsilent := hlog _ List.mem_cons_self
      have hr : r.orderId ≠ orderId := by
        rw [hc.remainder.fields.2.1]
        exact ho
      have hc' := Cross.without hc hsilent
      rw [hsingle ho, hsingle hr] at hc'
      rw [without_append]
      exact ⟨_, .killed (hprice hA) (hworse has) (hkept hc hA0 hsilent)
        hcross hc' hk, rfl⟩
  | @next o r A as own' opp' pa pairs log hA has hA0 hcross hc hk _ ih =>
      intro hsorted ho hlog
      have hsilent := hlog _ List.mem_cons_self
      have hr : r.orderId ≠ orderId := by
        rw [hc.remainder.fields.2.1]
        exact ho
      have hc' := Cross.without hc hsilent
      rw [hsingle ho, hsingle hr] at hc'
      obtain ⟨log', hsweep, hpairs⟩ := ih hsorted hr
        (fun r hr => hlog r (List.mem_cons_of_mem _ hr))
      rw [without_append]
      refine ⟨_, .next (hprice hA) (hworse has) (hkept hc hA0 hsilent)
        hcross hc' hk hsweep, ?_⟩
      rw [List.map_cons, List.map_cons, hpairs]

end Sweeps

/-! ## The trades of an oriented log -/

section Oriented

/-- The half of a trade on a side. -/
def half : Side → Trade P → TradeInfo P
  | .sell, t => t.askTrade
  | _, t => t.bidTrade

/-- Each pairing of an oriented log prints a trade, the incoming order on its
    side. -/
theorem trade_of_oriented {side : Side} {log : List (Round P)} {r : Round P}
    (hr : r ∈ oriented side log) {p : Pairing P} (hp : p ∈ r.pairs) :
    ∃ t ∈ trades log,
      half side t = ⟨p.bid.orderId, p.bid.price, p.quantity⟩ ∧
      names p.bid.orderId t ∧ names p.ask.orderId t := by
  have hplain : ∀ {r : Round P} {p : Pairing P}, r ∈ log → p ∈ r.pairs →
      p.trade ∈ trades log := by
    intro r p hr hp
    exact List.mem_flatMap.mpr ⟨r, hr, List.mem_map_of_mem hp⟩
  cases side with
  | buy => exact ⟨p.trade, hplain hr hp, rfl, Or.inl rfl, Or.inr rfl⟩
  | other _ => exact ⟨p.trade, hplain hr hp, rfl, Or.inl rfl, Or.inr rfl⟩
  | sell =>
      obtain ⟨r', hr', rfl⟩ := List.mem_map.mp hr
      obtain ⟨p', hp', rfl⟩ := List.mem_map.mp hp
      exact ⟨p'.trade, hplain hr' hp', rfl, Or.inr rfl, Or.inl rfl⟩

/-- Each trade is a pairing of the oriented log. -/
theorem oriented_of_trade {side : Side} {log : List (Round P)} {t : Trade P}
    (ht : t ∈ trades log) :
    ∃ r ∈ oriented side log, ∃ p ∈ r.pairs,
      half side t = ⟨p.bid.orderId, p.bid.price, p.quantity⟩ := by
  obtain ⟨r, hr, ht⟩ := List.mem_flatMap.mp ht
  obtain ⟨p, hp, rfl⟩ := List.mem_map.mp ht
  cases side with
  | buy => exact ⟨r, hr, p, hp, rfl⟩
  | other _ => exact ⟨r, hr, p, hp, rfl⟩
  | sell =>
      exact ⟨r.swap, List.mem_map_of_mem hr, p.swap,
        List.mem_map_of_mem hp, rfl⟩

/-- The pairings of the oriented log determine the trades. -/
theorem trades_of_pairs (side : Side) {log log' : List (Round P)}
    (h : (oriented side log').map Round.pairs
      = (oriented side log).map Round.pairs) :
    trades log' = trades log := by
  have hpairs : ∀ l : List (Round P), trades l
      = (l.map Round.pairs).flatMap (List.map Pairing.trade) := by
    intro l
    rw [trades, List.flatMap_map]
  have hswap : ∀ l : List (Round P), (l.map Round.swap).map Round.pairs
      = (l.map Round.pairs).map (List.map Pairing.swap) := by
    intro l
    rw [List.map_map, List.map_map]
    rfl
  have hsame : log'.map Round.pairs = log.map Round.pairs := by
    cases side with
    | buy => exact h
    | other _ => exact h
    | sell =>
        have hinj : Function.Injective (List.map (Pairing.swap (P := P))) :=
          List.map_injective_iff.mpr
            (Function.LeftInverse.injective Pairing.swap_swap)
        rw [oriented, oriented, hswap, hswap] at h
        exact List.map_injective_iff.mpr hinj h
  rw [hpairs, hpairs, hsame]

end Oriented

/-! ## Two books -/

section Books

variable [LinearOrder P] {orderId : OrderId} {b b' k k' : Orderbook P}

/-- **THE SIDES ARE THE SAME** but for the order of this id. -/
structure Twin (orderId : OrderId) (b k : Orderbook P) : Prop where
  left : Steady b
  right : Steady k
  sides : ∀ side, own k side = without orderId (own b side)

theorem Twin.opposites (h : Twin orderId b k) (side : Side) :
    opposite k side = without orderId (opposite b side) := by
  rw [opposite_eq, opposite_eq]
  exact h.sides _

theorem Twin.mem_resting (h : Twin orderId b k) {x : Order P} :
    x ∈ resting k ↔ x ∈ resting b ∧ x.orderId ≠ orderId := by
  have hbids : restingBids k = without orderId (restingBids b) := h.sides .buy
  have hasks : restingAsks k = without orderId (restingAsks b) := h.sides .sell
  rw [resting, resting, hbids, hasks, ← without_append, mem_without]

/-- Another id is known to both books or to neither. -/
theorem Twin.unknown (h : Twin orderId b k) {id : OrderId}
    (hid : id ≠ orderId) :
    k.orders.find? id = none ↔ b.orders.find? id = none := by
  constructor
  · intro hn
    refine Linked.absent h.left.wellFormed.linked (fun x hx heq => ?_)
    have hmem := h.mem_resting.mpr ⟨hx, by rw [heq]; exact hid⟩
    exact Linked.fresh h.right.wellFormed.linked hn x hmem heq
  · intro hn
    refine Linked.absent h.right.wellFormed.linked (fun x hx => ?_)
    exact Linked.fresh h.left.wellFormed.linked hn x (h.mem_resting.mp hx).1

/-- What is acceptable without the order is acceptable with it. -/
theorem Twin.acceptable (h : Twin orderId b k) {side : Side} {R : P → Prop}
    (hex : ∃ y ∈ opposite k side, R y.price) :
    ∃ y ∈ opposite b side, R y.price := by
  obtain ⟨y, hy, hr⟩ := hex
  rw [h.opposites] at hy
  exact ⟨y, (mem_without.mp hy).1, hr⟩

/-- The worst price on the other side. -/
def worstOpposite (b : Orderbook P) : Side → Option P
  | .buy => b.asks.rbegin?.map Prod.fst
  | .sell => b.bids.rbegin?.map Prod.fst
  | .other _ => none

theorem worstOpposite_eq (hl : Linked b) (side : Side) :
    worstOpposite b side = (opposite b side).getLast?.map Order.price := by
  cases side with
  | buy => exact rbegin?_eq hl.asks
  | sell => exact rbegin?_eq hl.bids
  | other _ => rfl

/-- **AN ORDER FINDS THE TWO BOOKS ALIKE**: if its id is new, a Market order
    gets the same limit from both, and `CanFullyFill` answers a Fill-Or-Kill
    order the same in both. -/
def Alike (b k : Orderbook P) (o : Order P) : Prop :=
  b.orders.find? o.orderId = none →
    (o.orderType = .market →
      worstOpposite b o.side = worstOpposite k o.side) ∧
    (o.orderType = .fillOrKill →
      b.canFullyFill o.side o.price o.initialQuantity
        = k.canFullyFill o.side o.price o.initialQuantity)

instance (b k : Orderbook P) (o : Order P) : Decidable (Alike b k o) :=
  inferInstanceAs (Decidable (_ → _))

/-- The effective terms of an order, by the worst opposite price. -/
theorem effective_worst (hl : Linked b) {o o' : Order P} :
    effective (opposite b o.side) o = some o' ↔
      (o.orderType = .market → ∃ w, worstOpposite b o.side = some w ∧
        o' = { o with price := w, orderType := .goodTillCancel }) ∧
      (o.orderType ≠ .market → o' = o) := by
  rw [effective, worstOpposite_eq hl]
  by_cases hm : o.orderType = .market
  · rw [if_pos hm, Option.map_eq_some_iff]
    constructor
    · rintro ⟨y, hy, rfl⟩
      exact ⟨fun _ => ⟨y.price, by rw [hy]; rfl, rfl⟩, fun h => absurd hm h⟩
    · rintro ⟨h, -⟩
      obtain ⟨w, hw, rfl⟩ := h hm
      obtain ⟨y, hy, rfl⟩ := Option.map_eq_some_iff.mp hw
      exact ⟨y, hy, rfl⟩
  · rw [if_neg hm]
    constructor
    · intro h
      cases h
      exact ⟨fun h => absurd h hm, fun _ => rfl⟩
    · rintro ⟨-, h⟩
      rw [h hm]

/-- An order admitted with an acceptable price opposite prints a trade at its
    effective limit. -/
theorem Executed.prints (hst : Steady b) {o : Order P} {b2 : Orderbook P}
    {log : List (Round P)} (he : Executed b o b2 b' log) (hs : Sided o.side)
    (hex : ∃ y ∈ opposite b o.side, reaches o.side o.price y.price) :
    ∃ t ∈ trades log, (half o.side t).price = o.price ∧
      names o.orderId t := by
  have hsweep := Executed.sweep hst.wellFormed hst.settled hs he
  obtain ⟨y, hy, hr⟩ := hex
  obtain ⟨r, hr, p, hp, hbid⟩ :=
    Sweep.trades_first hsweep ⟨y, hy, (reaches_iff hs).mp hr⟩
  obtain ⟨t, ht, hhalf, hname, -⟩ := trade_of_oriented hr hp
  rw [hbid] at hhalf hname
  exact ⟨t, ht, by rw [hhalf], hname⟩

/-- Every trade of an admitted order is at its effective limit. -/
theorem Executed.price_of_trade (hst : Steady b) {o : Order P}
    {b2 : Orderbook P} {log : List (Round P)} (he : Executed b o b2 b' log)
    (hs : Sided o.side) :
    ∀ t ∈ trades log, (half o.side t).price = o.price := by
  have hsweep := Executed.sweep hst.wellFormed hst.settled hs he
  intro t ht
  obtain ⟨r, hr, p, hp, hhalf⟩ := oriented_of_trade ht
  rw [hhalf]
  exact (Sweep.own_terms_of_pair hsweep r hr p hp).fields.2.2.2.1

/-! ### An added order -/

/-- **AN EXECUTED ORDER THAT LEAVES THE OTHER ALONE** has the same sweep in the
    book without it. -/
theorem Executed.spares (h : Twin orderId b k) {o : Order P}
    (hs : Sided o.side) (hid : o.orderId ≠ orderId) {b2 : Orderbook P}
    {log : List (Round P)} (he : Executed b o b2 b' log)
    (hno : ∀ t ∈ trades log, ¬ names orderId t) :
    ∃ log', Sweep (better o.side) (own k o.side) o (opposite k o.side) log'
        (without orderId (own b' o.side))
        (without orderId (opposite b' o.side)) ∧
      log'.map Round.pairs = (oriented o.side log).map Round.pairs := by
  have hstrict := better_strict (P := P) hs
  have hsweep := Executed.sweep h.left.wellFormed h.left.settled hs he
  have hsilent : ∀ r ∈ oriented o.side log, Silent orderId r.pairs := by
    intro r hr p hp
    obtain ⟨t, ht, -, hbid, hask⟩ := trade_of_oriented hr hp
    constructor
    · intro heq
      rw [heq] at hbid
      exact hno t ht hbid
    · intro heq
      rw [heq] at hask
      exact hno t ht hask
  rw [h.sides, h.opposites]
  exact Sweep.without hsweep (own_sorted h.left.wellFormed.linked _) hid
    hsilent

theorem Executed.twin (h : Twin orderId b k) {o : Order P}
    (hs : Sided o.side) (hid : o.orderId ≠ orderId) {b2 k2 : Orderbook P}
    {log log' : List (Round P)} (he : Executed b o b2 b' log)
    (he' : Executed k o k2 k' log')
    (hno : ∀ t ∈ trades log, ¬ names orderId t) :
    trades log' = trades log ∧
      ∀ side, own k' side = without orderId (own b' side) := by
  have hsweep' := Executed.sweep h.right.wellFormed h.right.settled hs he'
  obtain ⟨log2, hsweep, hpairs⟩ := Executed.spares h hs hid he hno
  obtain ⟨hlog, hown, hopp⟩ := Sweep.unique hsweep hsweep'
  refine ⟨trades_of_pairs o.side (by rw [hlog, hpairs]), ?_⟩
  intro side
  rcases side_cases hs side with rfl | rfl | ⟨value, rfl⟩
  · exact hown
  · rw [opposite_eq, opposite_eq] at hopp
    exact hopp
  · rfl

/-- What such an order finds acceptable is also there without the other. -/
theorem Executed.acceptable (h : Twin orderId b k) {o : Order P}
    (hs : Sided o.side) (hid : o.orderId ≠ orderId) {b2 : Orderbook P}
    {log : List (Round P)} (he : Executed b o b2 b' log)
    (hno : ∀ t ∈ trades log, ¬ names orderId t)
    (hex : ∃ y ∈ opposite b o.side, reaches o.side o.price y.price) :
    ∃ y ∈ opposite k o.side, reaches o.side o.price y.price := by
  by_contra hnone
  obtain ⟨t, ht, -⟩ := Executed.prints h.left he hs hex
  obtain ⟨log', hsweep, hpairs⟩ := Executed.spares h hs hid he hno
  -- nothing acceptable: the order would only rest there
  obtain ⟨rfl, -, -⟩ := Sweep.rests hsweep (fun y hy => by
    by_contra hacc
    exact hnone ⟨y, hy, (reaches_iff hs).mpr hacc⟩)
  obtain ⟨r, hr, -⟩ := oriented_of_trade ht
  have hmem : r.pairs ∈ (oriented o.side log).map Round.pairs :=
    List.mem_map_of_mem hr
  rw [← hpairs] at hmem
  cases hmem

/-- The price test of `AddOrder` accepts a Fill-Or-Kill order only where it can
    trade. -/
theorem acceptable_of_canFullyFill (hl : Linked b) {side : Side}
    (hs : Sided side) {price : P} {quantity : Nat}
    (h : b.canFullyFill side price quantity = .ok true) :
    ∃ y ∈ opposite b side, reaches side price y.price := by
  rw [canFullyFill_eq hl hs, Except.ok.injEq, Bool.and_eq_true] at h
  exact of_decide_eq_true h.1

/-- The limit a market order gets is acceptable to it. -/
theorem acceptable_of_worst (hl : Linked b) {side : Side} (hs : Sided side)
    {w : P} (h : worstOpposite b side = some w) :
    ∃ y ∈ opposite b side, reaches side w y.price := by
  rw [worstOpposite_eq hl] at h
  obtain ⟨y, hy, rfl⟩ := Option.map_eq_some_iff.mp h
  refine ⟨y, List.mem_of_getLast? hy, (reaches_iff hs).mpr ?_⟩
  exact Std.Irrefl.irrefl _

/-- **ALIKE BOOKS**: the same order is admitted under the same terms, and what
    it leaves is the same but for the other. -/
theorem Adds.twin_of_alike (h : Twin orderId b k) {o : Order P}
    (hs : Sided o.side) (hid : o.orderId ≠ orderId) {ts ts' : List (Trade P)}
    (ha : Adds b o b' ts) (ha' : Adds k o k' ts')
    (hno : ∀ t ∈ ts, ¬ names orderId t) (halike : Alike b k o) :
    ts' = ts ∧ ∀ side, own k' side = without orderId (own b' side) := by
  have hlb := h.left.wellFormed.linked
  have hlk := h.right.wellFormed.linked
  cases ha with
  | rejected hreject =>
      cases ha' with
      | rejected _ =>
          refine ⟨rfl, fun side => ?_⟩
          rw [own_makeShared hlk, own_makeShared hlb]
          exact h.sides side
      | @admitted o' _ _ _ hyes _ =>
          -- what the book without the order admits, the other admits
          have hfresh := (h.unknown hid).mp hyes.fresh
          obtain ⟨hmarket, hfill⟩ := halike hfresh
          obtain ⟨heff, heff'⟩ := (effective_worst hlk).mp hyes.effective
          refine absurd ⟨hfresh, ?_, ?_, ?_⟩ (hreject o')
          · refine (effective_worst hlb).mpr ⟨fun hm => ?_, heff'⟩
            rw [hmarket hm]
            exact heff hm
          · exact fun hk => h.acceptable (hyes.killable hk)
          · exact fun hf => (hfill hf).trans (hyes.fillable hf)
  | @admitted o' b2 _ log hyes he =>
      have hside := (effective_terms hyes.effective).1
      have hs' : Sided o'.side := by
        rw [hside]
        exact hs
      have hid' : o'.orderId ≠ orderId := by
        rw [(effective_terms hyes.effective).2.1]
        exact hid
      obtain ⟨hmarket, hfill⟩ := halike hyes.fresh
      obtain ⟨heff, heff'⟩ := (effective_worst hlb).mp hyes.effective
      have hyes' : Admits k o o' := by
        refine ⟨(h.unknown hid).mpr hyes.fresh, ?_, ?_, ?_⟩
        · refine (effective_worst hlk).mpr ⟨fun hm => ?_, heff'⟩
          rw [← hmarket hm]
          exact heff hm
        · intro hk
          have hm : o.orderType ≠ .market := by
            intro hm
            rw [hk] at hm
            cases hm
          have hself := heff' hm
          subst hself
          exact Executed.acceptable h hs hid he hno (hyes.killable hk)
        · exact fun hf => (hfill hf).symm.trans (hyes.fillable hf)
      cases ha' with
      | rejected hreject => exact absurd hyes' (hreject o')
      | @admitted o'' _ _ _ hyes'' he' =>
          obtain rfl := hyes'.unique hyes''
          exact Executed.twin h hs' hid' he he' hno

/-- An admitted order prints a trade at its limit, if something is acceptable
    to it. -/
theorem Adds.prints (hst : Steady b) {o o' : Order P} (hs : Sided o.side)
    {ts : List (Trade P)} (ha : Adds b o b' ts) (hyes : Admits b o o')
    (hex : ∃ y ∈ opposite b o.side, reaches o.side o'.price y.price) :
    ∃ t ∈ ts, (half o.side t).price = o'.price := by
  cases ha with
  | rejected hreject => exact absurd hyes (hreject o')
  | @admitted o'' _ _ _ hyes' he =>
      obtain rfl := hyes.unique hyes'
      have hside := (effective_terms hyes.effective).1
      rw [← hside] at hex ⊢
      obtain ⟨t, ht, hprice, -⟩ :=
        Executed.prints hst he (by rw [hside]; exact hs) hex
      exact ⟨t, ht, hprice⟩

/-- An order that trades was admitted, and every trade is at its limit. -/
theorem Adds.price_of_trade (hst : Steady b) {o : Order P} (hs : Sided o.side)
    {ts : List (Trade P)} (ha : Adds b o b' ts) {t : Trade P} (ht : t ∈ ts) :
    ∃ o', Admits b o o' ∧ (half o.side t).price = o'.price := by
  cases ha with
  | rejected _ => cases ht
  | @admitted o' _ _ _ hyes he =>
      have hside := (effective_terms hyes.effective).1
      refine ⟨o', hyes, ?_⟩
      rw [← hside]
      exact Executed.price_of_trade hst he (by rw [hside]; exact hs) t ht

/-- A Market order is admitted wherever there is a worst opposite price, with
    that price as its limit. -/
theorem admits_market (hl : Linked b) {o : Order P}
    (hm : o.orderType = .market) (hfresh : b.orders.find? o.orderId = none)
    {w : P} (hw : worstOpposite b o.side = some w) :
    Admits b o { o with price := w, orderType := .goodTillCancel } := by
  refine ⟨hfresh, (effective_worst hl).mpr ⟨fun _ => ⟨w, hw, rfl⟩,
    fun hno => absurd hm hno⟩, fun hk => ?_, fun hf => ?_⟩
  · rw [hm] at hk
    cases hk
  · rw [hm] at hf
    cases hf

/-- A Fill-Or-Kill order is admitted wherever `CanFullyFill` says so, under its
    own terms. -/
theorem admits_fillOrKill (hl : Linked b) {o : Order P}
    (hf : o.orderType = .fillOrKill)
    (hfresh : b.orders.find? o.orderId = none)
    (hfill : b.canFullyFill o.side o.price o.initialQuantity = .ok true) :
    Admits b o o := by
  refine ⟨hfresh, (effective_worst hl).mpr ⟨fun hm => ?_, fun _ => rfl⟩,
    fun hk => ?_, fun _ => hfill⟩
  · rw [hf] at hm
    cases hm
  · rw [hf] at hk
    cases hk

/-- A Market order that makes the same trades in both books got the same limit
    from both. -/
theorem Adds.worst_of_trades (hb : Steady b) (hk : Steady k) {o : Order P}
    (hs : Sided o.side) {ts : List (Trade P)} (ha : Adds b o b' ts)
    (ha' : Adds k o k' ts) (hm : o.orderType = .market)
    (hfresh : b.orders.find? o.orderId = none) {w : P}
    (hw : worstOpposite b o.side = some w) :
    worstOpposite k o.side = some w := by
  have hlb := hb.wellFormed.linked
  -- its limit is printed in the first book
  obtain ⟨t, ht, hprice⟩ := Adds.prints hb hs ha
    (admits_market hlb hm hfresh hw) (acceptable_of_worst hlb hs hw)
  -- and read off the same trade in the second
  obtain ⟨o', hyes, hprice'⟩ := Adds.price_of_trade hk hs ha' ht
  obtain ⟨w', hw', rfl⟩ :=
    ((effective_worst hk.wellFormed.linked).mp hyes.effective).1 hm
  have hsame : w = w' := hprice.symm.trans hprice'
  rw [hw', hsame]

/-- A Fill-Or-Kill order that makes the same trades in both books was answered
    the same by both. -/
theorem Adds.fillable_of_trades (hb : Steady b) (hk : Steady k) {o : Order P}
    (hs : Sided o.side) {ts : List (Trade P)} (ha : Adds b o b' ts)
    (ha' : Adds k o k' ts) (hf : o.orderType = .fillOrKill)
    (hfresh : b.orders.find? o.orderId = none)
    (hfill : b.canFullyFill o.side o.price o.initialQuantity = .ok true) :
    k.canFullyFill o.side o.price o.initialQuantity = .ok true := by
  have hlb := hb.wellFormed.linked
  obtain ⟨t, ht, -⟩ := Adds.prints hb hs ha
    (admits_fillOrKill hlb hf hfresh hfill)
    (acceptable_of_canFullyFill hlb hs hfill)
  obtain ⟨o', hyes, -⟩ := Adds.price_of_trade hk hs ha' ht
  exact hyes.fillable hf

/-- **THE SAME TRADES** mean that the order found the books alike. -/
theorem Adds.alike_of_trades (h : Twin orderId b k) {o : Order P}
    (hs : Sided o.side) (hid : o.orderId ≠ orderId) {ts : List (Trade P)}
    (ha : Adds b o b' ts) (ha' : Adds k o k' ts) : Alike b k o := by
  intro hfresh
  have hfresh' := (h.unknown hid).mpr hfresh
  constructor
  · intro hm
    refine Option.ext fun w => ⟨fun hw => ?_, fun hw => ?_⟩
    · exact Adds.worst_of_trades h.left h.right hs ha ha' hm hfresh hw
    · exact Adds.worst_of_trades h.right h.left hs ha' ha hm hfresh' hw
  · intro hf
    obtain ⟨r, hr⟩ := canFullyFill_ok h.left.wellFormed.linked hs o.price
      o.initialQuantity
    obtain ⟨r', hr'⟩ := canFullyFill_ok h.right.wellFormed.linked hs o.price
      o.initialQuantity
    have hright := Adds.fillable_of_trades h.left h.right hs ha ha' hf hfresh
    have hleft := Adds.fillable_of_trades h.right h.left hs ha' ha hf hfresh'
    rw [hr, hr'] at hright hleft ⊢
    cases r with
    | true => exact (hright rfl).symm
    | false =>
        cases r' with
        | true => exact hleft rfl
        | false => rfl

/-! ### A call -/

/-- Removing an order of another id from both books. -/
theorem Removed.twin (h : Twin orderId b k) {p r : OrderPointer}
    (hp : p ∈ pointers b) (hr : r ∈ pointers k)
    (heq : (b.heap p).orderId = (k.heap r).orderId)
    (hrem : Removed b p b') (hrem' : Removed k r k') :
    Twin orderId b' k' ∧ k.heap r = b.heap p := by
  have hlb := h.left.wellFormed.linked
  have hlk := h.right.wellFormed.linked
  refine ⟨⟨Removed.steady h.left hrem, Removed.steady h.right hrem',
    fun side => ?_⟩, ?_⟩
  · rw [Removed.own_filter hlk hr hrem', Removed.own_filter hlb hp hrem,
      without_filter, h.sides, heq]
  · have hmem : k.heap r ∈ resting k := by
      rw [resting_eq]
      exact List.mem_map_of_mem hr
    have hmem' := (h.mem_resting.mp hmem).1
    rw [resting_eq] at hmem'
    obtain ⟨q, hq, hheap⟩ := List.mem_map.mp hmem'
    have hid : (b.heap q).orderId = (b.heap p).orderId := by
      rw [hheap, heq]
    rw [← hheap, hlb.pointer_unique hq hp hid]

/-- The call names the id. -/
def mentions (orderId : OrderId) : Call P → Prop
  | .addOrder _ id _ _ _ => id = orderId
  | .cancelOrder id => id = orderId
  | .modifyOrder m => m.orderId = orderId

instance (orderId : OrderId) : DecidablePred (mentions (P := P) orderId)
  | .addOrder _ id _ _ _ => inferInstanceAs (Decidable (id = orderId))
  | .cancelOrder id => inferInstanceAs (Decidable (id = orderId))
  | .modifyOrder m => inferInstanceAs (Decidable (m.orderId = orderId))

/-- The order that a call hands to `AddOrder` finds the two books alike. -/
def CallAlike (b k : Orderbook P) (c : Call P) : Prop :=
  ∀ r ∈ handed b c, ∀ r' ∈ handed k c, Alike r.1 r'.1 r.2

instance (b k : Orderbook P) (c : Call P) : Decidable (CallAlike b k c) :=
  inferInstanceAs (Decidable (∀ r ∈ handed b c, ∀ r' ∈ handed k c, _))

theorem callAlike_cancel (b k : Orderbook P) (id : OrderId) :
    CallAlike b k (.cancelOrder id) := by
  intro r hr
  cases hr

/-- What a modification of a resting order hands on. -/
theorem handed_modified (hl : Linked b) {m : OrderModify P} {p : OrderPointer}
    {b1 : Orderbook P} (hp : p ∈ pointers b)
    (hid : m.orderId = (b.heap p).orderId) (hr : Removed b p b1) :
    handed b (.modifyOrder m)
      = some (b1, m.toOrder (b.heap p).orderType) := by
  have hfind : b.orders.find? m.orderId = some ⟨p, p⟩ :=
    (hl.index _ _).mpr ⟨p, hp, hid.symm, rfl⟩
  rw [handed, hfind, hid, hr.cancelled]

/-- **A CALL ON BOTH BOOKS**: the same trades and the same sides if the books
    are alike to it, and the same trades only then. -/
theorem Does.twin (h : Twin orderId b k) {c : Call P} (hs : callSided c)
    (hm : ¬ mentions orderId c) {ts ts' : List (Trade P)}
    (hd : Does b c b' ts) (hd' : Does k c k' ts')
    (hno : ∀ t ∈ ts, ¬ names orderId t) :
    (CallAlike b k c → ts' = ts ∧ Twin orderId b' k') ∧
      (ts' = ts → CallAlike b k c) := by
  have hlb := h.left.wellFormed.linked
  have hlk := h.right.wellFormed.linked
  have hleft := Does.steady h.left hs hd
  have hright := Does.steady h.right hs hd'
  have hknown : ∀ {p : OrderPointer} {id : OrderId}, p ∈ pointers b →
      id = (b.heap p).orderId → id ≠ orderId → k.orders.find? id ≠ none := by
    intro p id hp hid hne hn
    exact hlb.find?_eq_none.mp ((h.unknown hne).mp hn) p hp hid.symm
  have hknown' : ∀ {r : OrderPointer} {id : OrderId}, r ∈ pointers k →
      id = (k.heap r).orderId → id ≠ orderId → b.orders.find? id ≠ none := by
    intro r id hr hid hne hn
    exact hlk.find?_eq_none.mp ((h.unknown hne).mpr hn) r hr hid.symm
  -- both books know the same other ids, so both calls end alike
  cases hd with
  | added ha =>
      cases hd' with
      | added ha' =>
          constructor
          · intro halike
            obtain ⟨hts, hsides⟩ := Adds.twin_of_alike (o := .new _ _ _ _ _) h
              hs hm ha ha' hno (halike _ rfl _ rfl)
            exact ⟨hts, hleft, hright, hsides⟩
          · rintro rfl r hr r' hr'
            cases hr
            cases hr'
            exact Adds.alike_of_trades (o := .new _ _ _ _ _) h hs hm ha ha'
  | cancelled hp hid hrem =>
      have hnone := callAlike_cancel b k
      cases hd' with
      | cancelled hr hid' hrem' =>
          exact ⟨fun _ => ⟨rfl, (Removed.twin h hp hr (hid.symm.trans hid')
            hrem hrem').1⟩, fun _ => hnone _⟩
      | notFound hn => exact absurd hn (hknown hp hid hm)
  | notFound hn =>
      have hnone := callAlike_cancel b k
      cases hd' with
      | cancelled hr hid' _ => exact absurd hn (hknown' hr hid' hm)
      | notFound _ => exact ⟨fun _ => ⟨rfl, h⟩, fun _ => hnone _⟩
  | @modified m p b1 _ _ hp hid hrem ha =>
      cases hd' with
      | @modified _ r k1 _ _ hr hid' hrem' ha' =>
          obtain ⟨h1, hsame⟩ := Removed.twin h hp hr (hid.symm.trans hid')
            hrem hrem'
          have hhanded := handed_modified hlb hp hid hrem
          have hhanded' := handed_modified hlk hr hid' hrem'
          rw [hsame] at ha'
          constructor
          · intro halike
            obtain ⟨hts, hsides⟩ := Adds.twin_of_alike (o := m.toOrder _) h1 hs
              hm ha ha' hno (halike _ hhanded _ hhanded')
            exact ⟨hts, hleft, hright, hsides⟩
          · rintro rfl q hq q' hq'
            rw [hhanded] at hq
            rw [hhanded'] at hq'
            cases hq
            cases hq'
            exact Adds.alike_of_trades (o := m.toOrder _) h1 hs hm ha ha'
      | unknown hn => exact absurd hn (hknown hp hid hm)
  | @unknown m hn =>
      have hnone : CallAlike b k (.modifyOrder m) := by
        intro r hr
        rw [handed, hn] at hr
        cases hr
      cases hd' with
      | modified hr hid' _ _ => exact absurd hn (hknown' hr hid' hm)
      | unknown _ => exact ⟨fun _ => ⟨rfl, h⟩, fun _ => hnone⟩

end Books

/-! ## Two runs -/

/-- Calls among which a Good-Till-Cancel order is added and later cancelled. -/
def withOrder (before between after : List (Call P)) (orderId : OrderId)
    (side : Side) (price : P) (quantity : Nat) : List (Call P) :=
  before ++ .addOrder .goodTillCancel orderId side price quantity ::
    (between ++ .cancelOrder orderId :: after)

theorem withOrder_sided {orderId : OrderId} {side : Side} {price : P} {quantity : Nat}
    {before between after : List (Call P)} (hside : Sided side)
    (hs : ∀ c ∈ before ++ (between ++ after), callSided c) :
    ∀ c ∈ withOrder before between after orderId side price quantity,
      callSided c := by
  intro c hc
  simp only [withOrder, List.mem_append, List.mem_cons] at hc
  simp only [List.mem_append] at hs
  rcases hc with hc | rfl | hc | rfl | hc
  · exact hs c (Or.inl hc)
  · exact hside
  · exact hs c (Or.inr (Or.inl hc))
  · trivial
  · exact hs c (Or.inr (Or.inr hc))

/-- The history without the entries of the two calls. -/
def dropCalls (before between : List (Call P))
    (history : List (List (Trade P))) : List (List (Trade P)) :=
  (history.eraseIdx (before.length + 1 + between.length)).eraseIdx
    before.length

theorem dropCalls_append {before between : List (Call P)}
    {h₁ h₂ h₃ : List (List (Trade P))} (h1 : h₁.length = before.length)
    (h2 : h₂.length = between.length) (ts ts' : List (Trade P)) :
    dropCalls before between (h₁ ++ ts :: (h₂ ++ ts' :: h₃))
      = h₁ ++ (h₂ ++ h₃) := by
  have hlater : before.length ≤ before.length + 1 + between.length := by omega
  have hsplit : before.length + 1 + between.length - before.length
      = between.length + 1 := by omega
  rw [dropCalls, List.eraseIdx_append_of_length_le (by rw [h1]; exact hlater),
    h1, hsplit, List.eraseIdx_cons_succ,
    List.eraseIdx_append_of_length_le (Nat.le_of_eq h2), h2, Nat.sub_self,
    List.eraseIdx_cons_zero,
    List.eraseIdx_append_of_length_le (Nat.le_of_eq h1), h1, Nat.sub_self,
    List.eraseIdx_cons_zero]

section Runs

variable [LinearOrder P] {orderId : OrderId}

/-- The two runs side by side; the second is spared the calls that name the
    id. -/
def twice (orderId : OrderId) (s : Orderbook P × Orderbook P) (c : Call P) :
    Except Fault ((Orderbook P × Orderbook P) ×
      List (Trade P) × Option (List (Trade P))) :=
  Execution.beside Orderbook.call Orderbook.call (mentions orderId) s c

/-- Every order handed to `AddOrder` on the way finds the two books alike. -/
def RunsAlike (orderId : OrderId) (b k : Orderbook P)
    (calls : List (Call P)) : Prop :=
  Execution.Along (twice orderId) (fun s c => CallAlike s.1 s.2 c) (b, k)
    calls

/-- **TWO RUNS OF THE SAME CALLS**, none of which names the id: the same trades
    and the same sides if the books are alike on the way, and the same trades
    only then. -/
theorem run_twin (calls : List (Call P)) :
    ∀ {b k b' : Orderbook P} {history : List (List (Trade P))},
      Twin orderId b k → (∀ c ∈ calls, callSided c) →
      (∀ c ∈ calls, ¬ mentions orderId c) →
      b.run calls = .ok (b', history) →
      (∀ ts ∈ history, ∀ t ∈ ts, ¬ names orderId t) →
      ∃ k' history', k.run calls = .ok (k', history') ∧
        (RunsAlike orderId b k calls →
          history' = history ∧ Twin orderId b' k') ∧
        (history' = history → RunsAlike orderId b k calls) := by
  induction calls with
  | nil =>
      intro b k b' history h _ _ hrun _
      cases hrun
      exact ⟨k, [], rfl, fun _ => ⟨rfl, h⟩, fun _ => trivial⟩
  | cons c calls ih =>
      intro b k b' history h hs hm hrun hno
      have hc := hs c List.mem_cons_self
      have hmc := hm c List.mem_cons_self
      obtain ⟨b1, ts, os, hcall, hrest, rfl⟩ :=
        Execution.execute_cons_ok hrun
      have hd := Does.of_call h.left.wellFormed.linked hc hcall
      obtain ⟨k1, ts', hcall', hd'⟩ :=
        call_spec h.right.wellFormed.linked hc
      obtain ⟨hfwd, hback⟩ := Does.twin h hc hmc hd hd'
        (hno ts List.mem_cons_self)
      have hboth : twice orderId (b, k) c = .ok ((b1, k1), ts, some ts') :=
        Execution.beside_both hcall hcall' hmc
      have hstep : RunsAlike orderId b k (c :: calls) ↔
          CallAlike b k c ∧ RunsAlike orderId b1 k1 calls := by
        constructor
        · exact fun hal => ⟨hal.1, hal.2 _ _ hboth⟩
        · rintro ⟨hal, hals⟩
          refine ⟨hal, fun s o hs => ?_⟩
          rw [hboth] at hs
          cases hs
          exact hals
      by_cases halike : CallAlike b k c
      · obtain ⟨rfl, h1⟩ := hfwd halike
        obtain ⟨k', history', hrun', hfwd', hback'⟩ := ih h1
          (fun c hmem => hs c (List.mem_cons_of_mem _ hmem))
          (fun c hmem => hm c (List.mem_cons_of_mem _ hmem)) hrest
          (fun us hus => hno us (List.mem_cons_of_mem _ hus))
        refine ⟨k', ts' :: history',
          Execution.execute_cons_of hcall' hrun', ?_, ?_⟩
        · intro hal
          obtain ⟨rfl, h'⟩ := hfwd' (hstep.mp hal).2
          exact ⟨rfl, h'⟩
        · intro heq
          exact hstep.mpr ⟨halike, hback' (List.cons.inj heq).2⟩
      · -- the trades of this call differ already
        obtain ⟨k', history', hrun', -⟩ := run_wellFormed
          (Does.wellFormed h.right.wellFormed hd')
          (fun c hmem => hs c (List.mem_cons_of_mem _ hmem))
        refine ⟨k', ts' :: history',
          Execution.execute_cons_of hcall' hrun', ?_, ?_⟩
        · exact fun hal => absurd (hstep.mp hal).1 halike
        · exact fun heq => absurd (hback (List.cons.inj heq).1) halike

instance (b k : Orderbook P) (calls : List (Call P)) :
    Decidable (RunsAlike orderId b k calls) :=
  inferInstanceAs (Decidable (Execution.Along _ _ _ _))

theorem runsAlike_append {b k b' k' : Orderbook P} {cs ds : List (Call P)}
    {history history' : List (List (Trade P))}
    (hm : ∀ c ∈ cs, ¬ mentions orderId c)
    (hrun : b.run cs = .ok (b', history))
    (hrun' : k.run cs = .ok (k', history')) :
    RunsAlike orderId b k (cs ++ ds) ↔
      RunsAlike orderId b k cs ∧ RunsAlike orderId b' k' ds := by
  obtain ⟨os, hos⟩ := Execution.execute_beside hm hrun hrun'
  have hboth : Execution.execute (twice orderId) (b, k) cs
      = .ok ((b', k'), os) := hos
  rw [RunsAlike, Execution.along_append]
  constructor
  · exact fun h => ⟨h.1, h.2 _ _ hboth⟩
  · rintro ⟨h, hds⟩
    refine ⟨h, fun s os' hs => ?_⟩
    rw [hboth] at hs
    cases hs
    exact hds

theorem runsAlike_spared {b k b' : Orderbook P} {c : Call P}
    {cs : List (Call P)} {ts : List (Trade P)} (hm : mentions orderId c)
    (hcall : b.call c = .ok (b', ts)) (halike : CallAlike b k c) :
    RunsAlike orderId b k (c :: cs) ↔ RunsAlike orderId b' k cs := by
  have hstep : twice orderId (b, k) c = .ok ((b', k), ts, none) :=
    Execution.beside_spared hcall hm
  constructor
  · exact fun h => h.2 _ _ hstep
  · intro h
    refine ⟨halike, fun s os hs => ?_⟩
    rw [hstep] at hs
    cases hs
    exact h

/-! ### The two calls of the order -/

/-- An id that rests nowhere. -/
theorem Twin.absent {b : Orderbook P} (h : Twin orderId b b) (side : Side) :
    ∀ x ∈ own b side, x.orderId ≠ orderId := by
  intro x hx
  rw [h.sides] at hx
  exact (mem_without.mp hx).2

/-- **THE ORDER IS ADDED** and left alone: it rests, and nothing else
    changes. -/
theorem Does.added_silent {b b' : Orderbook P} (h : Twin orderId b b)
    {side : Side} (hs : Sided side) {price : P} {quantity : Nat}
    {ts : List (Trade P)}
    (hd : Does b (.addOrder .goodTillCancel orderId side price quantity) b' ts)
    (hno : ∀ t ∈ ts, ¬ names orderId t) : ts = [] ∧ Twin orderId b' b := by
  have hst' := Does.steady (c := .addOrder _ _ _ _ _) h.left hs hd
  have hl := h.left.wellFormed.linked
  cases hd with
  | added ha =>
      generalize ho : Order.new OsxOrderbook.OrderType.goodTillCancel orderId
        side price quantity = o at ha
      have htype : o.orderType = .goodTillCancel := by rw [← ho]; rfl
      have hid : o.orderId = orderId := by rw [← ho]; rfl
      have hside : o.side = side := by rw [← ho]; rfl
      have hs' : Sided o.side := by rw [hside]; exact hs
      cases ha with
      | rejected hreject =>
          refine absurd ⟨?_, ?_, ?_, ?_⟩ (hreject o)
          · refine Linked.absent hl (fun x hx => ?_)
            rw [hid]
            rcases List.mem_append.mp hx with hx | hx
            · exact h.absent .buy x hx
            · exact h.absent .sell x hx
          · rw [effective, if_neg (by rw [htype]; exact fun hm => by cases hm)]
          · rw [htype]
            exact fun hm => by cases hm
          · rw [htype]
            exact fun hm => by cases hm
      | @admitted o' _ _ log hyes he =>
          have hself : o' = o := ((effective_worst hl).mp hyes.effective).2
            (by rw [htype]; exact fun hm => by cases hm)
          subst hself
          have hsweep := Executed.sweep h.left.wellFormed h.left.settled hs' he
          have hnone : ∀ y ∈ opposite b o'.side,
              better o'.side y.price o'.price := by
            intro y hy
            by_contra hacc
            obtain ⟨t, ht, -, hname⟩ := Executed.prints h.left he hs'
              ⟨y, hy, (reaches_iff hs').mpr hacc⟩
            rw [hid] at hname
            exact hno t ht hname
          obtain ⟨hlog, hown, hopp⟩ := Sweep.rests hsweep hnone
          refine ⟨?_, hst', h.left, fun s => ?_⟩
          · have hpairs : (oriented o'.side log).map Round.pairs
                = (oriented o'.side []).map Round.pairs := by
              rw [hlog]
              rcases hs' with hs' | hs' <;> rw [hs'] <;> rfl
            exact trades_of_pairs o'.side hpairs
          · rcases side_cases hs' s with rfl | rfl | ⟨value, rfl⟩
            · rw [hown, without_restBehind_self hid]
              exact h.sides _
            · rw [opposite_eq, opposite_eq] at hopp
              rw [hopp]
              exact h.sides _
            · rfl

/-- **THE ORDER IS CANCELLED**: what is left is what the other book holds. -/
theorem Does.cancelled_twin {b k b' : Orderbook P} (h : Twin orderId b k)
    {ts : List (Trade P)} (hd : Does b (.cancelOrder orderId) b' ts) :
    ts = [] ∧ Twin orderId b' k ∧ Twin orderId b' b' := by
  have hst' := Does.steady (c := .cancelOrder _) h.left trivial hd
  have hsides : ts = [] ∧
      ∀ side, own b' side = without orderId (own b side) := by
    cases hd with
    | cancelled hp hid hrem =>
        refine ⟨rfl, fun side => ?_⟩
        rw [Removed.own_filter h.left.wellFormed.linked hp hrem, ← hid,
          without]
    | notFound hn =>
        refine ⟨rfl, fun side => (without_eq_self ?_).symm⟩
        have hfresh := Linked.fresh h.left.wellFormed.linked hn
        intro x hx
        cases side with
        | buy => exact hfresh x (List.mem_append_left _ hx)
        | sell => exact hfresh x (List.mem_append_right _ hx)
        | other _ => cases hx
  obtain ⟨hts, hsides⟩ := hsides
  refine ⟨hts, ⟨hst', h.right, fun side => ?_⟩, hst', hst', fun side => ?_⟩
  · rw [hsides, without_without]
    exact h.sides side
  · rw [hsides, without_without]

/-! ### With the order and without it -/

/-- The books hold the same levels, the same orders in them, and the same index
    up to the addresses of the orders. -/
structure SameBook (b k : Orderbook P) : Prop where
  bids : levelOrders k.heap k.bids = levelOrders b.heap b.bids
  asks : levelOrders k.heap k.asks = levelOrders b.heap b.asks
  orders : ∀ id,
    (k.orders.find? id).map (fun e => (k.heap e.order, k.heap e.location))
      = (b.orders.find? id).map (fun e => (b.heap e.order, b.heap e.location))

theorem sameBook_of_own {b k : Orderbook P} (hb : Linked b) (hk : Linked k)
    (h : ∀ side, own k side = own b side) : SameBook b k where
  bids := by
    refine Grouped.unique (Housed.grouped hb.bids) (Housed.grouped hk.bids) ?_
    rw [levelOrders_flatMap, levelOrders_flatMap]
    exact h .buy
  asks := by
    refine Grouped.unique (Housed.grouped hb.asks) (Housed.grouped hk.asks) ?_
    rw [levelOrders_flatMap, levelOrders_flatMap]
    exact h .sell
  orders := by
    intro id
    have hresting : resting k = resting b := by
      have hbids : restingBids k = restingBids b := h .buy
      have hasks : restingAsks k = restingAsks b := h .sell
      rw [resting, resting, hbids, hasks]
    rcases known_or_not hb id with hn | ⟨p, hp, hid, hfind⟩
    · have hn' : k.orders.find? id = none := by
        refine Linked.absent hk (fun x hx => ?_)
        rw [hresting] at hx
        exact Linked.fresh hb hn x hx
      rw [hn, hn']
      rfl
    · have hmem : b.heap p ∈ resting k := by
        rw [hresting, resting_eq]
        exact List.mem_map_of_mem hp
      rw [resting_eq] at hmem
      obtain ⟨r, hr, heq⟩ := List.mem_map.mp hmem
      have hfind' : k.orders.find? id = some ⟨r, r⟩ :=
        (hk.index _ _).mpr ⟨r, hr, by rw [heq, hid], rfl⟩
      rw [hfind, hfind', Option.map_some, Option.map_some, heq]

/-- The trades of a run, call by call; none if the run faults. -/
def historyAfter [Inhabited P] (calls : List (Call P)) :
    List (List (Trade P)) :=
  match Orderbook.run .empty calls with
  | .ok (_, history) => history
  | .error _ => []

theorem run_after [Inhabited P] {calls : List (Call P)}
    (hs : ∀ c ∈ calls, callSided c) :
    Orderbook.run .empty calls
      = .ok (bookAfter calls, historyAfter calls) := by
  obtain ⟨history, hrun⟩ := run_bookAfter hs
  rw [historyAfter, hrun]

theorem callAlike_goodTillCancel (b k : Orderbook P) (side : Side) (price : P)
    (quantity : Nat) :
    CallAlike b k
      (.addOrder .goodTillCancel orderId side price quantity) := by
  intro r hr r' _ _
  cases hr
  constructor
  · intro hm
    cases hm
  · intro hf
    cases hf

theorem twin_empty [Inhabited P] :
    Twin orderId (.empty : Orderbook P) .empty where
  left := steady_empty
  right := steady_empty
  sides := by
    intro side
    cases side <;> rfl

/-- A book in which the id does not rest stays its own twin along calls that do
    not name it. -/
theorem Twin.run_self {b b' : Orderbook P} {calls : List (Call P)}
    {history : List (List (Trade P))} (h : Twin orderId b b)
    (hs : ∀ c ∈ calls, callSided c) (hm : ∀ c ∈ calls, ¬ mentions orderId c)
    (hrun : b.run calls = .ok (b', history))
    (hno : ∀ ts ∈ history, ∀ t ∈ ts, ¬ names orderId t) :
    RunsAlike orderId b b calls ∧ Twin orderId b' b' := by
  obtain ⟨k', history', hrun', hfwd, hback⟩ := run_twin calls h hs hm hrun hno
  rw [hrun] at hrun'
  cases hrun'
  exact ⟨hback rfl, (hfwd (hback rfl)).2⟩

/-- The order is added, left alone in some calls and cancelled, and more calls
    follow; beside it, the same calls without the two. -/
theorem twin_parts {b1 b2 b3 b4 b5 k3 k5 : Orderbook P}
    {between after : List (Call P)} {side : Side} {price : P} {quantity : Nat}
    {ts ts' : List (Trade P)} {h₂ h₃ h₂' h₃' : List (List (Trade P))}
    (h : Twin orderId b1 b1) (hside : Sided side)
    (hs2 : ∀ c ∈ between, callSided c) (hs3 : ∀ c ∈ after, callSided c)
    (hm2 : ∀ c ∈ between, ¬ mentions orderId c)
    (hm3 : ∀ c ∈ after, ¬ mentions orderId c)
    (hadd : b1.call (.addOrder .goodTillCancel orderId side price quantity)
      = .ok (b2, ts))
    (hrun2 : b2.run between = .ok (b3, h₂))
    (hcancel : b3.call (.cancelOrder orderId) = .ok (b4, ts'))
    (hrun3 : b4.run after = .ok (b5, h₃))
    (hno : ∀ us ∈ ts :: (h₂ ++ h₃), ∀ t ∈ us, ¬ names orderId t)
    (hrun2' : b1.run between = .ok (k3, h₂'))
    (hrun3' : k3.run after = .ok (k5, h₃')) :
    (RunsAlike orderId b2 b1 between ∧ RunsAlike orderId b4 k3 after →
      h₂' = h₂ ∧ h₃' = h₃ ∧ SameBook b5 k5) ∧
      (h₂' = h₂ → h₃' = h₃ →
        RunsAlike orderId b2 b1 between ∧ RunsAlike orderId b4 k3 after) := by
  have hno2 : ∀ us ∈ h₂, ∀ t ∈ us, ¬ names orderId t := fun us hus =>
    hno us (List.mem_cons_of_mem _ (List.mem_append_left _ hus))
  have hno3 : ∀ us ∈ h₃, ∀ t ∈ us, ¬ names orderId t := fun us hus =>
    hno us (List.mem_cons_of_mem _ (List.mem_append_right _ hus))
  have hd := Does.of_call (c := .addOrder _ _ _ _ _)
    h.left.wellFormed.linked hside hadd
  obtain ⟨-, h2⟩ := Does.added_silent h hside hd
    (hno ts List.mem_cons_self)
  obtain ⟨k3', h₂'', heq, hfwd2, hback2⟩ := run_twin between h2 hs2 hm2
    hrun2 hno2
  rw [hrun2'] at heq
  cases heq
  -- after the cancel the order rests in neither book
  have hafter : Twin orderId b3 k3 →
      (RunsAlike orderId b4 k3 after → h₃' = h₃ ∧ Twin orderId b5 k5) ∧
        (h₃' = h₃ → RunsAlike orderId b4 k3 after) ∧ Twin orderId b4 b4 := by
    intro h3
    have hd' := Does.of_call (c := .cancelOrder orderId)
      h3.left.wellFormed.linked trivial hcancel
    obtain ⟨-, h4, hself⟩ := Does.cancelled_twin h3 hd'
    obtain ⟨k5', h₃'', heq, hfwd3, hback3⟩ := run_twin after h4 hs3 hm3
      hrun3 hno3
    rw [hrun3'] at heq
    cases heq
    exact ⟨hfwd3, hback3, hself⟩
  constructor
  · rintro ⟨hal2, hal3⟩
    obtain ⟨hsame2, h3⟩ := hfwd2 hal2
    obtain ⟨hfwd3, -, hself⟩ := hafter h3
    obtain ⟨hsame3, h5⟩ := hfwd3 hal3
    refine ⟨hsame2, hsame3, ?_⟩
    have habsent := (hself.run_self hs3 hm3 hrun3 hno3).2.absent
    refine sameBook_of_own h5.left.wellFormed.linked
      h5.right.wellFormed.linked (fun s => ?_)
    rw [h5.sides]
    exact without_eq_self (habsent s)
  · intro hsame2 hsame3
    have hal2 := hback2 hsame2
    exact ⟨hal2, (hafter (hfwd2 hal2).2).2.1 hsame3⟩

/-- **A CANCELLED ORDER THAT NEVER TRADED LEAVES NO TRACE** exactly when every
    order handed to `AddOrder` finds the two books alike, in the run with the
    two calls and the run without them side by side. -/
theorem cancelled_traceless [Inhabited P] {side : Side} {price : P}
    {quantity : Nat} {before between after : List (Call P)}
    (hside : Sided side)
    (hs : ∀ c ∈ before ++ (between ++ after), callSided c)
    (hm : ∀ c ∈ before ++ (between ++ after), ¬ mentions orderId c)
    (hno : ∀ ts ∈ historyAfter
        (withOrder before between after orderId side price quantity),
      ∀ t ∈ ts, ¬ names orderId t) :
    (historyAfter (before ++ (between ++ after))
        = dropCalls before between (historyAfter
            (withOrder before between after orderId side price quantity)) ∧
      SameBook
        (bookAfter
          (withOrder before between after orderId side price quantity))
        (bookAfter (before ++ (between ++ after)))) ↔
      RunsAlike orderId .empty .empty
        (withOrder before between after orderId side price quantity) := by
  -- the two runs, part by part
  have hsided : ∀ c ∈ withOrder before between after orderId side price quantity,
      callSided c := withOrder_sided hside hs
  have hrun := run_after hsided
  have hrun' := run_after hs
  obtain ⟨b1, h₁, os, hrun1, hrest, hhist⟩ := Execution.execute_append.mp hrun
  obtain ⟨b2, ts, os₂, hadd, hrest2, rfl⟩ := Execution.execute_cons_ok hrest
  obtain ⟨b3, h₂, os₃, hrun2, hrest3, rfl⟩ :=
    Execution.execute_append.mp hrest2
  obtain ⟨b4, ts', h₃, hcancel, hrun3, rfl⟩ :=
    Execution.execute_cons_ok hrest3
  obtain ⟨b1', h₁', os', hrun1', hrest', hhist'⟩ :=
    Execution.execute_append.mp hrun'
  rw [hrun1] at hrun1'
  cases hrun1'
  obtain ⟨k3, h₂', h₃', hrun2', hrun3', rfl⟩ :=
    Execution.execute_append.mp hrest'
  simp only [List.mem_append] at hs hm
  rw [hhist] at hno
  -- the id is unknown up to the first of the two calls
  obtain ⟨hal1, h1⟩ := twin_empty.run_self
    (fun c h => hs c (Or.inl h)) (fun c h => hm c (Or.inl h)) hrun1
    (fun us hus => hno us (List.mem_append_left _ hus))
  obtain ⟨hfwd, hback⟩ := twin_parts h1 hside
    (fun c h => hs c (Or.inr (Or.inl h)))
    (fun c h => hs c (Or.inr (Or.inr h)))
    (fun c h => hm c (Or.inr (Or.inl h)))
    (fun c h => hm c (Or.inr (Or.inr h))) hadd hrun2 hcancel hrun3
    (fun us hus => hno us (by
      simp only [List.mem_append, List.mem_cons] at hus ⊢
      tauto)) hrun2' hrun3'
  have halike : RunsAlike orderId .empty .empty
      (withOrder before between after orderId side price quantity) ↔
      RunsAlike orderId b2 b1 between ∧ RunsAlike orderId b4 k3 after := by
    rw [withOrder, runsAlike_append (fun c h => hm c (Or.inl h)) hrun1 hrun1,
      runsAlike_spared (show mentions orderId (.addOrder _ _ _ _ _) from rfl)
        hadd (callAlike_goodTillCancel _ _ _ _ _),
      runsAlike_append (fun c h => hm c (Or.inr (Or.inl h))) hrun2 hrun2',
      runsAlike_spared (show mentions orderId (.cancelOrder _) from rfl)
        hcancel (callAlike_cancel _ _ _)]
    exact ⟨fun h => h.2, fun h => ⟨hal1, h⟩⟩
  have hlength : h₂'.length = h₂.length :=
    (Execution.length_of_execute hrun2').trans
      (Execution.length_of_execute hrun2).symm
  rw [halike, hhist, hhist', dropCalls_append
    (Execution.length_of_execute hrun1) (Execution.length_of_execute hrun2)]
  constructor
  · rintro ⟨hsame, -⟩
    obtain ⟨h2, h3⟩ := List.append_inj (List.append_cancel_left hsame) hlength
    exact hback h2 h3
  · intro hal
    obtain ⟨rfl, rfl, hbook⟩ := hfwd hal
    exact ⟨rfl, hbook⟩

/-- The calls before, between and after the two calls of a sample order: a
    Market and a Fill-Or-Kill order that are filled before it, with a worse ask
    behind it, and a modification. -/
def sampleCalls : List (Call Int) × List (Call Int) × List (Call Int) :=
  ([.addOrder .goodTillCancel 2 .sell 100 5],
    [.addOrder .goodTillCancel 3 .sell 110 5, .addOrder .market 4 .buy 0 3,
      .addOrder .fillOrKill 5 .buy 100 1],
    [.modifyOrder ⟨3, .sell, 104, 2⟩])

theorem cancelled_traceless_sample :
    historyAfter (sampleCalls.1 ++ (sampleCalls.2.1 ++ sampleCalls.2.2))
        = dropCalls sampleCalls.1 sampleCalls.2.1
            (historyAfter (withOrder sampleCalls.1 sampleCalls.2.1
              sampleCalls.2.2 1 .sell 105 4)) ∧
      SameBook
        (bookAfter (withOrder sampleCalls.1 sampleCalls.2.1 sampleCalls.2.2
          1 .sell 105 4))
        (bookAfter
          (sampleCalls.1 ++ (sampleCalls.2.1 ++ sampleCalls.2.2))) :=
  (cancelled_traceless (by decide) (by decide) (by decide)
    (by decide +kernel)).mpr (by decide +kernel)

/-- A crossing at 100 empties the bid's level and erases the shared aggregate,
    which the order of id 1 still stands in; its cancellation then takes the
    entry of the later ask away, and a Fill-Or-Kill bid for that ask is
    dropped. -/
theorem cancelled_order_traced :
    ¬ ∀ (orderId : OrderId) (side : Side) (price : Int) (quantity : Nat)
      (before between after : List (Call Int)),
      Sided side → 0 < quantity →
      (∀ c ∈ before ++ (between ++ after), Regular c) →
      (∀ c ∈ before ++ (between ++ after), ¬ mentions orderId c) →
      (∀ ts ∈ historyAfter
        (withOrder before between after orderId side price quantity),
        ∀ t ∈ ts, ¬ names orderId t) →
      historyAfter (before ++ (between ++ after))
          = dropCalls before between (historyAfter
              (withOrder before between after orderId side price quantity)) ∧
        SameBook
          (bookAfter
            (withOrder before between after orderId side price quantity))
          (bookAfter (before ++ (between ++ after))) := by
  intro h
  have hsame := (h 1 .sell 100 5 [.addOrder .goodTillCancel 10 .sell 100 3]
    [.addOrder .goodTillCancel 2 .buy 100 3,
      .addOrder .goodTillCancel 3 .sell 100 4]
    [.addOrder .fillOrKill 4 .buy 100 4] (by decide) (by decide) (by decide)
    (by decide) (by decide +kernel)).1
  revert hsame
  decide +kernel

end Runs

end OsxTraceless
