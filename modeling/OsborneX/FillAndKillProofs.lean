import OsborneX.FillOrKillProofs

/-! # Fill-And-Kill — one level, then the remainder is killed

    `MatchOrders` looks for a Fill-And-Kill front after EACH pair of levels, so
    the incoming order is cancelled as soon as it has exhausted the best
    opposite level, however much lies behind it at acceptable prices.

    The order therefore trades the smaller of its quantity and the best level,
    and everything available to it exactly when one level is enough or all
    there is. -/

namespace OsxFillAndKill

open OsxOrderbook OsxCrossing OsxLink OsxMatching OsxCalls OsxRepresentation
open OsxSweep OsxReachable OsxTally OsxLevelData OsxRemainder OsxFillOrKill

variable {P : Type}

/-! ## What an order trades against one level -/

section Level

/-- An id on one side of every pairing is attributed all they trade. -/
theorem tradedQuantity_pairs {pairs : List (Pairing P)} {id : OrderId}
    (h : ∀ p ∈ pairs, names id p.trade) :
    tradedQuantity id (pairs.map Pairing.trade)
      = (pairs.map Pairing.quantity).sum := by
  induction pairs with
  | nil => rfl
  | cons p pairs ih =>
      have hrest := ih (fun p' hp' => h p' (List.mem_cons_of_mem _ hp'))
      rw [List.map_cons, tradedQuantity, if_pos (h p List.mem_cons_self),
        hrest, List.map_cons, List.sum_cons]
      rfl

/-- The incoming order is on its own side of every pairing. -/
theorem Cross.named {o : Order P} {A xs' ys' : List (Order P)}
    {pairs : List (Pairing P)} (h : Cross [o] A pairs xs' ys') :
    ∀ p ∈ pairs, p.bid.orderId = o.orderId := by
  intro p hp
  obtain ⟨⟨x, hx, hterms⟩, -⟩ := h.pairs_from p hp
  rw [hterms.fields.2.1, List.mem_singleton.mp hx]

/-- The inner loop takes from a side what its pairings trade. -/
theorem Cross.traded_weight {xs ys xs' ys' : List (Order P)}
    {pairs : List (Pairing P)} (h : Cross xs ys pairs xs' ys') :
    weight ys = weight ys' + (pairs.map Pairing.quantity).sum := by
  induction h with
  | done _ => rfl
  | @pair x y xs ys xs' ys' pairs q hq _ ih =>
      have hle : q ≤ y.remainingQuantity := by
        rw [hq]
        exact Nat.min_le_right _ _
      have hleave := weight_leave hle ys
      have hcons : weight (y :: ys) = y.remainingQuantity + weight ys := rfl
      have hsum : ((⟨x, y, q⟩ :: pairs).map Pairing.quantity).sum
          = q + (pairs.map Pairing.quantity).sum := rfl
      omega

/-- Orienting a log keeps what it attributes to an id. -/
theorem tradedQuantity_oriented (side : Side) (log : List (Round P))
    (id : OrderId) :
    tradedQuantity id (trades (oriented side log))
      = tradedQuantity id (trades log) := by
  have hpairs : ∀ pairs : List (Pairing P),
      tradedQuantity id ((pairs.map Pairing.swap).map Pairing.trade)
        = tradedQuantity id (pairs.map Pairing.trade) := by
    intro pairs
    induction pairs with
    | nil => rfl
    | cons p pairs ih =>
        have hname : names id p.swap.trade ↔ names id p.trade := or_comm
        simp only [List.map_cons, tradedQuantity, ih, hname]
        rfl
  have hswap : tradedQuantity id (trades (log.map Round.swap))
      = tradedQuantity id (trades log) := by
    induction log with
    | nil => rfl
    | cons r log ih =>
        rw [List.map_cons, trades_cons, trades_cons, tradedQuantity_append,
          tradedQuantity_append, ih]
        exact congrArg (· + _) (hpairs r.pairs)
  cases side with
  | buy => rfl
  | sell => exact hswap
  | other _ => rfl

variable {lt : P → P → Prop} [DecidableRel lt] {o : Order P}
  {log : List (Round P)} {own own' opp opp' : List (Order P)}

/-- A part of a side and the others offer what the side offers. -/
theorem depth_filter {limit : P} (p : Order P → Bool)
    (L : List (Order P)) :
    depth lt limit L
      = depth lt limit (L.filter p) + depth lt limit (L.filter (! p ·)) := by
  have hperm := (List.filter_append_perm p L).filter
    (fun y => ¬ lt y.price limit)
  rw [depth, depth, depth, ← weight_append, ← List.filter_append]
  exact (hperm.map _).sum_nat.symm

/-- **A FILL-AND-KILL SWEEP** that meets an acceptable price trades the
    smaller of the order's quantity and the best level, and leaves its own side
    as it was. -/
theorem Sweep.fillAndKill (h : Sweep lt own o opp log own' opp')
    (hk : o.orderType = .fillAndKill)
    (hacc : ∃ y ∈ opp, ¬ lt y.price o.price) :
    own' = own ∧ ∃ A as pa, opp = A ++ as ∧ A ≠ [] ∧
      (∀ y ∈ A, y.price = pa) ∧ (∀ y ∈ as, lt y.price pa) ∧
      ¬ lt pa o.price ∧
      tradedQuantity o.orderId (trades log)
        = min o.remainingQuantity (weight A) := by
  have htraded : ∀ {A : List (Order P)} {pairs : List (Pairing P)}
      {xs' ys' : List (Order P)} {r : Round P}, Cross [o] A pairs xs' ys' →
      r.pairs = pairs → tradedQuantity o.orderId (trades [r])
        = weight A - weight ys' := by
    intro A pairs xs' ys' r hc hr
    have hw := Cross.traded_weight hc
    rw [trades_cons, hr, tradedQuantity_append,
      tradedQuantity_pairs (fun p hp => Or.inl (Cross.named hc p hp)), hw]
    simp [trades]
  have hone : weight [o] = o.remainingQuantity := Nat.add_zero _
  have hnil : weight ([] : List (Order P)) = 0 := rfl
  cases h with
  | rest h =>
      obtain ⟨y, hy, hno⟩ := hacc
      exact absurd (h y hy) hno
  | @filled _ A A' as pa pairs hA has hA0 hcross hc =>
      have hw := Cross.weight hc
      refine ⟨rfl, A, as, pa, rfl, hA0, hA, has, hcross, ?_⟩
      rw [htraded hc rfl]
      omega
  | @killed _ r A _ pa pairs hA has hA0 hcross hc _ =>
      have hw := Cross.weight hc
      refine ⟨rfl, A, _, pa, rfl, hA0, hA, has, hcross, ?_⟩
      rw [htraded hc rfl]
      omega
  | next _ _ _ _ _ hno _ => exact absurd hk hno

end Level

/-! ## Everything available, and nothing left -/

section FillAndKill

variable [LinearOrder P] {b b' : Orderbook P} {side : Side} {price : P}
  {quantity : Nat} {orderId : OrderId}

/-- **FILL AND KILL**: the order trades everything available at its limit, up
    to its quantity, never rests, and takes nothing from the other orders but
    what they trade. -/
def FillsAndKills (b : Orderbook P) (orderId : OrderId) (side : Side)
    (price : P) (quantity : Nat) : Prop :=
  ∃ b' ts, b.call (.addOrder .fillAndKill orderId side price quantity)
      = .ok (b', ts) ∧
    tradedQuantity orderId ts
      = min quantity (depth (better side) price (opposite b side)) ∧
    b'.orders.find? orderId = none ∧ OthersKept b b' orderId ts

/-- The orders at the best opposite price. -/
def bestLevel (b : Orderbook P) (side : Side) : List (Order P) :=
  match opposite b side with
  | [] => []
  | best :: rest => (best :: rest).filter (fun y => y.price = best.price)

/-- One level offers the quantity, or holds all the orders at acceptable
    prices. -/
def OneLevel (b : Orderbook P) (side : Side) (price : P) (quantity : Nat) :
    Prop :=
  quantity ≤ depth (better side) price (bestLevel b side) ∨
    ∀ y ∈ opposite b side, reaches side price y.price → y ∈ bestLevel b side

theorem bestLevel_sub : ∀ y ∈ bestLevel b side, y ∈ opposite b side := by
  intro y hy
  rw [bestLevel] at hy
  cases hopp : opposite b side with
  | nil =>
      rw [hopp] at hy
      exact hy
  | cons best rest =>
      rw [hopp] at hy
      exact List.mem_of_mem_filter hy

/-- The best level of a side cut at its best price. -/
theorem bestLevel_eq (hs : Sided side) {A as : List (Order P)} {pa : P}
    (hopp : opposite b side = A ++ as) (hA0 : A ≠ [])
    (hA : ∀ y ∈ A, y.price = pa) (has : ∀ y ∈ as, better side y.price pa) :
    bestLevel b side = A := by
  cases A with
  | nil => exact absurd rfl hA0
  | cons y0 A =>
      have hy0 := hA y0 List.mem_cons_self
      have hself : (y0 :: A).filter (fun y => y.price = y0.price)
          = y0 :: A := by
        refine List.filter_eq_self.mpr (fun y hy => ?_)
        simp [hA y hy, hy0]
      have hnone : as.filter (fun y => y.price = y0.price) = [] := by
        refine List.filter_eq_nil_iff.mpr (fun y hy => ?_)
        have hne : y.price ≠ y0.price := by
          intro heq
          have hworse := has y hy
          rw [heq, hy0] at hworse
          exact irrefl_better hs hworse
        simpa using hne
      rw [bestLevel, hopp]
      show (y0 :: A ++ as).filter _ = _
      rw [List.filter_append, hself, hnone, List.append_nil]

/-- Nothing is available exactly when nothing is acceptable. -/
theorem depth_eq_zero_iff (hs : Sided side) {L : List (Order P)}
    (hL : ∀ y ∈ L, 0 < y.remainingQuantity) :
    depth (better side) price L = 0 ↔
      ∀ y ∈ L, ¬ reaches side price y.price := by
  constructor
  · intro hzero y hy hreach
    have hle := remaining_le_depth hy ((reaches_iff hs).mp hreach)
    have hpos := hL y hy
    omega
  · intro hno
    refine depth_eq_zero (fun y hy => ?_)
    by_contra hnot
    exact hno y hy ((reaches_iff hs).mpr hnot)

/-- One level does exactly when it leaves nothing of what is available that the
    quantity could take. -/
theorem oneLevel_iff (hpos : Positive b) (hs : Sided side) :
    OneLevel b side price quantity ↔
      min quantity (depth (better side) price (bestLevel b side))
        = min quantity (depth (better side) price (opposite b side)) := by
  have hpos' : ∀ y ∈ opposite b side, 0 < y.remainingQuantity := by
    rw [opposite_eq]
    exact hpos _
  cases hopp : opposite b side with
  | nil => simp [OneLevel, bestLevel, hopp]
  | cons best rest =>
      rw [hopp] at hpos'
      have hbest : bestLevel b side
          = (best :: rest).filter (fun y => y.price = best.price) := by
        rw [bestLevel, hopp]
      let behind := (best :: rest).filter
        (fun y => ! decide (y.price = best.price))
      have hsplit : depth (better side) price (best :: rest)
          = depth (better side) price ((best :: rest).filter
              (fun y => y.price = best.price))
            + depth (better side) price behind := depth_filter _ _
      have hzero : depth (better side) price behind = 0 ↔
          ∀ y ∈ behind, ¬ reaches side price y.price :=
        depth_eq_zero_iff hs
          (fun y hy => hpos' y (List.mem_of_mem_filter hy))
      have hbehind : (∀ y ∈ behind, ¬ reaches side price y.price) ↔
          ∀ y ∈ best :: rest, reaches side price y.price →
            y ∈ bestLevel b side := by
        rw [hbest]
        simp only [behind, List.mem_filter]
        constructor
        · intro hno y hy hreach
          refine ⟨hy, ?_⟩
          by_contra hne
          exact hno y ⟨hy, by simpa using hne⟩ hreach
        · rintro hall y ⟨hy, hne⟩ hreach
          have hin := (hall y hy hreach).2
          simp only [hin, Bool.not_true] at hne
          cases hne
      rw [OneLevel, hopp, ← hbehind, ← hzero, hsplit, hbest]
      omega

/-- An admitted Fill-And-Kill order, executed. -/
theorem Executed.fillAndKill (hst : Steady b) {o : Order P}
    {b2 : Orderbook P} {log : List (Round P)} (he : Executed b o b2 b' log)
    (hs : Sided o.side) (hk : o.orderType = .fillAndKill)
    (hfresh : b.orders.find? o.orderId = none)
    (hacc : ∃ y ∈ opposite b o.side, reaches o.side o.price y.price) :
    b'.orders.find? o.orderId = none ∧
    tradedQuantity o.orderId (trades log) = min o.remainingQuantity
      (depth (better o.side) o.price (bestLevel b o.side)) := by
  obtain ⟨y, hy, hreach⟩ := hacc
  obtain ⟨hown, A, as, pa, hopp, hA0, hA, has, hcross, htraded⟩ :=
    Sweep.fillAndKill (Executed.sweep hst.wellFormed hst.settled hs he) hk
      ⟨y, hy, (reaches_iff hs).mp hreach⟩
  have hdepth : depth (better o.side) o.price (A ++ [])
      = weight A + 0 :=
    depth_append (fun z hz => by rw [hA z hz]; exact hcross)
  rw [List.append_nil] at hdepth
  rw [bestLevel_eq hs hopp hA0 hA has, hdepth,
    ← tradedQuantity_oriented o.side, htraded]
  exact ⟨Executed.absent hst he hs hfresh hown, rfl⟩

/-- A Fill-And-Kill order is admitted when it can trade at all. -/
theorem fillAndKill_admits (hfresh : b.orders.find? orderId = none)
    {o' : Order P} :
    Admits b (.new .fillAndKill orderId side price quantity) o' ↔
      o' = .new .fillAndKill orderId side price quantity ∧
        ∃ y ∈ opposite b side, reaches side price y.price := by
  constructor
  · intro ha
    exact ⟨(Option.some.inj ha.effective).symm, ha.killable rfl⟩
  · rintro ⟨rfl, hacc⟩
    exact ⟨hfresh, rfl, fun _ => hacc, fun h => (by cases h)⟩

/-- **WHAT EVERY FILL-AND-KILL ORDER DOES**: it trades what the best level
    offers, never rests, and takes nothing from the others but what they
    trade. -/
theorem fillAndKill_spec (hst : Steady b) (hs : Sided side)
    (hfresh : b.orders.find? orderId = none) (price : P) (quantity : Nat) :
    ∃ b' ts, b.call (.addOrder .fillAndKill orderId side price quantity)
        = .ok (b', ts) ∧
      tradedQuantity orderId ts = min quantity
        (depth (better side) price (bestLevel b side)) ∧
      b'.orders.find? orderId = none ∧ OthersKept b b' orderId ts := by
  obtain ⟨b', ts, hrun, ha⟩ := addOrder_spec hst.wellFormed.linked
    (.new .fillAndKill orderId side price quantity) hs (Nat.le_refl _)
  have hothers : OthersKept b b' orderId ts := Adds.othersKept hst ha hs
  refine ⟨b', ts, hrun, ?_⟩
  cases ha with
  | rejected hno =>
      -- nothing is acceptable, so the best level offers nothing
      have hzero : depth (better side) price (bestLevel b side) = 0 := by
        refine depth_eq_zero (fun y hy => ?_)
        by_contra hnot
        exact hno _ ((fillAndKill_admits hfresh).mpr
          ⟨rfl, y, bestLevel_sub y hy, (reaches_iff hs).mpr hnot⟩)
      rw [hzero, Nat.min_zero]
      exact ⟨rfl, hfresh, hothers⟩
  | @admitted o' b2 _ log ha he =>
      obtain ⟨rfl, hacc⟩ := (fillAndKill_admits hfresh).mp ha
      obtain ⟨hgone, htraded⟩ :=
        Executed.fillAndKill hst he hs rfl hfresh hacc
      exact ⟨htraded, hgone, hothers⟩

/-- **FILL-AND-KILL.**  On every book a run reaches, a fresh order trades
    everything available at its limit, never rests and cancels no other order,
    exactly when one level offers its quantity or is all there is. -/
theorem fillAndKill_iff [Inhabited P] {calls : List (Call P)}
    {history : List (List (Trade P))}
    (hrun : Orderbook.run .empty calls = .ok (b, history))
    (hreg : ∀ c ∈ calls, Regular c) (hs : Sided side) (price : P)
    (quantity : Nat) (hfresh : b.orders.find? orderId = none) :
    FillsAndKills b orderId side price quantity ↔
      OneLevel b side price quantity := by
  have hreach : Reached Regular b := ⟨calls, history, hreg, hrun⟩
  obtain ⟨hst, hpos⟩ := hreach.regular
  obtain ⟨b', ts, hcall, htraded, hgone, hothers⟩ :=
    fillAndKill_spec hst hs hfresh price quantity
  rw [oneLevel_iff hpos hs, ← htraded, FillsAndKills,
    Execution.ok_iff hcall]
  constructor
  · rintro ⟨h, -⟩
    exact h
  · exact fun h => ⟨h, hgone, hothers⟩

end FillAndKill

/-- On two ask levels a Fill-And-Kill bid fills from the first when that is
    enough. -/
theorem fillAndKill_iff_twoAsks :
    FillsAndKills (bookAfter twoAsks) 3 .buy 101 2 ↔
      OneLevel (bookAfter twoAsks) .buy 101 2 := by
  obtain ⟨history, hrun⟩ := run_bookAfter
    (show ∀ c ∈ twoAsks, callSided c by decide)
  have hfresh : (bookAfter twoAsks).orders.find? 3 = none := by decide
  exact fillAndKill_iff hrun (by decide) (Or.inl rfl) 101 2 hfresh

/-- **A SECOND LEVEL IS OUT OF REACH**: three lots at 100 and four at 101, and
    a Fill-And-Kill bid for seven at 101 trades three. -/
theorem fillAndKill_stops : ¬ ∀ (b : Orderbook Int), Reached Regular b →
    b.orders.find? 3 = none → FillsAndKills b 3 .buy 101 7 := by
  intro h
  have hreach : Reached Regular (bookAfter twoAsks) :=
    reached_bookAfter (by decide) (by decide)
  obtain ⟨b', ts, hcall, htraded, -⟩ := h _ hreach (by decide)
  have hthree : ((bookAfter twoAsks).call
      (.addOrder .fillAndKill 3 .buy 101 7)).toOption.map
      (fun r => tradedQuantity 3 r.2) = some 3 := by decide +kernel
  rw [hcall] at hthree
  have hts : tradedQuantity 3 ts = 3 := Option.some.inj hthree
  have hdepth : depth (better .buy) 101 (opposite (bookAfter twoAsks) .buy)
      = 7 := by decide +kernel
  omega

end OsxFillAndKill
