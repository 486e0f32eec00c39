import OsborneX.ZeroQuantityProofs

/-! # Reported depth — level quantities are sums of 32 bits

    `GetOrderInfos` lists the levels of both maps as they are, so the prices
    and their order are always right.  Each quantity is accumulated in the
    32-bit type of one order: it is the level's total modulo `2 ^ 32`
    (`info_quantity`), and nothing bounds how many orders rest there. -/

namespace OsxDepth

open OsxOrderbook OsxLink OsxCalls OsxReachable OsxMirror OsxPriceLimit
open OsxSoundRun OsxZeroQuantity OsxShard OsxPrice Execution

/-! ## What a level holds -/

section Levels

variable {P : Type} [BEq P]

/-- What is left of the orders at a price, in unbounded arithmetic. -/
def depthAt (price : P) (orders : List (Order P)) : Nat :=
  ((orders.filter (fun o => o.price == price)).map
    Order.remainingQuantity).sum

/-- Every level holds orders, at its own price and at that of no other. -/
structure Gathered {lt : P → P → Prop} (heap : OrderPointer → Order P)
    (levels : Levels P lt) : Prop where
  nonempty : ∀ e ∈ levels.entries, e.2 ≠ []
  placed : ∀ e ∈ levels.entries, ∀ p ∈ e.2, ∀ e' ∈ levels.entries,
    ((heap p).price == e'.1) = true ↔ e' = e

theorem foldl_wrapAdd {A : Type} (f : A → Nat) (l : List A) :
    ∀ n, l.foldl (fun sum a => wrapAdd sum (f a)) (n % 2 ^ 32)
      = (n + (l.map f).sum) % 2 ^ 32 := by
  induction l with
  | nil => exact fun _ => rfl
  | cons a l ih =>
      intro n
      have hhead : wrapAdd (n % 2 ^ 32) (f a) = (n + f a) % 2 ^ 32 :=
        Nat.mod_add_mod ..
      rw [List.foldl_cons, hhead, ih, List.map_cons, List.sum_cons,
        Nat.add_assoc]

/-- Of the orders of all levels, those at a level's price are its own. -/
theorem filter_level {heap : OrderPointer → Order P}
    {e : P × List OrderPointer} {entries : List (P × List OrderPointer)}
    (hnodup : entries.Nodup) (he : e ∈ entries)
    (hplaced : ∀ e' ∈ entries, ∀ p ∈ e'.2,
      ((heap p).price == e.1) = true ↔ e = e') :
    (entries.flatMap Prod.snd).filter (fun p => (heap p).price == e.1)
      = e.2 := by
  have hother : ∀ e' ∈ entries, e ≠ e' →
      e'.2.filter (fun p => (heap p).price == e.1) = [] := by
    intro e' he' hne
    refine List.filter_eq_nil_iff.mpr (fun p hp hprice => ?_)
    exact hne ((hplaced e' he' p hp).mp hprice)
  induction entries with
  | nil => cases he
  | cons e' entries ih =>
      obtain ⟨hnew, hnodup⟩ := List.nodup_cons.mp hnodup
      rw [List.flatMap_cons, List.filter_append]
      by_cases heq : e = e'
      · subst heq
        have hown : e.2.filter (fun p => (heap p).price == e.1) = e.2 :=
          List.filter_eq_self.mpr
            (fun p hp => (hplaced e List.mem_cons_self p hp).mpr rfl)
        have hrest : (entries.flatMap Prod.snd).filter
            (fun p => (heap p).price == e.1) = [] := by
          rw [List.filter_flatMap, List.flatMap_eq_nil_iff]
          intro e' he'
          refine hother e' (List.mem_cons_of_mem _ he') ?_
          rintro rfl
          exact hnew he'
        rw [hown, hrest, List.append_nil]
      · rw [hother e' List.mem_cons_self heq, List.nil_append]
        refine ih hnodup ((List.mem_cons.mp he).resolve_left heq)
          (fun e'' he'' => hplaced e'' (List.mem_cons_of_mem _ he''))
          (fun e'' he'' => hother e'' (List.mem_cons_of_mem _ he''))

end Levels

/-! ## One side -/

section Sides

variable {b : Orderbook Double} {lt : Double → Double → Prop}
  {levels : Levels Double lt}

/-- The levels of a side as `GetOrderInfos` lists them. -/
def infosOf (b : Orderbook Double) (levels : Levels Double lt) :
    List (LevelInfo Double) :=
  levels.entries.map (fun e => b.createLevelInfo e.1 e.2)

/-- The orders of a side. -/
def ordersOf (b : Orderbook Double) (levels : Levels Double lt) :
    List (Order Double) :=
  (pointersOf levels).map b.heap

/-- The levels listed are those of the orders, in order, each with the total
    that rests there. -/
structure TrueSide (lt : Double → Double → Prop)
    (infos : List (LevelInfo Double)) (orders : List (Order Double)) :
    Prop where
  ordered : infos.Pairwise (fun a b => lt a.price b.price)
  prices : ∀ x, (∃ info ∈ infos, (info.price == x) = true) ↔
    ∃ o ∈ orders, (o.price == x) = true
  quantities : ∀ info ∈ infos, info.quantity = depthAt info.price orders

/-- A reported quantity is the level's total modulo `2 ^ 32`. -/
theorem info_quantity (hg : Gathered b.heap levels)
    (hirrefl : ∀ x, ¬ lt x x) :
    ∀ info ∈ infosOf b levels,
      info.quantity = depthAt info.price (ordersOf b levels) % 2 ^ 32 := by
  intro info hinfo
  obtain ⟨e, he, rfl⟩ := List.mem_map.mp hinfo
  have hnodup : levels.entries.Nodup := by
    refine levels.sorted.imp (fun {e e'} hlt heq => ?_)
    rw [heq] at hlt
    exact hirrefl _ hlt
  have hlevel : (pointersOf levels).filter
      (fun p => (b.heap p).price == e.1) = e.2 :=
    filter_level hnodup he (fun e' he' p hp => hg.placed e' he' p hp e he)
  have hdepth : depthAt e.1 (ordersOf b levels)
      = (e.2.map (fun p => (b.heap p).remainingQuantity)).sum := by
    rw [depthAt, ordersOf, List.filter_map, List.map_map]
    exact congrArg (fun l => (l.map
      (fun p => (b.heap p).remainingQuantity)).sum) hlevel
  show e.2.foldl (fun sum p => wrapAdd sum (b.heap p).remainingQuantity) 0
    = depthAt e.1 _ % 2 ^ 32
  rw [hdepth]
  have hsum := foldl_wrapAdd (fun p => (b.heap p).remainingQuantity) e.2 0
  rw [Nat.zero_add] at hsum
  exact hsum

theorem beq_iff {x y : Double} : (x == y) = true ↔
    x.isNaN = false ∧ y.isNaN = false ∧ x.key = y.key := by
  show (!x.isNaN && !y.isNaN && x.key == y.key) = true ↔ _
  simp [and_assoc]

/-- Equal prices have the same depth. -/
theorem depthAt_congr {x y : Double} (h : (x == y) = true)
    (orders : List (Order Double)) : depthAt x orders = depthAt y orders := by
  obtain ⟨hx, hy, hkey⟩ := beq_iff.mp h
  have hsame : ∀ o : Order Double, (o.price == x) = (o.price == y) := by
    intro o
    rw [Bool.eq_iff_iff, beq_iff, beq_iff, hx, hy, hkey]
  rw [depthAt, depthAt]
  simp only [hsame]

theorem depthAt_eq_zero {x : Double} {orders : List (Order Double)}
    (h : ∀ o ∈ orders, ¬ (o.price == x) = true) : depthAt x orders = 0 := by
  rw [depthAt, List.filter_eq_nil_iff.mpr h]
  rfl

theorem depthAt_pos {x : Double} {orders : List (Order Double)}
    (hpos : ∀ o ∈ orders, 0 < o.remainingQuantity)
    (h : ∃ o ∈ orders, (o.price == x) = true) : 0 < depthAt x orders := by
  obtain ⟨o, ho, hprice⟩ := h
  have hmem : o.remainingQuantity ∈ (orders.filter
      (fun o => o.price == x)).map Order.remainingQuantity :=
    List.mem_map_of_mem (List.mem_filter.mpr ⟨ho, hprice⟩)
  exact Nat.lt_of_lt_of_le (hpos o ho) (List.le_sum_of_mem hmem)

/-- The prices listed are those at which orders rest. -/
theorem listed_prices (hg : Gathered b.heap levels) (x : Double) :
    (∃ info ∈ infosOf b levels, (info.price == x) = true) ↔
      ∃ o ∈ ordersOf b levels, (o.price == x) = true := by
  constructor
  · rintro ⟨info, hinfo, hprice⟩
    obtain ⟨e, he, rfl⟩ := List.mem_map.mp hinfo
    obtain ⟨p, hp⟩ := List.exists_mem_of_ne_nil _ (hg.nonempty e he)
    refine ⟨b.heap p, List.mem_map_of_mem (mem_pointersOf.mpr ⟨e, he, hp⟩), ?_⟩
    obtain ⟨h1, -, h2⟩ := beq_iff.mp ((hg.placed e he p hp e he).mpr rfl)
    obtain ⟨-, h3, h4⟩ := beq_iff.mp hprice
    exact beq_iff.mpr ⟨h1, h3, h2.trans h4⟩
  · rintro ⟨o, ho, hprice⟩
    obtain ⟨p, hp, rfl⟩ := List.mem_map.mp ho
    obtain ⟨e, he, hmem⟩ := mem_pointersOf.mp hp
    refine ⟨_, List.mem_map_of_mem he, ?_⟩
    obtain ⟨-, h1, h2⟩ := beq_iff.mp ((hg.placed e he p hmem e he).mpr rfl)
    obtain ⟨-, h3, h4⟩ := beq_iff.mp hprice
    exact beq_iff.mpr ⟨h1, h3, h2.symm.trans h4⟩

/-- **ONE SIDE** is reported truly exactly when every total fits 32 bits. -/
theorem trueSide_iff (hg : Gathered b.heap levels)
    (hirrefl : ∀ x, ¬ lt x x) :
    TrueSide lt (infosOf b levels) (ordersOf b levels) ↔
      ∀ x, depthAt x (ordersOf b levels) < 2 ^ 32 := by
  have hquantity := info_quantity hg hirrefl
  constructor
  · intro htrue x
    by_cases hx : ∃ o ∈ ordersOf b levels, (o.price == x) = true
    · obtain ⟨info, hinfo, hprice⟩ := (listed_prices hg x).mpr hx
      have hmod := hquantity info hinfo
      rw [htrue.quantities info hinfo, depthAt_congr hprice] at hmod
      rw [hmod]
      exact Nat.mod_lt _ (by decide)
    · rw [depthAt_eq_zero (fun o ho hprice => hx ⟨o, ho, hprice⟩)]
      decide
  · intro hfit
    refine ⟨List.pairwise_map.mpr levels.sorted, listed_prices hg, ?_⟩
    intro info hinfo
    rw [hquantity info hinfo, Nat.mod_eq_of_lt (hfit _)]

end Sides

/-! ## Books -/

section Books

variable {b : Orderbook Double} {k : Orderbook Int}

/-- What `GetOrderInfos` says of both sides is true, and so is what a top of
    book says of their being there. -/
structure TrueDepth (b : Orderbook Double) : Prop where
  bids : TrueSide (· > ·) b.getOrderInfos.bids (restingBids b)
  asks : TrueSide (· < ·) b.getOrderInfos.asks (restingAsks b)
  hasBid : ∀ (s : Shard) symbol sequence, s.books.find? symbol = some b →
    ((s.makeTopOfBook symbol sequence).hasBid = true ↔ restingBids b ≠ [])
  hasAsk : ∀ (s : Shard) symbol sequence, s.books.find? symbol = some b →
    ((s.makeTopOfBook symbol sequence).hasAsk = true ↔ restingAsks b ≠ [])

/-- The levels of a mirrored side are gathered. -/
theorem gathered_of_mirror {lt : Double → Double → Prop}
    {lt' : Int → Int → Prop} {levels : Levels Double lt}
    {levels' : Levels Int lt'} {side : Side} (hb : Mirrors numbers b k)
    (hm : LevelsMirror numbers b.heap levels levels')
    (hh : Housed k.heap side levels')
    (hstrict : ∀ x y, lt x y → x.key ≠ y.key) : Gathered b.heap levels := by
  have hentry : ∀ e ∈ levels.entries, (e.1.key, e.2) ∈ levels'.entries := by
    intro e he
    rw [hm.entries]
    exact List.mem_map_of_mem he
  refine ⟨fun e he => hh.nonempty _ (hentry e he), ?_⟩
  intro e he p hp e' he'
  have hkey : (b.heap p).price.key = e.1.key := by
    have hplaced := (hh.placed _ (hentry e he) p hp).2
    rw [hb.heap p] at hplaced
    exact hplaced
  -- two levels of a sorted map have different keys
  have hnodup : (levels.entries.map (fun e => e.1.key)).Nodup :=
    List.pairwise_map.mpr (levels.sorted.imp (fun hlt => hstrict _ _ hlt))
  constructor
  · intro hprice
    obtain ⟨-, -, hkey'⟩ := beq_iff.mp hprice
    exact List.inj_on_of_nodup_map hnodup he' he (hkey'.symm.trans hkey)
  · rintro rfl
    obtain ⟨hsound, hsounds⟩ := hm.sound e' he
    exact beq_iff.mpr ⟨hsounds p hp, hsound, hkey⟩

/-- The best level's quantity, and whether there is one. -/
theorem topOf_quantities (infos : OrderbookLevelInfos Double)
    (symbol : SymbolId) (sequence : Nat) :
    (topOf infos symbol sequence).bidQuantity
        = (infos.bids.head?.map LevelInfo.quantity).getD 0 ∧
      (topOf infos symbol sequence).askQuantity
        = (infos.asks.head?.map LevelInfo.quantity).getD 0 := by
  rw [topOf]
  cases infos.bids <;> cases infos.asks <;> exact ⟨rfl, rfl⟩

/-- A side that is reported truly is there when its best quantity is. -/
theorem head_pos_iff {lt : Double → Double → Prop}
    {infos : List (LevelInfo Double)} {orders : List (Order Double)}
    (htrue : TrueSide lt infos orders)
    (hnumbers : ∀ info ∈ infos, info.price.isNaN = false)
    (hpos : ∀ o ∈ orders, 0 < o.remainingQuantity ∧ o.price.isNaN = false) :
    0 < (infos.head?.map LevelInfo.quantity).getD 0 ↔ orders ≠ [] := by
  cases hinfos : infos with
  | nil =>
      refine iff_of_false (Nat.lt_irrefl 0) ?_
      intro hne
      obtain ⟨o, ho⟩ := List.exists_mem_of_ne_nil _ hne
      have hnan := (hpos o ho).2
      obtain ⟨info, hinfo, -⟩ := (htrue.prices o.price).mpr
        ⟨o, ho, beq_iff.mpr ⟨hnan, hnan, rfl⟩⟩
      rw [hinfos] at hinfo
      cases hinfo
  | cons info rest =>
      have hmem : info ∈ infos := by
        rw [hinfos]
        exact List.mem_cons_self
      have hnan := hnumbers info hmem
      have hrests : ∃ o ∈ orders, (o.price == info.price) = true :=
        (htrue.prices info.price).mp
          ⟨info, hmem, beq_iff.mpr ⟨hnan, hnan, rfl⟩⟩
      have hdepth := depthAt_pos (fun o ho => (hpos o ho).1) hrests
      refine iff_of_true ?_ ?_
      · show 0 < info.quantity
        rw [htrue.quantities info hmem]
        exact hdepth
      · obtain ⟨o, ho, -⟩ := hrests
        exact List.ne_nil_of_mem ho

/-- A book of a run over numbers: its mirror is steady, and something is left
    of every order. -/
def Mirrorable (b : Orderbook Double) : Prop :=
  ∃ k : Orderbook Int, Mirrors numbers b k ∧ Steady k ∧ Positive k

/-- A call with a number for its price keeps it. -/
theorem call_mirrorable (h : Mirrorable b) {c : Call Double} (hc : Regular c)
    (hp : CallSound numbers c) :
    ∃ b' ts, b.call c = .ok (b', ts) ∧ Mirrorable b' := by
  obtain ⟨k, hmirror, hst, hpos⟩ := h
  have hl := hst.wellFormed.linked
  have hsided : callSided (rescaleCall numbers.value c) := by
    cases c <;> exact hc.1
  have hq : callPositive (rescaleCall numbers.value c) := by
    cases c <;> exact hc.2
  obtain ⟨k', us, hrun, hd⟩ := call_spec hl hsided
  obtain ⟨⟨b', ts⟩, hrun', hmatch⟩ := (call_lockstep hmirror hl hp).of_ok hrun
  exact ⟨b', ts, hrun', k', hmatch.1, Does.steady hst hsided hd,
    Does.positive hl hpos hsided hq hd⟩

theorem run_mirrorable {calls : List (Call Double)}
    {history : List (List (Trade Double))}
    (hcalls : ∀ c ∈ calls, Regular c ∧ CallSound numbers c)
    (hrun : Orderbook.run .empty calls = .ok (b, history)) : Mirrorable b := by
  have hstep : ∀ (b : Orderbook Double) (c : Call Double), Mirrorable b →
      (Regular c ∧ CallSound numbers c) →
      ∃ b' ts, b.call c = .ok (b', ts) ∧ Mirrorable b' ∧ True := by
    intro b c h hc
    obtain ⟨b', ts, hok, h'⟩ := call_mirrorable h hc.1 hc.2
    exact ⟨b', ts, hok, h', trivial⟩
  obtain ⟨b', history', hrun', h, -⟩ := execute_spec hstep calls .empty
    ⟨.empty, mirrors_empty, steady_empty, positive_empty⟩
    (along_of_forall hcalls _)
  rw [Orderbook.run, hrun'] at hrun
  cases hrun
  exact h

/-- The orders of a mirrored side have numbers for prices, and something left. -/
theorem side_numbers {lt : Double → Double → Prop} {levels : Levels Double lt}
    {levels' : Levels Int lt'} (hb : Mirrors numbers b k)
    (hm : LevelsMirror numbers b.heap levels levels')
    (hpos : ∀ x ∈ (pointersOf levels').map k.heap, 0 < x.remainingQuantity) :
    (∀ info ∈ infosOf b levels, info.price.isNaN = false) ∧
      ∀ o ∈ ordersOf b levels, 0 < o.remainingQuantity ∧
        o.price.isNaN = false := by
  constructor
  · intro info hinfo
    obtain ⟨e, he, rfl⟩ := List.mem_map.mp hinfo
    exact (hm.sound e he).1
  · intro o ho
    refine ⟨?_, ?_⟩
    · rw [side_mirror hb hm] at hpos
      exact hpos _ (List.mem_map_of_mem ho)
    · obtain ⟨p, hp, rfl⟩ := List.mem_map.mp ho
      obtain ⟨e, he, hmem⟩ := mem_pointersOf.mp hp
      exact (hm.sound e he).2 p hmem

/-- **REPORTED DEPTH IS THE TRUE DEPTH** in exactly those reachable books in
    which the orders at each price total less than `2 ^ 32`. -/
theorem trueDepth_iff {calls : List (Call Double)} {b : Orderbook Double}
    {history : List (List (Trade Double))}
    (hcalls : ∀ c ∈ calls, Regular c ∧ CallSound numbers c)
    (hrun : Orderbook.run .empty calls = .ok (b, history)) :
    TrueDepth b ↔ ∀ x, depthAt x (restingBids b) < 2 ^ 32 ∧
      depthAt x (restingAsks b) < 2 ^ 32 := by
  obtain ⟨k, hmirror, hst, hpos⟩ := run_mirrorable hcalls hrun
  have hl := hst.wellFormed.linked
  have hbids := gathered_of_mirror hmirror hmirror.bids hl.bids
    (fun x y hlt heq => absurd hlt.2.2 (by rw [heq]; exact lt_irrefl _))
  have hasks := gathered_of_mirror hmirror hmirror.asks hl.asks
    (fun x y hlt heq => absurd hlt.2.2 (by rw [heq]; exact lt_irrefl _))
  have hirrefl : ∀ x : Double, ¬ x < x := fun x hlt => lt_irrefl _ hlt.2.2
  have hbidsIff := trueSide_iff hbids hirrefl
  have hasksIff := trueSide_iff hasks hirrefl
  obtain ⟨hbidInfos, hbidOrders⟩ :=
    side_numbers hmirror hmirror.bids (hpos .buy)
  obtain ⟨haskInfos, haskOrders⟩ :=
    side_numbers hmirror hmirror.asks (hpos .sell)
  constructor
  · intro htrue x
    exact ⟨hbidsIff.mp htrue.bids x, hasksIff.mp htrue.asks x⟩
  · intro hfit
    have htrueBids := hbidsIff.mpr (fun x => (hfit x).1)
    have htrueAsks := hasksIff.mpr (fun x => (hfit x).2)
    refine ⟨htrueBids, htrueAsks, ?_, ?_⟩
    · intro s symbol sequence hfind
      rw [Shard.makeTopOfBook, hfind, TopOfBookUpdate.hasBid,
        decide_eq_true_iff]
      show _ < (topOf b.getOrderInfos symbol sequence).bidQuantity ↔ _
      rw [(topOf_quantities _ symbol sequence).1]
      exact head_pos_iff htrueBids hbidInfos hbidOrders
    · intro s symbol sequence hfind
      rw [Shard.makeTopOfBook, hfind, TopOfBookUpdate.hasAsk,
        decide_eq_true_iff]
      show _ < (topOf b.getOrderInfos symbol sequence).askQuantity ↔ _
      rw [(topOf_quantities _ symbol sequence).2]
      exact head_pos_iff htrueAsks haskInfos haskOrders

/-- Two bids of one quantity at one price. -/
def twoBids (quantity : Nat) : List (Call Double) :=
  [.addOrder .goodTillCancel 1 .buy ⟨0x4059000000000000⟩ quantity,
    .addOrder .goodTillCancel 2 .buy ⟨0x4059000000000000⟩ quantity]

theorem trueDepth_iff_twoBids : ∃ b history,
    Orderbook.run .empty (twoBids 5) = .ok (b, history) ∧
    (TrueDepth b ↔ ∀ x, depthAt x (restingBids b) < 2 ^ 32 ∧
      depthAt x (restingAsks b) < 2 ^ 32) := by
  have hcalls : ∀ c ∈ twoBids 5, Regular c ∧ CallSound numbers c := by
    intro c hc
    have hnumber : numbers.sound ⟨0x4059000000000000⟩ := by
      show Double.isNaN _ = false
      decide
    rcases List.mem_cons.mp hc with rfl | hc
    · exact ⟨by decide, Or.inl hnumber⟩
    · rw [List.mem_singleton.mp hc]
      exact ⟨by decide, Or.inl hnumber⟩
  exact ⟨_, _, rfl, trueDepth_iff hcalls rfl⟩

/-- The two halves of `2 ^ 32` are reported as a level with nothing on it, and
    the side as absent. -/
theorem depth_wraps : ∃ b history,
    Orderbook.run .empty (twoBids (2 ^ 31)) = .ok (b, history) ∧
    (restingBids b).map Order.remainingQuantity = [2 ^ 31, 2 ^ 31] ∧
    b.getOrderInfos.bids = [⟨⟨0x4059000000000000⟩, 0⟩] ∧
    (topOf b.getOrderInfos 0 0).hasBid = false ∧ ¬ TrueDepth b := by
  refine ⟨_, _, rfl, by decide +kernel, by decide +kernel, by decide +kernel,
    ?_⟩
  intro htrue
  have hquantity := htrue.bids.quantities ⟨⟨0x4059000000000000⟩, 0⟩
    (by decide +kernel)
  revert hquantity
  decide +kernel

end Books

end OsxDepth
