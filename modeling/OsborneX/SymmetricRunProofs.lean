import OsborneX.SymmetryProofs

/-! # Symmetric runs — every call, on the book and on its reflection

    Two books are reflections when their sides are exchanged order by order and
    their aggregates answer for reflected prices alike.  Each call keeps this,
    whatever its order type: the four admission checks come out the same, the
    two sweeps correspond, and the same orders leave.  So two whole runs return
    the same trades with their halves exchanged. -/

namespace OsxSymmetry

open OsxOrderbook OsxCrossing OsxLink OsxMatching OsxCalls OsxRepresentation
open OsxSweep OsxReachable OsxTally OsxFillOrKill OsxSweepUnique
open OsxFullFill (Passes counted counted_cons fillsFrom_cons)

variable {P Q : Type}

/-- A market order takes its limit from the mirror's worst price. -/
theorem effective_reflect (g : P → Q) (opp : List (Order P)) (o : Order P) :
    effective (opp.map (reflect g)) (reflect g o)
      = (effective opp o).map (reflect g) := by
  have htype : (reflect g o).orderType = o.orderType := rfl
  rw [effective, effective, htype]
  by_cases hm : o.orderType = .market
  · rw [if_pos hm, if_pos hm, List.getLast?_map, Option.map_map,
      Option.map_map]
    rfl
  · rw [if_neg hm, if_neg hm]
    rfl

/-- The trades of logs that correspond are reflections. -/
theorem trades_oriented {g : P → Q} {side : Side} (hs : Sided side)
    {log : List (Round P)} {log' : List (Round Q)}
    (h : oriented (flip side) log' = (oriented side log).map (reflectRound g)) :
    trades log' = (trades log).map (reflectTrade g) := by
  have hswap : ∀ {l l' : List (Round Q)}, l.map Round.swap = l' →
      l = l'.map Round.swap := by
    rintro l l' rfl
    rw [List.map_map]
    exact (List.map_id'' Round.swap_swap l).symm
  have hlog : log' = log.map (fun r => (reflectRound g r).swap) := by
    rcases hs with rfl | rfl
    · rw [hswap h, List.map_map]
      rfl
    · refine h.trans (List.map_map.trans (List.map_congr_left (fun r _ => ?_)))
      show reflectRound g r.swap = (reflectRound g r).swap
      rw [reflectRound, reflectRound, Round.swap, Round.swap, List.map_map,
        List.map_map]
      rfl
  rw [hlog, trades, trades, List.map_flatMap, List.flatMap_map]
  refine List.flatMap_congr (fun r _ => ?_)
  show ((r.pairs.map (reflectPairing g)).map Pairing.swap).map Pairing.trade
    = (r.pairs.map Pairing.trade).map (reflectTrade g)
  rw [List.map_map, List.map_map, List.map_map]
  rfl

/-! ## The loop of `CanFullyFill` -/

section Loop

variable [LinearOrder P] {b : Orderbook P} {side : Side} {price : P}

/-- The loop answers true when it meets a counted entry and the counted entries
    reach the quantity, which may be zero. -/
theorem fillsFrom_spec {threshold : Option P}
    (entries : List (P × LevelData)) :
    ∀ quantity : Nat,
      Orderbook.fillsFrom side threshold price quantity entries = true ↔
        (∃ e ∈ entries, ¬ Passes side threshold price e.1) ∧
          quantity ≤ counted side threshold price entries := by
  induction entries with
  | nil =>
      intro quantity
      rw [Orderbook.fillsFrom]
      simp
  | cons e rest ih =>
      obtain ⟨level, data⟩ := e
      intro quantity
      have hmem : ∀ {e : P × LevelData}, e ∈ (level, data) :: rest ↔
          e = (level, data) ∨ e ∈ rest := List.mem_cons
      rw [fillsFrom_cons, counted_cons]
      by_cases hpasses : Passes side threshold price level
      · rw [if_pos hpasses, if_pos hpasses, zero_add, ih]
        refine and_congr_left (fun _ => ⟨?_, ?_⟩)
        · rintro ⟨e, he, hcounts⟩
          exact ⟨e, hmem.mpr (Or.inr he), hcounts⟩
        · rintro ⟨e, he, hcounts⟩
          rcases hmem.mp he with rfl | he
          · exact absurd hpasses hcounts
          · exact ⟨e, he, hcounts⟩
      · have hhead : ∃ e ∈ (level, data) :: rest,
            ¬ Passes side threshold price e.1 :=
          ⟨(level, data), hmem.mpr (Or.inl rfl), hpasses⟩
        rw [if_neg hpasses, if_neg hpasses]
        by_cases hle : quantity ≤ data.quantity
        · rw [if_pos hle]
          exact ⟨fun _ => ⟨hhead, by omega⟩, fun _ => rfl⟩
        · rw [if_neg hle, ih]
          constructor
          · exact fun h => ⟨hhead, by omega⟩
          · intro h
            refine ⟨?_, by omega⟩
            -- something beyond the head is counted, or the head were enough
            by_contra hno
            have hzero : counted side threshold price rest = 0 := by
              rw [counted, OsxFullFill.quantityAt,
                List.filter_eq_nil_iff.mpr]
              · rfl
              · intro e he hcounts
                exact hno ⟨e, he, by simpa using hcounts⟩
            omega

/-- The loop does not depend on the order of the entries. -/
theorem fillsFrom_perm {threshold : Option P} (quantity : Nat)
    {entries entries' : List (P × LevelData)} (h : entries.Perm entries') :
    Orderbook.fillsFrom side threshold price quantity entries
      = Orderbook.fillsFrom side threshold price quantity entries' := by
  rw [Bool.eq_iff_iff, fillsFrom_spec, fillsFrom_spec]
  have hsum : counted side threshold price entries
      = counted side threshold price entries' :=
    OsxFullFill.quantityAt_perm h
  rw [hsum]
  refine and_congr_left (fun _ => ?_)
  simp only [h.mem_iff]

/-- `CanFullyFill`, as its two tests. -/
theorem canFullyFill_eq (hl : Linked b) (hs : Sided side) (quantity : Nat) :
    b.canFullyFill side price quantity
      = .ok (decide (∃ y ∈ opposite b side, reaches side price y.price) &&
          Orderbook.fillsFrom side (bestOpposite b side) price quantity
            b.levelData.entries) := by
  rw [Orderbook.canFullyFill, canMatch_eq hl hs]
  by_cases hm : ∃ y ∈ opposite b side, reaches side price y.price
  · rw [decide_eq_true hm, Bool.true_and]
    rcases hs with rfl | rfl
    · rfl
    · rfl
  · rw [decide_eq_false hm, Bool.false_and]
    rfl

end Loop

/-! ## Two books -/

section Books

variable [LinearOrder P] [LinearOrder Q] {g : P → Q} {b b' : Orderbook P}
  {k k' : Orderbook Q}

/-- **`k` IS `b` IN THE MIRROR**: the sides exchanged, order by order, and the
    aggregates under reflected prices. -/
structure Reflects (g : P → Q) (b : Orderbook P) (k : Orderbook Q) : Prop where
  sides : ∀ side, own k (flip side) = (own b side).map (reflect g)
  levelData : Reflected g b.levelData k.levelData

theorem Reflects.opposites (h : Reflects g b k) (side : Side) :
    opposite k (flip side) = (opposite b side).map (reflect g) := by
  rw [opposite_eq, opposite_eq]
  exact h.sides (flip side)

/-- What rests in the mirror is what rests. -/
theorem Reflects.mem_resting (h : Reflects g b k) {y : Order Q} :
    y ∈ resting k ↔ ∃ x ∈ resting b, reflect g x = y := by
  have hbids : restingBids k = (restingAsks b).map (reflect g) :=
    h.sides .sell
  have hasks : restingAsks k = (restingBids b).map (reflect g) :=
    h.sides .buy
  rw [resting, resting, hbids, hasks, ← List.mem_map, List.map_append,
    List.mem_append, List.mem_append, Or.comm]

/-- An id is known to both books or to neither. -/
theorem Reflects.unknown (h : Reflects g b k) (hb : Linked b) (hk : Linked k)
    (orderId : OrderId) :
    k.orders.find? orderId = none ↔ b.orders.find? orderId = none := by
  constructor
  · intro hn
    refine Linked.absent hb (fun x hx => ?_)
    exact Linked.fresh hk hn _ (h.mem_resting.mpr ⟨x, hx, rfl⟩)
  · intro hn
    refine Linked.absent hk (fun y hy => ?_)
    obtain ⟨x, hx, rfl⟩ := h.mem_resting.mp hy
    exact Linked.fresh hb hn x hx

theorem reflects_empty [Inhabited P] [Inhabited Q] :
    Reflects g (.empty : Orderbook P) (.empty : Orderbook Q) where
  sides := by
    intro side
    cases side <;> rfl
  levelData := fun _ => rfl

/-! ### Admission -/

theorem Turns.le (hg : Turns g) {a b : P} : g a ≤ g b ↔ b ≤ a := by
  rw [← not_lt, ← not_lt, hg.lt]

theorem reaches_reflect (hg : Turns g) {side : Side} (hs : Sided side)
    (limit price : P) :
    reaches (flip side) (g limit) (g price) ↔ reaches side limit price := by
  rcases hs with rfl | rfl
  · exact hg.le
  · exact hg.le

theorem better_reflect (hg : Turns g) {side : Side} (hs : Sided side)
    (x y : P) : better (flip side) (g x) (g y) ↔ better side x y := by
  rcases hs with rfl | rfl
  · exact hg.lt x y
  · exact hg.lt y x

/-- The mirror shows an order the prices it finds acceptable. -/
theorem Reflects.acceptable (hg : Turns g) (h : Reflects g b k) {side : Side}
    (hs : Sided side) (price : P) :
    (∃ y ∈ opposite k (flip side), reaches (flip side) (g price) y.price) ↔
      ∃ y ∈ opposite b side, reaches side price y.price := by
  rw [h.opposites]
  constructor
  · rintro ⟨y, hy, hr⟩
    obtain ⟨x, hx, rfl⟩ := List.mem_map.mp hy
    exact ⟨x, hx, (reaches_reflect hg hs _ _).mp hr⟩
  · rintro ⟨x, hx, hr⟩
    exact ⟨reflect g x, List.mem_map_of_mem hx,
      (reaches_reflect hg hs _ _).mpr hr⟩

theorem passes_reflect (hg : Turns g) {side : Side} (hs : Sided side)
    (threshold : Option P) (price level : P) :
    Passes (flip side) (threshold.map g) (g price) (g level) ↔
      Passes side threshold price level := by
  rcases hs with rfl | rfl <;> cases threshold <;>
    simp [Passes, OsxReachable.flip, hg.lt]

/-- The loop in the mirror, entry by entry. -/
theorem fillsFrom_reflect (hg : Turns g) {side : Side} (hs : Sided side)
    (threshold : Option P) (price : P) (entries : List (P × LevelData)) :
    ∀ quantity : Nat,
      Orderbook.fillsFrom (flip side) (threshold.map g) (g price) quantity
          (entries.map (Prod.map g id))
        = Orderbook.fillsFrom side threshold price quantity entries := by
  induction entries with
  | nil => exact fun _ => rfl
  | cons e rest ih =>
      obtain ⟨level, data⟩ := e
      intro quantity
      rw [List.map_cons, Prod.map_apply, fillsFrom_cons, fillsFrom_cons, ih, ih]
      exact if_congr (passes_reflect hg hs threshold price level) rfl rfl

/-- **`CanFullyFill` IN THE MIRROR** gives the same answer, whatever the
    aggregates have become. -/
theorem Reflects.canFullyFill (hg : Turns g) (h : Reflects g b k)
    (hb : Linked b) (hk : Linked k) {side : Side} (hs : Sided side)
    (price : P) (quantity : Nat) :
    k.canFullyFill (flip side) (g price) quantity
      = b.canFullyFill side price quantity := by
  have hinj : Function.Injective g := fun _ _ heq => hg.inj.mp heq
  have hbest : bestOpposite k (flip side) = (bestOpposite b side).map g := by
    rw [bestOpposite_eq hk, bestOpposite_eq hb, h.opposites, List.head?_map,
      Option.map_map, Option.map_map]
    rfl
  have hperm := HashTable.perm_of_find? hinj hg.onto h.levelData
  rw [canFullyFill_eq hk (sided_flip hs), canFullyFill_eq hb hs,
    decide_eq_decide.mpr (h.acceptable hg hs price), hbest,
    fillsFrom_perm quantity hperm, fillsFrom_reflect hg hs]

/-- **ADMISSION IN THE MIRROR.** -/
theorem Reflects.admitted (hg : Turns g) (h : Reflects g b k) (hb : Linked b)
    (hk : Linked k) {o : Order P} (hs : Sided o.side) :
    admitted k (reflect g o) = (admitted b o).map (reflect g) := by
  have hcond : (k.orders.find? (reflect g o).orderId = none ∧
        ((reflect g o).orderType = .fillAndKill →
          ∃ y ∈ opposite k (reflect g o).side,
            reaches (reflect g o).side (reflect g o).price y.price) ∧
        ((reflect g o).orderType = .fillOrKill →
          k.canFullyFill (reflect g o).side (reflect g o).price
            (reflect g o).initialQuantity = .ok true)) ↔
      (b.orders.find? o.orderId = none ∧
        (o.orderType = .fillAndKill →
          ∃ y ∈ opposite b o.side, reaches o.side o.price y.price) ∧
        (o.orderType = .fillOrKill →
          b.canFullyFill o.side o.price o.initialQuantity = .ok true)) := by
    have hfill := h.canFullyFill hg hb hk hs o.price o.initialQuantity
    refine and_congr (h.unknown hb hk o.orderId) (and_congr ?_ ?_)
    · exact imp_congr_right (fun _ => h.acceptable hg hs o.price)
    · exact imp_congr_right (fun _ => by rw [← hfill]; exact Iff.rfl)
  rw [OsxCalls.admitted, OsxCalls.admitted]
  by_cases hc : b.orders.find? o.orderId = none ∧
      (o.orderType = .fillAndKill →
        ∃ y ∈ opposite b o.side, reaches o.side o.price y.price) ∧
      (o.orderType = .fillOrKill →
        b.canFullyFill o.side o.price o.initialQuantity = .ok true)
  · rw [if_pos hc, if_pos (hcond.mpr hc), ← effective_reflect, ← h.opposites]
    rfl
  · rw [if_neg hc, if_neg (fun h' => hc (hcond.mp h'))]
    rfl

/-! ### Calls -/

instance better_irrefl (side : Side) : Std.Irrefl (better (P := P) side) :=
  match side with
  | .buy => ⟨fun _ => lt_irrefl _⟩
  | .sell => ⟨fun _ => lt_irrefl _⟩
  | .other _ => ⟨fun _ => lt_irrefl _⟩

/-- **AN EXECUTED ORDER IN THE MIRROR.** -/
theorem Executed.reflects (hg : Turns g) (h : Reflects g b k) (hb : Steady b)
    (hk : Steady k) {o : Order P} (hs : Sided o.side) {b2 : Orderbook P}
    {k2 : Orderbook Q} {log : List (Round P)} {log' : List (Round Q)}
    (he : Executed b o b2 b' log)
    (he' : Executed k (reflect g o) k2 k' log') :
    Reflects g b' k' ∧ trades log' = (trades log).map (reflectTrade g) := by
  have hs' : Sided (reflect g o).side := sided_flip hs
  have hsweep := Executed.sweep hb.wellFormed hb.settled hs he
  have hsweep' := Executed.sweep hk.wellFormed hk.settled hs' he'
  have hmirror := Sweep.reflect g (better_reflect hg hs) hsweep
  rw [← h.sides, ← h.opposites] at hmirror
  -- the book in the mirror has no other sweep to make
  obtain ⟨hlog, hown, hopp⟩ := Sweep.unique hmirror hsweep'
  refine ⟨⟨?_, ?_⟩, trades_oriented hs hlog⟩
  · intro side
    rcases side_cases hs side with rfl | rfl | ⟨value, rfl⟩
    · exact hown
    · rw [opposite_eq, opposite_eq] at hopp
      exact hopp
    · rfl
  · rw [he.levelData, he'.levelData, booked_oriented hs, booked_oriented hs',
      hlog, he.opened.levelData, he'.opened.levelData]
    exact Reflected.log hg o.side _
      (h.levelData.update hg o.price o.initialQuantity .add)
      (Sweep.plain hsweep)

/-- **AN ADDED ORDER IN THE MIRROR**, admitted or not. -/
theorem Adds.reflects (hg : Turns g) (h : Reflects g b k) (hb : Steady b)
    (hk : Steady k) {o : Order P} (hs : Sided o.side) {ts : List (Trade P)}
    {ts' : List (Trade Q)} (ha : Adds b o b' ts)
    (ha' : Adds k (reflect g o) k' ts') :
    Reflects g b' k' ∧ ts' = ts.map (reflectTrade g) := by
  have hadmits : admitted k (reflect g o) = (admitted b o).map (reflect g) :=
    h.admitted hg hb.wellFormed.linked hk.wellFormed.linked hs
  cases ha with
  | rejected hno =>
      cases ha' with
      | rejected _ =>
          refine ⟨⟨fun side => ?_, h.levelData⟩, rfl⟩
          rw [own_makeShared hk.wellFormed.linked,
            own_makeShared hb.wellFormed.linked]
          exact h.sides side
      | admitted hyes _ =>
          rw [admits_iff.mp hyes] at hadmits
          obtain ⟨o', ho', -⟩ := Option.map_eq_some_iff.mp hadmits.symm
          exact absurd (admits_iff.mpr ho') (hno o')
  | admitted hyes he =>
      rw [admits_iff.mp hyes, Option.map_some] at hadmits
      cases ha' with
      | rejected hno => exact absurd (admits_iff.mpr hadmits) (hno _)
      | admitted hyes' he' =>
          rw [admits_iff.mp hyes'] at hadmits
          cases hadmits
          have hside := (effective_terms hyes.effective).1
          exact Executed.reflects hg h hb hk (by rw [hside]; exact hs) he he'

/-- **A REMOVAL IN THE MIRROR** takes the reflected order away. -/
theorem Removed.reflects (hg : Turns g) (h : Reflects g b k) (hb : Linked b)
    (hk : Linked k) {p r : OrderPointer} (hp : p ∈ pointers b)
    (hr : r ∈ pointers k) (hid : (b.heap p).orderId = (k.heap r).orderId)
    (hrem : Removed b p b') (hrem' : Removed k r k') :
    Reflects g b' k' ∧ k.heap r = reflect g (b.heap p) := by
  have hsame : k.heap r = reflect g (b.heap p) := by
    have hmem : k.heap r ∈ resting k := by
      rw [resting_eq]
      exact List.mem_map_of_mem hr
    obtain ⟨x, hx, heq⟩ := h.mem_resting.mp hmem
    rw [resting_eq] at hx
    obtain ⟨q, hq, rfl⟩ := List.mem_map.mp hx
    have hqp : (b.heap q).orderId = (b.heap p).orderId := by
      rw [hid, ← heq]
      rfl
    rw [← heq, hb.pointer_unique hq hp hqp]
  refine ⟨⟨fun side => ?_, ?_⟩, hsame⟩
  · rw [Removed.own_filter hk hr hrem', Removed.own_filter hb hp hrem, h.sides,
      List.filter_map, ← hid]
    rfl
  · rw [hrem.levelData, hrem'.levelData, hsame]
    exact h.levelData.update hg (b.heap p).price
      (b.heap p).remainingQuantity .remove

/-- **EVERY CALL KEEPS THE MIRROR** and returns the reflected trades. -/
theorem Does.reflects (hg : Turns g) (h : Reflects g b k) (hb : Steady b)
    (hk : Steady k) {c : Call P} (hs : callSided c) {ts : List (Trade P)}
    {ts' : List (Trade Q)} (hd : Does b c b' ts)
    (hd' : Does k (reflectCall g c) k' ts') :
    Reflects g b' k' ∧ ts' = ts.map (reflectTrade g) := by
  have hlb := hb.wellFormed.linked
  have hlk := hk.wellFormed.linked
  -- an id that one book knows and the other does not
  have hknown : ∀ {p : OrderPointer} {id : OrderId}, p ∈ pointers b →
      id = (b.heap p).orderId → k.orders.find? id ≠ none := by
    intro p id hp hid hn
    exact hlb.find?_eq_none.mp ((h.unknown hlb hlk id).mp hn) p hp hid.symm
  have hknown' : ∀ {r : OrderPointer} {id : OrderId}, r ∈ pointers k →
      id = (k.heap r).orderId → b.orders.find? id ≠ none := by
    intro r id hr hid hn
    exact hlk.find?_eq_none.mp ((h.unknown hlb hlk id).mpr hn) r hr hid.symm
  cases hd with
  | added ha =>
      cases hd' with
      | added ha' =>
          exact Adds.reflects (o := .new _ _ _ _ _) hg h hb hk hs ha ha'
  | cancelled hp hid hrem =>
      cases hd' with
      | cancelled hr hid' hrem' =>
          exact ⟨(Removed.reflects hg h hlb hlk hp hr (hid.symm.trans hid')
            hrem hrem').1, rfl⟩
      | notFound hn => exact absurd hn (hknown hp hid)
  | notFound hn =>
      cases hd' with
      | cancelled hr hid' _ => exact absurd hn (hknown' hr hid')
      | notFound _ => exact ⟨h, rfl⟩
  | @modified m p b1 _ _ hp hid hrem ha =>
      cases hd' with
      | @modified _ r k1 _ _ hr hid' hrem' ha' =>
          obtain ⟨h1, hsame⟩ := Removed.reflects hg h hlb hlk hp hr
            (hid.symm.trans hid') hrem hrem'
          have horder : OrderModify.toOrder ⟨m.orderId, flip m.side,
              g m.price, m.quantity⟩ (k.heap r).orderType
              = reflect g (m.toOrder (b.heap p).orderType) := by
            rw [hsame]
            rfl
          rw [horder] at ha'
          exact Adds.reflects (o := m.toOrder _) hg h1
            (Removed.steady hb hrem) (Removed.steady hk hrem') hs ha ha'
      | unknown hn => exact absurd hn (hknown hp hid)
  | unknown hn =>
      cases hd' with
      | modified hr hid' _ _ => exact absurd hn (hknown' hr hid')
      | unknown _ => exact ⟨h, rfl⟩

end Books

/-! ## The levels -/

section Levels

/-- The level at the reflected price, with the reflected orders. -/
def reflectLevel (g : P → Q) (e : P × List (Order P)) :
    Q × List (Order Q) :=
  (g e.1, e.2.map (reflect g))

theorem Grouped.reflect {lt : P → P → Prop} {lt' : Q → Q → Prop} {g : P → Q}
    (hlt : ∀ a b, lt a b → lt' (g a) (g b))
    {levels : List (P × List (Order P))} (h : Grouped lt levels) :
    Grouped lt' (levels.map (reflectLevel g)) where
  nonempty := by
    intro e he hnil
    obtain ⟨e', he', rfl⟩ := List.mem_map.mp he
    exact h.nonempty e' he' (List.map_eq_nil_iff.mp hnil)
  placed := by
    intro e he o ho
    obtain ⟨e', he', rfl⟩ := List.mem_map.mp he
    obtain ⟨x, hx, rfl⟩ := List.mem_map.mp ho
    exact congrArg g (h.placed e' he' x hx)
  sorted := List.pairwise_map.mpr (h.sorted.imp (hlt _ _))

theorem reflectLevel_flatMap (g : P → Q)
    (levels : List (P × List (Order P))) :
    (levels.map (reflectLevel g)).flatMap Prod.snd
      = (levels.flatMap Prod.snd).map (reflect g) := by
  rw [List.flatMap_map, List.map_flatMap]
  rfl

variable [LinearOrder P] [LinearOrder Q] {g : P → Q} {b : Orderbook P}
  {k : Orderbook Q}

/-- **THE LEVELS OF REFLECTED BOOKS** are exchanged, price by price. -/
theorem Reflects.levels (hg : Turns g) (h : Reflects g b k) (hb : Linked b)
    (hk : Linked k) :
    levelOrders k.heap k.asks
        = (levelOrders b.heap b.bids).map (reflectLevel g) ∧
      levelOrders k.heap k.bids
        = (levelOrders b.heap b.asks).map (reflectLevel g) := by
  constructor
  · refine Grouped.unique (Grouped.reflect (fun x y => (hg.lt x y).mpr)
      (Housed.grouped hb.bids)) (Housed.grouped hk.asks) ?_
    rw [levelOrders_flatMap, reflectLevel_flatMap, levelOrders_flatMap]
    exact h.sides .buy
  · refine Grouped.unique (Grouped.reflect (fun x y => (hg.lt y x).mpr)
      (Housed.grouped hb.asks)) (Housed.grouped hk.bids) ?_
    rw [levelOrders_flatMap, reflectLevel_flatMap, levelOrders_flatMap]
    exact h.sides .sell

end Levels

/-! ## Runs -/

section Runs

variable [LinearOrder P] [LinearOrder Q] {g : P → Q}

/-- Two runs on books that are reflections stay so, and return the reflected
    trades call by call. -/
theorem execute_reflects (hg : Turns g) (calls : List (Call P)) :
    ∀ {b : Orderbook P} {k : Orderbook Q}, Reflects g b k → Steady b →
      Steady k → (∀ c ∈ calls, callSided c) →
      ∃ b' k' history, b.run calls = .ok (b', history) ∧
        k.run (calls.map (reflectCall g))
          = .ok (k', history.map (List.map (reflectTrade g))) ∧
        Reflects g b' k' ∧ Steady b' ∧ Steady k' := by
  induction calls with
  | nil =>
      intro b k h hb hk _
      exact ⟨b, k, [], rfl, rfl, h, hb, hk⟩
  | cons c calls ih =>
      intro b k h hb hk hs
      have hc : callSided c := hs c List.mem_cons_self
      have hc' := callSided_reflect g hc
      obtain ⟨b1, ts, hcall, hd⟩ := call_spec hb.wellFormed.linked hc
      obtain ⟨k1, ts', hcall', hd'⟩ := call_spec hk.wellFormed.linked hc'
      obtain ⟨h1, rfl⟩ := Does.reflects hg h hb hk hc hd hd'
      obtain ⟨b', k', history, hrun, hrun', h', hb', hk'⟩ := ih h1
        (Does.steady hb hc hd) (Does.steady hk hc' hd')
        (fun c hmem => hs c (List.mem_cons_of_mem _ hmem))
      exact ⟨b', k', ts :: history, Execution.execute_cons_of hcall hrun,
        Execution.execute_cons_of hcall' hrun', h', hb', hk'⟩

/-- Negation turns an ordered group round. -/
theorem turns_neg [AddCommGroup P] [IsOrderedAddMonoid P] :
    Turns (Neg.neg : P → P) where
  lt := fun _ _ => neg_lt_neg_iff
  onto := neg_surjective

/-- **BUY AND SELL ARE MIRROR IMAGES**: exchange the sides and negate the
    prices of every call, and every call returns its trades with the halves
    exchanged and the prices negated, in books with exchanged levels. -/
theorem run_reflects [AddCommGroup P] [IsOrderedAddMonoid P] [Inhabited P]
    (calls : List (Call P)) (hs : ∀ c ∈ calls, callSided c) :
    ∃ b k history, Orderbook.run .empty calls = .ok (b, history) ∧
      Orderbook.run .empty (calls.map (reflectCall Neg.neg))
        = .ok (k, history.map (List.map (reflectTrade Neg.neg))) ∧
      levelOrders k.heap k.asks
        = (levelOrders b.heap b.bids).map (reflectLevel Neg.neg) ∧
      levelOrders k.heap k.bids
        = (levelOrders b.heap b.asks).map (reflectLevel Neg.neg) ∧
      ∀ price, k.levelData.find? (-price) = b.levelData.find? price := by
  obtain ⟨b, k, history, hrun, hrun', h, hb, hk⟩ := execute_reflects
    turns_neg calls reflects_empty steady_empty steady_empty hs
  obtain ⟨hasks, hbids⟩ := Reflects.levels turns_neg h hb.wellFormed.linked
    hk.wellFormed.linked
  exact ⟨b, k, history, hrun, hrun', hasks, hbids, h.levelData⟩

/-- The four order types, a zero quantity and a crossing at an equal price. -/
theorem run_reflects_mixed :
    ∃ (b k : Orderbook Int) (history : List (List (Trade Int))),
      Orderbook.run .empty
        [.addOrder .goodTillCancel 1 .sell 100 3,
          .addOrder .goodTillCancel 2 .buy 100 5,
          .addOrder .goodTillCancel 3 .sell 101 0,
          .addOrder .fillAndKill 4 .sell 99 7,
          .modifyOrder ⟨3, .sell, 102, 4⟩,
          .addOrder .fillOrKill 5 .buy 102 4,
          .addOrder .market 6 .buy 0 1, .cancelOrder 2] = .ok (b, history) ∧
      Orderbook.run .empty
        (List.map (reflectCall Neg.neg) [.addOrder .goodTillCancel 1 .sell 100 3,
          .addOrder .goodTillCancel 2 .buy 100 5,
          .addOrder .goodTillCancel 3 .sell 101 0,
          .addOrder .fillAndKill 4 .sell 99 7,
          .modifyOrder ⟨3, .sell, 102, 4⟩,
          .addOrder .fillOrKill 5 .buy 102 4,
          .addOrder .market 6 .buy 0 1, .cancelOrder 2])
        = .ok (k, history.map (List.map (reflectTrade Neg.neg))) ∧
      levelOrders k.heap k.asks
        = (levelOrders b.heap b.bids).map (reflectLevel Neg.neg) ∧
      levelOrders k.heap k.bids
        = (levelOrders b.heap b.asks).map (reflectLevel Neg.neg) ∧
      ∀ price, k.levelData.find? (-price) = b.levelData.find? price :=
  run_reflects _ (by decide)

end Runs

end OsxSymmetry
