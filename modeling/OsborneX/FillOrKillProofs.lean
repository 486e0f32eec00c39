import OsborneX.FullFillProofs
import OsborneX.RemainderProofs

/-! # Fill-Or-Kill — the decision and the execution

    `CanFullyFill` decides on the aggregates; matching then walks the orders.
    The two agree exactly when the aggregates between the best opposite price
    and the limit reach the quantity if and only if the orders there do.

    Exact aggregates agree with the book for every order, so a run that keeps
    them exact also keeps Fill-Or-Kill all-or-nothing. -/

namespace OsxFillOrKill

open OsxOrderbook OsxCrossing OsxLink OsxMatching OsxCalls OsxRepresentation
open OsxSweep OsxReachable OsxTally OsxLevelData OsxRemainder
open OsxFullFill (Passes counted fillsFrom_iff)

variable {P : Type}

/-! ## The decision -/

section Decision

variable [LinearOrder P] {b b' : Orderbook P} {side : Side} {price : P}
  {quantity : Nat}

/-- The best price on the other side. -/
def bestOpposite (b : Orderbook P) : Side → Option P
  | .buy => b.asks.begin?.map Prod.fst
  | .sell => b.bids.begin?.map Prod.fst
  | .other _ => none

theorem bestOpposite_eq (hl : Linked b) (side : Side) :
    bestOpposite b side = (opposite b side).head?.map Order.price := by
  cases side with
  | buy => exact begin?_eq hl.asks
  | sell => exact begin?_eq hl.bids
  | other _ => rfl

/-- What the aggregates offer to an order with this limit. -/
def available (b : Orderbook P) (side : Side) (price : P) : Nat :=
  counted side (bestOpposite b side) price b.levelData.entries

/-- **`CanFullyFill`** on a linked book. -/
theorem canFullyFill_iff (hl : Linked b) (hs : Sided side)
    (hq : 0 < quantity) :
    b.canFullyFill side price quantity = .ok true ↔
      (∃ y ∈ opposite b side, reaches side price y.price) ∧
        quantity ≤ available b side price := by
  rw [Orderbook.canFullyFill, canMatch_eq hl hs]
  by_cases hm : ∃ y ∈ opposite b side, reaches side price y.price
  · rw [decide_eq_true hm, available,
      ← fillsFrom_iff b.levelData.entries hq]
    rcases hs with rfl | rfl
    · show Except.ok _ = Except.ok true ↔ _
      rw [Except.ok.injEq]
      exact ⟨fun h => ⟨hm, h⟩, fun h => h.2⟩
    · show Except.ok _ = Except.ok true ↔ _
      rw [Except.ok.injEq]
      exact ⟨fun h => ⟨hm, h⟩, fun h => h.2⟩
  · rw [decide_eq_false hm]
    show Except.ok false = Except.ok true ↔ _
    exact ⟨fun h => (by cases h), fun h => absurd h.1 hm⟩

/-- **THE AGGREGATES AGREE WITH THE BOOK** on whether this much is there at
    acceptable prices, when some opposite price is acceptable at all. -/
def Agrees (b : Orderbook P) (side : Side) (price : P) (quantity : Nat) :
    Prop :=
  (∃ y ∈ opposite b side, reaches side price y.price) →
    (quantity ≤ available b side price ↔
      quantity ≤ depth (better side) price (opposite b side))

end Decision

/-! ## The execution -/

section Execution

variable {lt : P → P → Prop} [DecidableRel lt] {o : Order P}
  {log : List (Round P)} {own own' opp opp' : List (Order P)}

/-- **A SWEEP FILLS AN ORDER** if and only if enough is acceptable to it; if
    not, the order rests with what was missing. -/
theorem Sweep.fills (h : Sweep lt own o opp log own' opp') :
    o.orderType ≠ .fillAndKill → 0 < o.remainingQuantity →
    (∀ y ∈ opp, 0 < y.remainingQuantity) →
    (o.remainingQuantity ≤ depth lt o.price opp → own' = own) ∧
      (depth lt o.price opp < o.remainingQuantity →
        ∃ r, own' = restBehind lt r own ∧ SameTerms o r) := by
  induction h with
  | @rest o opp h =>
      intro _ ho _
      rw [depth_eq_zero h]
      exact ⟨fun hle => by omega, fun _ => ⟨o, rfl, .refl o⟩⟩
  | @filled o A A' as pa pairs hA has hA0 hcross hc =>
      intro _ _ _
      have hw := Cross.weight hc
      have h1 : weight [o] = o.remainingQuantity := Nat.add_zero _
      have h3 : weight ([] : List (Order P)) = 0 := rfl
      rw [depth_append (fun y hy => by rw [hA y hy]; exact hcross)]
      exact ⟨fun _ => rfl, fun hlt => by omega⟩
  | killed _ _ _ _ _ hk => exact fun hno => absurd hk hno
  | @next o r A as own' opp' pa pairs log hA has hA0 hcross hc hk h ih =>
      intro _ ho hopp
      have hw := Cross.weight hc
      have h1 : weight [o] = o.remainingQuantity := Nat.add_zero _
      have h2 : weight [r] = r.remainingQuantity := Nat.add_zero _
      have h3 : weight ([] : List (Order P)) = 0 := rfl
      have hr : 0 < r.remainingQuantity := by
        refine (hc.positive ?_ (fun y hy => hopp y
          (List.mem_append.mpr (Or.inl hy)))).1 r List.mem_cons_self
        intro w hw
        rw [List.mem_singleton.mp hw]
        exact ho
      have hterms := hc.remainder
      obtain ⟨ih1, ih2⟩ := ih (by rw [hterms.fields.1]; exact hk) hr
        (fun y hy => hopp y (List.mem_append.mpr (Or.inr hy)))
      rw [hterms.fields.2.2.2.1] at ih1 ih2
      rw [depth_append (fun y hy => by rw [hA y hy]; exact hcross)]
      constructor
      · exact fun hle => ih1 (by omega)
      · intro hlt
        obtain ⟨r', h4, h5⟩ := ih2 (by omega)
        exact ⟨r', h4, hterms.trans h5⟩

end Execution

/-! ## All or nothing -/

section AllOrNothing

variable [LinearOrder P] {b b' : Orderbook P} {side : Side} {price : P}
  {quantity : Nat} {orderId : OrderId}

/-- **ALL OR NOTHING**: enough at acceptable prices, and the order trades
    exactly its quantity and does not rest; or no trade, and an untouched
    book. -/
def AllOrNothing (b : Orderbook P) (orderId : OrderId) (side : Side)
    (price : P) (quantity : Nat) : Prop :=
  ∃ b' ts, b.call (.addOrder .fillOrKill orderId side price quantity)
      = .ok (b', ts) ∧
    if quantity ≤ depth (better side) price (opposite b side) then
      tradedQuantity orderId ts = quantity ∧ b'.orders.find? orderId = none
    else ts = [] ∧ b'.bids = b.bids ∧ b'.asks = b.asks ∧
      b'.orders = b.orders

/-- An admitted Fill-Or-Kill order, executed. -/
theorem Executed.fillOrKill (hst : Steady b) (hpos : Positive b)
    {o : Order P} {b2 : Orderbook P} {log : List (Round P)}
    (he : Executed b o b2 b' log) (hs : Sided o.side)
    (hk : o.orderType = .fillOrKill) (hq : 0 < o.remainingQuantity)
    (hfresh : b.orders.find? o.orderId = none) :
    (o.remainingQuantity ≤ depth (better o.side) o.price
        (opposite b o.side) →
      tradedQuantity o.orderId (trades log) = o.remainingQuantity ∧
        b'.orders.find? o.orderId = none) ∧
    (depth (better o.side) o.price (opposite b o.side)
        < o.remainingQuantity →
      ∃ x ∈ own b' o.side, x.orderId = o.orderId ∧
        x.orderType = .fillOrKill) := by
  have hsweep := Executed.sweep hst.wellFormed hst.settled hs he
  have hopp : ∀ y ∈ opposite b o.side, 0 < y.remainingQuantity := by
    rw [opposite_eq]
    exact hpos _
  obtain ⟨hfull, hpart⟩ := Sweep.fills hsweep
    (by simp [hk]) hq hopp
  constructor
  · intro hle
    have hown := hfull hle
    have hgone := Executed.absent hst he hs hfresh hown
    -- the order left without being killed, so nothing of it remains
    have hsplit := (Executed.remainder hst he hs).1 (by simp [hk])
    rw [remainder_of_absent hgone] at hsplit
    exact ⟨hsplit.symm, hgone⟩
  · intro hlt
    obtain ⟨r, hr, hterms⟩ := hpart hlt
    refine ⟨r, ?_, hterms.fields.2.1, hterms.fields.1.trans hk⟩
    rw [hr]
    exact mem_restBehind.mpr (Or.inl rfl)

/-- A Fill-Or-Kill order is admitted when the aggregates say so. -/
theorem fillOrKill_admits (hl : Linked b) (hs : Sided side)
    (hq : 0 < quantity) (hfresh : b.orders.find? orderId = none)
    {o' : Order P} :
    Admits b (.new .fillOrKill orderId side price quantity) o' ↔
      o' = .new .fillOrKill orderId side price quantity ∧
        (∃ y ∈ opposite b side, reaches side price y.price) ∧
        quantity ≤ available b side price := by
  rw [← canFullyFill_iff hl hs hq]
  constructor
  · intro ha
    exact ⟨(Option.some.inj ha.effective).symm, ha.fillable rfl⟩
  · rintro ⟨rfl, hfill⟩
    exact ⟨hfresh, rfl, fun h => (by cases h), fun _ => hfill⟩

/-- **EXACTLY WHEN IT IS ALL OR NOTHING**, on one book. -/
theorem allOrNothing_iff (hst : Steady b) (hpos : Positive b)
    (hs : Sided side) (hq : 0 < quantity)
    (hfresh : b.orders.find? orderId = none) :
    AllOrNothing b orderId side price quantity ↔
      Agrees b side price quantity := by
  have hl := hst.wellFormed.linked
  obtain ⟨b', ts, hrun, ha⟩ := addOrder_spec hl
    (.new .fillOrKill orderId side price quantity) hs (Nat.le_refl _)
  have hcall : b.call (.addOrder .fillOrKill orderId side price quantity)
      = .ok (b', ts) := hrun
  rw [AllOrNothing, Execution.ok_iff hcall]
  cases ha with
  | rejected hno =>
      have hno' : ¬ ((∃ y ∈ opposite b side, reaches side price y.price) ∧
          quantity ≤ available b side price) := fun h =>
        hno _ ((fillOrKill_admits hl hs hq hfresh).mpr ⟨rfl, h⟩)
      by_cases hd : quantity ≤ depth (better side) price (opposite b side)
      · rw [if_pos hd]
        have hacc : ∃ y ∈ opposite b side, reaches side price y.price := by
          by_contra hnone
          have hzero : depth (better side) price (opposite b side) = 0 := by
            refine depth_eq_zero (fun y hy => ?_)
            by_contra hacc
            exact hnone ⟨y, hy, (reaches_iff hs).mpr hacc⟩
          omega
        constructor
        · rintro ⟨hts, -⟩
          have h0 : (0 : Nat) = quantity := hts
          omega
        · intro hagree
          exact absurd ⟨hacc, (hagree hacc).mpr hd⟩ hno'
      · rw [if_neg hd]
        refine ⟨fun _ hacc => ⟨fun hav => absurd ⟨hacc, hav⟩ hno',
          fun h => absurd h hd⟩, fun _ => ⟨rfl, rfl, rfl, rfl⟩⟩
  | @admitted o' b2 _ log ha he =>
      obtain ⟨rfl, hacc, hav⟩ :=
        (fillOrKill_admits hl hs hq hfresh).mp ha
      obtain ⟨hfull, hpart⟩ :=
        Executed.fillOrKill hst hpos he hs rfl hq hfresh
      by_cases hd : quantity ≤ depth (better side) price (opposite b side)
      · rw [if_pos hd]
        exact ⟨fun _ _ => ⟨fun _ => hd, fun _ => hav⟩, fun _ => hfull hd⟩
      · rw [if_neg hd]
        constructor
        · rintro ⟨-, -, -, horders⟩
          obtain ⟨x, hx, hid, -⟩ := hpart (Nat.lt_of_not_le hd)
          rw [← horders] at hfresh
          refine absurd hid (Linked.fresh he.linked hfresh x ?_)
          exact (sides_perm hs b').mem_iff.mp
            (List.mem_append.mpr (Or.inl hx))
        · exact fun hagree => absurd ((hagree hacc).mp hav) hd

/-! ## Runs in which no Fill-Or-Kill rests -/

/-- A Fill-Or-Kill order with a fresh id meets aggregates that agree. -/
def CallAgrees (b : Orderbook P) : Call P → Prop
  | .addOrder .fillOrKill orderId side price quantity =>
      b.orders.find? orderId = none → Agrees b side price quantity
  | _ => True

/-- No Fill-Or-Kill order rests. -/
def NoFillOrKill (b : Orderbook P) : Prop :=
  ∀ x ∈ resting b, x.orderType ≠ .fillOrKill

theorem Adds.noFillOrKill (hst : Steady b) (hno : NoFillOrKill b)
    {o : Order P} {ts : List (Trade P)} (ha : Adds b o b' ts)
    (hs : Sided o.side)
    (hfok : o.orderType = .fillOrKill → ∀ o', Admits b o o' →
      ∀ x ∈ resting b', x.orderId ≠ o.orderId) : NoFillOrKill b' := by
  intro x hx hk
  rcases Adds.resting_from hst.wellFormed.linked ha hs x hx with
    ⟨y, hy, hterms⟩ | ⟨o', ho', hterms⟩
  · exact hno y hy (hterms.fields.1.symm.trans hk)
  · have htype := effective_orderType ho'.effective
    rw [← hterms.fields.1, hk] at htype
    have hko : o.orderType = .fillOrKill := by
      by_cases hm : o.orderType = .market
      · rw [if_pos hm] at htype
        cases htype
      · rw [if_neg hm] at htype
        exact htype.symm
    refine hfok hko o' ho' x hx ?_
    rw [hterms.fields.2.1]
    exact (effective_terms ho'.effective).2.1

theorem Does.noFillOrKill (hst : Steady b) (hpos : Positive b)
    (hno : NoFillOrKill b) {c : Call P} (hc : Regular c)
    (hagree : CallAgrees b c) {ts : List (Trade P)} (hd : Does b c b' ts) :
    NoFillOrKill b' := by
  have hl := hst.wellFormed.linked
  cases hd with
  | @added orderType orderId side price quantity _ _ ha =>
      refine Adds.noFillOrKill hst hno ha hc.1 (fun hk o' ho' => ?_)
      have hk' : orderType = .fillOrKill := hk
      subst hk'
      cases ha with
      | rejected hno' => exact absurd ho' (hno' o')
      | @admitted o'' b2 _ log ha he =>
          have hfresh : b.orders.find? orderId = none := ha.fresh
          obtain ⟨rfl, hacc, hav⟩ :=
            (fillOrKill_admits hl hc.1 hc.2 hfresh).mp ha
          -- the decision was right, so the order is gone
          have hfull := (Executed.fillOrKill hst hpos he hc.1 rfl hc.2
            hfresh).1 (((hagree hfresh) hacc).mp hav)
          exact Linked.fresh he.linked hfull.2
  | cancelled _ _ hr =>
      exact fun x hx => hno x (Removed.resting_sub hr x hx)
  | notFound _ => exact hno
  | @modified m p b1 _ _ hp hid hr ha =>
      refine Adds.noFillOrKill (Removed.steady hst hr)
        (fun x hx => hno x (Removed.resting_sub hr x hx)) ha hc.1
        (fun hk => ?_)
      refine absurd hk (hno (b.heap p) ?_)
      rw [resting_eq]
      exact List.mem_map_of_mem hp
  | unknown _ => exact hno

/-- **FILL-OR-KILL.**  On every book a run reaches, a fresh order is
    all-or-nothing exactly when the aggregates agree with the book about it;
    and when they did so for every Fill-Or-Kill order of the run, none
    rests. -/
theorem fillOrKill_iff [Inhabited P] {calls : List (Call P)}
    {history : List (List (Trade P))}
    (hrun : Orderbook.run .empty calls = .ok (b, history))
    (hreg : ∀ c ∈ calls, Regular c) (hs : Sided side) (price : P)
    (hq : 0 < quantity) (hfresh : b.orders.find? orderId = none) :
    (AllOrNothing b orderId side price quantity ↔
      Agrees b side price quantity) ∧
    (Execution.Along Orderbook.call CallAgrees (.empty : Orderbook P) calls →
      NoFillOrKill b) := by
  have hreach : Reached Regular b := ⟨calls, history, hreg, hrun⟩
  obtain ⟨hst, hpos⟩ := hreach.regular
  refine ⟨allOrNothing_iff hst hpos hs hq hfresh, fun hal => ?_⟩
  have hstep : ∀ (b : Orderbook P) (c : Call P),
      (Steady b ∧ Positive b ∧ NoFillOrKill b) →
      (Regular c ∧ CallAgrees b c) →
      ∃ b' ts, b.call c = .ok (b', ts) ∧
        (Steady b' ∧ Positive b' ∧ NoFillOrKill b') ∧ True := by
    rintro b c ⟨hst, hpos, hno⟩ ⟨hc, hagree⟩
    obtain ⟨b', ts, hrun, hd⟩ := call_spec hst.wellFormed.linked hc.1
    exact ⟨b', ts, hrun, ⟨Does.steady hst hc.1 hd,
      Does.positive hst.wellFormed.linked hpos hc.1 hc.2 hd,
      Does.noFillOrKill hst hpos hno hc hagree hd⟩, trivial⟩
  obtain ⟨b'', history', hrun', ⟨-, -, hno⟩, -⟩ := Execution.execute_spec
    hstep calls .empty ⟨steady_empty, positive_empty, List.forall_mem_nil _⟩
    ((Execution.along_of_forall hreg _).and hal)
  rw [Orderbook.run, hrun'] at hrun
  cases hrun
  exact hno

/-! ## Exact aggregates agree -/

theorem sum_indicator {κ : Type} [DecidableEq κ] {keys : List κ}
    (hn : keys.Nodup) (a : κ) (n : Nat) :
    (keys.map (fun k => if a = k then n else 0)).sum
      = if a ∈ keys then n else 0 := by
  induction keys with
  | nil => rfl
  | cons k keys ih =>
      obtain ⟨hk, hkeys⟩ := List.nodup_cons.mp hn
      rw [List.map_cons, List.sum_cons, ih hkeys]
      by_cases ha : a = k
      · subst ha
        rw [if_pos rfl, if_neg hk, if_pos List.mem_cons_self]
        rfl
      · have hiff : a ∈ k :: keys ↔ a ∈ keys := by simp [ha]
        simp only [if_neg ha, Nat.zero_add, hiff]

/-- The orders at some prices weigh what the prices weigh. -/
theorem sum_quantityAt {keys : List P} (hn : keys.Nodup)
    (L : List (Order P)) :
    (keys.map (fun k => quantityAt k L)).sum
      = weight (L.filter (fun o => o.price ∈ keys)) := by
  induction L with
  | nil =>
      have hzero : (keys.map (fun k => quantityAt k ([] : List (Order P))))
          = keys.map (fun _ => 0) := rfl
      rw [hzero, List.map_const', List.sum_replicate_nat]
      rfl
  | cons o L ih =>
      have hsplit : (keys.map (fun k => quantityAt k (o :: L))).sum
          = (keys.map (fun k =>
              if o.price = k then o.remainingQuantity else 0)).sum
            + (keys.map (fun k => quantityAt k L)).sum := by
        rw [← List.sum_map_add]
        exact congrArg List.sum
          (List.map_congr_left (fun k _ => quantityAt_cons))
      rw [hsplit, sum_indicator hn, ih]
      by_cases ho : o.price ∈ keys
      · rw [if_pos ho, List.filter_cons, if_pos (by simpa using ho)]
        rfl
      · rw [if_neg ho, List.filter_cons, if_neg (by simpa using ho),
          Nat.zero_add]

/-- The best opposite price, when anything is opposite. -/
theorem bestOpposite_spec (hl : Linked b) (hs : Sided side)
    (hne : ∃ y, y ∈ opposite b side) :
    ∃ best, bestOpposite b side = some best ∧
      (∃ y ∈ opposite b side, y.price = best) ∧
      ∀ y ∈ opposite b side, ¬ better side best y.price := by
  have hside : ∀ {lt : P → P → Prop} [IsStrictTotalOrder P lt]
      {m : Levels P lt} {s : Side}, Housed b.heap s m →
      (∃ y, y ∈ (pointersOf m).map b.heap) →
      ∃ best, m.begin?.map Prod.fst = some best ∧
        (∃ y ∈ (pointersOf m).map b.heap, y.price = best) ∧
        ∀ y ∈ (pointersOf m).map b.heap, ¬ lt y.price best := by
    rintro lt _ m s h ⟨y, hy⟩
    cases hent : m.entries with
    | nil =>
        rw [pointersOf, hent] at hy
        cases hy
    | cons e rest =>
        obtain ⟨k, l⟩ := e
        have hbegin : m.begin? = some (k, l) := by
          rw [OrderedMap.begin?, hent]
          rfl
        obtain ⟨hk, hrest⟩ := h.behind_best hent
        refine ⟨k, by rw [hbegin]; rfl,
          best_mem h (by rw [hbegin]; rfl), fun y hy => ?_⟩
        rw [pointersOf_best hent, List.map_append] at hy
        rcases List.mem_append.mp hy with hy | hy
        · rw [hk y hy]
          exact irrefl_of lt k
        · exact asymm_of lt (hrest y hy)
  rcases hs with rfl | rfl
  · exact hside hl.asks hne
  · exact hside hl.bids hne

/-- The loop passes over a price that is better than the best one or worse than
    the limit. -/
theorem passes_iff (hs : Sided side) (best level : P) :
    Passes side (some best) price level ↔
      better side best level ∨ better side level price := by
  rcases hs with rfl | rfl
  · simp [Passes, better]
  · simp [Passes, better]

/-- **EXACT AGGREGATES AGREE WITH THE BOOK** about every order. -/
theorem agrees_of_exact (hw : WellFormed b) (hex : Exact b)
    (hs : Sided side) (price : P) (quantity : Nat) :
    Agrees b side price quantity := by
  rintro ⟨y, hy, -⟩
  obtain ⟨best, hbest, ⟨y0, hy0, hprice⟩, hworse⟩ :=
    bestOpposite_spec hw.linked hs ⟨y, hy⟩
  have hu := uncrossed_better hw hs
  suffices heq : available b side price
      = depth (better side) price (opposite b side) by
    rw [heq]
  -- entries to prices
  let keys : List P := (b.levelData.entries.filter
    (fun e => ¬ Passes side (some best) price e.1)).map Prod.fst
  have hkeys : keys.Nodup := by
    refine List.Nodup.sublist (List.filter_sublist.map _) ?_
    refine List.pairwise_map.mpr (b.levelData.distinct.imp (fun h => ?_))
    simpa using h
  have hentry : ∀ e ∈ b.levelData.entries,
      e.2.quantity = quantityAt e.1 (resting b) := by
    rintro ⟨k, data⟩ he
    have hfind := (b.levelData.find?_eq_some_iff k data).mpr he
    rw [hex k] at hfind
    by_cases h0 : countAt k (resting b) = 0
    · rw [if_pos h0] at hfind
      cases hfind
    · rw [if_neg h0] at hfind
      cases hfind
      rfl
  have hprices : available b side price
      = (keys.map (fun k => quantityAt k (resting b))).sum := by
    rw [available, hbest, counted, OsxFullFill.quantityAt, List.map_map]
    refine congrArg List.sum (List.map_congr_left (fun e he => ?_))
    exact hentry e (List.mem_of_mem_filter he)
  -- prices to orders, of which the own side has none in the range
  have hmem : ∀ o ∈ resting b, (o.price ∈ keys ↔
      ¬ Passes side (some best) price o.price) := by
    intro o ho
    constructor
    · intro h
      obtain ⟨e, he, hep⟩ := List.mem_map.mp h
      rw [← hep]
      simpa using (List.mem_filter.mp he).2
    · intro h
      have hcount : countAt o.price (resting b) ≠ 0 := fun h0 =>
        countAt_eq_zero.mp h0 o ho rfl
      have hfind := hex o.price
      rw [if_neg hcount] at hfind
      have he := (b.levelData.find?_eq_some_iff _ _).mp hfind
      exact List.mem_map.mpr
        ⟨_, List.mem_filter.mpr ⟨he, by simpa using h⟩, rfl⟩
  have hown : ∀ w ∈ own b side, Passes side (some best) price w.price := by
    intro w hw'
    refine (passes_iff hs best w.price).mpr (Or.inl ?_)
    rw [← hprice]
    exact hu w hw' y0 hy0
  have hopp : ∀ o ∈ opposite b side, (¬ Passes side (some best) price o.price ↔
      ¬ better side o.price price) := by
    intro o ho
    rw [passes_iff hs, not_or]
    exact ⟨fun h => h.2, fun h => ⟨hworse o ho, h⟩⟩
  have hperm := (sides_perm hs b).symm
  have hfilter : (resting b).filter (fun o => o.price ∈ keys)
      = (resting b).filter
        (fun o => ¬ Passes side (some best) price o.price) :=
    List.filter_congr (fun o ho => decide_eq_decide.mpr (hmem o ho))
  rw [hprices, sum_quantityAt hkeys, hfilter]
  have hweight : weight ((resting b).filter
      (fun o => ¬ Passes side (some best) price o.price))
      = weight ((own b side ++ opposite b side).filter
        (fun o => ¬ Passes side (some best) price o.price)) :=
    ((hperm.filter _).map _).sum_nat
  have hnone : (own b side).filter
      (fun o => ¬ Passes side (some best) price o.price) = [] :=
    List.filter_eq_nil_iff.mpr (fun w hw => by simpa using hown w hw)
  rw [hweight, List.filter_append, hnone, List.nil_append, depth]
  exact congrArg weight
    (List.filter_congr (fun o ho => decide_eq_decide.mpr (hopp o ho)))

/-- **EXACT RUNS ARE ALL OR NOTHING**: after every run that keeps the
    aggregates exact, every fresh Fill-Or-Kill order is. -/
theorem run_allOrNothing [Inhabited P] {calls : List (Call P)}
    (h : Execution.Along Orderbook.call
      (fun b c => Bounded b c ∧ CallSpares b c) (.empty : Orderbook P) calls)
    (hs : Sided side) (price : P) (hq : 0 < quantity) :
    ∃ b history, Orderbook.run .empty calls = .ok (b, history) ∧
      (b.orders.find? orderId = none →
        AllOrNothing b orderId side price quantity) := by
  obtain ⟨b, history, hrun, hst, hpos, hex⟩ := run_kept calls h
  exact ⟨b, history, hrun, fun hfresh =>
    (allOrNothing_iff hst hpos hs hq hfresh).mpr
      (agrees_of_exact hst.wellFormed hex hs price quantity)⟩

end AllOrNothing

/-- Two ask levels. -/
def twoAsks : List (Call Int) :=
  [.addOrder .goodTillCancel 1 .sell 100 3,
    .addOrder .goodTillCancel 2 .sell 101 4]

/-- On two ask levels a Fill-Or-Kill bid reaching both is all-or-nothing when
    the aggregates agree, and they do. -/
theorem fillOrKill_iff_twoAsks :
    (AllOrNothing (bookAfter twoAsks) 3 .buy 101 7 ↔
      Agrees (bookAfter twoAsks) .buy 101 7) ∧
    (Execution.Along Orderbook.call CallAgrees (.empty : Orderbook Int)
      twoAsks → NoFillOrKill (bookAfter twoAsks)) := by
  obtain ⟨history, hrun⟩ := run_bookAfter
    (show ∀ c ∈ twoAsks, callSided c by decide)
  have hfresh : (bookAfter twoAsks).orders.find? 3 = none := by decide
  have hq : 0 < 7 := by decide
  exact fillOrKill_iff hrun (by decide) (Or.inl rfl) 101 hq hfresh

/-- **A LOST ENTRY REJECTS A FILLABLE ORDER**: a bid rests with two left at a
    price the aggregates have forgotten, and an ask for two is turned away. -/
theorem fillOrKill_misled : ¬ ∀ (b : Orderbook Int), Reached Regular b →
    b.orders.find? 3 = none → AllOrNothing b 3 .sell 100 2 := by
  intro h
  let calls : List (Call Int) :=
    [.addOrder .goodTillCancel 1 .sell 100 3,
      .addOrder .goodTillCancel 2 .buy 100 5]
  have hreach : Reached Regular (bookAfter calls) :=
    reached_bookAfter (by decide) (by decide)
  obtain ⟨hst, hpos⟩ := hreach.regular
  have hfresh : (bookAfter calls).orders.find? 3 = none := by decide
  have hagree := (allOrNothing_iff hst hpos (Or.inr rfl) (by decide)
    hfresh).mp (h _ hreach hfresh)
  have hno : ¬ ((∃ y ∈ opposite (bookAfter calls) .sell,
        reaches .sell 100 y.price) →
      (2 ≤ available (bookAfter calls) .sell 100 ↔
        2 ≤ depth (better .sell) 100 (opposite (bookAfter calls) .sell))) := by
    decide +kernel
  exact hno hagree

end OsxFillOrKill
