import OsborneX.LevelDataProofs
import OsborneX.PriceTimeProofs

/-! # Execution prices — whose price a trade records

    A trade records each order's OWN limit.  The two agree with the resting
    order's price exactly when the incoming order finds nothing better than its
    limit: then every execution is at that limit.  The first execution is at
    the best opposite level, so one strictly better price there is enough to
    make the two sides of a trade differ. -/

namespace OsxExecutionPrice

open OsxOrderbook OsxCrossing OsxLink OsxMatching OsxCalls OsxRepresentation
open OsxSweep OsxReachable OsxLevelData OsxPriceTime

variable {P : Type}

/-! ## The executions of a sweep -/

section Sweeping

variable {lt : P → P → Prop} [DecidableRel lt] {o : Order P}
  {log : List (Round P)} {own own' opp opp' : List (Order P)}

/-- Every execution is between the incoming order and an acceptable one. -/
theorem Sweep.executions (h : Sweep lt own o opp log own' opp') :
    ∀ p ∈ log.flatMap Round.pairs, SameTerms o p.bid ∧
      ∃ y ∈ opp, SameTerms y p.ask ∧ ¬ lt y.price o.price := by
  have hlevel : ∀ {o : Order P} {A as B' A' : List (Order P)} {pa : P}
      {pairs : List (Pairing P)}, (∀ y ∈ A, y.price = pa) →
      ¬ lt pa o.price → Cross [o] A pairs B' A' →
      ∀ p ∈ pairs, SameTerms o p.bid ∧
        ∃ y ∈ A ++ as, SameTerms y p.ask ∧ ¬ lt y.price o.price := by
    intro o A as B' A' pa pairs hA hcross hc p hp
    obtain ⟨⟨x, hx, hbid⟩, ⟨y, hy, hask⟩⟩ := hc.pairs_from p hp
    rw [List.mem_singleton.mp hx] at hbid
    refine ⟨hbid, y, List.mem_append.mpr (Or.inl hy), hask, ?_⟩
    rw [hA y hy]
    exact hcross
  induction h with
  | rest _ => exact List.forall_mem_nil _
  | filled hA _ _ hcross hc =>
      intro p hp
      rw [List.flatMap_cons, List.flatMap_nil, List.append_nil] at hp
      exact hlevel hA hcross hc p hp
  | killed hA _ _ hcross hc _ =>
      intro p hp
      rw [List.flatMap_cons, List.flatMap_nil, List.append_nil] at hp
      exact hlevel hA hcross hc p hp
  | next hA _ _ hcross hc _ _ ih =>
      intro p hp
      rw [List.flatMap_cons] at hp
      rcases List.mem_append.mp hp with hp | hp
      · exact hlevel hA hcross hc p hp
      · obtain ⟨hbid, y, hy, hask, hacc⟩ := ih p hp
        have hterms := hc.remainder
        rw [hterms.fields.2.2.2.1] at hacc
        exact ⟨hterms.trans hbid, y, List.mem_append.mpr (Or.inr hy), hask,
          hacc⟩

/-- Two non-empty lists pair their fronts. -/
theorem Cross.first {A B' A' : List (Order P)} {pairs : List (Pairing P)}
    (h : Cross [o] A pairs B' A') (hA0 : A ≠ []) : ∃ p, p ∈ pairs := by
  cases h with
  | done h =>
      rcases h with h | h
      · cases h
      · exact absurd h hA0
  | pair q hq h => exact ⟨_, List.mem_cons_self⟩

/-- With a price better than the limit opposite, some execution is at one. -/
theorem Sweep.improved [IsStrictTotalOrder P lt]
    (h : Sweep lt own o opp log own' opp') {y : Order P} (hy : y ∈ opp)
    (hbetter : lt o.price y.price) :
    ∃ p ∈ log.flatMap Round.pairs, p.ask.price ≠ o.price := by
  have hlevel : ∀ {A as B' A' : List (Order P)} {pa : P}
      {pairs : List (Pairing P)}, (∀ y ∈ A, y.price = pa) → A ≠ [] →
      (∀ y ∈ as, lt y.price pa) → opp = A ++ as → Cross [o] A pairs B' A' →
      ∃ p ∈ pairs, p.ask.price ≠ o.price := by
    rintro A as B' A' pa pairs hA hA0 has rfl hc
    obtain ⟨p, hp⟩ := Cross.first hc hA0
    obtain ⟨-, ⟨z, hz, hask⟩⟩ := hc.pairs_from p hp
    refine ⟨p, hp, ?_⟩
    rw [hask.fields.2.2.2.1, hA z hz]
    have hpa : lt o.price pa := by
      rcases List.mem_append.mp hy with hy | hy
      · rw [← hA y hy]
        exact hbetter
      · exact IsTrans.trans _ _ _ hbetter (has y hy)
    exact (ne_of_irrefl hpa).symm
  cases h with
  | rest h => exact absurd hbetter (asymm_of lt (h y hy))
  | filled hA has hA0 hcross hc =>
      obtain ⟨p, hp, hne⟩ := hlevel hA hA0 has rfl hc
      exact ⟨p, List.mem_flatMap.mpr ⟨_, List.mem_cons_self, hp⟩, hne⟩
  | killed hA has hA0 hcross hc _ =>
      obtain ⟨p, hp, hne⟩ := hlevel hA hA0 has rfl hc
      exact ⟨p, List.mem_flatMap.mpr ⟨_, List.mem_cons_self, hp⟩, hne⟩
  | next hA has hA0 hcross hc _ _ =>
      obtain ⟨p, hp, hne⟩ := hlevel hA hA0 has rfl hc
      exact ⟨p, List.mem_flatMap.mpr ⟨_, List.mem_cons_self, hp⟩, hne⟩

end Sweeping

/-! ## The trades of a call -/

section Calls

/-- The id of the resting order of a trade, for an incoming one on `side`. -/
def restingId : Side → Trade P → OrderId
  | .sell, t => t.bidTrade.orderId
  | _, t => t.askTrade.orderId

/-- The two recorded prices of an execution. -/
theorem tradeFor_prices {side : Side} (hs : Sided side) {p : Pairing P}
    {x : P} :
    ((tradeFor side p).bidTrade.price = x ∧
      (tradeFor side p).askTrade.price = x) ↔
      p.bid.price = x ∧ p.ask.price = x := by
  rcases hs with rfl | rfl
  · exact Iff.rfl
  · exact And.comm

theorem restingId_tradeFor {side : Side} (hs : Sided side) (p : Pairing P) :
    restingId side (tradeFor side p) = p.ask.orderId := by
  rcases hs with rfl | rfl <;> rfl

/-- The two sides of a trade agree. -/
def Balanced (t : Trade P) : Prop :=
  t.bidTrade.price = t.askTrade.price ∧
    t.bidTrade.quantity = t.askTrade.quantity

/-- What the buyers of a run pay, in whatever cash is counted in. -/
def cashPaid {M : Type} [Add M] [Zero M] (worth : P → Nat → M)
    (history : List (List (Trade P))) : M :=
  (history.flatten.map
    (fun t => worth t.bidTrade.price t.bidTrade.quantity)).sum

/-- What the sellers of a run receive. -/
def cashReceived {M : Type} [Add M] [Zero M] (worth : P → Nat → M)
    (history : List (List (Trade P))) : M :=
  (history.flatten.map
    (fun t => worth t.askTrade.price t.askTrade.quantity)).sum

/-- Balanced trades leave buyers and sellers with the same cash. -/
theorem cash_balanced {M : Type} [Add M] [Zero M] (worth : P → Nat → M)
    {history : List (List (Trade P))}
    (h : ∀ ts ∈ history, ∀ t ∈ ts, Balanced t) :
    cashPaid worth history = cashReceived worth history := by
  refine congrArg List.sum (List.map_congr_left (fun t ht => ?_))
  obtain ⟨ts, hts, ht⟩ := List.mem_flatten.mp ht
  obtain ⟨h1, h2⟩ := h ts hts t ht
  rw [h1, h2]

variable [LinearOrder P] {b b' : Orderbook P} {o : Order P}
  {ts : List (Trade P)}

/-- Both sides of every trade record the price of an order resting opposite
    the incoming one, the one the trade names. -/
def AtRestingPrice (b : Orderbook P) (side : Side) (ts : List (Trade P)) :
    Prop :=
  ∀ t ∈ ts, ∃ y ∈ opposite b side, y.orderId = restingId side t ∧
    t.bidTrade.price = y.price ∧ t.askTrade.price = y.price

/-- Every opposite price the order accepts is its limit. -/
def NoImprovement (b : Orderbook P) (o : Order P) : Prop :=
  ∀ y ∈ opposite b o.side, reaches o.side o.price y.price →
    y.price = o.price

instance (b : Orderbook P) (o : Order P) : Decidable (NoImprovement b o) :=
  inferInstanceAs (Decidable (∀ y ∈ _, _))

/-- Trades whose two prices agree come from an order that found nothing better
    than its limit. -/
theorem Executed.noImprovement (hst : Steady b) {b2 : Orderbook P}
    {log : List (Round P)} (he : Executed b o b2 b' log) (hs : Sided o.side)
    (heq : ∀ t ∈ trades log, t.bidTrade.price = t.askTrade.price) :
    NoImprovement b o := by
  have hstrict := better_strict (P := P) hs
  have hsweep := Executed.sweep hst.wellFormed hst.settled hs he
  rw [trades_oriented hs] at heq
  intro y hy hreach
  by_contra hne
  have hbetter : better o.side o.price y.price := by
    rcases trichotomous_of (better o.side) o.price y.price with h | h | h
    · exact h
    · exact absurd h.symm hne
    · exact absurd h ((reaches_iff hs).mp hreach)
  obtain ⟨p, hp, hask⟩ := Sweep.improved hsweep hy hbetter
  obtain ⟨hbid, -⟩ := Sweep.executions hsweep p hp
  obtain ⟨h1, h2⟩ := (tradeFor_prices hs).mp
    ⟨heq _ (List.mem_map_of_mem hp), rfl⟩
  exact hask (by rw [h2, ← h1, hbid.fields.2.2.2.1])

/-- An order that finds nothing better than its limit trades at it, and so at
    the prices of the resting orders. -/
theorem Executed.atRestingPrice (hst : Steady b) {b2 : Orderbook P}
    {log : List (Round P)} (he : Executed b o b2 b' log) (hs : Sided o.side)
    (hno : NoImprovement b o) : AtRestingPrice b o.side (trades log) := by
  have hsweep := Executed.sweep hst.wellFormed hst.settled hs he
  rw [trades_oriented hs]
  intro t ht
  obtain ⟨p, hp, rfl⟩ := List.mem_map.mp ht
  obtain ⟨hbid, y, hy, hask, hacc⟩ := Sweep.executions hsweep p hp
  refine ⟨y, hy, ?_, (tradeFor_prices hs).mpr ⟨?_, ?_⟩⟩
  · rw [restingId_tradeFor hs]
    exact hask.fields.2.1.symm
  · rw [hbid.fields.2.2.2.1]
    exact (hno y hy ((reaches_iff hs).mpr hacc)).symm
  · exact hask.fields.2.2.2.1

theorem Adds.noImprovement (hst : Steady b) (ha : Adds b o b' ts)
    (hs : Sided o.side)
    (heq : ∀ t ∈ ts, t.bidTrade.price = t.askTrade.price) :
    ∀ o' ∈ admitted b o, NoImprovement b o' := by
  intro o' ho'
  cases ha with
  | rejected hno => exact absurd (admits_iff.mpr ho') (hno o')
  | @admitted o'' b2 _ log ha he =>
      obtain rfl := ha.unique (admits_iff.mpr ho')
      have hside := (effective_terms ha.effective).1
      exact Executed.noImprovement hst he (by rw [hside]; exact hs) heq

theorem Adds.atRestingPrice (hst : Steady b) (ha : Adds b o b' ts)
    (hs : Sided o.side) (hno : ∀ o' ∈ admitted b o, NoImprovement b o') :
    AtRestingPrice b o.side ts := by
  cases ha with
  | rejected _ => exact List.forall_mem_nil _
  | @admitted o' b2 _ log ha he =>
      have hside := (effective_terms ha.effective).1
      have hat := Executed.atRestingPrice hst he (by rw [hside]; exact hs)
        (hno o' (admits_iff.mp ha))
      rw [hside] at hat
      exact hat

theorem AtRestingPrice.equal {side : Side} (h : AtRestingPrice b side ts) :
    ∀ t ∈ ts, t.bidTrade.price = t.askTrade.price := by
  intro t ht
  obtain ⟨y, -, -, h1, h2⟩ := h t ht
  rw [h1, h2]

/-- The trades of a call are at resting prices. -/
def TradesAtRestingPrice (b : Orderbook P) (ts : List (Trade P)) :
    Call P → Prop
  | .addOrder _ _ side _ _ => AtRestingPrice b side ts
  | .cancelOrder _ => ts = []
  | .modifyOrder m => AtRestingPrice b m.side ts

/-- A call returns trades at resting prices. -/
def CallAtRestingPrice (b : Orderbook P) (c : Call P) : Prop :=
  ∃ b' ts, b.call c = .ok (b', ts) ∧ TradesAtRestingPrice b ts c

theorem TradesAtRestingPrice.equal {c : Call P}
    (h : TradesAtRestingPrice b ts c) :
    ∀ t ∈ ts, t.bidTrade.price = t.askTrade.price := by
  cases c with
  | addOrder _ _ side _ _ => exact AtRestingPrice.equal h
  | cancelOrder _ =>
      have hnil : ts = [] := h
      rw [hnil]
      exact List.forall_mem_nil _
  | modifyOrder m => exact AtRestingPrice.equal h

/-- The call's order finds no price better than its limit; a modified order is
    added to the book without the old one. -/
def CallNoImprovement (b : Orderbook P) : Call P → Prop
  | .addOrder orderType orderId side price quantity =>
      ∀ o' ∈ admitted b (.new orderType orderId side price quantity),
        NoImprovement b o'
  | .cancelOrder _ => True
  | .modifyOrder m =>
      ∀ r ∈ replacement b m, ∀ o' ∈ admitted r.1 r.2, NoImprovement r.1 o'

instance (b : Orderbook P) (c : Call P) : Decidable (CallNoImprovement b c) :=
  match c with
  | .addOrder _ _ _ _ _ =>
      inferInstanceAs (Decidable (∀ o' ∈ (_ : Option (Order P)), _))
  | .cancelOrder _ => inferInstanceAs (Decidable True)
  | .modifyOrder _ =>
      inferInstanceAs (Decidable (∀ r ∈ (_ : Option (_ × Order P)), _))

/-- The trades of a call on a steady book: at resting prices if its order finds
    no improvement, and with two prices that differ somewhere if it does. -/
theorem Does.prices (hst : Steady b) {c : Call P} (hc : callSided c)
    (hd : Does b c b' ts) :
    (CallNoImprovement b c → TradesAtRestingPrice b ts c) ∧
    ((∀ t ∈ ts, t.bidTrade.price = t.askTrade.price) →
      CallNoImprovement b c) := by
  cases hd with
  | added ha =>
      exact ⟨fun hno => Adds.atRestingPrice hst ha hc hno,
        fun heq => Adds.noImprovement hst ha hc heq⟩
  | cancelled _ _ _ => exact ⟨fun _ => rfl, fun _ => trivial⟩
  | notFound _ => exact ⟨fun _ => rfl, fun _ => trivial⟩
  | @modified m p b1 _ _ hp hid hr ha =>
      have hrep := replacement_eq hst.wellFormed.linked hp hid hr
      have hst1 := Removed.steady hst hr
      constructor
      · intro hno t ht
        obtain ⟨y, hy, hrest⟩ := Adds.atRestingPrice hst1 ha hc
          (hno _ hrep) t ht
        refine ⟨y, ?_, hrest⟩
        rw [opposite_eq] at hy ⊢
        exact (Removed.own_sub hr _).subset hy
      · intro heq r hr' o' ho'
        rw [hrep] at hr'
        cases hr'
        exact Adds.noImprovement hst1 ha hc heq o' ho'
  | @unknown m hn =>
      refine ⟨fun _ => List.forall_mem_nil _, fun _ r hr => ?_⟩
      rw [replacement, hn] at hr
      cases hr

/-- **EXACTLY WHEN A CALL TRADES AT RESTING PRICES.** -/
theorem callAtRestingPrice_iff (hst : Steady b) {c : Call P}
    (hc : callSided c) :
    CallAtRestingPrice b c ↔ CallNoImprovement b c := by
  obtain ⟨b', ts, hrun, hd⟩ := call_spec hst.wellFormed.linked hc
  obtain ⟨hat, hno⟩ := Does.prices hst hc hd
  constructor
  · rintro ⟨b'', ts', hrun', h⟩
    rw [hrun] at hrun'
    cases hrun'
    exact hno h.equal
  · exact fun h => ⟨b', ts, hrun, hat h⟩

/-! ## Runs -/

/-- Every call returns trades of equal quantities. -/
theorem Does.quantities {c : Call P} (hd : Does b c b' ts) :
    ∀ t ∈ ts, t.bidTrade.quantity = t.askTrade.quantity := by
  have hadds : ∀ {b b' : Orderbook P} {o : Order P} {ts : List (Trade P)},
      Adds b o b' ts →
      ∀ t ∈ ts, t.bidTrade.quantity = t.askTrade.quantity := by
    intro b b' o ts ha
    cases ha with
    | rejected _ => exact List.forall_mem_nil _
    | admitted _ he => exact fun t ht => (he.conserved.named t ht).2.2
  cases hd with
  | added ha => exact hadds ha
  | cancelled _ _ _ => exact List.forall_mem_nil _
  | notFound _ => exact List.forall_mem_nil _
  | modified _ _ _ ha => exact hadds ha
  | unknown _ => exact List.forall_mem_nil _

/-- **EXECUTION PRICES.**  On every book a run reaches, a call's trades record
    the resting price on both sides exactly when its order finds no price
    better than its limit; and when every call of the run did so, every trade
    of the run is balanced and buyers paid what sellers received. -/
theorem callAtRestingPrice_run [Inhabited P] {calls : List (Call P)}
    {history : List (List (Trade P))}
    (hrun : Orderbook.run .empty calls = .ok (b, history))
    (hreg : ∀ c ∈ calls, Regular c) {c : Call P} (hc : Regular c) :
    (CallAtRestingPrice b c ↔ CallNoImprovement b c) ∧
    (Execution.Along Orderbook.call CallNoImprovement
        (.empty : Orderbook P) calls →
      (∀ ts ∈ history, ∀ t ∈ ts, Balanced t) ∧
      ∀ {M : Type} [Add M] [Zero M] (worth : P → Nat → M),
        cashPaid worth history = cashReceived worth history) := by
  have hreach : Reached Regular b := ⟨calls, history, hreg, hrun⟩
  refine ⟨callAtRestingPrice_iff hreach.regular.1 hc.1, fun hal => ?_⟩
  have hstep : ∀ (b : Orderbook P) (c : Call P), Steady b →
      (Regular c ∧ CallNoImprovement b c) →
      ∃ b' ts, b.call c = .ok (b', ts) ∧ Steady b' ∧ ∀ t ∈ ts, Balanced t := by
    rintro b c hst ⟨hc, hno⟩
    obtain ⟨b', ts, hrun, hd⟩ := call_spec hst.wellFormed.linked hc.1
    have hq := Does.quantities hd
    have hat := (Does.prices hst hc.1 hd).1 hno
    exact ⟨b', ts, hrun, Does.steady hst hc.1 hd,
      fun t ht => ⟨hat.equal t ht, hq t ht⟩⟩
  obtain ⟨b'', history', hrun', -, hbal⟩ := Execution.execute_spec hstep calls
    .empty steady_empty ((Execution.along_of_forall hreg _).and hal)
  rw [Orderbook.run, hrun'] at hrun
  cases hrun
  exact ⟨hbal, fun worth => cash_balanced worth hbal⟩

end Calls

/-- One resting ask. -/
def oneAsk : List (Call Int) := [.addOrder .goodTillCancel 1 .sell 100 3]

/-- A bid at the ask's price. -/
theorem callAtRestingPrice_run_oneAsk :
    (CallAtRestingPrice (bookAfter oneAsk)
        (.addOrder .goodTillCancel 2 .buy 100 2) ↔
      CallNoImprovement (bookAfter oneAsk)
        (.addOrder .goodTillCancel 2 .buy 100 2)) ∧
    (Execution.Along Orderbook.call CallNoImprovement
        (.empty : Orderbook Int) oneAsk →
      (∀ ts ∈ ([[]] : List (List (Trade Int))), ∀ t ∈ ts, Balanced t) ∧
      ∀ {M : Type} [Add M] [Zero M] (worth : Int → Nat → M),
        cashPaid worth [[]] = cashReceived worth [[]]) := by
  have hrun : Orderbook.run .empty oneAsk
      = .ok (bookAfter oneAsk, ([[]] : List (List (Trade Int)))) := rfl
  exact callAtRestingPrice_run hrun (by decide) (by decide)

/-- **TWO PRICES ON ONE TRADE**: a bid at 105 against an ask resting at 100
    trades with the buyer at 105 and the seller at 100. -/
theorem execution_at_two_prices : ¬ ∀ (b : Orderbook Int) (c : Call Int),
    Reached Regular b → Regular c → CallAtRestingPrice b c := by
  intro h
  have hreach : Reached Regular (bookAfter oneAsk) :=
    reached_bookAfter (by decide) (by decide)
  have hno := (callAtRestingPrice_iff hreach.regular.1 (by decide)).mp
    (h _ (.addOrder .goodTillCancel 2 .buy 105 2) hreach (by decide))
  exact absurd hno (by decide +kernel)

end OsxExecutionPrice
