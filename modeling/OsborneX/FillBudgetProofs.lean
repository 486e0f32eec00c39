import OsborneX.CancelledOrderProofs
import OsborneX.TotalProofs

/-! # Fill budgets — an order never trades more than it was sent for

    What an order may still trade is its budget.  A trade takes from the budget
    of the id on each of its sides, and resting orders stay within theirs; so
    when an id is added once and not modified, its trades on that side come to
    no more than its quantity, and on the other side to nothing
    (`run_budget`). -/

namespace OsxFillBudget

open OsxOrderbook OsxCrossing OsxLink OsxMatching OsxCalls OsxDuplicate Totals

variable {P : Type}

/-- The id on a side of a trade. -/
def sideId (side : Side) (t : Trade P) : OrderId :=
  match side with
  | .buy => t.bidTrade.orderId
  | _ => t.askTrade.orderId

/-- The quantity of the trades with the id on the side. -/
def filled (side : Side) (id : OrderId) (ts : List (Trade P)) : Nat :=
  total (fun t => sideId side t = id) (fun t => t.bidTrade.quantity) ts

theorem filled_eq_zero {side : Side} {id : OrderId} {ts : List (Trade P)}
    (h : ∀ t ∈ ts, sideId side t ≠ id) : filled side id ts = 0 :=
  total_eq_zero (fun t ht => decide_eq_false (h t ht))

/-- What is traded on a side is traded. -/
theorem filled_le (side : Side) (id : OrderId) (ts : List (Trade P)) :
    filled side id ts ≤ tradedQuantity id ts := by
  induction ts with
  | nil => exact Nat.le_refl _
  | cons t ts ih =>
      rw [filled, total_cons, tradedQuantity]
      refine Nat.add_le_add ?_ ih
      by_cases h : sideId side t = id
      · have hnames : names id t := by
          cases side with
          | buy => exact Or.inl h
          | sell => exact Or.inr h
          | other value => exact Or.inr h
        rw [if_pos (decide_eq_true h), if_pos hnames]
      · rw [if_neg (by simpa using h)]
        exact Nat.zero_le _

/-! ## The book -/

section Linear

variable [LinearOrder P] {b b' : Orderbook P} {side : Side} {id : OrderId}
  {n : Nat} {ts : List (Trade P)}

/-- An order under the id rests on the side, with no more than this left. -/
def Budget (side : Side) (id : OrderId) (n : Nat) (b : Orderbook P) : Prop :=
  ∀ p ∈ pointers b, (b.heap p).orderId = id →
    (b.heap p).side = side ∧ (b.heap p).remainingQuantity ≤ n

/-- What a call leaves of a budget. -/
structure Spent (side : Side) (id : OrderId) (n : Nat) (b' : Orderbook P)
    (ts : List (Trade P)) : Prop where
  within : filled side id ts ≤ n
  other : ∀ side', Sided side' → side' ≠ side → filled side' id ts = 0
  rest : Budget side id (n - filled side id ts) b'

/-- Orders that stay as they are stay within their budget. -/
theorem Budget.shrink (h : Budget side id n b)
    (hsub : ∀ p ∈ pointers b', p ∈ pointers b ∧ b'.heap p = b.heap p) :
    Spent side id n b' [] where
  within := Nat.zero_le _
  other := fun _ _ _ => rfl
  rest := by
    intro p hp hid
    obtain ⟨hold, hheap⟩ := hsub p hp
    rw [hheap] at hid ⊢
    exact h p hold hid

/-- The side of a resting order is that of the levels it is in. -/
theorem resting_side (hl : Linked b) :
    (∀ p ∈ pointersOf b.bids, (b.heap p).side = .buy) ∧
      ∀ p ∈ pointersOf b.asks, (b.heap p).side = .sell := by
  constructor
  · intro p hp
    obtain ⟨level, hlevel, hin⟩ := mem_pointersOf.mp hp
    exact (hl.bids.placed level hlevel p hin).1
  · intro p hp
    obtain ⟨level, hlevel, hin⟩ := mem_pointersOf.mp hp
    exact (hl.asks.placed level hlevel p hin).1

/-- **MATCHING STAYS WITHIN EVERY BUDGET.** -/
theorem conserved_spent (hl : Linked b) (h : Budget side id n b)
    (hc : Conserved b b' ts) : Spent side id n b' ts := by
  obtain ⟨hbids, hasks⟩ := resting_side hl
  -- a trade names an order that rested, on its side
  have hat : ∀ side', Sided side' → ∀ t ∈ ts, sideId side' t = id →
      ∃ p ∈ pointers b, (b.heap p).orderId = id ∧
        (b.heap p).side = side' := by
    intro side' hside t ht hid
    obtain ⟨⟨p, hp, hbid⟩, ⟨r, hr, hask⟩, -⟩ := hc.named t ht
    rcases hside with rfl | rfl
    · exact ⟨p, List.mem_append_left _ hp, hbid.trans hid, hbids p hp⟩
    · exact ⟨r, List.mem_append_right _ hr, hask.trans hid, hasks r hr⟩
  have hother : ∀ side', Sided side' → side' ≠ side →
      filled side' id ts = 0 := by
    intro side' hside hne
    refine filled_eq_zero (fun t ht hid => hne ?_)
    obtain ⟨p, hp, hpid, hpside⟩ := hat side' hside t ht hid
    rw [← hpside]
    exact (h p hp hpid).1
  by_cases hex : ∃ p ∈ pointers b, (b.heap p).orderId = id
  · obtain ⟨p, hp, hpid⟩ := hex
    have hkept := (hc.kept p hp).2
    rw [hpid] at hkept
    have hle := (h p hp hpid).2
    have hfill := filled_le side id ts
    refine ⟨by omega, hother, fun r hr hrid => ?_⟩
    have hrb : r ∈ pointers b := hc.sub.subset hr
    obtain ⟨hterms, -⟩ := hc.kept r hrb
    obtain ⟨-, hid, hside, -, -⟩ := hterms.fields
    rw [hid] at hrid
    obtain rfl : r = p := hl.pointer_unique hrb hp (hrid.trans hpid.symm)
    rw [hside]
    exact ⟨(h r hrb hrid).1, by omega⟩
  · have hnone : ∀ t ∈ ts, ¬ names id t := by
      rintro t ht hn
      obtain ⟨⟨p, hp, hbid⟩, ⟨r, hr, hask⟩, -⟩ := hc.named t ht
      rcases hn with hn | hn
      · exact hex ⟨p, List.mem_append_left _ hp, hbid.trans hn⟩
      · exact hex ⟨r, List.mem_append_right _ hr, hask.trans hn⟩
    have hzero : filled side id ts = 0 :=
      Nat.eq_zero_of_le_zero (tradedQuantity_eq_zero hnone ▸ filled_le _ _ _)
    refine ⟨by omega, hother, fun r hr hrid => ?_⟩
    have hrb : r ∈ pointers b := hc.sub.subset hr
    have hid := (hc.kept r hrb).1.fields.2.1
    exact absurd ⟨r, hrb, hid ▸ hrid⟩ hex

/-- An order that is not admitted is only made. -/
theorem shared_spent (hl : Linked b) (h : Budget side id n b) (o : Order P) :
    Spent side id n (b.makeShared o) [] := by
  refine h.shrink (fun p hp => ⟨hp, ?_⟩)
  show Function.update b.heap b.next o p = _
  refine Function.update_of_ne ?_ _ _
  rintro rfl
  exact Linked.next_fresh hl hp

/-- An added order brings its own quantity. -/
theorem adds_spent (hl : Linked b) (h : Budget side id n b) {o : Order P}
    (ho : o.orderId = id → o.side = side ∧ o.remainingQuantity ≤ n)
    (hs : Sided o.side) (ha : Adds b o b' ts) : Spent side id n b' ts := by
  cases ha with
  | rejected _ => exact shared_spent hl h o
  | @admitted o' b2 _ log ha he =>
      obtain ⟨hside, hid, -, hrem⟩ := effective_terms ha.effective
      have hperm := he.opened.pointers_perm (hside ▸ hs)
      refine conserved_spent he.opened.linked (fun p hp hpid => ?_) he.conserved
      rw [he.opened.heap] at hpid ⊢
      by_cases hnew : p = b.next
      · rw [hnew, Function.update_self] at hpid ⊢
        rw [hside, hrem]
        exact ho (hid ▸ hpid)
      · rw [Function.update_of_ne hnew] at hpid ⊢
        rcases List.mem_cons.mp (hperm.mem_iff.mp hp) with heq | hold
        · exact absurd heq hnew
        · exact h p hold hpid

/-- The call adds nothing under the id, or within the budget. -/
def CallWithin (side : Side) (id : OrderId) (n : Nat) : Call P → Prop
  | .addOrder _ orderId side' _ quantity =>
      orderId = id → side' = side ∧ quantity ≤ n
  | .cancelOrder _ => True
  | .modifyOrder m => m.orderId ≠ id

theorem removed_budget (h : Budget side id n b) {p : OrderPointer}
    {b1 : Orderbook P} (hr : Removed b p b1) : Spent side id n b1 [] := by
  refine h.shrink (fun r hrp => ⟨?_, by rw [hr.heap]⟩)
  rw [pointers, hr.bids, hr.asks, ← List.filter_append] at hrp
  exact (List.mem_filter.mp hrp).1

/-- **A CALL STAYS WITHIN EVERY BUDGET.** -/
theorem call_spent (hl : Linked b) (h : Budget side id n b) {c : Call P}
    (hc : CallWithin side id n c) (hrun : b.call c = .ok (b', ts)) :
    Spent side id n b' ts := by
  by_cases hs : callSided c
  · cases Does.of_call hl hs hrun with
    | added ha =>
        refine adds_spent hl h ?_ ?_ ha
        · exact hc
        · exact hs
    | cancelled _ _ hr => exact removed_budget h hr
    | notFound _ => exact h.shrink (fun p hp => ⟨hp, rfl⟩)
    | modified hp hid hr ha =>
        refine adds_spent hr.linked (removed_budget h hr).rest ?_ ?_ ha
        · exact fun heq => absurd heq hc
        · exact hs
    | unknown _ => exact h.shrink (fun p hp => ⟨hp, rfl⟩)
  · cases c with
    | addOrder orderType orderId side' price quantity =>
        obtain ⟨rfl, rfl⟩ := OsxSoundRun.addOrder_unsided
          (o := .new orderType orderId side' price quantity) hs hrun
        exact shared_spent hl h _
    | cancelOrder orderId => exact absurd trivial hs
    | modifyOrder x =>
        have hrun : b.modifyOrder x = .ok (b', ts) := hrun
        rcases known_or_not hl x.orderId with hn | ⟨p, hp, hid, hfind⟩
        · simp only [Orderbook.modifyOrder, hn] at hrun
          cases hrun
          exact h.shrink (fun _ hp => ⟨hp, rfl⟩)
        · obtain ⟨b1, hcancel, hr⟩ := cancelOrder_resting hl hp
          rw [← hid] at hcancel
          simp only [Orderbook.modifyOrder, hfind, hcancel] at hrun
          obtain ⟨rfl, rfl⟩ := OsxSoundRun.addOrder_unsided
            (o := x.toOrder (b.heap p).orderType) hs hrun
          exact shared_spent hr.linked (removed_budget h hr).rest _

/-- Any budget will do for an id that does not rest. -/
theorem budget_absent (hl : Linked b) (h : Known (fun x => x ≠ id) b) :
    Budget side id n b :=
  fun _ hp hid => absurd hid (OsxCancelled.known_resting hl h hp)

end Linear

/-! ## The shard -/

section Shard

open OsxShard OsxPrice OsxPriceLimit OsxMirror OsxSoundRun OsxCancelled
open Outcome

/-- The id on a side of a print. -/
def printId (side : Side) (trade : TradeExecution) : OrderId :=
  match side with
  | .buy => trade.bidOrderId
  | _ => trade.askOrderId

/-- The quantity of the prints with the id on the side. -/
def printed (side : Side) (id : OrderId) (prints : List TradeExecution) : Nat :=
  total (fun trade => printId side trade = id) TradeExecution.quantity prints

/-- What was ordered under the id on the side. -/
def ordered (side : Side) (id : OrderId) (messages : List OrderMessage) : Nat :=
  total (fun m => m.orderId = id && (m.action = .add && m.side = side))
    OrderMessage.quantity messages

/-- The prints are those of the trades. -/
theorem printed_executions (side : Side) (id : OrderId) (message : OrderMessage)
    (ts : List (Trade Double)) :
    printed side id (ts.map (executionOf message)) = filled side id ts := by
  rw [printed, total_map]
  cases side <;> rfl

theorem filled_rescale (side : Side) (id : OrderId) (ts : List (Trade Double)) :
    filled side id (ts.map (rescaleTrade numbers.value)) = filled side id ts := by
  rw [filled, total_map]
  cases side <;> rfl

/-- The budget of an id, in the book of a symbol. -/
def BudgetAt (symbol : SymbolId) (side : Side) (id : OrderId) (n : Nat)
    (s : Shard) : Prop :=
  ∃ k : Orderbook Int, Mirrors numbers (s.book symbol) k ∧ Linked k ∧
    Budget side id n k

/-- What the shard left of a budget. -/
structure SpentAt (symbol : SymbolId) (side : Side) (id : OrderId) (n : Nat)
    (s : Shard) (prints : List TradeExecution) : Prop where
  within : printed side id prints ≤ n
  other : ∀ side', Sided side' → side' ≠ side → printed side' id prints = 0
  rest : BudgetAt symbol side id (n - printed side id prints) s

/-- The message adds nothing under the id, or within the budget. -/
structure Within (side : Side) (id : OrderId) (n : Nat) (message : OrderMessage) :
    Prop where
  priced : Priced message
  add : message.action = .add → message.orderId = id →
    message.side = side ∧ message.quantity ≤ n
  modify : message.action = .modify → message.orderId ≠ id

variable {side : Side} {id : OrderId} {n : Nat} {message : OrderMessage}
  {s s' : Shard} {published : Published}

theorem Within.call (h : Within side id n message) :
    ∀ c ∈ Shard.callOf message,
      CallWithin side id n (rescaleCall numbers.value c) := by
  intro c hc
  rw [Shard.callOf] at hc
  cases haction : message.action with
  | add =>
      rw [haction] at hc
      cases hc
      exact h.add haction
  | cancel =>
      rw [haction] at hc
      cases hc
      trivial
  | modify =>
      rw [haction] at hc
      cases hc
      exact h.modify haction
  | other value =>
      rw [haction] at hc
      cases hc

/-- **A MESSAGE STAYS WITHIN EVERY BUDGET** of its symbol. -/
theorem process_spent (h : BudgetAt message.symbol side id n s)
    (hw : Within side id n message)
    (hrun : s.process message = .ok (s', published)) :
    SpentAt message.symbol side id n s' published.trades := by
  obtain ⟨k, hmirror, hk, hbudget⟩ := h
  obtain ⟨b, ts, hexecute, htrades, hbooks⟩ := execute_of_process hrun
  have hstep := execute_lockstep hmirror hk hw.priced
  rw [hexecute] at hstep
  cases hmade : executeOn k message with
  | error fault =>
      rw [hmade] at hstep
      exact hstep.elim
  | ok r =>
      rw [hmade] at hstep
      obtain ⟨hmirror', hsame⟩ := hstep
      have hspent : Spent side id n r.1 r.2 := by
        have hcall := hw.call
        rw [executeOn] at hmade
        cases hc : Shard.callOf message with
        | none =>
            rw [hc] at hmade
            cases hmade
            exact hbudget.shrink (fun _ hp => ⟨hp, rfl⟩)
        | some c =>
            rw [hc] at hmade
            exact call_spent hk hbudget (hcall c hc) hmade
      have hfilled : ∀ side', printed side' id published.trades
          = filled side' id r.2 := by
        intro side'
        rw [htrades, printed_executions, hsame.trades, filled_rescale]
      refine ⟨?_, ?_, ?_⟩
      · rw [hfilled]
        exact hspent.within
      · intro side' hside hne
        rw [hfilled]
        exact hspent.other side' hside hne
      · rw [hfilled]
        refine ⟨r.1, ?_, executeOn_linked hk hmade, hspent.rest⟩
        rw [hbooks, if_pos rfl]
        exact hmirror'

/-- The prints of a run, message by message. -/
abbrev printsOf (log : List Published) : List TradeExecution :=
  log.flatMap Published.trades

/-- One more message is within the budget that the ones before it left. -/
theorem SpentAt.cons {symbol : SymbolId} {s₁ s₂ : Shard}
    {prints later : List TradeExecution}
    (h : SpentAt symbol side id n s₁ prints)
    (hlater : SpentAt symbol side id (n - printed side id prints) s₂ later) :
    SpentAt symbol side id n s₂ (prints ++ later) := by
  have hsum : ∀ side', printed side' id (prints ++ later)
      = printed side' id prints + printed side' id later :=
    fun side' => total_append _ _ prints later
  have hfirst := h.within
  have hrest := hlater.within
  refine ⟨?_, fun side' hside hne => ?_, ?_⟩
  · rw [hsum]
    omega
  · rw [hsum, h.other side' hside hne, hlater.other side' hside hne]
  · rw [hsum, ← Nat.sub_sub]
    exact hlater.rest

/-- Messages that add nothing under the id stay within its budget. -/
theorem run_spent {messages : List OrderMessage} (symbol : SymbolId) :
    ∀ {s t : Shard} {n : Nat} {log : List Published},
      BudgetAt symbol side id n s →
      (∀ m ∈ messages, m.symbol = symbol ∧ Priced m ∧
        (m.action = .add → m.orderId ≠ id) ∧
        (m.action = .modify → m.orderId ≠ id)) →
      Execution.execute Shard.process s messages = .ok (t, log) →
      SpentAt symbol side id n t (printsOf log) := by
  induction messages with
  | nil =>
      intro s t n log h _ hrun
      cases hrun
      exact ⟨Nat.zero_le _, fun _ _ _ => rfl, h⟩
  | cons message messages ih =>
      intro s t n log h hall hrun
      obtain ⟨s₁, published, log', hstep, hrest, rfl⟩ :=
        Execution.execute_cons_ok hrun
      obtain ⟨rfl, hpriced, hadd, hmodify⟩ := hall message List.mem_cons_self
      have hfirst : SpentAt message.symbol side id n s₁ published.trades :=
        process_spent h {
          priced := hpriced
          add := fun haction hid => absurd hid (hadd haction)
          modify := hmodify } hstep
      exact hfirst.cons
        (ih hfirst.rest (fun m hm => hall m (List.mem_cons_of_mem _ hm)) hrest)

/-- An id that is not in the book has any budget. -/
theorem budgetAt_absent (hm : Mirrored s) {symbol : SymbolId}
    (h : Known (fun x => x ≠ id) (s.book symbol)) :
    BudgetAt symbol side id n s := by
  obtain ⟨k, hmirror, hk⟩ := hm.mirror symbol
  refine ⟨k, hmirror, hk, budget_absent hk (fun x entry hx => ?_)⟩
  rw [hmirror.orders] at hx
  exact h x entry hx

/-- What is in no print has printed nothing. -/
theorem printed_away {log : List Published}
    (h : ∀ published ∈ log, PublishedNames (fun x => x ≠ id) published) :
    printed side id (printsOf log) = 0 := by
  refine total_eq_zero (fun trade htrade => decide_eq_false ?_)
  obtain ⟨published, hpublished, htrade⟩ := List.mem_flatMap.mp htrade
  obtain ⟨hbid, hask⟩ := h published hpublished trade htrade
  cases side with
  | buy => exact hbid
  | sell => exact hask
  | other value => exact hask

/-- **NEVER MORE THAN WAS ORDERED**: an id that is added at most once, and not
    modified, trades on each side at most what was ordered under it there. -/
theorem run_budget {messages : List OrderMessage} {symbol : SymbolId}
    (hall : ∀ m ∈ messages, m.symbol = symbol ∧ Priced m ∧
      (m.action = .modify → m.orderId ≠ id))
    (honce : (addIds messages).count id ≤ 1) (hs : Sided side)
    {s : Shard} {log : List Published}
    (hrun : Execution.execute Shard.process .empty messages = .ok (s, log)) :
    printed side id (printsOf log) ≤ ordered side id messages := by
  have haway : ∀ {part : List OrderMessage}, id ∉ addIds part →
      ∀ m ∈ part, m.action = .add → m.orderId ≠ id := by
    rintro part hnot m hm haction rfl
    exact hnot (mem_addIds.mpr ⟨m, hm, haction, rfl⟩)
  have hstart : Known (fun x => x ≠ id) (Shard.empty.book symbol) := by
    intro x entry hx
    cases hx
  have hpriced : ∀ m ∈ messages, Priced m := fun m hm => (hall m hm).2.1
  by_cases hadd : id ∈ addIds messages
  · obtain ⟨add, hmem, haction, hid⟩ := mem_addIds.mp hadd
    obtain ⟨before, later, rfl⟩ := List.append_of_mem hmem
    -- the one Add of the id
    rw [addIds_append, List.count_append] at honce
    have hcons : addIds (add :: later) = id :: addIds later := by
      rw [addIds, List.filter_cons_of_pos (by simpa using haction), ← hid]
      rfl
    rw [hcons, List.count_cons_self] at honce
    have hbefore : id ∉ addIds before := List.count_eq_zero.mp (by omega)
    have hlater : id ∉ addIds later := List.count_eq_zero.mp (by omega)
    obtain ⟨s₁, log₁, log₂, hfirst, hrest, rfl⟩ :=
      Execution.execute_append.mp hrun
    obtain ⟨s₂, published, log', hstep, hafter, rfl⟩ :=
      Execution.execute_cons_ok hrest
    obtain ⟨hallBefore, hallRest⟩ := List.forall_mem_append.mp hall
    obtain ⟨⟨hsymbol, haddPriced, hmodify⟩, hallLater⟩ :=
      List.forall_mem_cons.mp hallRest
    obtain ⟨hknown, hnames⟩ := run_away symbol hstart
      (fun m hm => ⟨(hallBefore m hm).1, haway hbefore m hm⟩) hfirst
    have hm₁ : Mirrored s₁ := mirrored_run mirrored_empty
      (fun m hm => (hallBefore m hm).2.1) hfirst
    subst hsymbol
    have hspent : SpentAt add.symbol add.side id add.quantity s₂
        published.trades :=
      process_spent (budgetAt_absent hm₁ hknown) {
        priced := haddPriced
        add := fun _ _ => ⟨rfl, Nat.le_refl _⟩
        modify := hmodify } hstep
    have hwhole := hspent.cons (run_spent add.symbol hspent.rest
      (fun m hm => ⟨(hallLater m hm).1, (hallLater m hm).2.1,
        haway hlater m hm, (hallLater m hm).2.2⟩) hafter)
    have hprints : printed side id (printsOf (log₁ ++ published :: log'))
        = printed side id (published.trades ++ printsOf log') := by
      rw [printsOf, List.flatMap_append, printed, total_append]
      have hzero : printed side id (printsOf log₁) = 0 :=
        printed_away (hnames mirrored_empty (fun m hm => (hallBefore m hm).2.1))
      rw [printed] at hzero
      rw [hzero, Nat.zero_add]
      rfl
    rw [hprints]
    by_cases hside : side = add.side
    · subst hside
      refine Nat.le_trans hwhole.within ?_
      rw [ordered, total_append, total_cons, if_pos (by simp [hid, haction])]
      omega
    · rw [hwhole.other side hs hside]
      exact Nat.zero_le _
  · obtain ⟨-, hnames⟩ := run_away symbol hstart
      (fun m hm => ⟨(hall m hm).1, haway hadd m hm⟩) hrun
    rw [printed_away (hnames mirrored_empty hpriced)]
    exact Nat.zero_le _

end Shard

end OsxFillBudget
