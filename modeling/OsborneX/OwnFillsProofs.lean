import OsborneX.BroadcastProofs
import OsborneX.FillBudgetProofs
import OsborneX.StrategyProofs

/-! # Own fills — a strategy is never told of more than it ordered

    `my_fill` sees the prints that reach the strategy, some of them lost and in
    whatever order, with the ids it holds at that moment.  What it reports as
    bought is at most what was ordered to be bought under these ids, and so for
    what it reports as sold (`own_fills_within`). -/

namespace OsxOwnFills

open OsxShard OsxStrategy OsxBroadcast OsxFillBudget Totals Execution
open OsxCalls (Sided)
open OsxDuplicate (addIds)
open OsxOrderbook (OrderId Side)
open OsxServerRun (invoked)
open OsxSharding (bare ofSymbol)
open OsxSimulation (shardForSymbol)
open OsxSoundRun (Priced)
open OsxStream (delivered)

/-! ## What is reported -/

/-- What `my_fill` reports on a side, print by print, of strategies as they are
    when the prints come in. -/
def reportedOn (side : Side) (calls : List (Strategy × TradeExecution)) : Nat :=
  total (fun fill => fill.side = side) OwnFill.quantity
    (calls.filterMap (fun call => call.1.myFill call.2))

/-- What was ordered on a side under some ids. -/
def orderedOn (side : Side) (own : Finset OrderId)
    (messages : List OrderMessage) : Nat :=
  total (fun m => m.orderId ∈ own && (m.action = .add && m.side = side))
    OrderMessage.quantity messages

/-- A fill is reported for an id of the strategy's on its side. -/
theorem myFill_some {s : Strategy} {trade : TradeExecution} {fill : OwnFill}
    (h : s.myFill trade = some fill) :
    fill.quantity = trade.quantity ∧ printId fill.side trade ∈ s.ownOrderIds := by
  rw [Strategy.myFill] at h
  split at h
  · rename_i hbid
    cases h
    exact ⟨rfl, hbid⟩
  · split at h
    · rename_i hask
      cases h
      exact ⟨rfl, hask⟩
    · cases h

theorem reportedOn_le (side : Side) {own : Finset OrderId}
    {calls : List (Strategy × TradeExecution)}
    (hown : ∀ call ∈ calls, call.1.ownOrderIds ⊆ own) :
    reportedOn side calls
      ≤ total (fun trade => printId side trade ∈ own) TradeExecution.quantity
        (calls.map Prod.snd) := by
  induction calls with
  | nil => exact Nat.le_refl _
  | cons call calls ih =>
      have hrest := ih (fun c hc => hown c (List.mem_cons_of_mem _ hc))
      rw [reportedOn] at hrest ⊢
      rw [List.map_cons, total_cons]
      cases hfill : call.1.myFill call.2 with
      | none =>
          rw [List.filterMap_cons, hfill]
          exact Nat.le_trans hrest (Nat.le_add_left _ _)
      | some fill =>
          rw [List.filterMap_cons, hfill, total_cons]
          refine Nat.add_le_add ?_ hrest
          obtain ⟨hquantity, hid⟩ := myFill_some hfill
          by_cases hside : fill.side = side
          · subst hside
            have hmem := hown call List.mem_cons_self hid
            rw [if_pos (decide_eq_true rfl), if_pos (decide_eq_true hmem)]
            exact Nat.le_of_eq hquantity
          · rw [if_neg (by simpa using hside)]
            exact Nat.zero_le _

/-! ## Behind the server -/

section Market

variable {count : Nat} [NeZero count]

/-- The stamps aside, the same was ordered. -/
theorem ordered_bare (side : Side) (id : OrderId)
    (messages : List OrderMessage) :
    ordered side id (messages.map bare) = ordered side id messages := by
  rw [ordered, total_map]
  rfl

theorem count_addIds {messages messages' : List OrderMessage}
    (h : (messages.map bare).Perm (messages'.map bare)) (id : OrderId) :
    (addIds messages).count id = (addIds messages').count id := by
  have hbare : ∀ ms : List OrderMessage, addIds (ms.map bare) = addIds ms := by
    intro ms
    rw [addIds, List.filter_map, List.map_map]
    rfl
  rw [← hbare messages, ← hbare messages']
  exact ((h.filter _).map _).count_eq id

/-- **WHAT WAS SENT OF AN ID**: on each side at most what was ordered under it,
    over all the symbols. -/
theorem sent_within {sent : List TradeExecution}
    {messages : List OrderMessage} {side : Side} {id : OrderId}
    (hside : Sided side) (hpriced : ∀ m ∈ messages, Priced m)
    (honce : (addIds messages).count id ≤ 1)
    (hmodify : ∀ m ∈ messages, m.action = .modify → m.orderId ≠ id)
    (hsent : ∀ symbol, ∃ shard published,
      execute Shard.process .empty (ofSymbol symbol messages)
        = .ok (shard, published) ∧
      (sent.filter (fun trade => trade.symbol = symbol)).Sublist
        (printsOf published)) :
    printed side id sent ≤ ordered side id messages := by
  have hsymbol : ∀ symbol,
      total (fun trade => trade.symbol = symbol && printId side trade = id)
          TradeExecution.quantity sent
        ≤ total (fun m => m.symbol = symbol &&
            (m.orderId = id && (m.action = .add && m.side = side)))
          OrderMessage.quantity messages := by
    intro symbol
    obtain ⟨shard, published, hrun, hsub⟩ := hsent symbol
    rw [← total_filter, ← total_filter]
    refine Nat.le_trans (total_sublist hsub) ?_
    have hall : ∀ m ∈ ofSymbol symbol messages, m.symbol = symbol ∧
        Priced m ∧ (m.action = .modify → m.orderId ≠ id) := by
      intro m hm
      obtain ⟨hm, heq⟩ := List.mem_filter.mp hm
      exact ⟨of_decide_eq_true heq, hpriced m hm, hmodify m hm⟩
    refine run_budget hall (Nat.le_trans (List.Sublist.count_le id ?_) honce)
      hside hrun
    exact ((List.filter_sublist).filter _).map _
  -- symbol by symbol
  have hall : printed side id sent = total (fun trade =>
      trade.symbol ∈ (sent.map TradeExecution.symbol).toFinset &&
        printId side trade = id) TradeExecution.quantity sent := by
    refine total_congr (fun trade htrade => ?_)
    have hmem : trade.symbol ∈ (sent.map TradeExecution.symbol).toFinset :=
      List.mem_toFinset.mpr (List.mem_map_of_mem htrade)
    rw [decide_eq_true hmem, Bool.true_and]
  rw [hall, ← sum_total]
  refine Nat.le_trans (Finset.sum_le_sum (fun symbol _ => hsymbol symbol)) ?_
  rw [sum_total]
  refine total_mono (fun m _ h => ?_)
  exact ((Bool.and_eq_true _ _).mp h).2

/-- **A STRATEGY IS NEVER TOLD OF MORE THAN IT ORDERED**: when `stop` has
    returned, whichever of the prints that were sent have reached a strategy,
    and whenever, what it was told it bought is at most what was ordered to be
    bought under its ids, and what it was told it sold at most what was ordered
    to be sold. -/
theorem own_fills_within (hash : SymbolId → Nat)
    (inboundCapacity outboundCapacity inboundQueueCapacity lap : Nat)
    (hlap : OsxRingBuffer.bitCeil
      (if outboundCapacity = 0 then 1 else outboundCapacity) = lap)
    (binds : Bool) (actions : List (Action count)) (s : Server count)
    (log : List (Event count))
    (hno : ∀ action ∈ actions, ∀ binds, action ≠ .server (.start binds))
    (hrun : execute (Server.step hash)
      (.new count inboundCapacity outboundCapacity inboundQueueCapacity)
      (.server (.start binds) :: actions) = .ok (s, log)) (hfew : Few log)
    (hstopped : s.core.Stopped)
    (hpriced : ∀ d ∈ invoked (serverLog log), Priced d.2)
    (own : Finset OrderId)
    (honce : ∀ id ∈ own,
      (addIds ((invoked (serverLog log)).map Prod.snd)).count id ≤ 1)
    (hmodify : ∀ d ∈ invoked (serverLog log), d.2.action = .modify →
      d.2.orderId ∉ own)
    (calls : List (Strategy × TradeExecution))
    (hcalls : (calls.map Prod.snd).Subperm (delivered (tradesLog log)))
    (hown : ∀ call ∈ calls, call.1.ownOrderIds ⊆ own)
    (side : Side) (hside : Sided side) :
    reportedOn side calls
      ≤ orderedOn side own ((invoked (serverLog log)).map Prod.snd) := by
  obtain ⟨hkept, -⟩ := run_kept hlap hno hrun hfew
  obtain ⟨orders, hread, -, hmade⟩ := run_market hlap hno hrun hfew hstopped
  have hperm := OsxServerRun.read_perm hread
  -- an order that was stamped was read
  have hfrom : ∀ m ∈ orders.map Prod.snd,
      ∃ d ∈ invoked (serverLog log), bare d.2 = bare m := by
    intro m hm
    have hbare := hperm.mem_iff.mp (List.mem_map_of_mem hm)
    obtain ⟨m', hm', heq⟩ := List.mem_map.mp hbare
    obtain ⟨d, hd, rfl⟩ := List.mem_map.mp hm'
    exact ⟨d, hd, heq⟩
  have hpriced' : ∀ m ∈ orders.map Prod.snd, Priced m := by
    intro m hm
    obtain ⟨d, hd, heq⟩ := hfrom m hm
    have hprice : (bare d.2).price = (bare m).price := by rw [heq]
    have hnumber : Priced (bare d.2) := hpriced d hd
    rw [Priced, hprice] at hnumber
    exact hnumber
  have hmodify' : ∀ id ∈ own, ∀ m ∈ orders.map Prod.snd,
      m.action = .modify → m.orderId ≠ id := by
    rintro id hid m hm haction rfl
    obtain ⟨d, hd, heq⟩ := hfrom m hm
    have hsame : (bare d.2).action = (bare m).action := by rw [heq]
    have hsameId : (bare d.2).orderId = (bare m).orderId := by rw [heq]
    have hnot : (bare d.2).orderId ∉ own := hmodify d hd (hsame.trans haction)
    rw [hsameId] at hnot
    exact hnot hid
  have hsent : ∀ symbol, ∃ shard published,
      execute Shard.process .empty (ofSymbol symbol (orders.map Prod.snd))
        = .ok (shard, published) ∧
      ((delivered (tradesLog log)).filter
        (fun trade => trade.symbol = symbol)).Sublist (printsOf published) := by
    intro symbol
    obtain ⟨shard, published, hshard, hof⟩ := hmade symbol
    refine ⟨shard, published, hshard, ?_⟩
    rw [hof.sentTrades, printsOf, ← hof.trades]
    exact (hkept.sent _).1.filter _
  have hids : ∀ id ∈ own, printed side id (delivered (tradesLog log))
      ≤ ordered side id ((invoked (serverLog log)).map Prod.snd) := by
    intro id hid
    refine Nat.le_trans (sent_within hside hpriced' ?_ (hmodify' id hid) hsent) ?_
    · rw [count_addIds hperm]
      exact honce id hid
    · rw [← ordered_bare, ← ordered_bare side id ((invoked _).map Prod.snd)]
      exact Nat.le_of_eq (total_perm hperm)
  calc reportedOn side calls
      ≤ total (fun trade => printId side trade ∈ own) TradeExecution.quantity
          (calls.map Prod.snd) := reportedOn_le side hown
    _ ≤ total (fun trade => printId side trade ∈ own) TradeExecution.quantity
          (delivered (tradesLog log)) := total_subperm hcalls
    _ = ∑ id ∈ own, printed side id (delivered (tradesLog log)) := by
        have hsum : ∑ id ∈ own, total (fun trade =>
              printId side trade = id && true) TradeExecution.quantity
              (delivered (tradesLog log)) = _ :=
          sum_total (printId side) own _
        simp only [Bool.and_true] at hsum
        exact hsum.symm
    _ ≤ ∑ id ∈ own, ordered side id ((invoked (serverLog log)).map Prod.snd) :=
        Finset.sum_le_sum hids
    _ = orderedOn side own ((invoked (serverLog log)).map Prod.snd) :=
        sum_total OrderMessage.orderId own _

end Market

/-- Every print reaches a strategy with one order. -/
def sampleCalls (log : List (Event 1)) : List (Strategy × TradeExecution) :=
  (delivered (tradesLog log)).map (fun trade => (⟨none, {1}⟩, trade))

theorem own_fills_within_one : ∃ (s : Server 1) (log : List (Event 1)),
    execute (Server.step id) (.new 1 4 1 4)
        (.server (.start true) :: sampleRun) = .ok (s, log) ∧
      reportedOn .buy (sampleCalls log) = 5 ∧
      reportedOn .buy (sampleCalls log)
        ≤ orderedOn .buy {1} ((invoked (serverLog log)).map Prod.snd) := by
  obtain ⟨s, log, hrun, hstopped, hfew⟩ := sampleRun_run
  have heval : (execute (Server.step id) (.new 1 4 1 4)
      (.server (.start true) :: sampleRun)).toOption.map
        (fun r : Server 1 × List (Event 1) =>
          decide (reportedOn .buy (sampleCalls r.2) = 5 ∧
            (∀ d ∈ invoked (serverLog r.2),
              d.2.price.isNaN = false ∧ d.2.action = .add) ∧
            (addIds ((invoked (serverLog r.2)).map Prod.snd)).count 1 ≤ 1))
        = some true := by
    decide +kernel
  rw [hrun] at heval
  obtain ⟨hreported, hread, honce⟩ :=
    of_decide_eq_true (Option.some.inj heval)
  refine ⟨s, log, hrun, hreported, ?_⟩
  refine own_fills_within id 4 1 4 1 (by decide) true sampleRun s log
    (by decide) hrun hfew hstopped (fun d hd => (hread d hd).1) {1} ?_ ?_
    (sampleCalls log) ?_ ?_ .buy (Or.inl rfl)
  · intro id hid
    rw [Finset.mem_singleton.mp hid]
    exact honce
  · intro d hd hmodify
    rw [(hread d hd).2] at hmodify
    cases hmodify
  · have hsnd : (sampleCalls log).map Prod.snd = delivered (tradesLog log) := by
      rw [sampleCalls, List.map_map]
      exact List.map_id _
    rw [hsnd]
  · intro call hcall
    obtain ⟨trade, -, rfl⟩ := List.mem_map.mp hcall
    exact Finset.Subset.refl _

end OsxOwnFills
