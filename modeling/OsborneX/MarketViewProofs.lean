import OsborneX.BroadcastProofs
import OsborneX.MarketDataProofs
import OsborneX.MarketViewModel
import OsborneX.MarketWireProofs

/-! # The market view — the screen shows the engine's books

    A view shows of every symbol the last update it was handed, and of the
    trades the newest (`view_shows`).  Behind a server that has come down, and a
    network that brought its datagrams in order, that is the top of the book of
    one engine run on the orders of that symbol alone (`screen_shows_market`). -/

namespace OsxMarketView

open OsxShard OsxMarketWire OsxBroadcast OsxStream Execution
open OsxOrderEntry (InRange widthOf)
open OsxOrderbook (wrapAdd)
open OsxMarketData (SameTop Bare Fresh latest topOfBook_fresh)
open OsxSimulation (shardForSymbol)
open OsxServerRun (invokedBy)
open OsxListener (ThreadId)
open OsxSharding (bare ofSymbol)
open OsxSoundRun (Priced)
open MarketViewModel

/-! ## The view -/

section View

variable {view : MarketViewModel}
  {decisions : List (Decision TopOfBookUpdate TradeExecution)}

/-- What a view holds after the calls its listener made. -/
structure Shows (view : MarketViewModel)
    (decisions : List (Decision TopOfBookUpdate TradeExecution)) : Prop where
  books : ∀ symbol, view.books.find? symbol = lastOf symbol (topsIn decisions)
  trades : view.trades
    = (tradesIn decisions).reverse.take view.maxTradeTapeSize

theorem lastOf_snoc (symbol : SymbolId) (updates : List TopOfBookUpdate)
    (update : TopOfBookUpdate) :
    lastOf symbol (updates ++ [update])
      = if symbol = update.symbol then some update else lastOf symbol updates := by
  rw [lastOf, lastOf, List.filter_append]
  by_cases heq : symbol = update.symbol
  · subst heq
    simp
  · rw [if_neg heq]
    simp [Ne.symm heq]

theorem lastOf_symbol {symbol : SymbolId} {updates : List TopOfBookUpdate}
    {update : TopOfBookUpdate} (h : lastOf symbol updates = some update) :
    update.symbol = symbol := by
  have hmem := List.mem_of_getLast? h
  exact eq_of_beq (List.mem_filter.mp hmem).2

theorem shows_new (maxTradeTapeSize : Nat) :
    Shows (.new maxTradeTapeSize) [] :=
  ⟨fun _ => rfl, List.take_nil.symm⟩

theorem topsIn_snoc
    (decision : Decision TopOfBookUpdate TradeExecution) :
    topsIn (decisions ++ [decision]) = topsIn decisions ++ topsIn [decision] :=
  List.filterMap_append

theorem tradesIn_snoc
    (decision : Decision TopOfBookUpdate TradeExecution) :
    tradesIn (decisions ++ [decision])
      = tradesIn decisions ++ tradesIn [decision] :=
  List.filterMap_append

/-- **ONE CALL** keeps what the view shows. -/
theorem Shows.handle (h : Shows view decisions)
    (decision : Decision TopOfBookUpdate TradeExecution) :
    Shows (view.handle decision) (decisions ++ [decision]) := by
  cases decision with
  | ignored =>
      refine ⟨fun symbol => ?_, ?_⟩
      · rw [topsIn_snoc]
        exact (h.books symbol).trans (congrArg _ (List.append_nil _).symm)
      · rw [tradesIn_snoc]
        exact h.trades.trans (congrArg _ (congrArg _ (List.append_nil _).symm))
  | topOfBook update =>
      refine ⟨fun symbol => ?_, ?_⟩
      · show (view.books.upsert update.symbol (fun _ => update)).find? symbol = _
        rw [OrderedMap.find?_upsert, topsIn_snoc, h.books symbol]
        exact (lastOf_snoc symbol _ update).symm
      · rw [tradesIn_snoc]
        exact h.trades.trans (congrArg _ (congrArg _ (List.append_nil _).symm))
  | trade trade =>
      refine ⟨fun symbol => ?_, ?_⟩
      · rw [topsIn_snoc]
        exact (h.books symbol).trans (congrArg _ (List.append_nil _).symm)
      · show popBackTo view.maxTradeTapeSize (trade :: view.trades)
          = ((tradesIn (decisions ++ [.trade trade])).reverse).take
            view.maxTradeTapeSize
        have hone : tradesIn [.trade trade]
          = [trade] := rfl
        rw [popBackTo_eq, tradesIn_snoc, h.trades, hone, List.reverse_append,
          List.reverse_singleton, List.singleton_append]
        -- what falls off the tape would fall off it anyway
        cases view.maxTradeTapeSize with
        | zero => rfl
        | succ n =>
            rw [List.take_succ_cons, List.take_succ_cons, List.take_take,
              Nat.min_eq_left (Nat.le_succ n)]

/-- Every view there is. -/
theorem shows_run (maxTradeTapeSize : Nat)
    (decisions : List (Decision TopOfBookUpdate TradeExecution)) :
    Shows (decisions.foldl handle (.new maxTradeTapeSize)) decisions := by
  induction decisions using List.reverseRecOn with
  | nil => exact shows_new maxTradeTapeSize
  | append_singleton decisions decision ih =>
      rw [List.foldl_append]
      exact ih.handle decision

theorem run_size (decisions : List (Decision TopOfBookUpdate TradeExecution)) :
    (decisions.foldl handle view).maxTradeTapeSize = view.maxTradeTapeSize := by
  induction decisions generalizing view with
  | nil => rfl
  | cons decision decisions ih =>
      rw [List.foldl_cons, ih]
      cases decision <;> rfl

/-- The books shown are the last updates. -/
theorem Shows.snapshot (h : Shows view decisions) (update : TopOfBookUpdate) :
    update ∈ view.snapshotBooks ↔
      lastOf update.symbol (topsIn decisions) = some update := by
  constructor
  · intro hmem
    obtain ⟨⟨symbol, update'⟩, hentry, heq⟩ := List.mem_map.mp hmem
    obtain rfl : update' = update := heq
    have hfind := (OrderedMap.find?_eq_some_iff _).mpr hentry
    rw [h.books symbol] at hfind
    rw [lastOf_symbol hfind]
    exact hfind
  · intro hlast
    rw [← h.books] at hlast
    exact List.mem_map.mpr
      ⟨_, (OrderedMap.find?_eq_some_iff _).mp hlast, rfl⟩

/-- **THE SCREEN SHOWS THE LAST OF EVERYTHING**: of every symbol the last update
    received, by symbol and each symbol once, and of the trades the newest,
    newest first, as many as the tape holds.  So for every stream of datagrams,
    whatever is in them. -/
theorem view_shows (maxTradeTapeSize : Nat) (arrived : List Arrived) :
    ((watch maxTradeTapeSize arrived).snapshotBooks.map
        TopOfBookUpdate.symbol).Pairwise (· < ·) ∧
    (∀ update, update ∈ (watch maxTradeTapeSize arrived).snapshotBooks ↔
      lastOf update.symbol (topsIn (run arrived)) = some update) ∧
    (watch maxTradeTapeSize arrived).snapshotTrades
      = (tradesIn (run arrived)).reverse.take
        (if maxTradeTapeSize = 0 then 1 else maxTradeTapeSize) := by
  have h : Shows (watch maxTradeTapeSize arrived) (run arrived) :=
    shows_run maxTradeTapeSize _
  refine ⟨?_, h.snapshot, ?_⟩
  · have hkeyed : (watch maxTradeTapeSize arrived).snapshotBooks.map
          TopOfBookUpdate.symbol
        = (watch maxTradeTapeSize arrived).books.entries.map Prod.fst := by
      rw [snapshotBooks, List.map_map]
      refine List.map_congr_left (fun e he => ?_)
      have hfind := (OrderedMap.find?_eq_some_iff _).mpr he
      rw [h.books] at hfind
      exact lastOf_symbol hfind
    rw [hkeyed]
    exact List.pairwise_map.mpr
      (watch maxTradeTapeSize arrived).books.sorted
  · have hsize : (watch maxTradeTapeSize arrived).maxTradeTapeSize
        = if maxTradeTapeSize = 0 then 1 else maxTradeTapeSize :=
      run_size (run arrived)
    rw [← hsize]
    exact h.trades

end View

/-! ## What the server sends -/

section Sent

variable {count : Nat}

/-- The datagrams of a run, in the order they were sent. -/
def datagrams (log : List (Event count)) : List (List UInt8) :=
  log.filterMap fun
    | .topOfBook (.delivered _ update) => some (sendTopOfBook update)
    | .trades (.delivered _ trade) => some (sendTrade trade)
    | _ => none

/-- What arrived of this protocol: timeouts and foreign datagrams aside. -/
def heard (arrived : List Arrived) : List (List UInt8) :=
  arrived.filterMap fun
    | .timeout => none
    | .datagram bytes => if listen bytes = .ignored then none else some bytes

theorem run_heard (arrived : List Arrived) :
    run arrived = (heard arrived).map listen := by
  induction arrived with
  | nil => rfl
  | cons arrival arrived ih =>
      cases arrival with
      | timeout => exact ih
      | datagram bytes =>
          have hheard : heard (.datagram bytes :: arrived)
              = (if listen bytes = .ignored then [] else [bytes])
                ++ heard arrived := by
            rw [heard, List.filterMap_cons]
            by_cases hignored : listen bytes = .ignored
            · simp only [if_pos hignored]
              rfl
            · simp only [if_neg hignored]
              rfl
          rw [hheard, run]
          by_cases hignored : listen bytes = .ignored
          · rw [if_pos hignored, hignored]
            exact ih
          · rw [if_neg hignored]
            cases hlisten : listen bytes with
            | ignored => exact absurd hlisten hignored
            | topOfBook update => simp [hlisten, ih]
            | trade trade => simp [hlisten, ih]

/-- A trade of any values is read as a trade. -/
theorem listen_trade (trade : TradeExecution) :
    ∃ trade', listen (sendTrade trade) = .trade trade' := by
  have hwidth : widthOf (encodeTrade trade).fields = tradeExecutionSize := rfl
  rw [sendTrade, listen_frame hwidth (by decide)
    (headerOf_inRange (by decide) (by decide)) rfl, if_neg (by decide),
    if_pos (by decide)]
  exact ⟨_, rfl⟩

/-- The updates read are the updates sent. -/
theorem topsIn_datagrams {log : List (Event count)}
    (hrange : ∀ update ∈ delivered (topOfBookLog log),
      InRange (encodeTop update).fields) :
    topsIn ((datagrams log).map listen) = delivered (topOfBookLog log) := by
  induction log with
  | nil => rfl
  | cons event log ih =>
      cases event with
      | server event => exact ih hrange
      | topOfBook event =>
          cases event with
          | quiet => exact ih hrange
          | pushed i update => exact ih hrange
          | delivered i update =>
              have hlisten := listen_sendTopOfBook
                (hrange update List.mem_cons_self)
              have hrest := ih (fun u hu => hrange u (List.mem_cons_of_mem _ hu))
              show topsIn (listen (sendTopOfBook update) ::
                (datagrams log).map listen) = update :: delivered _
              rw [hlisten]
              exact congrArg (List.cons update) hrest
      | trades event =>
          cases event with
          | quiet => exact ih hrange
          | pushed i trade => exact ih hrange
          | delivered i trade =>
              obtain ⟨trade', hlisten⟩ := listen_trade trade
              show topsIn (listen (sendTrade trade) ::
                (datagrams log).map listen) = _
              rw [hlisten]
              exact ih hrange

end Sent

/-! ## Updates fit their fields -/

theorem createLevelInfo_lt (book : OsxOrderbook.Orderbook OsxPrice.Double)
    (price : OsxPrice.Double) (orders : List OsxOrderbook.OrderPointer) :
    (book.createLevelInfo price orders).quantity < 2 ^ 32 := by
  show orders.foldl _ 0 < 2 ^ 32
  induction orders using List.reverseRecOn with
  | nil => exact Nat.two_pow_pos 32
  | append_singleton orders order ih =>
      rw [List.foldl_append]
      exact Nat.mod_lt _ (Nat.two_pow_pos 32)

/-- The quantities of an update are those of levels, or zero. -/
theorem makeTopOfBook_lt (s : Shard) (symbol : SymbolId) (sequence : Nat) :
    (s.makeTopOfBook symbol sequence).symbol = symbol ∧
    (s.makeTopOfBook symbol sequence).sequence = sequence ∧
    (s.makeTopOfBook symbol sequence).bidQuantity < 2 ^ 32 ∧
    (s.makeTopOfBook symbol sequence).askQuantity < 2 ^ 32 := by
  rw [Shard.makeTopOfBook]
  cases s.books.find? symbol with
  | none => exact ⟨rfl, rfl, Nat.two_pow_pos 32, Nat.two_pow_pos 32⟩
  | some book =>
      have hbids : ∀ best ∈ book.getOrderInfos.bids, best.quantity < 2 ^ 32 := by
        intro best hbest
        obtain ⟨e, -, rfl⟩ := List.mem_map.mp hbest
        exact createLevelInfo_lt book e.1 e.2
      have hasks : ∀ best ∈ book.getOrderInfos.asks, best.quantity < 2 ^ 32 := by
        intro best hbest
        obtain ⟨e, -, rfl⟩ := List.mem_map.mp hbest
        exact createLevelInfo_lt book e.1 e.2
      dsimp only
      generalize book.getOrderInfos = infos at hbids hasks
      obtain ⟨bids, asks⟩ := infos
      have hzero := Nat.two_pow_pos 32
      cases bids with
      | nil =>
          cases asks with
          | nil => exact ⟨rfl, rfl, hzero, hzero⟩
          | cons ask asks => exact ⟨rfl, rfl, hzero, hasks ask List.mem_cons_self⟩
      | cons bid bids =>
          have hbid := hbids bid List.mem_cons_self
          cases asks with
          | nil => exact ⟨rfl, rfl, hbid, hzero⟩
          | cons ask asks => exact ⟨rfl, rfl, hbid, hasks ask List.mem_cons_self⟩

/-- **EVERY UPDATE FITS ITS DATAGRAM** when its order did. -/
theorem process_inRange {s s' : Shard} {message : OrderMessage}
    {published : Published} (hok : s.process message = .ok (s', published))
    (hsymbol : message.symbol < 2 ^ 32)
    (hsequence : message.ingressSequence < 2 ^ 64) :
    ∀ update, published.top = some update →
      InRange (encodeTop update).fields := by
  intro update htop
  obtain ⟨-, made, rfl, hcases⟩ := OsxMarketData.process_top hok
  split at hcases
  · rw [hcases.1] at htop
    cases htop
  · rw [hcases.1] at htop
    cases htop
    obtain ⟨h1, h2, h3, h4⟩ :=
      makeTopOfBook_lt s' message.symbol message.ingressSequence
    intro f hf
    simp only [TopOfBookUpdateWire.fields, encodeTop, List.mem_cons,
      List.not_mem_nil, or_false] at hf
    rcases hf with rfl | rfl | rfl | rfl | rfl | rfl
    · rw [h1]
      exact hsymbol
    · exact BitVec.isLt _
    · exact h3
    · exact BitVec.isLt _
    · exact h4
    · rw [h2]
      exact hsequence

theorem run_inRange {messages : List OrderMessage} {s t : Shard}
    {published : List Published}
    (h : execute Shard.process s messages = .ok (t, published))
    (hfits : ∀ message ∈ messages,
      message.symbol < 2 ^ 32 ∧ message.ingressSequence < 2 ^ 64) :
    ∀ update ∈ published.filterMap Published.top,
      InRange (encodeTop update).fields := by
  refine execute_trace
    (I := fun messages _ published => (∀ message ∈ messages,
        message.symbol < 2 ^ 32 ∧ message.ingressSequence < 2 ^ 64) →
      ∀ update ∈ published.filterMap Published.top,
        InRange (encodeTop update).fields)
    ?_ (fun _ _ hmem => absurd hmem List.not_mem_nil) h hfits
  intro messages s published message s' one ih hok hfits update hmem
  rw [List.filterMap_append] at hmem
  rcases List.mem_append.mp hmem with hmem | hmem
  · exact ih (fun m hm => hfits m (List.mem_append_left _ hm)) update hmem
  · obtain ⟨hsymbol, hsequence⟩ := hfits message
      (List.mem_append_right _ List.mem_cons_self)
    obtain ⟨p, hp, htop⟩ := List.mem_filterMap.mp hmem
    rw [List.mem_singleton.mp hp] at htop
    exact process_inRange hok hsymbol hsequence update htop

/-! ## Behind the server -/

section Screen

/-- The last update of a symbol is still in its buffer when the reader comes by
    for the last time: one of the last lap's is of the symbol, or none is. -/
def Recent {count : Nat} (hash : SymbolId → Nat) [NeZero count] (lap : Nat)
    (log : List (Event count)) (symbol : SymbolId) : Prop :=
  (∃ update ∈ (topsOf (shardForSymbol hash count symbol) log).drop
      ((topsOf (shardForSymbol hash count symbol) log).length - lap),
    update.symbol = symbol) ∨
  ∀ update ∈ topsOf (shardForSymbol hash count symbol) log,
    update.symbol ≠ symbol

/-- The last of what was made is the last of what was sent. -/
theorem lastOf_sent {made sent : List TopOfBookUpdate} {lap dropped : Nat}
    {symbol : SymbolId} (haccount : Accounted lap made sent dropped)
    (hsub : sent.Sublist made)
    (hrecent : (∃ update ∈ made.drop (made.length - lap),
        update.symbol = symbol) ∨ ∀ update ∈ made, update.symbol ≠ symbol) :
    lastOf symbol sent = lastOf symbol made := by
  rcases hrecent with ⟨update, hmem, hsymbol⟩ | hnone
  · obtain ⟨front, hsent⟩ := haccount.newest
    have hne : (made.drop (made.length - lap)).filter
        (fun update => update.symbol == symbol) ≠ [] :=
      List.ne_nil_of_mem (List.mem_filter.mpr ⟨hmem, beq_iff_eq.mpr hsymbol⟩)
    have hlast : ∀ front, lastOf symbol
        (front ++ made.drop (made.length - lap))
        = ((made.drop (made.length - lap)).filter
          (fun update => update.symbol == symbol)).getLast? := by
      intro front
      rw [lastOf, List.filter_append, List.getLast?_append_of_ne_nil _ hne]
    have hmade := hlast (made.take (made.length - lap))
    rw [List.take_append_drop] at hmade
    rw [← hsent, hlast front, hmade]
  · have hempty : ∀ updates : List TopOfBookUpdate,
        (∀ update ∈ updates, update.symbol ≠ symbol) →
        lastOf symbol updates = none := by
      intro updates h
      rw [lastOf, List.filter_eq_nil_iff.mpr]
      · rfl
      · intro update hmem
        exact fun heq => h update hmem (eq_of_beq heq)
    rw [hempty made hnone, hempty sent (fun u hu => hnone u (hsub.subset hu))]

theorem lastOf_filter (symbol : SymbolId) (updates : List TopOfBookUpdate) :
    lastOf symbol (updates.filter (fun update => update.symbol = symbol))
      = lastOf symbol updates := by
  rw [lastOf, lastOf, List.filter_filter]
  congr 1
  refine List.filter_congr (fun update _ => ?_)
  by_cases heq : update.symbol = symbol <;> simp [heq]

/-- **FROM THE CLIENTS' ORDERS TO THE SCREEN.**  When `stop` has returned, and
    the datagrams sent have arrived in order, with whatever else in between, the
    screen shows of a symbol what one engine, run on that symbol's orders alone,
    has at the top of its book. -/
theorem screen_shows_market (hash : SymbolId → Nat)
    (count inboundCapacity outboundCapacity inboundQueueCapacity lap : Nat)
    [NeZero count]
    (hlap : OsxRingBuffer.bitCeil
      (if outboundCapacity = 0 then 1 else outboundCapacity) = lap)
    (binds : Bool) (actions : List (Action count)) (s : Server count)
    (log : List (Event count))
    (hno : ∀ action ∈ actions, ∀ binds, action ≠ .server (.start binds))
    (hrun : execute (Server.step hash)
      (.new count inboundCapacity outboundCapacity inboundQueueCapacity)
      (.server (.start binds) :: actions) = .ok (s, log)) (hfew : Few log)
    (hstopped : s.core.Stopped)
    (hfits : ∀ id, ∀ message ∈ invokedBy id (serverLog log),
      message.symbol < 2 ^ 32 ∧ Priced message)
    (maxTradeTapeSize : Nat) (arrived : List Arrived)
    (harrived : heard arrived = datagrams log) :
    ∃ orders : List (ThreadId × OrderMessage),
      (∀ id, (orders.filter (fun d => d.1 = id)).map (fun d => bare d.2)
        = (invokedBy id (serverLog log)).map bare) ∧
      ∀ symbol, ∃ shard published,
        execute Shard.process .empty (ofSymbol symbol (orders.map Prod.snd))
          = .ok (shard, published) ∧
        (Recent hash lap log symbol →
          (Bare (shard.book symbol) ∧
            ∀ update ∈ (watch maxTradeTapeSize arrived).snapshotBooks,
              update.symbol ≠ symbol) ∨
          ∃ update ∈ (watch maxTradeTapeSize arrived).snapshotBooks,
            update.symbol = symbol ∧
              ∀ n, SameTop update (shard.makeTopOfBook symbol n)) := by
  obtain ⟨hkept, -⟩ := run_kept hlap hno hrun hfew
  have haccounted := run_accounted hlap hno hrun hfew hstopped
  obtain ⟨orders, hread, hsequence, hmade⟩ :=
    run_market hlap hno hrun hfew hstopped
  -- an order was read, so it fits
  have horder : ∀ message ∈ orders.map Prod.snd,
      message.symbol < 2 ^ 32 ∧ Priced message := by
    intro message hmem
    obtain ⟨d, hd, rfl⟩ := List.mem_map.mp hmem
    have hbare : bare d.2 ∈ (invokedBy d.1 (serverLog log)).map bare := by
      rw [← hread d.1]
      exact List.mem_map.mpr ⟨d, List.mem_filter.mpr
        ⟨hd, decide_eq_true rfl⟩, rfl⟩
    obtain ⟨message, hmessage, heq⟩ := List.mem_map.mp hbare
    obtain ⟨hsymbol, hprice⟩ := hfits d.1 message hmessage
    have h1 : (bare message).symbol = (bare d.2).symbol := by rw [heq]
    have h2 : (bare message).price = (bare d.2).price := by rw [heq]
    have h1 : message.symbol = d.2.symbol := h1
    have h2 : message.price = d.2.price := h2
    rw [Priced, h2] at hprice
    exact ⟨h1 ▸ hsymbol, hprice⟩
  have hof : ∀ symbol, ∀ message ∈ ofSymbol symbol (orders.map Prod.snd),
      message ∈ orders.map Prod.snd :=
    fun symbol message hmem => List.mem_of_mem_filter hmem
  -- so every update sent fits its datagram
  have hrange : ∀ update ∈ delivered (topOfBookLog log),
      InRange (encodeTop update).fields := by
    intro update hmem
    obtain ⟨t, published, hrun', hmadeOf⟩ := hmade update.symbol
    refine run_inRange hrun' (fun message hmessage => ?_) update ?_
    · have hin := hof _ _ hmessage
      obtain ⟨d, hd, rfl⟩ := List.mem_map.mp hin
      exact ⟨(horder _ hin).1, hsequence d hd⟩
    · rw [← hmadeOf.tops]
      refine ((hkept.sent _).2.filter _).subset ?_
      rw [← hmadeOf.sentTops]
      exact List.mem_filter.mpr ⟨hmem, decide_eq_true rfl⟩
  have hshows : Shows (watch maxTradeTapeSize arrived) (run arrived) :=
    shows_run maxTradeTapeSize _
  have htops : topsIn (run arrived) = delivered (topOfBookLog log) := by
    rw [run_heard, harrived, topsIn_datagrams hrange]
  refine ⟨orders, hread, fun symbol => ?_⟩
  obtain ⟨t, published, hrun', hmadeOf⟩ := hmade symbol
  refine ⟨t, published, hrun', fun hrecent => ?_⟩
  have hfresh : Fresh t published symbol :=
    (topOfBook_fresh _ (fun message hmessage =>
      (horder _ (hof _ _ hmessage)).2)).2 t published hrun' symbol
  have hlast : lastOf symbol (topsIn (run arrived)) = latest symbol published := by
    rw [htops, ← lastOf_filter, hmadeOf.sentTops, lastOf_filter,
      lastOf_sent (haccounted _).2 (hkept.sent _).2 hrecent, ← lastOf_filter,
      hmadeOf.tops]
    rfl
  rw [Fresh, ← hlast] at hfresh
  cases hfind : lastOf symbol (topsIn (run arrived)) with
  | none =>
      rw [hfind] at hfresh
      refine Or.inl ⟨hfresh, fun update hmem heq => ?_⟩
      have hsome := (hshows.snapshot update).mp hmem
      rw [heq, hfind] at hsome
      cases hsome
  | some update =>
      rw [hfind] at hfresh
      have hsymbol := lastOf_symbol hfind
      refine Or.inr ⟨update, (hshows.snapshot update).mpr ?_, hsymbol, hfresh⟩
      rw [hsymbol]
      exact hfind

/-- A datagram of each, with a foreign one before them. -/
theorem screen_shows_market_one : ∃ (s : Server 1) (log : List (Event 1))
    (orders : List (ThreadId × OrderMessage)),
    execute (Server.step id) (.new 1 4 1 4)
        (.server (.start true) :: sampleRun) = .ok (s, log) ∧
    ∀ symbol, ∃ shard published,
      execute Shard.process .empty (ofSymbol symbol (orders.map Prod.snd))
        = .ok (shard, published) ∧
      (Recent id 1 log symbol →
        (Bare (shard.book symbol) ∧
          ∀ update ∈ (watch 2 (.timeout :: .datagram [0] ::
              (datagrams log).map .datagram)).snapshotBooks,
            update.symbol ≠ symbol) ∨
        ∃ update ∈ (watch 2 (.timeout :: .datagram [0] ::
            (datagrams log).map .datagram)).snapshotBooks,
          update.symbol = symbol ∧
            ∀ n, SameTop update (shard.makeTopOfBook symbol n)) := by
  obtain ⟨s, log, hrun, hstopped, hfew⟩ := sampleRun_run
  have heval : (execute (Server.step id) (.new 1 4 1 4)
      (.server (.start true) :: sampleRun)).toOption.map (fun r =>
        decide (heard (.timeout :: .datagram [0] ::
            (datagrams r.2).map .datagram) = datagrams r.2 ∧
          ∀ d ∈ OsxServerRun.invoked (serverLog r.2),
            d.2.symbol < 2 ^ 32 ∧ d.2.price.isNaN = false)) = some true := by
    decide +kernel
  rw [hrun] at heval
  obtain ⟨harrived, hfits⟩ := of_decide_eq_true (Option.some.inj heval)
  obtain ⟨orders, -, horders⟩ := screen_shows_market id 1 4 1 4 1 (by decide)
    true sampleRun s log (by decide) hrun hfew hstopped
    (fun id message hmem => by
      rw [OsxServerRun.invokedBy_eq] at hmem
      obtain ⟨d, hd, rfl⟩ := List.mem_map.mp hmem
      exact hfits d (List.mem_of_mem_filter hd)) 2 _ harrived
  exact ⟨s, log, orders, hrun, horders⟩

end Screen

end OsxMarketView
