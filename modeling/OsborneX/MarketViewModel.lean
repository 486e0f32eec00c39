import OsborneX.MarketWireModel
import OsborneX.OrderedMapProofs

/-! # The market view — what the terminal shows

    A `MarketViewModel` is fed by the two handlers of a `MarketDataListener` and
    read by the render loop.  It keeps the last update of every symbol, by
    symbol, and a bounded tape of trades, the newest first.

    Every call is made under the view's mutex, so a run is a list of calls. -/

namespace OsxMarketView

open OsxShard OsxMarketWire

/-- `while (trades_.size() > max_trade_tape_size_) trades_.pop_back();` -/
def popBackTo {T : Type} (size : Nat) (trades : List T) : List T :=
  if size < trades.length then popBackTo size trades.dropLast else trades
termination_by trades.length
decreasing_by
  rw [List.length_dropLast]
  omega

theorem popBackTo_eq {T : Type} (size : Nat) (trades : List T) :
    popBackTo size trades = trades.take size := by
  fun_induction popBackTo size trades with
  | case1 trades hlt ih =>
      rw [ih, List.dropLast_eq_take, List.take_take]
      congr 1
      omega
  | case2 trades hle => exact (List.take_of_length_le (by omega)).symm

structure MarketViewModel where
  books : OrderedMap SymbolId TopOfBookUpdate (· < ·)
  trades : List TradeExecution
  maxTradeTapeSize : Nat
  bounded : trades.length ≤ maxTradeTapeSize

namespace MarketViewModel

theorem empty_bounded (maxTradeTapeSize : Nat) :
    ([] : List TradeExecution).length
      ≤ if maxTradeTapeSize = 0 then 1 else maxTradeTapeSize :=
  Nat.zero_le _

/-- `MarketViewModel(max_trade_tape_size)`. -/
def new (maxTradeTapeSize : Nat) : MarketViewModel where
  books := .empty
  trades := []
  maxTradeTapeSize := if maxTradeTapeSize = 0 then 1 else maxTradeTapeSize
  bounded := empty_bounded maxTradeTapeSize

def onTopOfBook (view : MarketViewModel) (update : TopOfBookUpdate) :
    MarketViewModel :=
  { view with books := view.books.upsert update.symbol (fun _ => update) }

def onTrade (view : MarketViewModel) (trade : TradeExecution) :
    MarketViewModel :=
  { view with
    trades := popBackTo view.maxTradeTapeSize (trade :: view.trades)
    bounded := by
      rw [popBackTo_eq]
      exact List.length_take_le ..  }

/-- Latest top-of-book per symbol, ordered by symbol. -/
def snapshotBooks (view : MarketViewModel) : List TopOfBookUpdate :=
  view.books.entries.map Prod.snd

/-- Most recently received trade first. -/
def snapshotTrades (view : MarketViewModel) : List TradeExecution := view.trades

/-- The handlers of the listener, for what it made of a datagram. -/
def handle (view : MarketViewModel) :
    Decision TopOfBookUpdate TradeExecution → MarketViewModel
  | .ignored => view
  | .topOfBook update => view.onTopOfBook update
  | .trade trade => view.onTrade trade

/-- The view of a terminal that has been receiving. -/
def watch (maxTradeTapeSize : Nat) (arrived : List Arrived) : MarketViewModel :=
  (run arrived).foldl handle (.new maxTradeTapeSize)

end MarketViewModel

/-! ## What was received -/

/-- The updates among what a listener made of its datagrams. -/
def topsIn (decisions : List (Decision TopOfBookUpdate TradeExecution)) :
    List TopOfBookUpdate :=
  decisions.filterMap fun
    | .topOfBook update => some update
    | _ => none

def tradesIn (decisions : List (Decision TopOfBookUpdate TradeExecution)) :
    List TradeExecution :=
  decisions.filterMap fun
    | .trade trade => some trade
    | _ => none

/-- The last of some updates for a symbol. -/
def lastOf (symbol : SymbolId) (updates : List TopOfBookUpdate) :
    Option TopOfBookUpdate :=
  (updates.filter (fun update => update.symbol == symbol)).getLast?

end OsxMarketView
