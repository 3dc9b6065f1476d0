import Exchanges.Model.Account
import Exchanges.Model.MarketData

/-!
The cache: one record with a map for each thing the platform remembers.

Go's nested maps `map[AccountID]map[K]V` are one map here, with the pair of the
account and the inner key for a key. An inner map is created on the first write
and is read as empty before, so the two forms answer every lookup alike. A set
of order ids under an index key is a map to `Unit` with one more component.
-/

namespace Exchanges

open Exchanges.Lib Exchanges.Model

/-- `cache.Cache`, without its lock and without the maps for synthetic
instruments, typed bars and custom data, which nothing below reads. -/
structure Cache where
  instruments : OrdMap InstrumentID Instrument := ∅
  accounts : OrdMap AccountID AccountSnapshot := ∅
  accountHistory : OrdMap AccountID (List AccountSnapshot) := ∅
  orders : OrdMap (AccountID × OrderID) OrderStatusReport := ∅
  orderClients : OrdMap (AccountID × ClientOrderID) OrderID := ∅
  orderVenues : OrdMap (AccountID × VenueOrderID) OrderID := ∅
  orderStrategies : OrdMap ((AccountID × StrategyID) × OrderID) Unit := ∅
  orderPositions : OrdMap ((AccountID × PositionID) × OrderID) Unit := ∅
  orderLists : OrdMap ((AccountID × OrderListID) × OrderID) Unit := ∅
  orderExecSpawns : OrdMap ((AccountID × ExecSpawnID) × OrderID) Unit := ∅
  fills : OrdMap ((AccountID × OrderID) × TradeID) FillReport := ∅
  fillTrades : OrdMap (AccountID × TradeID) FillReport := ∅
  fillVenues : OrdMap ((AccountID × VenueOrderID) × TradeID) FillReport := ∅
  deferredFills : OrdMap ((AccountID × OrderID) × TradeID) FillReport := ∅
  positions : OrdMap (AccountID × PositionID) PositionStatusReport := ∅
  positionInst : OrdMap (AccountID × InstrumentID) PositionID := ∅
  positionVenues : OrdMap (AccountID × VenuePositionID) PositionID := ∅
  positionStrategies : OrdMap ((AccountID × StrategyID) × PositionID) Unit := ∅
  tickers : OrdMap InstrumentID Ticker := ∅
  orderBooks : OrdMap InstrumentID OrderBook := ∅
  trades : OrdMap InstrumentID TradeTick := ∅
  quotes : OrdMap InstrumentID QuoteTick := ∅
  latestBars : OrdMap InstrumentID Bar := ∅
  fundingRates : OrdMap InstrumentID FundingRate := ∅

namespace Cache

/-- `cache.New`. -/
def new : Cache := {}

/-! ### Instruments -/

def putInstrument (c : Cache) (inst : Instrument) : Except Err Cache := do
  inst.validate
  return { c with instruments := c.instruments.put inst.id inst }

def instrument (c : Cache) (id : InstrumentID) : Option Instrument := c.instruments.get id

/-! ### Accounts -/

def accountHistoryOf (c : Cache) (id : AccountID) : List AccountSnapshot :=
  (c.accountHistory.get id).getD []

/-- `PutAccount` replaces the account and appends to its history. -/
def putAccount (c : Cache) (account : AccountSnapshot) : Cache :=
  { c with
    accounts := c.accounts.put account.accountID account
    accountHistory := c.accountHistory.put account.accountID
      (c.accountHistoryOf account.accountID ++ [account]) }

def account (c : Cache) (id : AccountID) : Option AccountSnapshot := c.accounts.get id

/-! ### Market data -/

def putTicker (c : Cache) (ticker : Ticker) : Cache :=
  { c with tickers := c.tickers.put ticker.instrumentID ticker }

def putOrderBook (c : Cache) (book : OrderBook) : Cache :=
  { c with orderBooks := c.orderBooks.put book.instrumentID book }

def putTrade (c : Cache) (trade : TradeTick) : Cache :=
  { c with trades := c.trades.put trade.instrumentID trade }

def putQuote (c : Cache) (quote : QuoteTick) : Cache :=
  { c with quotes := c.quotes.put quote.instrumentID quote }

/-- The latest bar of an instrument is replaced by one that is not older. -/
def putBar (c : Cache) (bar : Bar) : Cache :=
  let bar := { bar with barType := bar.barType.canonical }
  match c.latestBars.get bar.barType.instrumentID with
  | some existing =>
    if existing.timestamp ≤ bar.timestamp then
      { c with latestBars := c.latestBars.put bar.barType.instrumentID bar }
    else c
  | none => { c with latestBars := c.latestBars.put bar.barType.instrumentID bar }

/-- A bar changes only the latest bars. -/
theorem putBar_eq (c : Cache) (bar : Bar) :
    ∃ bars, c.putBar bar = { c with latestBars := bars } := by
  simp only [putBar]
  split
  · split
    · exact ⟨_, rfl⟩
    · exact ⟨c.latestBars, rfl⟩
  · exact ⟨_, rfl⟩

def putFundingRate (c : Cache) (funding : FundingRate) : Cache :=
  { c with fundingRates := c.fundingRates.put funding.instrumentID funding }

end Cache

end Exchanges
