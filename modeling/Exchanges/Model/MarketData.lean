import Exchanges.Model.Basic

/-!
Instruments and market data: what the data side of the platform delivers.
-/

namespace Exchanges.Model

open Exchanges.Lib Std

/-! ### Instruments -/

inductive InstrumentType where
  | unset
  | spot
  | perp
  | future
  | option
  | spread
  | synthetic
  | index
  | equity
  | betting
  | other (name : String)
  deriving DecidableEq, Repr, Inhabited

namespace InstrumentType

def validate : InstrumentType → Except Err Unit
  | unset => .error ⟨.invalidInstrument, "invalid instrument type", [""]⟩
  | other name => .error ⟨.invalidInstrument, "invalid instrument type", [name]⟩
  | _ => .ok ()

def requiresBaseQuote : InstrumentType → Bool
  | spot => true
  | perp => true
  | future => true
  | option => true
  | _ => false

def requiresSettle : InstrumentType → Bool
  | perp => true
  | future => true
  | option => true
  | _ => false

end InstrumentType

inductive InstrumentStatus where
  | unset
  | trading
  | halted
  | other (name : String)
  deriving DecidableEq, Repr, Inhabited

structure Instrument where
  id : InstrumentID := {}
  rawSymbol : String := ""
  type : InstrumentType := .unset
  base : Currency := ""
  quote : Currency := ""
  settle : Currency := ""
  priceTick : Decimal := 0
  sizeTick : Decimal := 0
  makerFee : Decimal := 0
  takerFee : Decimal := 0
  marginInit : Decimal := 0
  marginMaint : Decimal := 0
  status : InstrumentStatus := .unset
  deriving DecidableEq, Repr, Inhabited

/-- `value.Mod(increment).IsZero()` for a positive increment. -/
def isMultipleOf (value increment : Decimal) : Bool :=
  decide (0 < increment) && decide ((value / increment).den = 1)

namespace Instrument

def validate (i : Instrument) : Except Err Unit := do
  i.id.validate
  reject (i.rawSymbol = "" ∨ i.type = .unset) (invalidInstrument "missing identity fields")
  i.type.validate
  reject (i.type.requiresBaseQuote ∧ (i.base = "" ∨ i.quote = ""))
    (invalidInstrument "missing currency fields")
  reject (i.type.requiresSettle ∧ i.settle = "") (invalidInstrument "missing settle currency")
  reject (¬ 0 < i.priceTick ∨ ¬ 0 < i.sizeTick) (invalidInstrument "non-positive increments")
  reject (i.makerFee < 0 ∨ i.takerFee < 0) (invalidInstrument "negative fee rate")
  reject (i.marginInit < 0 ∨ i.marginMaint < 0) (invalidInstrument "negative margin rate")
  reject (i.status = .unset) (invalidInstrument "missing status")

def validatePrice (i : Instrument) (price : Decimal) : Except Err Unit := do
  reject (¬ 0 < price) (invalidOrder "non-positive price")
  reject (isMultipleOf price i.priceTick = false)
    (invalidOrder "price does not match tick size")

def validateSize (i : Instrument) (size : Decimal) : Except Err Unit := do
  reject (¬ 0 < size) (invalidOrder "non-positive size")
  reject (isMultipleOf size i.sizeTick = false) (invalidOrder "size does not match lot size")

end Instrument

/-- An instrument whose price is computed from others; the formula is not part of
the model. -/
structure SyntheticInstrument where
  id : InstrumentID := {}
  priceTick : Decimal := 0
  deriving DecidableEq, Repr, Inhabited

/-! ### Bars -/

inductive BarAggregation where
  | unset
  | time
  | other (name : String)
  deriving DecidableEq, Repr, Inhabited

inductive BarPriceType where
  | unset
  | last
  | other (name : String)
  deriving DecidableEq, Repr, Inhabited

inductive AggregationSource where
  | unset
  | external
  | internal
  | other (name : String)
  deriving DecidableEq, Repr, Inhabited

structure BarType where
  instrumentID : InstrumentID := {}
  step : ℤ := 0
  aggregation : BarAggregation := .unset
  priceType : BarPriceType := .unset
  aggregationSource : AggregationSource := .unset
  deriving DecidableEq, Repr, Inhabited

namespace BarType

def canonical (t : BarType) : BarType :=
  { t with
    aggregation := if t.aggregation = .unset then .time else t.aggregation
    priceType := if t.priceType = .unset then .last else t.priceType
    aggregationSource :=
      if t.aggregationSource = .unset then .external else t.aggregationSource }

theorem canonical_canonical (t : BarType) : t.canonical.canonical = t.canonical := by
  unfold canonical
  congr 1 <;> dsimp only <;> split_ifs <;> simp_all

def validate (t : BarType) : Except Err Unit := do
  let t := t.canonical
  t.instrumentID.validate
  reject (t.step ≤ 0) (invalidMarketData "bar type step must be positive")
  match t.aggregation with
  | .time => .ok ()
  | .unset => .error ⟨.invalidMarketData, "unsupported bar aggregation", [""]⟩
  | .other name => .error ⟨.invalidMarketData, "unsupported bar aggregation", [name]⟩
  match t.priceType with
  | .last => .ok ()
  | .unset => .error ⟨.invalidMarketData, "unsupported bar price type", [""]⟩
  | .other name => .error ⟨.invalidMarketData, "unsupported bar price type", [name]⟩
  match t.aggregationSource with
  | .external => .ok ()
  | .internal => .ok ()
  | .unset => .error ⟨.invalidMarketData, "unsupported bar aggregation source", [""]⟩
  | .other name => .error ⟨.invalidMarketData, "unsupported bar aggregation source", [name]⟩

end BarType

structure Bar where
  barType : BarType := {}
  «open» : Decimal := 0
  high : Decimal := 0
  low : Decimal := 0
  close : Decimal := 0
  volume : Decimal := 0
  timestamp : Time := 0
  initTime : Time := 0
  isRevision : Bool := false
  deriving DecidableEq, Repr, Inhabited

def Bar.validate (b : Bar) : Except Err Unit := do
  b.barType.canonical.validate
  reject (¬ 0 < b.open ∨ ¬ 0 < b.high ∨ ¬ 0 < b.low ∨ ¬ 0 < b.close)
    (invalidMarketData "non-positive bar price")
  reject (b.volume < 0) (invalidMarketData "negative bar volume")
  reject (b.high < b.open ∨ b.high < b.low ∨ b.high < b.close)
    (invalidMarketData "bar high below OHLC value")
  reject (b.open < b.low ∨ b.close < b.low) (invalidMarketData "bar low above OHLC value")

/-! ### Tickers, trades, quotes and books -/

structure Ticker where
  instrumentID : InstrumentID := {}
  bid : Decimal := 0
  ask : Decimal := 0
  last : Decimal := 0
  timestamp : Time := 0
  deriving DecidableEq, Repr, Inhabited

def Ticker.validate (t : Ticker) : Except Err Unit := do
  t.instrumentID.validate
  reject (t.bid < 0 ∨ t.ask < 0 ∨ t.last < 0) (invalidMarketData "negative ticker price")
  reject (0 < t.bid ∧ 0 < t.ask ∧ t.ask < t.bid) (invalidMarketData "crossed ticker")

inductive AggressorSide where
  | unset
  | buyer
  | seller
  | noAggressor
  | other (name : String)
  deriving DecidableEq, Repr, Inhabited

def AggressorSide.validate : AggressorSide → Except Err Unit
  | .unset => .error ⟨.invalidMarketData, "invalid aggressor side", [""]⟩
  | .other name => .error ⟨.invalidMarketData, "invalid aggressor side", [name]⟩
  | _ => .ok ()

structure TradeTick where
  instrumentID : InstrumentID := {}
  price : Decimal := 0
  size : Decimal := 0
  aggressorSide : AggressorSide := .unset
  tradeID : TradeID := ""
  timestamp : Time := 0
  initTime : Time := 0
  deriving DecidableEq, Repr, Inhabited

def TradeTick.validate (t : TradeTick) : Except Err Unit := do
  t.instrumentID.validate
  reject (¬ 0 < t.price ∨ ¬ 0 < t.size)
    (invalidMarketData "non-positive trade tick price or size")
  t.aggressorSide.validate
  reject (t.tradeID = "") (invalidMarketData "missing trade tick trade id")

structure QuoteTick where
  instrumentID : InstrumentID := {}
  bidPrice : Decimal := 0
  askPrice : Decimal := 0
  bidSize : Decimal := 0
  askSize : Decimal := 0
  timestamp : Time := 0
  initTime : Time := 0
  deriving DecidableEq, Repr, Inhabited

def QuoteTick.validate (q : QuoteTick) : Except Err Unit := do
  q.instrumentID.validate
  reject (¬ 0 < q.bidPrice ∨ ¬ 0 < q.askPrice ∨ ¬ 0 < q.bidSize ∨ ¬ 0 < q.askSize)
    (invalidMarketData "non-positive quote tick price or size")
  reject (q.askPrice < q.bidPrice) (invalidMarketData "crossed quote tick")

structure OrderBookLevel where
  price : Decimal := 0
  size : Decimal := 0
  deriving DecidableEq, Repr, Inhabited

structure OrderBook where
  instrumentID : InstrumentID := {}
  bids : List OrderBookLevel := []
  asks : List OrderBookLevel := []
  timestamp : Time := 0
  deriving DecidableEq, Repr, Inhabited

/-- The best bid reaches the best ask. -/
def OrderBook.crossed (b : OrderBook) : Bool :=
  match b.bids, b.asks with
  | bid :: _, ask :: _ => decide (ask.price ≤ bid.price)
  | _, _ => false

def OrderBook.validate (b : OrderBook) : Except Err Unit := do
  b.instrumentID.validate
  checkAll (fun level : OrderBookLevel =>
    reject (¬ 0 < level.price ∨ ¬ 0 < level.size)
      (invalidMarketData "non-positive book level")) (b.bids ++ b.asks)
  reject b.crossed (invalidMarketData "crossed book")

structure FundingRate where
  instrumentID : InstrumentID := {}
  rate : Decimal := 0
  nextFundingTime : Time := 0
  fundingInterval : ℤ := 0
  timestamp : Time := 0
  initTime : Time := 0
  deriving DecidableEq, Repr, Inhabited

def FundingRate.validate (f : FundingRate) : Except Err Unit := do
  f.instrumentID.validate
  reject (f.fundingInterval < 0) (invalidMarketData "funding interval cannot be negative")

structure CustomData where
  instrumentID : InstrumentID := {}
  type : String := ""
  fields : List (String × String) := []
  timestamp : Time := 0
  initTime : Time := 0
  deriving DecidableEq, Repr, Inhabited

def CustomData.validate (d : CustomData) : Except Err Unit := do
  d.instrumentID.validate
  reject (d.type = "") (invalidMarketData "missing custom data type")

end Exchanges.Model
