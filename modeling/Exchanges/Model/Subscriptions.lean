import Exchanges.Model.MarketData

/-!
Subscriptions to market data and the keys under which they are kept.
-/

namespace Exchanges.Model

open Exchanges.Lib

inductive MarketDataType where
  | unset
  | ticker
  | orderBook
  | tradeTick
  | quoteTick
  | bar
  | fundingRate
  | custom
  | other (name : String)
  deriving DecidableEq, Repr, Inhabited

def MarketDataType.validate : MarketDataType → Except Err Unit
  | .unset => .error ⟨.invalidMarketData, "invalid market data type", [""]⟩
  | .other name => .error ⟨.invalidMarketData, "invalid market data type", [name]⟩
  | _ => .ok ()

structure SubscribeMarketData where
  instrumentID : InstrumentID := {}
  type : MarketDataType := .unset
  depth : ℤ := 0
  barType : BarType := {}
  deriving DecidableEq, Repr, Inhabited

/-- The parts that the text of a key is put together from. -/
inductive SubscriptionKey where
  | bar (barType : BarType)
  | plain (type : MarketDataType) (instrument : String)
  deriving DecidableEq, Repr

namespace SubscribeMarketData

def key (s : SubscribeMarketData) : SubscriptionKey :=
  if s.type = .bar then .bar s.barType.canonical else .plain s.type s.instrumentID.string

end SubscribeMarketData

end Exchanges.Model
