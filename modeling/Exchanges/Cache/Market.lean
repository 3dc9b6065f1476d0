import Exchanges.Cache.Basic
import Exchanges.Model.Commands

/-!
Market events in the cache: the last of each kind for each instrument.
-/

namespace Exchanges.Cache

open Exchanges.Lib Exchanges.Model

/-- Every payload is written to its own map; custom data is not kept here. -/
def storeMarketEvent (c : Cache) (event : MarketEvent) : Cache :=
  let c := event.ticker.elim c c.putTicker
  let c := event.orderBook.elim c c.putOrderBook
  let c := event.trade.elim c c.putTrade
  let c := event.quote.elim c c.putQuote
  let c := event.bar.elim c c.putBar
  event.fundingRate.elim c c.putFundingRate

def putMarketEvent (c : Cache) (event : MarketEvent) : Except Err Cache := do
  event.validate
  return c.storeMarketEvent event

/-! ### What a market event leaves alone -/

/-- The caches differ in their market data only. -/
def MarketOnly (c c' : Cache) : Prop :=
  ∃ tickers orderBooks trades quotes latestBars fundingRates, c' =
    { c with
      tickers := tickers, orderBooks := orderBooks, trades := trades, quotes := quotes
      latestBars := latestBars, fundingRates := fundingRates }

theorem MarketOnly.trans {c c' c'' : Cache} (h : MarketOnly c c') (h' : MarketOnly c' c'') :
    MarketOnly c c'' := by
  obtain ⟨_, _, _, _, _, _, rfl⟩ := h
  obtain ⟨_, _, _, _, _, _, rfl⟩ := h'
  exact ⟨_, _, _, _, _, _, rfl⟩

theorem marketOnly_elim {α : Type} {c : Cache} {put : α → Cache} (data : Option α)
    (h : ∀ a, MarketOnly c (put a)) : MarketOnly c (data.elim c put) := by
  cases data with
  | none => exact ⟨_, _, _, _, _, _, rfl⟩
  | some a => exact h a

theorem marketOnly_storeMarketEvent (c : Cache) (event : MarketEvent) :
    MarketOnly c (c.storeMarketEvent event) := by
  refine MarketOnly.trans (MarketOnly.trans (MarketOnly.trans (MarketOnly.trans (MarketOnly.trans
    (marketOnly_elim event.ticker fun a => ?_) (marketOnly_elim event.orderBook fun a => ?_))
    (marketOnly_elim event.trade fun a => ?_)) (marketOnly_elim event.quote fun a => ?_))
    (marketOnly_elim event.bar fun a => ?_)) (marketOnly_elim event.fundingRate fun a => ?_)
  · exact ⟨_, _, _, _, _, _, rfl⟩
  · exact ⟨_, _, _, _, _, _, rfl⟩
  · exact ⟨_, _, _, _, _, _, rfl⟩
  · exact ⟨_, _, _, _, _, _, rfl⟩
  · obtain ⟨bars, heq⟩ := putBar_eq _ a
    exact ⟨_, _, _, _, bars, _, heq⟩
  · exact ⟨_, _, _, _, _, _, rfl⟩

end Exchanges.Cache
