import Exchanges.Backtest.Positions

/-!
The prices of fills and the limits of orders.

A price is tested against the limit of the version of the order that is being
matched, before slippage. The fill can therefore be worse than the limit in
three ways: the price slips by a tick after the test, the limit was changed
since the version was read, or the order is a market-to-limit order, which is
matched as a market order even when it has a limit.
-/

namespace Exchanges.Backtest

open Exchanges.Lib Exchanges.Model Exchanges.Cache
open Exchanges.Account (samplePerp)

set_option linter.unusedSectionVars false

/-- The order has a limit: its type says so, or it is a market-to-limit order
that has been given its price. -/
def HasLimit (order : OrderStatusReport) : Prop :=
  order.type.isLimitStyle = true ∨ order.type = .marketToLimit ∧ 0 < order.price

/-- The price is no worse than the limit of the order. -/
def Inside (order : OrderStatusReport) (price : Decimal) : Prop :=
  if order.side = .buy then price ≤ order.price else order.price ≤ price

/-- The order of a match as it is stored when the fill is applied. -/
def Matched.stored (m : Matched) (before : Cache) : OrderStatusReport :=
  (before.order m.fill.accountID m.fill.orderID).getD m.order

/-- The fill is no worse than the limit of its order. -/
def WithinLimit (before : Cache) (m : Matched) : Prop :=
  HasLimit (m.stored before) → Inside (m.stored before) m.fill.price

instance (order : OrderStatusReport) : Decidable (HasLimit order) := by
  unfold HasLimit; infer_instance

instance (order : OrderStatusReport) (price : Decimal) : Decidable (Inside order price) := by
  unfold Inside; infer_instance

instance (before : Cache) (m : Matched) : Decidable (WithinLimit before m) := by
  unfold WithinLimit; infer_instance

/-- The version of the order that is matched has the limit of the stored one. -/
def TestedAgainstLimit (before : Cache) (m : Matched) : Prop :=
  m.order.type.isLimitStyle = true ∧ m.order.price = (m.stored before).price ∧
    m.order.side = (m.stored before).side

/-- The fill model may let the price of the match slip. -/
def MaySlip (config : FillModelConfig) (m : Matched) : Prop :=
  0 < config.probSlippage ∧ m.source.isL1 = true ∧
    fillIsMaker m.order m.fill.timestamp = false

/-- What the fill model is asked about the match. -/
def Matched.context (m : Matched) (before : Cache) : FillContext :=
  fillContext before m.order m.price m.fill.quantity m.fill.timestamp m.source

/-- The limit of the stored order was tested, or the price is inside it anyway,
and there is room for a price that slips. -/
def LimitRespected (config : FillModelConfig) (before : Cache) (m : Matched) : Prop :=
  (TestedAgainstLimit before m ∨ Inside (m.stored before) m.price) ∧
    (MaySlip config m → Inside (m.stored before) (slipped (m.context before) m.price))

instance (config : FillModelConfig) (before : Cache) (m : Matched) :
    Decidable (LimitRespected config before m) := by
  unfold LimitRespected TestedAgainstLimit MaySlip; infer_instance

section Prices

variable [DecimalPackage] {cfg : Config} {V : OrderStatusReport → Prop} {r : Runtime} {m : Matched}

/-- An order of a limit type is matched at prices inside its limit only. -/
theorem Origin.inside {market : Market} {order : OrderStatusReport} {source : FillSource}
    {price : Decimal} {ts : Time} (h : Origin market order source price ts)
    (hlimit : order.type.isLimitStyle = true) : Inside order price := by
  have hstyle : order.type.isMarketStyle = false := by
    revert hlimit
    cases order.type <;> simp [OrderType.isLimitStyle, OrderType.isMarketStyle]
  have hcan : ∀ {price}, canMatch order price = true → Inside order price := by
    intro price hmatch
    unfold canMatch at hmatch
    unfold Inside
    simp only [hstyle, Bool.false_eq_true, if_false] at hmatch
    split_ifs at hmatch ⊢ with hside
    · exact of_decide_eq_true hmatch
    · exact of_decide_eq_true hmatch
  cases h with
  | ticker data isMarket => simp [hstyle] at isMarket
  | quoteTick data can => exact hcan can
  | tradeTick data can => exact hcan can
  | orderBook data can => exact hcan can
  | bar data within =>
    -- within a bar an order of a limit type trades at its limit
    have hprice : price = order.price := by
      unfold barMatchPrice at within
      rw [if_pos hlimit] at within
      split_ifs at within <;> exact (Option.some.inj within).symm
    unfold Inside
    rw [hprice]
    split_ifs <;> exact le_rfl

/-- The price of a fill is that of the match, or that with slippage where the
model allows for it. -/
theorem Fits.price {config : FillModelConfig} (hmodel : newFillModel config = .ok cfg.fillModel)
    (h : Fits cfg V r m) : m.fill.price = m.price ∨
      MaySlip config m ∧ m.fill.price = slipped (m.context r.cache) m.price := by
  obtain ⟨drawn, quantity, ts, hfill⟩ := h.fill
  have hquantity : m.fill.quantity = quantity := by simp [hfill, rawFill]
  have htime : m.fill.timestamp = ts := by simp [hfill, rawFill]
  have hprice : m.fill.price = (cfg.fillModel.applySlippage (m.context r.cache) m.price
      drawn).1 := by
    rw [Matched.context, hquantity, htime]
    simp [hfill, rawFill]
  have hprobabilistic : ∃ probability, cfg.fillModel =
      probabilistic probability config.probSlippage config.random := by
    unfold newFillModel at hmodel
    simp only [except_seq_eq_ok] at hmodel
    obtain ⟨-, -, hmodel⟩ := hmodel
    exact ⟨_, (Except.ok.inj hmodel).symm⟩
  obtain ⟨probability, hmodel⟩ := hprobabilistic
  rw [hprice, hmodel, probabilistic]
  dsimp only
  split_ifs with hno hslips
  · exact .inl rfl
  · right
    simp only [not_or, Bool.not_eq_false] at hno
    refine ⟨⟨?_, hno.2, ?_⟩, rfl⟩
    · by_contra hprob
      simp [draw, not_lt.mp hprob] at hslips
    · have htaker : (!fillIsMaker m.order m.fill.timestamp) = true := hno.1
      simpa using htaker
  · exact .inl rfl

/-- A fill that respects the limit is within it. -/
theorem Fits.withinLimit {config : FillModelConfig}
    (hmodel : newFillModel config = .ok cfg.fillModel) (h : Fits cfg V r m)
    (hrespected : LimitRespected config r.cache m) : WithinLimit r.cache m := by
  intro _
  obtain ⟨htested, hroom⟩ := hrespected
  rcases h.price hmodel with hsame | ⟨hslip, hprice⟩
  · rw [hsame]
    rcases htested with ⟨hlimit, hprice, hside⟩ | hinside
    · have hinside := h.origin.inside hlimit
      unfold Inside at hinside ⊢
      rwa [hprice, hside] at hinside
    · exact hinside
  · rw [hprice]
    exact hroom hslip

/-- In every run, the fills that respect the limits of their orders are within
them. -/
theorem fills_within_limits {config : FillModelConfig} (setup : Setup) (c : Cache)
    (p : Portfolio) (hmodel : newFillModel config = .ok setup.cfg.fillModel)
    (hrespected : ∀ t before market m,
      .filled t before market m ∈ (setup.result c p).trace → LimitRespected config before m) :
    ∀ t before market m,
      .filled t before market m ∈ (setup.result c p).trace → WithinLimit before m := by
  intro t before market m hmem
  obtain ⟨r, -, rfl, -, fits⟩ := fits_of_filled setup c p hmem
  exact fits.withinLimit hmodel (hrespected t r.cache market m hmem)

end Prices

/-! ### A price that slips -/

def sampleQuote (t : Time) (ask size : Decimal) : Event :=
  ⟨t, .marketData, .market {
    quote := some { instrumentID := samplePerp, askPrice := ask, askSize := size, timestamp := t } }⟩

/-- A strategy that buys when it sees a quote. -/
def buyOnQuote : Strategy := .answering "buyer"
  (fun event => if event.quote.isSome then [.submitOrder sampleBuy] else []) fun _ => []

/-- A model in which every price slips. -/
def slippingConfig : FillModelConfig := { probSlippage := 1 }

def slippingSetup (ask : Decimal) : Setup :=
  { cfg := { fillModel := probabilistic 1 1 fun _ => 0 }
    strategies := [buyOnQuote], events := [sampleQuote 1 ask 1], depth := 2, timers := 1 }

def tickedPerp : Instrument :=
  { id := samplePerp, rawSymbol := "BTCUSDT", type := .perp, base := "BTC", quote := "USDT"
    settle := "USDT", priceTick := 1, sizeTick := 1, status := .trading }

/-- A cache that knows of a price tick of one. -/
def tickedCache : Cache := (Cache.new.putInstrument tickedPerp).toOption.getD Cache.new

def Entry.respectsLimit (config : FillModelConfig) : Entry → Bool
  | .filled _ before _ m => decide (LimitRespected config before m)
  | _ => true

/-- The entry tells of a fill at a price. -/
def Entry.fillsAt (price : Decimal) : Entry → Bool
  | .filled _ _ _ m => decide (m.fill.price = price)
  | _ => false

/-- The entry tells of a fill that is worse than the limit of its order. -/
def Entry.beyondLimit : Entry → Bool
  | .filled _ before _ m => decide (¬ WithinLimit before m)
  | _ => false

theorem fills_within_limits_slipped :
    (@Setup.result exactDecimals (slippingSetup 99) tickedCache
        (Portfolio.new Cache.new)).trace.any (Entry.fillsAt 100) = true ∧
      ∀ t before market m, .filled t before market m ∈
        (@Setup.result exactDecimals (slippingSetup 99) tickedCache
          (Portfolio.new Cache.new)).trace → WithinLimit before m := by
  refine ⟨by decide +kernel, ?_⟩
  refine @fills_within_limits exactDecimals slippingConfig (slippingSetup 99) tickedCache
    (Portfolio.new Cache.new) rfl ?_
  intro t before market m hmem
  have hall : (@Setup.result exactDecimals (slippingSetup 99) tickedCache
      (Portfolio.new Cache.new)).trace.all (Entry.respectsLimit slippingConfig) = true := by
    decide +kernel
  exact of_decide_eq_true (List.all_eq_true.mp hall _ hmem)

/-- An order to buy at 100 is filled at 101. -/
theorem fills_within_limits_fails_slipped :
    newFillModel slippingConfig = .ok (slippingSetup 100).cfg.fillModel ∧
      (@Setup.result exactDecimals (slippingSetup 100) tickedCache
        (Portfolio.new Cache.new)).trace.any Entry.beyondLimit = true ∧
      (@Setup.result exactDecimals (slippingSetup 100) tickedCache
        (Portfolio.new Cache.new)).trace.any (Entry.fillsAt 101) = true :=
  ⟨rfl, by decide +kernel, by decide +kernel⟩

end Exchanges.Backtest
