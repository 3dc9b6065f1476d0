import Exchanges.Cache.Snapshots
import Exchanges.Model.Commands

/-!
How the backtest prices and sizes a fill.

Everything here is a function of an order, of the market data remembered for
its instrument and of the quantities already consumed at each price. The fill
model is the one part with a state of its own, its random generator: it is a
pair of functions that take the number of random numbers drawn so far and give
it back increased. The interface may be implemented by a user of the package,
so the functions are arbitrary; `probabilistic` is the implementation that the
package comes with.
-/

namespace Exchanges.Backtest

open Exchanges.Lib Exchanges.Model

/-! ### Remembered market data -/

/-- The last market data of each kind, by instrument. -/
structure Market where
  lastTicker : OrdMap InstrumentID Ticker := ∅
  lastBooks : OrdMap InstrumentID OrderBook := ∅
  lastTrades : OrdMap InstrumentID TradeTick := ∅
  lastQuotes : OrdMap InstrumentID QuoteTick := ∅
  lastBars : OrdMap InstrumentID Bar := ∅

namespace Market

variable (m : Market) (id : InstrumentID) (side : OrderSide)

/-- The prices that an order on `side` looks at, each with its time. -/
def tickerPrice : List (Decimal × Time) :=
  (m.lastTicker.get id).toList.map fun ticker => (ticker.last, ticker.timestamp)

def quotePrice : List (Decimal × Time) :=
  (m.lastQuotes.get id).toList.map fun quote =>
    (if side = .buy then quote.askPrice else quote.bidPrice, quote.timestamp)

def bookPrice : List (Decimal × Time) :=
  (m.lastBooks.get id).toList.flatMap fun book =>
    let best := match side with
      | .buy => book.asks.head?
      | .sell => book.bids.head?
      | _ => none
    best.toList.map fun level => (level.price, book.timestamp)

def tradePrice : List (Decimal × Time) :=
  (m.lastTrades.get id).toList.map fun trade => (trade.price, trade.timestamp)

end Market

/-! ### Orders and prices -/

def openQuantity (order : OrderStatusReport) : Decimal :=
  if 0 < order.leavesQuantity then order.leavesQuantity
  else order.quantity - order.filledQuantity

def canMatch (order : OrderStatusReport) (price : Decimal) : Bool :=
  if order.type.isMarketStyle then true
  else if order.side = .buy then decide (price ≤ order.price)
  else decide (order.price ≤ price)

def isLimitTouch (order : OrderStatusReport) (price : Decimal) : Bool :=
  decide (0 < order.price) && order.type.isLimitStyle && decide (price = order.price)

/-- A stop order to buy waits for a price at or above its trigger, and one to
sell for a price at or below it. An if-touched order waits for the opposite. -/
def stopTrigger (order : OrderStatusReport) (price : Decimal) : Bool :=
  if order.side = .buy then decide (order.triggerPrice ≤ price)
  else decide (price ≤ order.triggerPrice)

def touchedTrigger (order : OrderStatusReport) (price : Decimal) : Bool :=
  if order.side = .buy then decide (price ≤ order.triggerPrice)
  else decide (order.triggerPrice ≤ price)

/-- The price at which an order trades within a bar, if it does. -/
def barMatchPrice (order : OrderStatusReport) (bar : Bar) : Option Decimal :=
  if order.type.isLimitStyle then
    if ¬ 0 < order.price then none
    else if order.side = .buy ∧ 0 < bar.low ∧ bar.low ≤ order.price then some order.price
    else if order.side = .sell ∧ 0 < bar.high ∧ order.price ≤ bar.high then some order.price
    else none
  else if (order.type = .stopMarket ∨ order.type = .marketIfTouched ∨
      order.type = .trailingStopMarket) ∧ order.status = .triggered ∧ 0 < order.triggerPrice then
    some order.triggerPrice
  else if ¬ 0 < bar.close ∨ canMatch order bar.close = false then none
  else some bar.close

def firstBookPrice (m : Market) (order : OrderStatusReport) : Decimal :=
  ((m.bookPrice order.instrumentID order.side).head?.map (·.1)).getD 0

/-- Of the positive prices the latest, and of several at one time the last. -/
def considerPrice (best : Option (Decimal × Time)) (candidate : Decimal × Time) :
    Option (Decimal × Time) :=
  if ¬ 0 < candidate.1 then best
  else match best with
    | none => some candidate
    | some (_, ts) => if ts ≤ candidate.2 then some candidate else best

def latestOrderPrice (m : Market) (order : OrderStatusReport) : Decimal :=
  let close := (m.lastBars.get order.instrumentID).toList.map fun bar =>
    (bar.close, bar.timestamp)
  let candidates := m.tickerPrice order.instrumentID ++
    m.quotePrice order.instrumentID order.side ++ m.tradePrice order.instrumentID ++ close
  ((candidates.foldl considerPrice none).map (·.1)).getD 0

def currentPrice (m : Market) (order : OrderStatusReport) : Decimal :=
  if 0 < latestOrderPrice m order then latestOrderPrice m order else firstBookPrice m order

/-- All positive prices of the latest time. -/
def considerTrigger (best : Option (List Decimal × Time)) (candidate : Decimal × Time) :
    Option (List Decimal × Time) :=
  if ¬ 0 < candidate.1 then best
  else match best with
    | none => some ([candidate.1], candidate.2)
    | some (prices, ts) =>
      if ts < candidate.2 then some ([candidate.1], candidate.2)
      else if candidate.2 = ts then some (prices ++ [candidate.1], ts)
      else best

def latestTriggerPrices (m : Market) (order : OrderStatusReport) : List Decimal :=
  let id := order.triggerInstrument
  let range := (m.lastBars.get id).toList.flatMap fun bar =>
    [(bar.high, bar.timestamp), (bar.low, bar.timestamp)]
  let candidates := m.tickerPrice id ++ m.quotePrice id order.side ++
    m.bookPrice id order.side ++ m.tradePrice id ++ range
  ((candidates.foldl considerTrigger none).map (·.1)).getD []

/-- The most favorable and the most adverse price of the latest time. -/
def considerTrailing (side : OrderSide) (best : Option ((Decimal × Decimal) × Time))
    (candidate : (Decimal × Decimal) × Time) : Option ((Decimal × Decimal) × Time) :=
  if ¬ 0 < candidate.1.1 ∨ ¬ 0 < candidate.1.2 then best
  else match best with
    | none => some candidate
    | some ((favorable, adverse), ts) =>
      if ts < candidate.2 then some candidate
      else if candidate.2 ≠ ts then best
      else if side = .sell then
        some ((max favorable candidate.1.1, min adverse candidate.1.2), ts)
      else some ((min favorable candidate.1.1, max adverse candidate.1.2), ts)

def latestTrailingRange (m : Market) (order : OrderStatusReport) : Option (Decimal × Decimal) :=
  let id := order.triggerInstrument
  let singles := m.tickerPrice id ++ m.quotePrice id order.side ++ m.bookPrice id order.side ++
    m.tradePrice id
  let range := (m.lastBars.get id).toList.map fun bar =>
    (if order.side = .sell then (bar.high, bar.low) else (bar.low, bar.high), bar.timestamp)
  let candidates := singles.map (fun single => ((single.1, single.1), single.2)) ++ range
  (candidates.foldl (considerTrailing order.side) none).map (·.1)

/-! ### Makers, takers and fees -/

/-- `backtestFillIsMaker`: a resting order trades as a maker with what comes
after it. -/
def fillIsMaker (order : OrderStatusReport) (fillTime : Time) : Bool :=
  order.type.isLimitStyle && decide (order.lastUpdatedTime ≠ 0) && decide (fillTime ≠ 0) &&
    decide (order.lastUpdatedTime < fillTime)

/-- `backtestPostOnlyCanFill`. -/
def postOnlyCanFill (order : OrderStatusReport) (fillTime : Time) : Bool :=
  !order.postOnly || fillIsMaker order fillTime

/-- `backtestFillFeeRate`. -/
def fillFeeRate (order : OrderStatusReport) (fillTime : Time) (inst : Instrument) : Decimal :=
  if fillIsMaker order fillTime then inst.makerFee else inst.takerFee

/-- `backtestFillFeeCurrency`. -/
def fillFeeCurrency (inst : Instrument) : Currency :=
  if inst.settle ≠ "" then inst.settle else inst.quote

/-- The fee is that of the instrument whose price triggers the order. -/
def applyFillFee (c : Cache) (order : OrderStatusReport) (fill : FillReport) : FillReport :=
  match c.instrument order.triggerInstrument with
  | none => fill
  | some inst =>
    let rate := fillFeeRate order fill.timestamp inst
    if ¬ 0 < rate then fill
    else { fill with
      fee := fill.price * fill.quantity * rate
      feeCurrency := fillFeeCurrency inst }

/-! ### Fill models -/

inductive FillSource where
  | ticker
  | orderBook
  | quoteTick
  | tradeTick
  | bar
  deriving DecidableEq, Repr, Inhabited

structure FillContext where
  order : OrderStatusReport
  instrument : Instrument
  source : FillSource
  price : Decimal
  quantity : Decimal
  timestamp : Time
  limitTouch : Bool
  taker : Bool
  deriving DecidableEq, Repr

/-- `FillModel`, whose answers also depend on the numbers drawn so far. -/
structure FillModel where
  shouldFillLimitTouch : FillContext → Nat → Bool × Nat
  applySlippage : FillContext → Decimal → Nat → Decimal × Nat

/-- `FillModelConfig`, with the numbers that the seed makes the generator draw.
A probability is a `float64`, of which only its place among the others matters. -/
structure FillModelConfig where
  probFillOnLimit : ℚ := 0
  probFillOnLimitSet : Bool := false
  probSlippage : ℚ := 0
  random : Nat → ℚ := fun _ => 0

def validateProbability (name : String) (value : ℚ) : Except Err Unit :=
  reject (value < 0 ∨ 1 < value) ⟨.plain, name ++ " must be in [0,1]", []⟩

/-- A number is drawn only if the answer is not already known. -/
def draw (random : Nat → ℚ) (probability : ℚ) (drawn : Nat) : Bool × Nat :=
  if probability ≤ 0 then (false, drawn)
  else if 1 ≤ probability then (true, drawn)
  else (decide (random drawn < probability), drawn + 1)

/-- `isL1FillSource`. -/
def FillSource.isL1 : FillSource → Bool
  | orderBook => false
  | _ => true

/-- The price one tick worse, if there is such a price. -/
def slipped (ctx : FillContext) (price : Decimal) : Decimal :=
  let tick := ctx.instrument.priceTick
  if ¬ 0 < tick then price
  else if ctx.order.side = .sell then
    if 0 < price - tick then price - tick else price
  else price + tick

/-- `ProbabilisticFillModel`. -/
def probabilistic (probFillOnLimit probSlippage : ℚ) (random : Nat → ℚ) : FillModel where
  shouldFillLimitTouch ctx drawn :=
    if ctx.limitTouch = false then (true, drawn) else draw random probFillOnLimit drawn
  applySlippage ctx price drawn :=
    if ctx.taker = false ∨ ctx.source.isL1 = false then (price, drawn)
    else
      let slips := draw random probSlippage drawn
      (if slips.1 then slipped ctx price else price, slips.2)

/-- `NewFillModel`. -/
def newFillModel (cfg : FillModelConfig) : Except Err FillModel := do
  let probFillOnLimit :=
    if cfg.probFillOnLimitSet = false ∧ cfg.probFillOnLimit = 0 then 1 else cfg.probFillOnLimit
  validateProbability "prob_fill_on_limit" probFillOnLimit
  validateProbability "prob_slippage" cfg.probSlippage
  return probabilistic probFillOnLimit cfg.probSlippage cfg.random

/-- `DefaultFillModel`: every touch fills, and nothing slips. -/
def defaultFillModel : FillModel := probabilistic 1 0 fun _ => 0

def fillContext (c : Cache) (order : OrderStatusReport) (price quantity : Decimal) (ts : Time)
    (source : FillSource) : FillContext where
  order := order
  instrument := (c.instrument order.instrumentID).getD {}
  source := source
  price := price
  quantity := quantity
  timestamp := ts
  limitTouch := isLimitTouch order price
  taker := !fillIsMaker order ts

/-- Whether an order at a touched price is filled, and the numbers drawn after. -/
def shouldFillLimitTouch (model : FillModel) (c : Cache) (order : OrderStatusReport)
    (price quantity : Decimal) (ts : Time) (source : FillSource) (drawn : Nat) : Bool × Nat :=
  if postOnlyCanFill order ts then
    model.shouldFillLimitTouch (fillContext c order price quantity ts source) drawn
  else (false, drawn)

/-! ### The matching core -/

structure Match where
  source : FillSource
  price : Decimal
  quantity : Decimal
  timestamp : Time
  deriving DecidableEq, Repr

/-- The levels that an order trades with. -/
def bookLevels (order : OrderStatusReport) (book : OrderBook) : List OrderBookLevel :=
  if order.side = .sell then book.bids else book.asks

/-- The loop of `MatchOrderBook`: each level gives what is left of it, up to
the quantity that is still wanted. -/
def matchLevels (model : FillModel) (c : Cache) (order : OrderStatusReport) (ts : Time)
    (consumed : Decimal → Decimal) : List OrderBookLevel → Decimal → Nat → List Match × Nat
  | [], _, drawn => ([], drawn)
  | level :: levels, quantity, drawn =>
    if ¬ 0 < quantity ∨ canMatch order level.price = false then ([], drawn)
    else
      let fillQty := min quantity (level.size - consumed level.price)
      if ¬ 0 < fillQty then matchLevels model c order ts consumed levels quantity drawn
      else
        let touch := shouldFillLimitTouch model c order level.price fillQty ts .orderBook drawn
        if touch.1 then
          let rest :=
            matchLevels model c order ts consumed levels (quantity - fillQty) touch.2
          (⟨.orderBook, level.price, fillQty, ts⟩ :: rest.1, rest.2)
        else matchLevels model c order ts consumed levels quantity touch.2

/-- `MatchOrderBook`. -/
def matchOrderBook (model : FillModel) (c : Cache) (order : OrderStatusReport)
    (book : OrderBook) (consumed : Decimal → Decimal) (maxQuantity : Decimal) (drawn : Nat) :
    List Match × Nat :=
  let quantity := openQuantity order
  let quantity := if 0 < maxQuantity ∧ maxQuantity < quantity then maxQuantity else quantity
  matchLevels model c order book.timestamp consumed (bookLevels order book) quantity drawn

/-- What a list of matches takes at a price. -/
def takenAt (price : Decimal) (found : List Match) : Decimal :=
  ((found.filter fun m => m.price = price).map (·.quantity)).sum

/-- What a book has at a price. -/
def levelSize (price : Decimal) (levels : List OrderBookLevel) : Decimal :=
  ((levels.filter fun level => level.price = price).map fun level => max level.size 0).sum

theorem takenAt_cons (price : Decimal) (m : Match) (found : List Match) :
    takenAt price (m :: found) =
      (if m.price = price then m.quantity else 0) + takenAt price found := by
  by_cases h : m.price = price <;> simp [takenAt, h]

theorem levelSize_cons (price : Decimal) (level : OrderBookLevel)
    (levels : List OrderBookLevel) :
    levelSize price (level :: levels) =
      (if level.price = price then max level.size 0 else 0) + levelSize price levels := by
  by_cases h : level.price = price <;> simp [levelSize, h]

theorem levelSize_nonneg (price : Decimal) (levels : List OrderBookLevel) :
    0 ≤ levelSize price levels := by
  refine List.sum_nonneg fun x hx => ?_
  obtain ⟨level, -, rfl⟩ := List.mem_map.mp hx
  exact le_max_right ..

theorem levelSize_le_cons (price : Decimal) (level : OrderBookLevel)
    (levels : List OrderBookLevel) : levelSize price levels ≤ levelSize price (level :: levels) := by
  rw [levelSize_cons]
  split_ifs
  · exact le_add_of_nonneg_left (le_max_right ..)
  · exact (zero_add _).ge

section MatchLevels

variable (model : FillModel) (c : Cache) (order : OrderStatusReport) (ts : Time)
  (consumed : Decimal → Decimal)

/-- One level: it is the last one looked at, it gives nothing, or it gives what
is left of it up to the quantity wanted. -/
theorem matchLevels_cons (level : OrderBookLevel) (levels : List OrderBookLevel)
    (quantity : Decimal) (drawn : Nat) :
    (matchLevels model c order ts consumed (level :: levels) quantity drawn).1 = [] ∨
    (∃ drawn', (matchLevels model c order ts consumed (level :: levels) quantity drawn).1 =
      (matchLevels model c order ts consumed levels quantity drawn').1) ∨
    ∃ fillQty drawn', 0 < fillQty ∧ fillQty ≤ quantity ∧
      fillQty ≤ level.size - consumed level.price ∧ canMatch order level.price = true ∧
      (matchLevels model c order ts consumed (level :: levels) quantity drawn).1 =
        ⟨.orderBook, level.price, fillQty, ts⟩ ::
          (matchLevels model c order ts consumed levels (quantity - fillQty) drawn').1 := by
  rw [matchLevels]
  dsimp only
  split_ifs with hstop hsome htouch
  · exact .inl rfl
  · simp only [not_or, not_not, Bool.not_eq_false] at hstop
    exact .inr (.inr ⟨_, _, hsome, min_le_left .., min_le_right .., hstop.2, rfl⟩)
  · exact .inr (.inl ⟨_, rfl⟩)
  · exact .inr (.inl ⟨drawn, rfl⟩)

theorem matchLevels_match (levels : List OrderBookLevel) : ∀ quantity drawn,
    ∀ m ∈ (matchLevels model c order ts consumed levels quantity drawn).1,
      m.source = .orderBook ∧ m.timestamp = ts ∧ canMatch order m.price = true ∧
        0 < m.quantity := by
  induction levels with
  | nil =>
    intro quantity drawn m hm
    simp [matchLevels] at hm
  | cons level levels ih =>
    intro quantity drawn m hm
    obtain hnone | ⟨drawn', hskip⟩ | ⟨fillQty, drawn', hpos, -, -, hcan, htake⟩ :=
      matchLevels_cons model c order ts consumed level levels quantity drawn
    · simp [hnone] at hm
    · rw [hskip] at hm
      exact ih quantity drawn' m hm
    · rw [htake] at hm
      rcases List.mem_cons.mp hm with rfl | hm
      · exact ⟨rfl, rfl, hcan, hpos⟩
      · exact ih _ _ m hm

theorem matchLevels_total (levels : List OrderBookLevel) : ∀ quantity drawn, 0 ≤ quantity →
    ((matchLevels model c order ts consumed levels quantity drawn).1.map (·.quantity)).sum ≤
      quantity := by
  induction levels with
  | nil =>
    intro quantity drawn hq
    simpa [matchLevels] using hq
  | cons level levels ih =>
    intro quantity drawn hq
    obtain hnone | ⟨drawn', hskip⟩ | ⟨fillQty, drawn', -, hle, -, -, htake⟩ :=
      matchLevels_cons model c order ts consumed level levels quantity drawn
    · simpa [hnone] using hq
    · rw [hskip]
      exact ih quantity drawn' hq
    · rw [htake, List.map_cons, List.sum_cons]
      linarith [ih (quantity - fillQty) drawn' (sub_nonneg.mpr hle)]

theorem takenAt_matchLevels_le (price : Decimal) (hconsumed : ∀ p, 0 ≤ consumed p)
    (levels : List OrderBookLevel) : ∀ quantity drawn,
      takenAt price (matchLevels model c order ts consumed levels quantity drawn).1 ≤
        levelSize price levels := by
  induction levels with
  | nil => exact fun _ _ => le_rfl
  | cons level levels ih =>
    intro quantity drawn
    obtain hnone | ⟨drawn', hskip⟩ | ⟨fillQty, drawn', -, -, hle, -, htake⟩ :=
      matchLevels_cons model c order ts consumed level levels quantity drawn
    · rw [hnone, levelSize_cons]
      have hzero : takenAt price ([] : List Match) = 0 := rfl
      have hnonneg := levelSize_nonneg price levels
      rw [hzero]
      split_ifs
      · exact add_nonneg (le_max_right ..) hnonneg
      · simpa using hnonneg
    · rw [hskip]
      exact (ih quantity drawn').trans (levelSize_le_cons ..)
    · rw [htake, takenAt_cons, levelSize_cons]
      refine add_le_add ?_ (ih _ _)
      dsimp only
      split_ifs
      · exact (hle.trans (sub_le_self _ (hconsumed _))).trans (le_max_left ..)
      · exact le_rfl

/-- What is taken at a price, with what was consumed there before, is within
the book. -/
theorem consumed_add_takenAt_le (price : Decimal) (hconsumed : ∀ p, 0 ≤ consumed p)
    (levels : List OrderBookLevel) : ∀ quantity drawn,
      (∃ m ∈ (matchLevels model c order ts consumed levels quantity drawn).1,
        m.price = price) →
      consumed price +
        takenAt price (matchLevels model c order ts consumed levels quantity drawn).1 ≤
          levelSize price levels := by
  induction levels with
  | nil =>
    rintro quantity drawn ⟨m, hm, -⟩
    simp [matchLevels] at hm
  | cons level levels ih =>
    intro quantity drawn hsome
    obtain hnone | ⟨drawn', hskip⟩ | ⟨fillQty, drawn', -, -, hle, -, htake⟩ :=
      matchLevels_cons model c order ts consumed level levels quantity drawn
    · simp [hnone] at hsome
    · rw [hskip] at hsome ⊢
      exact (ih quantity drawn' hsome).trans (levelSize_le_cons ..)
    · rw [htake] at hsome ⊢
      rw [takenAt_cons, levelSize_cons]
      dsimp only
      by_cases hprice : level.price = price
      · have hrest := takenAt_matchLevels_le model c order ts consumed price hconsumed levels
          (quantity - fillQty) drawn'
        have hsize := le_max_left level.size 0
        rw [if_pos hprice, if_pos hprice]
        rw [hprice] at hle
        linarith
      · have hrest := ih (quantity - fillQty) drawn' (by
          obtain ⟨m, hm, hmprice⟩ := hsome
          rcases List.mem_cons.mp hm with rfl | hm
          · exact absurd hmprice hprice
          · exact ⟨m, hm, hmprice⟩)
        rw [if_neg hprice, if_neg hprice]
        simpa using hrest

end MatchLevels

/-! ### How much can be filled -/

def reduceOnlyQuantity (c : Cache) (order : OrderStatusReport) : Decimal :=
  match c.positionByInstrument order.accountID order.instrumentID with
  | none => 0
  | some position =>
    if ¬ 0 < position.quantity ∨ position.side = .flat then 0
    else if order.side = .sell ∧ position.side = .long then position.quantity
    else if order.side = .buy ∧ position.side = .short then position.quantity
    else 0

def matchQuantity (c : Cache) (order : OrderStatusReport) : Decimal :=
  let quantity := openQuantity order
  if ¬ 0 < quantity ∨ order.reduceOnly = false then quantity
  else
    let reducible := reduceOnlyQuantity c order
    if ¬ 0 < reducible then 0 else min quantity reducible

/-- Add to a total that stops at the cap. -/
def addUpTo (cap total quantity : Decimal) : Decimal :=
  if ¬ 0 < quantity ∨ cap ≤ total then total else total + min quantity (cap - total)

/-- The price and the size that a quote offers to an order. -/
def quoteOffer (order : OrderStatusReport) (quote : QuoteTick) : Decimal × Decimal :=
  if order.side = .sell then (quote.bidPrice, quote.bidSize) else (quote.askPrice, quote.askSize)

/-- What each source offers, in the order in which the sources are added up.
The ticker is among them although no limit order is filled from it. -/
def immediateOffers (m : Market) (consumed : Decimal → Decimal) (order : OrderStatusReport)
    (cap : Decimal) : List Decimal :=
  let id := order.instrumentID
  let book := (m.lastBooks.get id).toList.flatMap fun book =>
    ((bookLevels order book).takeWhile fun level => canMatch order level.price).map
      fun level => level.size - consumed level.price
  let quote := (m.lastQuotes.get id).toList.flatMap fun quote =>
    let offer := quoteOffer order quote
    if 0 < offer.1 ∧ canMatch order offer.1 then [offer.2 - consumed offer.1] else []
  let trade := (m.lastTrades.get id).toList.flatMap fun trade =>
    if 0 < trade.price ∧ canMatch order trade.price then [cap] else []
  let bar := (m.lastBars.get id).toList.flatMap fun bar =>
    if (barMatchPrice order bar).isSome then [cap] else []
  let ticker := (m.lastTicker.get id).toList.flatMap fun ticker =>
    if 0 < ticker.last ∧ canMatch order ticker.last then [cap] else []
  book ++ quote ++ trade ++ bar ++ ticker

def availableImmediateQuantity (m : Market) (consumed : Decimal → Decimal)
    (order : OrderStatusReport) (cap : Decimal) : Decimal :=
  (immediateOffers m consumed order cap).foldl (addUpTo cap) 0

def canFullyFillImmediate (m : Market) (consumed : Decimal → Decimal)
    (order : OrderStatusReport) : Bool :=
  let quantity := openQuantity order
  if ¬ 0 < quantity then true
  else decide (quantity ≤ availableImmediateQuantity m consumed order quantity)

/-! ### Trailing stops -/

section Division

variable [DecimalPackage]

def trailingOffsetPrice (c : Cache) (order : OrderStatusReport) (reference : Decimal) :
    Option Decimal :=
  match order.trailingOffsetType.canonical with
  | .price => some order.trailingOffset
  | .basisPoints => some (DecimalPackage.div (reference * order.trailingOffset) 10000)
  | .ticks =>
    match c.instrument order.instrumentID with
    | none => none
    | some inst =>
      if ¬ 0 < inst.priceTick then none else some (order.trailingOffset * inst.priceTick)
  | _ => none

/-! ### Positions -/

def signedPosition (position : PositionStatusReport) : Decimal :=
  if position.side = .short then -position.quantity else position.quantity

def signedFill (fill : FillReport) : Decimal :=
  if fill.side = .sell then -fill.quantity else fill.quantity

def sideFromSigned (value : Decimal) : PositionSide :=
  if 0 < value then .long else if value < 0 then .short else .flat

/-- The position after a fill. Unlike the portfolio's `nextPosition` it looks at
the instrument only, and a flat position keeps a price. -/
def nextPosition (c : Cache) (fill : FillReport) : PositionStatusReport :=
  let positionID := fill.instrumentID.string
  match c.position fill.accountID positionID with
  | none =>
    { accountID := fill.accountID
      instrumentID := fill.instrumentID
      positionID := positionID
      side := if fill.side = .sell then .short else .long
      quantity := fill.quantity
      entryPrice := fill.price
      timestamp := fill.timestamp }
  | some existing =>
    let currentSigned := signedPosition existing
    let fillSigned := signedFill fill
    let nextSigned := currentSigned + fillSigned
    let entry :=
      if 0 < currentSigned * fillSigned ∧ 0 < |nextSigned| then
        DecimalPackage.div
          (existing.entryPrice * existing.quantity + fill.price * fill.quantity) |nextSigned|
      else if |fillSigned| < |currentSigned| then existing.entryPrice
      else fill.price
    { accountID := fill.accountID
      instrumentID := fill.instrumentID
      positionID := positionID
      side := sideFromSigned nextSigned
      quantity := |nextSigned|
      entryPrice := entry
      timestamp := fill.timestamp }

end Division

end Exchanges.Backtest
