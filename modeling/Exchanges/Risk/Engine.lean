import Exchanges.Cache.Rates
import Exchanges.Model.Commands

/-!
The risk engine: whether an order may be sent.

An order is checked against the state of the cache: the position of its account
in its instrument, the open orders, the market data and the balances. Limits come
from the configuration, the tightest one that applies. Of all this only the
window of recent commands is changed by a check.

The engine visits the cached instruments in four places, in no fixed order. The
orders that one check sees are a parameter.
-/

namespace Exchanges.Risk

open Exchanges.Lib Exchanges.Model

set_option linter.unusedSectionVars false

inductive TradingState where
  | unset
  | active
  | halted
  | reducing
  | other (name : String)
  deriving DecidableEq, Repr, Inhabited

structure Limits where
  maxOrderNotional : Decimal := 0
  maxPositionNotional : Decimal := 0
  maxAccountExposure : Decimal := 0
  deriving DecidableEq, Repr, Inhabited

/-- `risk.Config`, without the sizes of the queues and the clock. -/
structure Config extends Limits where
  exposureCurrency : Currency := ""
  tradingState : TradingState := .unset
  maxCommandsPerWindow : ℤ := 0
  commandRateWindow : ℤ := 0
  maxOpenOrders : ℤ := 0
  accountLimits : OrdMap AccountID Limits := ∅
  strategyLimits : OrdMap StrategyID Limits := ∅
  instrumentLimits : OrdMap InstrumentID Limits := ∅

structure ResolvedLimits extends Limits where
  orderSource : String := ""
  positionSource : String := ""
  exposureSource : String := ""

/-- `risk.Engine`, without its queues, its counters and its component. -/
structure Engine where
  cache : Cache := Cache.new
  cfg : Config := {}
  stateNote : String := ""
  cmdWindow : List Time := []

/-- The orders in which one check visits the cached instruments: to add up the
exposure of the account, to find the rate for each exposure, to add up the equity
of the account, and to find the positions that open orders start from. -/
structure Visits where
  exposure : List Instrument
  rates : Instrument → List Instrument
  equity : List Instrument
  reservation : List Instrument

structure Visits.Of (v : Visits) (c : Cache) : Prop where
  exposure : v.exposure.Perm c.instrumentList
  rates : ∀ inst, (v.rates inst).Perm c.instrumentList
  equity : v.equity.Perm c.instrumentList
  reservation : v.reservation.Perm c.instrumentList

def riskRejected (detail : String) : Err := ⟨.riskRejected, detail, []⟩

def normalizedTradingState : TradingState → TradingState
  | .unset => .active
  | state => state

/-! ### Limits -/

def tighterLimit (current : Decimal) (currentSource : String) (candidate : Decimal)
    (candidateSource : String) : Decimal × String :=
  if ¬ 0 < candidate then (current, currentSource)
  else if ¬ 0 < current ∨ candidate < current then (candidate, candidateSource)
  else (current, currentSource)

def ResolvedLimits.apply (l : ResolvedLimits) (source : String) (limit : Limits) :
    ResolvedLimits :=
  let order := tighterLimit l.maxOrderNotional l.orderSource limit.maxOrderNotional source
  let position :=
    tighterLimit l.maxPositionNotional l.positionSource limit.maxPositionNotional source
  let exposure :=
    tighterLimit l.maxAccountExposure l.exposureSource limit.maxAccountExposure source
  { maxOrderNotional := order.1
    orderSource := order.2
    maxPositionNotional := position.1
    positionSource := position.2
    maxAccountExposure := exposure.1
    exposureSource := exposure.2 }

def resolveLimits (order : SubmitOrder) (cfg : Config) : ResolvedLimits :=
  let resolved : ResolvedLimits := { toLimits := cfg.toLimits }
  let resolved := match cfg.accountLimits.get order.accountID with
    | some limit => resolved.apply ("account " ++ order.accountID) limit
    | none => resolved
  let resolved :=
    if order.metadata.strategyID ≠ "" then
      match cfg.strategyLimits.get order.metadata.strategyID with
      | some limit => resolved.apply ("strategy " ++ order.metadata.strategyID) limit
      | none => resolved
    else resolved
  match cfg.instrumentLimits.get order.instrumentID with
  | some limit => resolved.apply ("instrument " ++ order.instrumentID.string) limit
  | none => resolved

def limitExceededError (source message : String) : Err :=
  if source = "" then riskRejected message else riskRejected (source ++ " " ++ message)

def stateRejectedError (message note : String) : Err :=
  if note = "" then riskRejected message else riskRejected (message ++ ": " ++ note)

/-! ### Positions and open orders -/

def signedPosition (position : PositionStatusReport) : Decimal :=
  if position.side = .short then -position.quantity else position.quantity

def applySignedOrder (current : Decimal) (side : OrderSide) (quantity : Decimal) : Decimal :=
  if side = .sell then current - quantity else current + quantity

def openOrderLeaves (order : OrderStatusReport) : Decimal :=
  if 0 < order.leavesQuantity then order.leavesQuantity
  else if 0 < order.quantity ∧ 0 < order.quantity - order.filledQuantity then
    order.quantity - order.filledQuantity
  else 0

/-- The signed position that the index names, or zero. -/
def currentPosition (c : Cache) (accountID : AccountID) (instrumentID : InstrumentID) : Decimal :=
  ((c.positionByInstrument accountID instrumentID).map signedPosition).getD 0

def signedPositionWithOpenOrders (c : Cache) (accountID : AccountID)
    (instrumentID : InstrumentID) : Decimal :=
  (c.openOrders accountID).foldl (fun current order =>
    if order.instrumentID ≠ instrumentID ∨ order.reduceOnly then current
    else if ¬ 0 < openOrderLeaves order then current
    else applySignedOrder current order.side (openOrderLeaves order))
    (currentPosition c accountID instrumentID)

def projectedSignedPosition (c : Cache) (order : SubmitOrder) : Decimal :=
  applySignedOrder (signedPositionWithOpenOrders c order.accountID order.instrumentID)
    order.side order.quantity

def projectedPositionNotional (c : Cache) (order : SubmitOrder) (price : Decimal) : Decimal :=
  |projectedSignedPosition c order| * price

def exposureIncreased (current projected : Decimal) : Bool :=
  if current = 0 then decide (projected ≠ 0)
  else if projected = 0 then false
  else if current * projected < 0 then true
  else decide (|current| < |projected|)

def increasesCurrentExposure (c : Cache) (order : SubmitOrder) : Bool :=
  let current := currentPosition c order.accountID order.instrumentID
  exposureIncreased current (applySignedOrder current order.side order.quantity)

def increasesProjectedExposure (c : Cache) (order : SubmitOrder) : Bool :=
  exposureIncreased (signedPositionWithOpenOrders c order.accountID order.instrumentID)
    (projectedSignedPosition c order)

/-! ### Prices -/

def estimatedQuotePrice (side : OrderSide) (quote : QuoteTick) : Option Decimal :=
  if side = .buy ∧ 0 < quote.askPrice then some quote.askPrice
  else if side = .sell ∧ 0 < quote.bidPrice then some quote.bidPrice
  else none

def estimatedTickerPrice (side : OrderSide) (ticker : Ticker) : Option Decimal :=
  if side = .buy ∧ 0 < ticker.ask then some ticker.ask
  else if side = .sell ∧ 0 < ticker.bid then some ticker.bid
  else if 0 < ticker.last then some ticker.last
  else none

def estimatedBookPrice (side : OrderSide) (book : OrderBook) : Option Decimal :=
  match side with
  | .buy => book.asks.head?.map (·.price)
  | .sell => book.bids.head?.map (·.price)
  | _ => none

def lastTradePrice (c : Cache) (id : InstrumentID) : Option Decimal :=
  (c.trades.get id).bind fun trade => if 0 < trade.price then some trade.price else none

def lastBarPrice (c : Cache) (id : InstrumentID) : Option Decimal :=
  (c.latestBars.get id).bind fun bar => if 0 < bar.close then some bar.close else none

/-- The price that the market data give an order. -/
def marketPrice (c : Cache) (side : OrderSide) (id : InstrumentID) : Decimal :=
  ((c.quotes.get id).bind (estimatedQuotePrice side) <|>
    (c.tickers.get id).bind (estimatedTickerPrice side) <|>
    (c.orderBooks.get id).bind (estimatedBookPrice side) <|>
    lastTradePrice c id <|> lastBarPrice c id).getD 0

/-- The price of the order itself comes first, whatever the type of the order. -/
def estimatedPrice (c : Cache) (order : SubmitOrder) : Decimal :=
  if 0 < order.price then order.price else marketPrice c order.side order.instrumentID

def markQuotePrice (side : PositionSide) (quote : QuoteTick) : Option Decimal :=
  if side = .long ∧ 0 < quote.bidPrice then some quote.bidPrice
  else if side = .short ∧ 0 < quote.askPrice then some quote.askPrice
  else none

def markBookPrice (side : PositionSide) (book : OrderBook) : Option Decimal :=
  match side with
  | .long => book.bids.head?.map (·.price)
  | .short => book.asks.head?.map (·.price)
  | _ => none

def markPriceForSide (c : Cache) (id : InstrumentID) (side : PositionSide) : Decimal :=
  ((c.quotes.get id).bind (markQuotePrice side) <|>
    (c.tickers.get id).bind (fun ticker => if 0 < ticker.last then some ticker.last else none) <|>
    (c.orderBooks.get id).bind (markBookPrice side) <|>
    lastTradePrice c id <|> lastBarPrice c id).getD 0

def positionMark (c : Cache) (position : PositionStatusReport) : Decimal :=
  let mark := markPriceForSide c position.instrumentID position.side
  if 0 < mark then mark else position.entryPrice

def unrealizedPnL (position : PositionStatusReport) (mark : Decimal) : Decimal :=
  if ¬ 0 < mark ∨ position.side = .flat ∨ position.quantity = 0 then 0
  else if position.side = .short then (position.entryPrice - mark) * position.quantity
  else (mark - position.entryPrice) * position.quantity

/-- The price at which an instrument that is not ordered is valued: its mark, the
entry price of its position, or the price of an open order. -/
def exposurePrice (c : Cache) (accountID : AccountID) (instrumentID : InstrumentID)
    (signed : Decimal) : Decimal :=
  let mark := markPriceForSide c instrumentID (if signed < 0 then .short else .long)
  let entry := ((c.positionByInstrument accountID instrumentID).map (·.entryPrice)).getD 0
  if 0 < mark then mark
  else if 0 < entry then entry
  else
    (((c.openOrders accountID).find? fun order =>
      decide (order.instrumentID = instrumentID ∧ 0 < order.price)).map (·.price)).getD 0

/-! ### Exposure of an account -/

def marginCurrency (inst : Instrument) : Currency :=
  if inst.settle ≠ "" then inst.settle else inst.quote

def accountExposureCurrency (c : Cache) (cfg : Config) (accountID : AccountID) : Currency :=
  if cfg.exposureCurrency ≠ "" then cfg.exposureCurrency
  else ((c.account accountID).map (·.baseCurrency)).getD ""

section

variable [DecimalPackage]

def exchangeRate (c : Cache) (instruments : List Instrument) (source target : Currency) :
    Option Decimal :=
  instruments.findSome? (c.instrumentRate source target)

def convertAmount (c : Cache) (instruments : List Instrument) (amount : Decimal)
    (source target : Currency) : Option Decimal :=
  if source = "" ∨ target = "" then none
  else if source = target then some amount
  else (exchangeRate c instruments source target).map (amount * ·)

/-- What one instrument adds to the exposure, or nothing if its value cannot be
converted. -/
def exposureOf (c : Cache) (instruments : List Instrument) (order : SubmitOrder)
    (orderPrice : Decimal) (target : Currency) (inst : Instrument) : Option Decimal :=
  let signed := signedPositionWithOpenOrders c order.accountID inst.id
  let projected :=
    if inst.id = order.instrumentID then applySignedOrder signed order.side order.quantity
    else signed
  if projected = 0 then some 0
  else
    let price :=
      if inst.id ≠ order.instrumentID then exposurePrice c order.accountID inst.id projected
      else orderPrice
    if ¬ 0 < price then some 0
    else if target = "" then some (|projected| * price)
    else convertAmount c instruments (|projected| * price) (marginCurrency inst) target

def projectedAccountExposure (c : Cache) (cfg : Config) (v : Visits) (order : SubmitOrder)
    (orderPrice : Decimal) : Option Decimal :=
  v.exposure.foldlM (fun total inst =>
    (exposureOf c (v.rates inst) order orderPrice
      (accountExposureCurrency c cfg order.accountID) inst).map (total + ·)) 0

/-! ### Margin -/

/-- The profit of a position counts as equity in its margin currency. -/
def equityOf (c : Cache) (accountID : AccountID) (currency : Currency) (inst : Instrument) :
    Decimal :=
  if marginCurrency inst ≠ currency then 0
  else
    match c.positionByInstrument accountID inst.id with
    | none => 0
    | some position =>
      if position.side = .flat ∨ position.quantity = 0 then 0
      else unrealizedPnL position (positionMark c position)

/-- An amount that cannot be read, or no balance at all, leaves nothing to go by. -/
def availableMargin (c : Cache) (instruments : List Instrument) (account : AccountSnapshot)
    (currency : Currency) : Option Decimal := do
  let balances ← (account.balances.filter (·.currency = currency)).mapM fun balance =>
    balance.amounts.toOption
  let margins ← (account.margins.filter (·.currency = currency)).mapM fun margin =>
    margin.amounts.toOption
  if balances = [] then none
  else
    let equity := (balances.map (·.total)).sum +
      (instruments.map (equityOf c account.accountID currency)).sum
    let available :=
      equity - (balances.map (·.locked)).sum - (margins.map Prod.fst).sum
    some (if available < 0 then 0 else available)

def incrementalInitialMargin (c : Cache) (order : SubmitOrder) (price marginRate : Decimal) :
    Decimal :=
  let current := signedPositionWithOpenOrders c order.accountID order.instrumentID
  let incremental := |projectedSignedPosition c order| * price - |current| * price
  if incremental < 0 then 0 else incremental * marginRate

/-- The positions that open orders start from, by instrument. -/
def marginPositions (c : Cache) (instruments : List Instrument) (accountID : AccountID)
    (currency : Currency) : OrdMap InstrumentID Decimal :=
  instruments.foldl (fun signed inst =>
    if marginCurrency inst ≠ currency ∨ ¬ 0 < inst.marginInit then signed
    else
      match c.positionByInstrument accountID inst.id with
      | none => signed
      | some position => signed.put inst.id (signedPosition position)) ∅

/-- Reserve the margin of one open order, and move the position by it. -/
def reserveOrder (c : Cache) (accountID : AccountID) (currency : Currency)
    (state : Decimal × OrdMap InstrumentID Decimal) (order : OrderStatusReport) :
    Decimal × OrdMap InstrumentID Decimal :=
  if order.reduceOnly then state
  else
    match c.instrument order.instrumentID with
    | none => state
    | some inst =>
      if marginCurrency inst ≠ currency ∨ ¬ 0 < inst.marginInit then state
      else if ¬ 0 < openOrderLeaves order then state
      else
        let current := (state.2.get order.instrumentID).getD 0
        let price :=
          if 0 < order.price then order.price
          else exposurePrice c accountID order.instrumentID current
        if ¬ 0 < price then state
        else
          let projected := applySignedOrder current order.side (openOrderLeaves order)
          let incremental := |projected| - |current|
          (if 0 < incremental then state.1 + incremental * price * inst.marginInit
            else state.1, state.2.put order.instrumentID projected)

def openOrderInitialMarginReservation (c : Cache) (instruments : List Instrument)
    (accountID : AccountID) (currency : Currency) : Decimal :=
  ((c.openOrders accountID).foldl (reserveOrder c accountID currency)
    (0, marginPositions c instruments accountID currency)).1

def checkAvailableInitialMargin (c : Cache) (v : Visits) (order : SubmitOrder)
    (inst : Instrument) (price : Decimal) : Except Err Unit :=
  if ¬ 0 < inst.marginInit then .ok ()
  else if increasesProjectedExposure c order = false then .ok ()
  else if ¬ 0 < price then .error (riskRejected "cannot estimate initial margin")
  else
    match c.account order.accountID with
    | none => .ok ()
    | some account =>
      if account.type ≠ .unset ∧ account.type ≠ .margin then .ok ()
      else if marginCurrency inst = "" then .ok ()
      else
        match availableMargin c v.equity account (marginCurrency inst) with
        | none => .error (riskRejected ("missing margin balance for " ++ marginCurrency inst))
        | some available =>
          let reserved := openOrderInitialMarginReservation c v.reservation order.accountID
            (marginCurrency inst)
          reject (max (available - reserved) 0 <
              incrementalInitialMargin c order price inst.marginInit)
            (riskRejected "available initial margin exceeded")

/-! ### The check -/

def requiresLimitPrice (type : Model.OrderType) : Bool := type.isLimitStyle

/-- Check an amount against a limit, if there is one. -/
def checkLimit (limit price : Decimal) (amount : Option Decimal)
    (unknown source exceeded : String) : Except Err Unit :=
  checkIf (0 < limit) do
    reject (¬ 0 < price) (riskRejected unknown)
    match amount with
    | none => .error (riskRejected unknown)
    | some amount => reject (limit < amount) (limitExceededError source exceeded)

def checkTradingState (e : Engine) (order : SubmitOrder) : Except Err Unit :=
  match normalizedTradingState e.cfg.tradingState with
  | .active => .ok ()
  | .halted => .error (stateRejectedError "trading state halted" e.stateNote)
  | .reducing =>
    reject (increasesCurrentExposure e.cache order)
      (stateRejectedError "reducing state rejects exposure increase" e.stateNote)
  | .unset => .error ⟨.riskRejected, "invalid trading state", [""]⟩
  | .other name => .error ⟨.riskRejected, "invalid trading state", [name]⟩

/-- The prices and the size of an order are what its instrument allows. -/
def checkTicks (inst : Instrument) (order : SubmitOrder) : Except Err Unit := do
  inst.validateSize order.quantity
  checkIf (requiresLimitPrice order.type) (inst.validatePrice order.price)
  checkIf (0 < order.triggerPrice) (inst.validatePrice order.triggerPrice)
  checkIf (0 < order.activationPrice) (inst.validatePrice order.activationPrice)

def checkLimits (e : Engine) (v : Visits) (order : SubmitOrder) (price : Decimal) :
    Except Err Unit := do
  let limits := resolveLimits order e.cfg
  checkLimit limits.maxOrderNotional price (some (price * order.quantity))
    "cannot estimate order notional" limits.orderSource "max order notional exceeded"
  checkLimit limits.maxPositionNotional price
    (some (projectedPositionNotional e.cache order price))
    "cannot estimate position notional" limits.positionSource "max position notional exceeded"
  checkLimit limits.maxAccountExposure price
    (projectedAccountExposure e.cache e.cfg v order price)
    "cannot estimate account exposure" limits.exposureSource "max account exposure exceeded"

/-- What is checked against the instrument of the order. -/
def checkInstrument (e : Engine) (v : Visits) (order : SubmitOrder) (inst : Instrument) :
    Except Err Unit := do
  reject (inst.status ≠ .trading) (riskRejected "instrument is not trading")
  checkTradingState e order
  checkTicks inst order
  checkLimits e v order (estimatedPrice e.cache order)
  checkAvailableInitialMargin e.cache v order inst (estimatedPrice e.cache order)
  reject (order.reduceOnly ∧ increasesCurrentExposure e.cache order)
    (riskRejected "reduce-only would increase exposure")

/-- Everything after the rate of commands. -/
def checkOrder (e : Engine) (v : Visits) (order : SubmitOrder)
    (rejectDuplicateClientID existingOrder : Bool) : Except Err Unit := do
  reject (rejectDuplicateClientID ∧ order.clientOrderID ≠ "" ∧
      (e.cache.orderByClientID order.accountID order.clientOrderID).isSome)
    (riskRejected ("duplicate client order ID " ++ order.clientOrderID))
  reject (existingOrder = false ∧ 0 < e.cfg.maxOpenOrders ∧
      e.cfg.maxOpenOrders ≤ (e.cache.openOrders order.accountID).length)
    (riskRejected "max open orders exceeded")
  match e.cache.instrument order.instrumentID with
  | none => .error ⟨.instrumentNotFound, "", [order.instrumentID.string]⟩
  | some inst => checkInstrument e v order inst

/-- Commands of the last window are counted, and this one is added to them. -/
def checkCommandRate (now : Time) (e : Engine) : Except Err Unit × Engine :=
  if e.cfg.maxCommandsPerWindow ≤ 0 then (.ok (), e)
  else
    let window := if e.cfg.commandRateWindow ≤ 0 then 1000000000 else e.cfg.commandRateWindow
    let kept := e.cmdWindow.filter fun ts => decide (now - window < ts)
    if e.cfg.maxCommandsPerWindow ≤ kept.length then
      (.error (riskRejected "command rate limit exceeded"), { e with cmdWindow := kept })
    else (.ok (), { e with cmdWindow := kept ++ [now] })

def checkWith (v : Visits) (now : Time) (order : SubmitOrder)
    (rejectDuplicateClientID existingOrder : Bool) : Prog Engine Err Unit := do
  Prog.lift order.validate
  (⟨checkCommandRate now⟩ : Prog Engine Err Unit)
  let e ← Prog.get
  Prog.lift (checkOrder e v order rejectDuplicateClientID existingOrder)

/-- `Check`. -/
def check (v : Visits) (now : Time) (order : SubmitOrder) : Prog Engine Err Unit :=
  checkWith v now order true false

/-- `CheckExistingOrder`. -/
def checkExistingOrder (v : Visits) (now : Time) (order : SubmitOrder) : Prog Engine Err Unit :=
  checkWith v now order false true

/-! ### What a check reads and what it leaves -/

/-- The engine with another window of commands. -/
theorem checkCommandRate_eq (now : Time) (e : Engine) :
    ∃ window, (checkCommandRate now e).2 = { e with cmdWindow := window } := by
  unfold checkCommandRate
  dsimp only
  split
  · exact ⟨e.cmdWindow, rfl⟩
  · generalize (if e.cfg.commandRateWindow ≤ 0 then (1000000000 : ℤ)
      else e.cfg.commandRateWindow) = width
    split <;> exact ⟨_, rfl⟩

/-- An order is refused as it stands, or for the rate of commands, or for what is
checked against the cache. -/
theorem run_checkWith (v : Visits) (now : Time) (order : SubmitOrder) (duplicate existing : Bool)
    (e : Engine) : (checkWith v now order duplicate existing).run e =
      match order.validate, checkCommandRate now e with
      | .error err, _ => (.error err, e)
      | .ok (), (.error err, e') => (.error err, e')
      | .ok (), (.ok (), e') => (checkOrder e v order duplicate existing, e') := by
  rw [checkWith, Prog.run_bind, Prog.run_lift]
  cases order.validate with
  | error err => rfl
  | ok u =>
    dsimp only
    have hrun : (⟨checkCommandRate now⟩ : Prog Engine Err Unit).run e = checkCommandRate now e :=
      rfl
    obtain ⟨window, hwindow⟩ := checkCommandRate_eq now e
    rw [Prog.run_bind, hrun]
    match checkCommandRate now e, hwindow with
    | (.error err, e'), _ => rfl
    | (.ok u, e'), hwindow =>
      obtain rfl : e' = { e with cmdWindow := window } := hwindow
      rfl

theorem run_check (v : Visits) (now : Time) (order : SubmitOrder) (e : Engine) :
    (check v now order).run e =
      match order.validate, checkCommandRate now e with
      | .error err, _ => (.error err, e)
      | .ok (), (.error err, e') => (.error err, e')
      | .ok (), (.ok (), e') => (checkOrder e v order true false, e') :=
  run_checkWith v now order true false e

/-- The answer of a check. -/
theorem answer_checkWith (v : Visits) (now : Time) (order : SubmitOrder)
    (duplicate existing : Bool) (e : Engine) :
    ((checkWith v now order duplicate existing).run e).1 = (do
      order.validate
      (checkCommandRate now e).1
      checkOrder e v order duplicate existing) := by
  rw [run_checkWith]
  cases order.validate with
  | error err => rfl
  | ok u =>
    match checkCommandRate now e with
    | (.error err, e') => rfl
    | (.ok u, e') => rfl

/-- An order that is accepted is valid and passes what is checked against the
cache; the engine has another window of commands. -/
theorem check_ok {v : Visits} {now : Time} {order : SubmitOrder} {e e' : Engine}
    (h : (check v now order).run e = (.ok (), e')) :
    order.validate = .ok () ∧ checkOrder e v order true false = .ok () ∧
      ∃ window, e' = { e with cmdWindow := window } := by
  rw [run_check] at h
  obtain ⟨window, hwindow⟩ := checkCommandRate_eq now e
  cases hvalid : order.validate with
  | error err =>
    rw [hvalid] at h
    cases h
  | ok u =>
    match hrate : checkCommandRate now e with
    | (.error err, e₁) =>
      rw [hvalid, hrate] at h
      cases h
    | (.ok u, e₁) =>
      rw [hrate] at hwindow
      rw [hvalid, hrate] at h
      obtain ⟨horder, rfl⟩ := Prod.mk.inj h
      exact ⟨rfl, horder, window, hwindow⟩

end

end Exchanges.Risk
