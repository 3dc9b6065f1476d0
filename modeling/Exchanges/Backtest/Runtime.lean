import Exchanges.Account.Reconciler
import Exchanges.Backtest.Matching
import Exchanges.Execution.Manager
import Exchanges.Portfolio.Basic

/-!
The backtest runtime: accepting, matching, canceling, modifying and expiring
orders.

The runtime tells the strategies about every execution event before it goes on,
and a strategy may answer with commands that run right there, in the middle of
the operation that caused the event. An operation that has filled an order may
also match other orders, those of the same order list. Both ways back into the
runtime go through `Nested`, the operations available to what runs inside an
operation, so that every definition below is a plain function of the level
beneath it; `nestedAt` in the next module ties the levels together.

The state keeps a `trace` that the source does not have. It lists what the
results about runs speak of: callbacks, clock changes, market events, order
reports, fills. Nothing reads it.

Left out are what no result and no other part of the runtime reads: the market
data and the marks that go into the cache and the portfolio, requests for data,
subscriptions, the order factory and the logger.
-/

namespace Exchanges.Backtest

open Exchanges.Lib Exchanges.Model

/-! ### State -/

inductive Topic where
  | execution
  | marketData
  | timer
  | error
  | other (name : String)
  deriving DecidableEq, Repr, Inhabited

/-- What an envelope carries. -/
inductive Message where
  | market (event : MarketEvent)
  | execution (event : ExecutionEvent)
  | timer (name : String) (timestamp : Time)
  | other (text : String)

structure Envelope where
  topic : Topic
  message : Message
  timestamp : Time

structure TimerState where
  name : String
  interval : ℤ
  next : Time
  deriving DecidableEq, Repr, Inhabited

/-- A fill with the match it comes from: the version of the order that was
matched, the price before slippage, the quantity that counted as consumed at
that price, and the fills that the same match list has led to before, each with
its price before slippage. The source keeps the fill only. -/
structure Matched where
  order : OrderStatusReport
  source : FillSource
  price : Decimal
  consumed : Decimal
  earlier : List (Decimal × FillReport)
  fill : FillReport
  deriving DecidableEq, Repr

/-- What the clock is set for. -/
inductive Tick where
  | start
  | timer
  | expiry
  | event
  deriving DecidableEq, Repr

inductive Entry where
  /-- Market data was recorded. -/
  | market (time : Time) (event : MarketEvent)
  /-- The clock was set, with the cache at that time. -/
  | clock (tick : Tick) (previous next : Time) (cache : Cache)
  /-- A strategy was called. -/
  | callback (time : Time) (cache : Cache)
  /-- A strategy issued a command, called with an execution event or not. -/
  | commanded (execution : Bool)
  /-- The orders of a list were indexed. -/
  | listed (list : OrderList)
  /-- An order report was applied or refused. -/
  | reported (time : Time) (before : Cache) (report : OrderStatusReport)
      (result : Except Err Unit)
  /-- An order was accepted, and may be matched from a certain time on. -/
  | accepted (time : Time) (report : OrderStatusReport) (eligible : Option Time)
  /-- An order that does not have the status of a triggered one was tested
  against its trigger. -/
  | tested (order : OrderStatusReport) (cache : Cache)
  /-- A fill was applied to the cache. -/
  | filled (time : Time) (before : Cache) (market : Market) (matched : Matched)
  /-- The position after a fill was applied. -/
  | positioned (before after : Cache) (matched : Matched)

structure Runtime where
  cache : Cache := Cache.new
  pf : Portfolio := Portfolio.new Cache.new
  market : Market := {}
  /-- The quantity consumed at each price of each instrument. The source has the
  printed price for a key, and equal prices print alike. -/
  consumed : InstrumentID → Decimal → Decimal := fun _ _ => 0
  trailing : OrdMap String Decimal := ∅
  trailingTriggers : OrdMap String Decimal := ∅
  accounts : OrdMap AccountID Unit := ∅
  heldChildren : OrdMap (AccountID × ClientOrderID) (List SubmitOrder) := ∅
  orderListMembers : OrdMap (AccountID × OrderListID) (List ClientOrderID) := ∅
  eligibleAt : OrdMap (AccountID × OrderID) Time := ∅
  currentTime : Time := 0
  timers : OrdMap String TimerState := ∅
  nextOrder : Nat := 0
  nextTrade : Nat := 0
  /-- The random numbers drawn so far. -/
  drawn : Nat := 0
  /-- The passes over the map of accounts so far. -/
  passes : Nat := 0
  /-- What each strategy remembers. -/
  memory : OrdMap StrategyID String := ∅
  trace : List Entry := []

structure Config where
  fillModel : FillModel := defaultFillModel
  orderLatency : ℤ := 0

/-- What is available to code that runs inside an operation. -/
structure Nested where
  process : Envelope → Prog Runtime Err Unit
  matchOrder : OrderStatusReport → Prog Runtime Err Unit

/-- Run a program of the cache. -/
def onCache {α : Type} (q : Prog Cache Err α) : Prog Runtime Err α :=
  q.zoom (·.cache) fun c r => { r with cache := c }

def onPortfolio {α : Type} (q : Prog Portfolio Err α) : Prog Runtime Err α :=
  q.zoom (·.pf) fun p r => { r with pf := p }

def record (entry : Entry) : Prog Runtime Err Unit :=
  Prog.modify fun r => { r with trace := r.trace ++ [entry] }

/-! ### Clock and timers -/

def setTime (tick : Tick) (t : Time) : Prog Runtime Err Unit :=
  Prog.modify fun r => { r with
    currentTime := t
    trace := r.trace ++ [.clock tick r.currentTime t r.cache] }

def validateTimer (name : String) (interval : ℤ) : Except Err Unit := do
  reject (name = "") ⟨.invalidTimer, "name is required", []⟩
  reject (interval ≤ 0) ⟨.invalidTimer, "interval must be positive", []⟩

def setTimer (name : String) (interval : ℤ) : Prog Runtime Err Unit := do
  Prog.lift (validateTimer name interval)
  Prog.modify fun r => { r with
    timers := r.timers.put name ⟨name, interval, r.currentTime + interval⟩ }

def cancelTimer (name : String) : Prog Runtime Err Unit :=
  Prog.modify fun r => { r with timers := r.timers.delete name }

/-- The earlier of two timers that are due, and of two at one time the one with
the smaller name. -/
def earlierTimer (deadline : Time) (next : Option TimerState) (timer : TimerState) :
    Option TimerState :=
  if deadline < timer.next then next
  else match next with
    | none => some timer
    | some current =>
      if timer.next < current.next ∨ timer.next = current.next ∧ timer.name < current.name then
        some timer
      else next

def nextDueTimer (r : Runtime) (deadline : Time) : Option TimerState :=
  (r.timers.entries.map (·.2)).foldl (earlierTimer deadline) none

/-- A timer that its callback has left alone moves on by its interval. -/
def advanceTimer (timer : TimerState) (r : Runtime) : Runtime :=
  match r.timers.get timer.name with
  | some current =>
    if current.next = timer.next then
      let moved := { current with next := current.next + current.interval }
      { r with timers := r.timers.put timer.name moved }
    else r
  | none => r

/-- The error of a run that is nested deeper, or has more timers to call, than
it was given room for. -/
def outOfRoom : Err := ⟨.plain, "out of room", []⟩

/-- `DispatchTimersDue`, for a number of timers. -/
def dispatchTimersDue (nested : Nested) : Nat → Time → Prog Runtime Err Unit
  | 0, _ => Prog.fail outOfRoom
  | n + 1, deadline => do
    let r ← Prog.get
    match nextDueTimer r deadline with
    | none => pure ()
    | some timer => do
      setTime .timer timer.next
      nested.process ⟨.timer, .timer timer.name timer.next, timer.next⟩
      Prog.modify (advanceTimer timer)
      dispatchTimersDue nested n deadline

/-! ### Market data -/

/-- Forget what was consumed of an instrument. -/
def resetConsumed (id : InstrumentID) (r : Runtime) : Runtime :=
  { r with consumed := fun id' => if id' = id then fun _ => 0 else r.consumed id' }

/-- Remember a piece of market data, if there is one, with an empty ledger of
consumed quantities for its instrument. -/
def remember {α : Type} (data : Option α) (id : α → InstrumentID)
    (put : α → Market → Market) (r : Runtime) : Runtime :=
  match data with
  | none => r
  | some a => resetConsumed (id a) { r with market := put a r.market }

def rememberEvent (event : MarketEvent) (r : Runtime) : Runtime :=
  let r := remember event.ticker (·.instrumentID)
    (fun t m => { m with lastTicker := m.lastTicker.put t.instrumentID t }) r
  let r := remember event.orderBook (·.instrumentID)
    (fun b m => { m with lastBooks := m.lastBooks.put b.instrumentID b }) r
  let r := remember event.trade (·.instrumentID)
    (fun t m => { m with lastTrades := m.lastTrades.put t.instrumentID t }) r
  let r := remember event.quote (·.instrumentID)
    (fun q m => { m with lastQuotes := m.lastQuotes.put q.instrumentID q }) r
  remember event.bar (fun b => b.barType.canonical.instrumentID)
    (fun b m => { m with lastBars := m.lastBars.put b.barType.canonical.instrumentID b }) r

/-- `RecordMarket`. -/
def recordMarket (message : Message) : Prog Runtime Err Unit :=
  match message with
  | .market event => do
    let r ← Prog.get
    Prog.modify (rememberEvent event)
    record (.market r.currentTime event)
  | _ => pure ()

/-- `recordConsumption`. -/
def recordConsumption (id : InstrumentID) (price quantity : Decimal) : Prog Runtime Err Unit :=
  Prog.modify fun r => { r with
    consumed := fun id' price' =>
      if id' = id ∧ price' = price then r.consumed id price + quantity
      else r.consumed id' price' }

section Runtime

variable [DecimalPackage]

/-! ### Execution events -/

/-- `Reconciler.Apply` on the cache of the runtime. -/
def reconcile (event : ExecutionEvent) : Prog Runtime Err Unit := do
  let r ← Prog.get
  let result ← (onCache (Account.apply event)).attempt
  match event.order with
  | some report => do
    record (.reported r.currentTime r.cache report result)
    Prog.lift result
  | none => Prog.lift result

def dispatchExecution (nested : Nested) (event : ExecutionEvent) : Prog Runtime Err Unit := do
  let r ← Prog.get
  nested.process ⟨.execution, .execution event, r.currentTime⟩

def derivePositionLifecycle (c : Cache) (event : ExecutionEvent) :
    Option PositionLifecycleEvent :=
  match event.position with
  | none => none
  | some position =>
    newPositionLifecycleEvent (c.position position.accountID position.positionID) position

/-- `runtime.apply`. -/
def apply (nested : Nested) (event : ExecutionEvent) : Prog Runtime Err Unit := do
  let r ← Prog.get
  let lifecycle := derivePositionLifecycle r.cache event
  reconcile event
  dispatchExecution nested event
  match lifecycle with
  | none => pure ()
  | some lifecycle => dispatchExecution nested { positionLifecycle := some lifecycle }

def applyLifecycle (nested : Nested) (event : OrderLifecycleEvent) : Prog Runtime Err Unit :=
  apply nested { lifecycle := some event }

/-- Apply a report and then the lifecycle event that goes with it. -/
def applyReport (nested : Nested) (report : OrderStatusReport) (kind : OrderEventKind)
    (previous : OrderStatus) : Prog Runtime Err Unit := do
  apply nested (.ofOrder report)
  applyLifecycle nested (orderLifecycleFromReport report kind previous "")

/-! ### The execution engine

The engine of a backtest has no emulator and no algorithms, and its clients are
the runtime itself. -/

/-- `Manager.ApplyOrderReport` on the cache of the runtime. -/
def storeReport (report : OrderStatusReport) : Prog Runtime Err Unit := do
  let r ← Prog.get
  let result ← (onCache (Execution.applyOrderReport {} report)).attempt
  record (.reported r.currentTime r.cache report result)
  Prog.lift result

def ensureExecutionClient (accountID : AccountID) : Prog Runtime Err Unit :=
  Prog.lift (reject (accountID = "") (invalidOrder "execution account id is required"))

/-- The report with which the client accepts an order. -/
def acceptance (r : Runtime) (order : SubmitOrder) : OrderStatusReport where
  metadata := order.metadata
  accountID := order.accountID
  instrumentID := order.instrumentID
  triggerInstrumentID := order.triggerInstrumentID
  orderListID := order.orderListID
  orderID := "bt-order-" ++ toString r.nextOrder
  parentClientOrderID := order.parentClientOrderID
  clientOrderID := order.clientOrderID
  status := .accepted
  side := order.side
  type := order.type
  contingency := order.contingency
  quantity := order.quantity
  leavesQuantity := order.quantity
  price := order.price
  triggerPrice := order.triggerPrice
  activationPrice := order.activationPrice
  trailingOffset := order.trailingOffset
  trailingOffsetType := order.trailingOffsetType
  postOnly := order.postOnly
  reduceOnly := order.reduceOnly
  timeInForce := order.timeInForce
  expireTime := order.expireTime
  lastUpdatedTime := r.currentTime

/-- `SubmitOrder` of the engine and of its client. -/
def engineSubmitOrder (order : SubmitOrder) : Prog Runtime Err OrderStatusReport := do
  Prog.lift (reject order.emulationTrigger.isActive
    ⟨.notSupported, "execution emulator is not configured", []⟩)
  Prog.lift (reject (order.metadata.execAlgorithmID ≠ "")
    ⟨.algorithmNotFound, "", [order.metadata.execAlgorithmID]⟩)
  Prog.lift order.validate
  Prog.modify fun r => { r with nextOrder := r.nextOrder + 1 }
  let r ← Prog.get
  storeReport (acceptance r order)
  pure (acceptance r order)

/-- The order that a command names by its order id or else its client id. -/
def findCanceled (c : Cache) (cancel : CancelOrder) : Option OrderStatusReport :=
  match c.order cancel.accountID cancel.orderID with
  | some order => some order
  | none =>
    if cancel.clientOrderID ≠ "" then c.orderByClientID cancel.accountID cancel.clientOrderID
    else none

def findOrder (c : Cache) (modify : ModifyOrder) : Option OrderStatusReport :=
  c.findByIDs modify.accountID modify.orderID modify.clientOrderID modify.venueOrderID

def findQueriedOrder (c : Cache) (query : QueryOrder) : Option OrderStatusReport :=
  c.findByIDs query.accountID query.orderID query.clientOrderID query.venueOrderID

/-- `CancelOrder` of the engine and of its client. -/
def engineCancelOrder (cancel : CancelOrder) : Prog Runtime Err OrderStatusReport := do
  Prog.lift cancel.validate
  let r ← Prog.get
  match findCanceled r.cache cancel with
  | none => Prog.fail (invalidOrder "order not found")
  | some order =>
    if order.status.isOpen = false then Prog.fail (invalidOrder "order is not cancelable")
    else do
      let cancel := fillCancelIdentity cancel order
      let report := { order with
        status := .canceled
        metadata := cancel.metadata.withDefaults order.metadata
        leavesQuantity := 0
        lastUpdatedTime := r.currentTime }
      storeReport report
      pure report

/-- `ModifyOrder` of the engine and of its client. -/
def engineModifyOrder (modify : ModifyOrder) : Prog Runtime Err OrderStatusReport := do
  Prog.lift modify.validate
  let r ← Prog.get
  match findOrder r.cache modify with
  | none => Prog.fail (invalidOrder "order not found")
  | some existing => do
    let modify := fillModifyIdentity modify existing
    let updated ← Prog.lift (applyOrderModification existing modify)
    let report := { updated with
      metadata := modify.metadata.withDefaults updated.metadata
      lastUpdatedTime := r.currentTime }
    storeReport report
    pure report

/-- `QueryOrder` of the engine and of its client. A query by the venue's id
alone is answered from the cache. -/
def engineQueryOrder (query : QueryOrder) : Prog Runtime Err OrderStatusReport := do
  Prog.lift query.validate
  let r ← Prog.get
  match findQueriedOrder r.cache query with
  | none => Prog.fail (invalidOrder "order not found")
  | some order =>
    if query.venueOrderID ≠ "" ∧ query.orderID = "" ∧ query.clientOrderID = "" then pure order
    else do
      let report := { order with metadata := query.metadata.withDefaults order.metadata }
      storeReport report
      pure report

/-! ### Accepting orders -/

variable (cfg : Config) (nested : Nested)

/-- `registerOrderLatency`: when an order accepted now may first be matched, if
that is not at once. -/
def eligibleTime (r : Runtime) : Option Time :=
  if cfg.orderLatency ≤ 0 then none else some (r.currentTime + cfg.orderLatency)

/-- Register the latency of an accepted order, and its account. -/
def register (report : OrderStatusReport) (r : Runtime) : Runtime :=
  { r with
    eligibleAt := match eligibleTime cfg r with
      | none => r.eligibleAt
      | some time => r.eligibleAt.put (report.accountID, report.orderID) time
    accounts := r.accounts.put report.accountID ()
    trace := r.trace ++ [.accepted r.currentTime report (eligibleTime cfg r)] }

def acceptOrder (order : SubmitOrder) : Prog Runtime Err OrderStatusReport := do
  Prog.lift order.validate
  applyLifecycle nested (orderSubmittedLifecycle order)
  ensureExecutionClient order.accountID
  let report ← engineSubmitOrder order
  applyReport nested report .accepted .submitted
  Prog.modify (register cfg report)
  pure report

def orderEligible (r : Runtime) (order : OrderStatusReport) : Bool :=
  match r.eligibleAt.get (order.accountID, order.orderID) with
  | none => true
  | some time => decide (time ≤ r.currentTime)

/-! ### Canceling orders -/

/-- `dispatchOrderCancelRejected`, whose own failure is ignored, and the failure
that it tells about. -/
def rejectCancel {α : Type} (cancel : CancelOrder) (previous : OrderStatus)
    (report : Option OrderStatusReport) (cause : Err) : Prog Runtime Err α := do
  let event : ExecutionEvent := { lifecycle := some {
    metadata := cancel.metadata
    accountID := cancel.accountID
    instrumentID := cancel.instrumentID
    orderID := cancel.orderID
    clientOrderID := cancel.clientOrderID
    kind := .cancelRejected
    previousStatus := previous
    status := .accepted
    report := report
    reason := cause.detail } }
  if event.validate = .ok () then do
    let _ ← (apply nested event).attempt
    Prog.fail cause
  else Prog.fail cause

/-- The part of `CancelOrder` after the order is known to be cancelable. -/
def cancelKnown (cancel : CancelOrder) (order : OrderStatusReport) :
    Prog Runtime Err OrderStatusReport := do
  let r ← Prog.get
  let cancel := fillCancelIdentity cancel order
  let pending := { order with
    metadata := cancel.metadata.withDefaults order.metadata
    status := .pendingCancel
    lastUpdatedTime := r.currentTime }
  applyReport nested pending .pendingCancel order.status
  ensureExecutionClient cancel.accountID
  let canceled ← (engineCancelOrder cancel).attempt
  match canceled with
  | .error err => rejectCancel nested cancel .pendingCancel (some pending) err
  | .ok canceled => do
    applyReport nested canceled .canceled .pendingCancel
    pure canceled

def cancelOrder (cancel : CancelOrder) : Prog Runtime Err OrderStatusReport := do
  let r ← Prog.get
  match cancel.validate, findCanceled r.cache cancel with
  | .error err, _ => rejectCancel nested cancel .accepted none err
  | .ok (), none =>
    rejectCancel nested cancel .accepted none (invalidOrder "order not found")
  | .ok (), some order =>
    if order.status.isOpen = false ∨ order.status = .pendingCancel then
      rejectCancel nested (fillCancelIdentity cancel order) .accepted (some order)
        (invalidOrder "order is not cancelable")
    else cancelKnown nested cancel order

/-- `fillBacktestBatchCancelIdentity`. -/
def fillBatchCancelIdentity (cancel : CancelOrder) (accountID : AccountID)
    (instrumentID : InstrumentID) : CancelOrder :=
  { cancel with
    accountID := orDefault cancel.accountID accountID
    instrumentID := if cancel.instrumentID = {} then instrumentID else cancel.instrumentID }

/-- Cancel each order, whatever becomes of the others; the first failure is the
failure of the whole. -/
def cancelEach : List CancelOrder → Prog Runtime Err (List OrderStatusReport)
  | [] => pure []
  | cancel :: cancels => do
    let first ← (cancelOrder nested cancel).attempt
    let rest ← (cancelEach cancels).attempt
    match first, rest with
    | .error err, _ => Prog.fail err
    | .ok _, .error err => Prog.fail err
    | .ok report, .ok reports => pure (report :: reports)

def batchCancelOrders (batch : BatchCancelOrders) :
    Prog Runtime Err (List OrderStatusReport) := do
  Prog.lift batch.validate
  cancelEach nested (batch.cancels.map fun cancel =>
    fillBatchCancelIdentity
      { cancel with metadata := cancel.metadata.withDefaults batch.metadata }
      batch.accountID batch.instrumentID)

def cancelAllOrders (cancelAll : CancelAllOrders) :
    Prog Runtime Err (List OrderStatusReport) := do
  Prog.lift cancelAll.validate
  let r ← Prog.get
  let orders := (r.cache.openOrders cancelAll.accountID).filter cancelAll.matchesOrder
  if orders = [] then pure []
  else batchCancelOrders nested {
    metadata := cancelAll.metadata
    accountID := cancelAll.accountID
    instrumentID := cancelAll.instrumentID
    cancels := orders.map fun order => {
      metadata := cancelAll.metadata
      accountID := order.accountID
      instrumentID := order.instrumentID
      orderID := order.orderID
      clientOrderID := order.clientOrderID } }

/-- `cancelUnfilledRemainder`. -/
def cancelUnfilledRemainder (accountID : AccountID) (orderID : OrderID) :
    Prog Runtime Err Unit := do
  let r ← Prog.get
  match r.cache.order accountID orderID with
  | none => pure ()
  | some order =>
    if order.status.isOpen = false ∨ order.leavesQuantity = 0 then pure ()
    else
      let canceled := { order with
        status := .canceled
        leavesQuantity := 0
        lastUpdatedTime := r.currentTime }
      applyReport nested canceled .canceled order.status

/-! ### Modifying orders -/

/-- `dispatchOrderModifyRejected`, whose own failure is ignored, and the failure
that it tells about. -/
def rejectModify {α : Type} (modify : ModifyOrder) (previous : OrderStatus)
    (report : Option OrderStatusReport) (cause : Err) : Prog Runtime Err α := do
  let event : ExecutionEvent := { lifecycle := some {
    metadata := modify.metadata
    accountID := modify.accountID
    instrumentID := modify.instrumentID
    orderID := modify.orderID
    clientOrderID := modify.clientOrderID
    venueOrderID := modify.venueOrderID
    kind := .modifyRejected
    previousStatus := previous
    status := .accepted
    report := report
    reason := cause.detail } }
  if event.validate = .ok () then do
    let _ ← (apply nested event).attempt
    Prog.fail cause
  else Prog.fail cause

/-- The part of `ModifyOrder` after the modification is known to be possible. -/
def modifyKnown (modify : ModifyOrder) (existing : OrderStatusReport) :
    Prog Runtime Err OrderStatusReport := do
  let r ← Prog.get
  let pending := { existing with
    metadata := modify.metadata.withDefaults existing.metadata
    status := .pendingUpdate
    lastUpdatedTime := r.currentTime }
  applyReport nested pending .pendingUpdate existing.status
  ensureExecutionClient modify.accountID
  let updated ← (engineModifyOrder modify).attempt
  match updated with
  | .error err => rejectModify nested modify .pendingUpdate (some pending) err
  | .ok updated => do
    applyReport nested updated .updated .pendingUpdate
    nested.matchOrder updated
    let r ← Prog.get
    pure ((r.cache.order updated.accountID updated.orderID).getD updated)

def modifyOrder (modify : ModifyOrder) : Prog Runtime Err OrderStatusReport := do
  let r ← Prog.get
  match modify.validate, findOrder r.cache modify with
  | .error err, _ => rejectModify nested modify .accepted none err
  | .ok (), none =>
    rejectModify nested modify .accepted none (invalidOrder "order not found")
  | .ok (), some existing =>
    let modify := fillModifyIdentity modify existing
    match applyOrderModification existing modify with
    | .error err => rejectModify nested modify .accepted (some existing) err
    | .ok _ => modifyKnown nested modify existing

/-! ### Queries -/

def queryOrder (query : QueryOrder) : Prog Runtime Err OrderStatusReport := do
  Prog.lift query.validate
  ensureExecutionClient query.accountID
  let answer ← (engineQueryOrder query).attempt
  let r ← Prog.get
  match answer, findQueriedOrder r.cache query with
  | .ok report, _ =>
    pure { report with metadata := query.metadata.withDefaults report.metadata }
  | .error _, some order =>
    pure { order with metadata := query.metadata.withDefaults order.metadata }
  | .error err, none => Prog.fail err

def queryAccount (query : QueryAccount) : Prog Runtime Err AccountSnapshot := do
  Prog.lift query.validate
  let r ← Prog.get
  match r.cache.account query.accountID with
  | some snapshot => do
    dispatchExecution nested (.ofAccount snapshot)
    pure snapshot
  | none => do
    let snapshot : AccountSnapshot := { accountID := query.accountID, venue := "BACKTEST" }
    apply nested (.ofAccount snapshot)
    pure snapshot

/-! ### Order lists -/

def appendUniqueClientOrderID (ids : List ClientOrderID) (id : ClientOrderID) :
    List ClientOrderID :=
  if id ∈ ids then ids else ids ++ [id]

/-- Index one order of a list. -/
def indexOrder (listID : OrderListID) (r : Runtime) (order : SubmitOrder) : Runtime :=
  let listKey := (order.accountID, listID)
  let members := appendUniqueClientOrderID ((r.orderListMembers.get listKey).getD [])
    order.clientOrderID
  let parentKey := (order.accountID, order.parentClientOrderID)
  { r with
    orderListMembers := r.orderListMembers.put listKey members
    heldChildren :=
      if order.parentClientOrderID = "" then r.heldChildren
      else r.heldChildren.put parentKey ((r.heldChildren.get parentKey).getD [] ++ [order]) }

def indexOrderList (list : OrderList) (r : Runtime) : Runtime :=
  let r := list.orders.foldl (indexOrder list.id) r
  { r with trace := r.trace ++ [.listed list] }

/-- The orders of a list, but for one of them, that are still open. -/
def onOpenSiblings (filled : OrderStatusReport)
    (f : OrderStatusReport → Prog Runtime Err Unit) : Prog Runtime Err Unit := do
  let r ← Prog.get
  let members := (r.orderListMembers.get (filled.accountID, filled.orderListID)).getD []
  Prog.forEach (fun clientOrderID =>
    if clientOrderID = "" ∨ clientOrderID = filled.clientOrderID then pure ()
    else do
      let r ← Prog.get
      match r.cache.orderByClientID filled.accountID clientOrderID with
      | none => pure ()
      | some sibling => if sibling.status.isOpen = false then pure () else f sibling) members

/-- `updateOuoSiblings`: what one order of the list has filled is taken off the
others. -/
def updateOuoSiblings (filled : OrderStatusReport) (fillQuantity : Decimal) :
    Prog Runtime Err Unit :=
  if filled.orderListID = "" ∨ filled.contingency ≠ .ouo ∨ ¬ 0 < fillQuantity then pure ()
  else onOpenSiblings filled fun sibling =>
    let nextQuantity := sibling.quantity - fillQuantity
    if ¬ 0 < nextQuantity ∨ nextQuantity ≤ sibling.filledQuantity then
      cancelUnfilledRemainder nested sibling.accountID sibling.orderID
    else if nextQuantity = sibling.quantity then pure ()
    else do
      let _ ← modifyOrder nested {
        accountID := sibling.accountID
        instrumentID := sibling.instrumentID
        orderID := sibling.orderID
        clientOrderID := sibling.clientOrderID
        quantity := nextQuantity }

/-- `cancelOcoSiblings`. -/
def cancelOcoSiblings (filled : OrderStatusReport) : Prog Runtime Err Unit :=
  if filled.orderListID = "" ∨ filled.contingency ≠ .oco then pure ()
  else onOpenSiblings filled fun sibling => do
    let _ ← cancelOrder nested {
      accountID := sibling.accountID
      instrumentID := sibling.instrumentID
      orderID := sibling.orderID
      clientOrderID := sibling.clientOrderID }

/-- Accept the children of a partly filled order that are not accepted yet, up
to the quantity filled, and enlarge the others. -/
def acceptChildren (parent : OrderStatusReport) :
    List SubmitOrder → Prog Runtime Err (List OrderStatusReport)
  | [] => pure []
  | child :: children => do
    let targetQuantity := min parent.filledQuantity child.quantity
    let r ← Prog.get
    if ¬ 0 < targetQuantity then acceptChildren parent children
    else match r.cache.orderByClientID child.accountID child.clientOrderID with
      | some existing =>
        if existing.status.isOpen ∧ existing.quantity < targetQuantity then do
          let _ ← modifyOrder nested {
            accountID := existing.accountID
            instrumentID := existing.instrumentID
            orderID := existing.orderID
            clientOrderID := existing.clientOrderID
            quantity := targetQuantity }
          acceptChildren parent children
        else acceptChildren parent children
      | none => do
        let report ← acceptOrder cfg nested { child with quantity := targetQuantity }
        let accepted ← acceptChildren parent children
        pure (report :: accepted)

/-- `updateHeldChildren`. -/
def updateHeldChildren (parent : OrderStatusReport) : Prog Runtime Err Unit := do
  let r ← Prog.get
  let key := (parent.accountID, parent.clientOrderID)
  let children := (r.heldChildren.get key).getD []
  if children = [] ∨ ¬ 0 < parent.filledQuantity then pure ()
  else do
    let accepted ← acceptChildren cfg nested parent children
    Prog.modify fun r => if parent.status = .filled then
        { r with heldChildren := r.heldChildren.delete key }
      else r
    Prog.forEach (fun report => do
      let r ← Prog.get
      match r.cache.order report.accountID report.orderID with
      | none => pure ()
      | some current =>
        if current.status.isOpen then nested.matchOrder current else pure ()) accepted

/-! ### Fills -/

/-- The part of `applyFillAndPosition` during which no strategy is called: the
fill and the position that it leads to go into the cache and the portfolio. -/
def bookFill (m : Matched) : Prog Runtime Err Unit := do
  let r ← Prog.get
  let previous := r.cache.positionByInstrument m.fill.accountID m.fill.instrumentID
  let position := nextPosition r.cache m.fill
  onCache (Account.apply (.ofFill m.fill))
  record (.filled r.currentTime r.cache r.market m)
  onCache (Account.apply (.ofPosition position))
  let booked ← Prog.get
  record (.positioned r.cache booked.cache m)
  onPortfolio (Portfolio.applyFillWithPosition m.fill previous position)

/-- Go on with the stored order of a fill, if it is still there. -/
def withOrder (fill : FillReport) (f : OrderStatusReport → Prog Runtime Err Unit) :
    Prog Runtime Err Unit := do
  let r ← Prog.get
  match r.cache.order fill.accountID fill.orderID with
  | none => pure ()
  | some order => f order

/-- What a fill causes: an order that may only reduce a position and has nothing
left to reduce is canceled, and the other orders of its list are looked after. -/
def afterFill (fill : FillReport) : Prog Runtime Err Unit := do
  withOrder fill fun order => do
    let r ← Prog.get
    if order.reduceOnly ∧ order.status.isOpen ∧ ¬ 0 < matchQuantity r.cache order then
      cancelUnfilledRemainder nested order.accountID order.orderID
    else pure ()
  withOrder fill fun order => updateOuoSiblings nested order fill.quantity
  withOrder fill fun order => updateHeldChildren cfg nested order
  withOrder fill fun order =>
    if order.status = .filled then cancelOcoSiblings nested order else pure ()

/-- The part of `applyFillAndPosition` after that: the strategies are told. -/
def announceFill (fill : FillReport) (previous : Option PositionStatusReport)
    (position : PositionStatusReport) : Prog Runtime Err Unit := do
  dispatchExecution nested (.ofFill fill)
  dispatchExecution nested (.ofPosition position)
  match newPositionLifecycleEvent previous position with
  | none => afterFill cfg nested fill
  | some lifecycle => do
    reconcile { positionLifecycle := some lifecycle }
    dispatchExecution nested { positionLifecycle := some lifecycle }
    afterFill cfg nested fill

def applyFillAndPosition (m : Matched) : Prog Runtime Err Unit := do
  let r ← Prog.get
  bookFill m
  announceFill cfg nested m.fill
    (r.cache.positionByInstrument m.fill.accountID m.fill.instrumentID)
    (nextPosition r.cache m.fill)

/-- The fill before its fee, with the trade number it gets. -/
def rawFill (order : OrderStatusReport) (price quantity : Decimal) (ts : Time) (number : Nat) :
    FillReport where
  accountID := order.accountID
  instrumentID := order.instrumentID
  orderID := order.orderID
  clientOrderID := order.clientOrderID
  tradeID := "bt-trade-" ++ toString number
  side := order.side
  price := price
  quantity := quantity
  timestamp := ts

/-- `newFillReportWithSource`. -/
def newFillReportWithSource (order : OrderStatusReport) (price quantity : Decimal) (ts : Time)
    (source : FillSource) : Prog Runtime Err FillReport := do
  let r ← Prog.get
  let slip := cfg.fillModel.applySlippage
    (fillContext r.cache order price quantity ts source) price r.drawn
  Prog.modify fun r => { r with drawn := slip.2, nextTrade := r.nextTrade + 1 }
  pure (applyFillFee r.cache order (rawFill order slip.1 quantity ts (r.nextTrade + 1)))

/-- Fill an order at a price, and answer with the fill. -/
def fillOrder (order : OrderStatusReport) (price quantity : Decimal) (ts : Time)
    (source : FillSource) (consumed : Decimal) (earlier : List (Decimal × FillReport)) :
    Prog Runtime Err FillReport := do
  let fill ← newFillReportWithSource cfg order price quantity ts source
  applyFillAndPosition cfg nested ⟨order, source, price, consumed, earlier, fill⟩
  pure fill

/-- Ask the fill model whether a touched order is filled. -/
def drawTouch (order : OrderStatusReport) (price quantity : Decimal) (ts : Time)
    (source : FillSource) : Prog Runtime Err Bool := do
  let r ← Prog.get
  let touch := shouldFillLimitTouch cfg.fillModel r.cache order price quantity ts source r.drawn
  Prog.modify fun r => { r with drawn := touch.2 }
  pure touch.1

/-! ### Matching against one source -/

/-- `matchMarketOrderAgainstTicker`. -/
def matchMarketOrderAgainstTicker (order : OrderStatusReport) : Prog Runtime Err Unit := do
  let r ← Prog.get
  match r.market.lastTicker.get order.instrumentID with
  | none => pure ()
  | some ticker =>
    if ¬ 0 < ticker.last ∨ ¬ 0 < matchQuantity r.cache order then pure ()
    else do
      let _ ← fillOrder cfg nested order ticker.last (matchQuantity r.cache order)
        ticker.timestamp .ticker 0 []

def matchAgainstQuote (order : OrderStatusReport) : Prog Runtime Err Bool := do
  let r ← Prog.get
  match r.market.lastQuotes.get order.instrumentID with
  | none => pure false
  | some quote =>
    let price := (quoteOffer order quote).1
    let available := (quoteOffer order quote).2
    let consumed := r.consumed order.instrumentID price
    let fillQty := min (matchQuantity r.cache order) (available - consumed)
    if ¬ 0 < price ∨ ¬ 0 < available ∨ canMatch order price = false ∨
        ¬ 0 < matchQuantity r.cache order ∨ ¬ 0 < fillQty then pure false
    else do
      let touched ← drawTouch cfg order price fillQty quote.timestamp .quoteTick
      if touched then do
        let _ ← fillOrder cfg nested order price fillQty quote.timestamp .quoteTick consumed []
        recordConsumption order.instrumentID price fillQty
        pure true
      else pure false

/-- Fill all that is open of an order at a price, if the fill model agrees. -/
def fillAtPrice (order : OrderStatusReport) (price : Decimal) (ts : Time)
    (source : FillSource) : Prog Runtime Err Bool := do
  let r ← Prog.get
  let quantity := matchQuantity r.cache order
  if ¬ 0 < quantity then pure false
  else do
    let touched ← drawTouch cfg order price quantity ts source
    if touched then do
      let _ ← fillOrder cfg nested order price quantity ts source 0 []
      pure true
    else pure false

def matchAgainstTrade (order : OrderStatusReport) : Prog Runtime Err Bool := do
  let r ← Prog.get
  match r.market.lastTrades.get order.instrumentID with
  | none => pure false
  | some trade =>
    if ¬ 0 < trade.price ∨ canMatch order trade.price = false then pure false
    else fillAtPrice cfg nested order trade.price trade.timestamp .tradeTick

def matchAgainstBar (order : OrderStatusReport) : Prog Runtime Err Bool := do
  let r ← Prog.get
  match r.market.lastBars.get order.instrumentID with
  | none => pure false
  | some bar =>
    match barMatchPrice order bar with
    | none => pure false
    | some price => fillAtPrice cfg nested order price bar.timestamp .bar

/-- Apply the matches with a book one after the other. -/
def fillMatches (order : OrderStatusReport) (consumed : Decimal → Decimal) :
    List (Decimal × FillReport) → List Match → Prog Runtime Err Unit
  | _, [] => pure ()
  | earlier, m :: rest => do
    let fill ← fillOrder cfg nested order m.price m.quantity m.timestamp m.source
      (consumed m.price) earlier
    recordConsumption order.instrumentID m.price m.quantity
    fillMatches order consumed (earlier ++ [(m.price, fill)]) rest

def matchAgainstBook (order : OrderStatusReport) : Prog Runtime Err Bool := do
  let r ← Prog.get
  match r.market.lastBooks.get order.instrumentID with
  | none => pure false
  | some book =>
    let quantity := matchQuantity r.cache order
    if ¬ 0 < quantity then pure false
    else do
      let consumed := r.consumed order.instrumentID
      let found := matchOrderBook cfg.fillModel r.cache order book consumed quantity r.drawn
      Prog.modify fun r => { r with drawn := found.2 }
      fillMatches cfg nested order consumed [] found.1
      pure (decide (found.1 ≠ []))

/-! ### Matching an order -/

/-- The sources in turn until one of them fills the order; what is then left of
it is canceled. The ticker is the last, and leaves the order open. -/
def matchAtMarket (order : OrderStatusReport) : Prog Runtime Err Unit := do
  let matched ← matchAgainstBook cfg nested order
  if matched then cancelUnfilledRemainder nested order.accountID order.orderID
  else do
    let matched ← matchAgainstQuote cfg nested order
    if matched then cancelUnfilledRemainder nested order.accountID order.orderID
    else do
      let matched ← matchAgainstTrade cfg nested order
      if matched then cancelUnfilledRemainder nested order.accountID order.orderID
      else do
        let matched ← matchAgainstBar cfg nested order
        if matched then cancelUnfilledRemainder nested order.accountID order.orderID
        else matchMarketOrderAgainstTicker cfg nested order

/-- All of the sources in turn, each with the same version of the order. -/
def matchAtLimit (order : OrderStatusReport) : Prog Runtime Err Unit := do
  let _ ← matchAgainstBook cfg nested order
  let _ ← matchAgainstQuote cfg nested order
  let _ ← matchAgainstTrade cfg nested order
  let _ ← matchAgainstBar cfg nested order

/-- `cancelImmediateRemainder`. -/
def cancelImmediateRemainder (order : OrderStatusReport) : Prog Runtime Err Unit :=
  if order.timeInForce ≠ .ioc ∧ order.timeInForce ≠ .fok then pure ()
  else cancelUnfilledRemainder nested order.accountID order.orderID

/-- Try a source unless an earlier one has filled the order. -/
def orElseMatch (matched : Bool) (next : Prog Runtime Err Bool) : Prog Runtime Err Bool :=
  if matched then pure true else next

/-- The price at which the rest of a market-to-limit order is to rest. -/
def firstPrice (m : Market) (order : OrderStatusReport) : Decimal :=
  if 0 < firstBookPrice m order then firstBookPrice m order else currentPrice m order

/-- Give an order that is still open, and has no price, a price to rest at. -/
def restAt (order : OrderStatusReport) (price : Decimal) : Prog Runtime Err Unit := do
  let r ← Prog.get
  match r.cache.order order.accountID order.orderID with
  | none => pure ()
  | some resting =>
    if resting.status.isOpen = false ∨ resting.price ≠ 0 ∨ ¬ 0 < price then pure ()
    else apply nested (.ofOrder { resting with price := price })

/-- `matchMarketToLimit`. A failure while matching with the book is passed over
and the quote is tried. -/
def matchMarketToLimit (order : OrderStatusReport) : Prog Runtime Err Unit := do
  let r ← Prog.get
  let booked ← (matchAgainstBook cfg nested order).attempt
  let matched ← orElseMatch (decide (booked = .ok true)) (matchAgainstQuote cfg nested order)
  let matched ← orElseMatch matched (matchAgainstTrade cfg nested order)
  let matched ← orElseMatch matched (matchAgainstBar cfg nested order)
  if matched then restAt nested order (firstPrice r.market order)
  else do
    matchMarketOrderAgainstTicker cfg nested order
    restAt nested order (firstPrice r.market order)

/-- `isTriggered`. -/
def isTriggered (order : OrderStatusReport) (policy : OrderStatusReport → Decimal → Bool) :
    Prog Runtime Err Bool := do
  if order.status = .triggered then pure true
  else do
    let r ← Prog.get
    record (.tested order r.cache)
    pure (decide (0 < order.triggerPrice) &&
      (latestTriggerPrices r.market order).any (policy order))

def trailingKey (order : OrderStatusReport) : String := order.accountID ++ "/" ++ order.orderID

/-- The extreme price of an order that trails already, or starts to now. -/
def activeExtreme (r : Runtime) (order : OrderStatusReport) (favorable : Decimal) :
    Option Decimal :=
  match r.trailing.get (trailingKey order) with
  | some extreme => some extreme
  | none =>
    if 0 < order.activationPrice ∧
        (order.side = .sell ∧ favorable < order.activationPrice ∨
          order.side = .buy ∧ order.activationPrice < favorable) then none
    else some favorable

/-- The trigger price that trails the extreme, and whether it is reached. -/
def trailingTrigger (c : Cache) (order : OrderStatusReport) (extreme adverse : Decimal) :
    Option Decimal :=
  match trailingOffsetPrice c order extreme with
  | none => none
  | some offset =>
    if order.side = .sell then
      if adverse ≤ extreme - offset then some (extreme - offset) else none
    else if extreme + offset ≤ adverse then some (extreme + offset)
    else none

/-- `isTrailingTriggered`. -/
def isTrailingTriggered (order : OrderStatusReport) : Prog Runtime Err Bool := do
  if order.status = .triggered then pure true
  else do
    let r ← Prog.get
    record (.tested order r.cache)
    match latestTrailingRange r.market order with
    | none => pure false
    | some (favorable, adverse) =>
      if ¬ 0 < order.trailingOffset then pure false
      else do
        let key := trailingKey order
        Prog.modify fun r => { r with trailingTriggers := r.trailingTriggers.delete key }
        match activeExtreme r order favorable with
        | none => pure false
        | some extreme => do
          let extreme :=
            if order.side = .sell then max favorable extreme else min favorable extreme
          Prog.modify fun r => { r with trailing := r.trailing.put key extreme }
          match trailingTrigger r.cache order extreme adverse with
          | none => pure false
          | some triggerPrice => do
            Prog.modify fun r => { r with
              trailingTriggers := r.trailingTriggers.put key triggerPrice }
            pure true

/-- `markTriggered`. -/
def markTriggered (order : OrderStatusReport) : Prog Runtime Err OrderStatusReport := do
  if order.status = .triggered then pure order
  else do
    apply nested (.ofOrder { order with status := .triggered })
    pure { order with status := .triggered }

def matchTriggeredMarket (order : OrderStatusReport)
    (policy : OrderStatusReport → Decimal → Bool) : Prog Runtime Err Unit := do
  let triggered ← isTriggered order policy
  if triggered then do
    let order ← markTriggered nested order
    matchAtMarket cfg nested order
  else pure ()

def matchTriggeredLimit (order : OrderStatusReport)
    (policy : OrderStatusReport → Decimal → Bool) : Prog Runtime Err Unit := do
  let triggered ← isTriggered order policy
  if triggered then do
    let order ← markTriggered nested order
    matchAtLimit cfg nested order
  else pure ()

/-- The order with the trigger price that it was triggered at. -/
def withTrailingTrigger (r : Runtime) (order : OrderStatusReport) : OrderStatusReport :=
  match r.trailingTriggers.get (trailingKey order) with
  | none => order
  | some triggerPrice => { order with triggerPrice := triggerPrice }

def matchTrailingMarket (order : OrderStatusReport) : Prog Runtime Err Unit := do
  let triggered ← isTrailingTriggered order
  if triggered then do
    let r ← Prog.get
    let order ← markTriggered nested (withTrailingTrigger r order)
    matchAtMarket cfg nested order
  else pure ()

def matchTrailingLimit (order : OrderStatusReport) : Prog Runtime Err Unit := do
  let triggered ← isTrailingTriggered order
  if triggered then do
    let r ← Prog.get
    let order ← markTriggered nested (withTrailingTrigger r order)
    matchAtLimit cfg nested order
  else pure ()

/-- The order as its type asks for. -/
def matchByType (order : OrderStatusReport) : Prog Runtime Err Unit :=
  match order.type with
  | .market => matchAtMarket cfg nested order
  | .marketToLimit => matchMarketToLimit cfg nested order
  | .limit => do
    matchAtLimit cfg nested order
    cancelImmediateRemainder nested order
  | .stopMarket => matchTriggeredMarket cfg nested order stopTrigger
  | .marketIfTouched => matchTriggeredMarket cfg nested order touchedTrigger
  | .stopLimit => matchTriggeredLimit cfg nested order stopTrigger
  | .limitIfTouched => matchTriggeredLimit cfg nested order touchedTrigger
  | .trailingStopMarket => matchTrailingMarket cfg nested order
  | .trailingStopLimit => matchTrailingLimit cfg nested order
  | _ => pure ()

def matchOrder (order : OrderStatusReport) : Prog Runtime Err Unit := do
  let r ← Prog.get
  if order.status.isOpen = false ∨ orderEligible r order = false then pure ()
  else if order.reduceOnly ∧ ¬ 0 < matchQuantity r.cache order then
    cancelUnfilledRemainder nested order.accountID order.orderID
  else if order.type = .limit ∧ order.timeInForce = .fok ∧
      canFullyFillImmediate r.market (r.consumed order.instrumentID) order = false then
    cancelUnfilledRemainder nested order.accountID order.orderID
  else matchByType cfg nested order

/-! ### Submitting orders -/

def submitOrder (order : SubmitOrder) : Prog Runtime Err OrderStatusReport := do
  let report ← acceptOrder cfg nested order
  matchOrder cfg nested report
  pure report

def submitEach : List SubmitOrder → Prog Runtime Err (List OrderStatusReport)
  | [] => pure []
  | order :: orders => do
    let report ← submitOrder cfg nested order
    let reports ← submitEach orders
    pure (report :: reports)

/-- `SubmitOrderList`: children wait for their parents. -/
def submitOrderList (list : OrderList) : Prog Runtime Err (List OrderStatusReport) := do
  let list := list.withCommandMetadataDefaults
  Prog.lift list.validate
  Prog.modify (indexOrderList list)
  submitEach cfg nested (list.orders.filter fun order => order.parentClientOrderID = "")

/-! ### All orders -/

/-- How Go enumerates the map of accounts: on each pass every account that is
there at the start once, and possibly some that are added meanwhile. -/
structure Enumeration where
  visits : Nat → List AccountID → List AccountID
  nodup : ∀ pass ids, (visits pass ids).Nodup
  covers : ∀ pass ids, ids ⊆ visits pass ids

/-- The enumeration in the order of the account ids. -/
def Enumeration.sorted : Enumeration where
  visits _ ids := ids.dedup
  nodup _ ids := ids.nodup_dedup
  covers _ _ := fun _ h => List.mem_dedup.mpr h

/-- One pass over the map of accounts. -/
def forEachAccount (enumeration : Enumeration) (f : AccountID → Prog Runtime Err Unit) : Prog Runtime Err Unit := do
  let r ← Prog.get
  Prog.modify fun r => { r with passes := r.passes + 1 }
  Prog.forEach (fun accountID => do
    let now ← Prog.get
    if (now.accounts.get accountID).isSome then f accountID else pure ())
    (enumeration.visits r.passes (r.accounts.entries.map (·.1)))

/-- `MatchOpenOrders`. -/
def matchOpenOrders (enumeration : Enumeration) : Prog Runtime Err Unit :=
  forEachAccount enumeration fun accountID => do
    let r ← Prog.get
    Prog.forEach (matchOrder cfg nested) (r.cache.openOrders accountID)

def shouldExpire (order : OrderStatusReport) (deadline : Time) : Bool :=
  decide (order.timeInForce = .gtd) && order.status.isOpen && decide (order.expireTime ≠ 0) &&
    decide (order.expireTime ≤ deadline)

def expireOrder (order : OrderStatusReport) : Prog Runtime Err Unit := do
  setTime .expiry order.expireTime
  let expired := { order with
    status := .expired
    leavesQuantity := 0
    lastUpdatedTime := order.expireTime }
  applyReport nested expired .expired order.status

/-- `ExpireOpenOrders`. -/
def expireOpenOrders (enumeration : Enumeration) (deadline : Time) : Prog Runtime Err Unit :=
  forEachAccount enumeration fun accountID => do
    let r ← Prog.get
    Prog.forEach (fun order =>
      if shouldExpire order deadline then expireOrder nested order else pure ())
      (r.cache.openOrders accountID)

end Runtime

end Exchanges.Backtest
