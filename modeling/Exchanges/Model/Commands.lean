import Exchanges.Model.Account
import Exchanges.Model.MarketData

/-!
Commands: what a strategy asks the execution side to do, and the market event
that it is told about.

As for reports, a command's `validate` performs the checks of the source in the
source's order. `applyOrderModification` is the one computation that every
venue and the backtest share.
-/

namespace Exchanges.Model

open Exchanges.Lib

/-! ### Submitting -/

structure SubmitOrder where
  metadata : CommandMetadata := {}
  accountID : AccountID := ""
  instrumentID : InstrumentID := {}
  triggerInstrumentID : InstrumentID := {}
  orderListID : OrderListID := ""
  parentClientOrderID : ClientOrderID := ""
  clientOrderID : ClientOrderID := ""
  side : OrderSide := .unset
  type : OrderType := .unset
  contingency : ContingencyType := .unset
  timeInForce : TimeInForce := .unset
  quantity : Decimal := 0
  price : Decimal := 0
  triggerPrice : Decimal := 0
  activationPrice : Decimal := 0
  trailingOffset : Decimal := 0
  trailingOffsetType : TrailingOffsetType := .unset
  emulationTrigger : TriggerType := .unset
  postOnly : Bool := false
  reduceOnly : Bool := false
  expireTime : Time := 0
  deriving DecidableEq, Repr, Inhabited

namespace OrderType

/-- The types whose orders have a limit price from the start. -/
def isLimitStyle : OrderType → Bool
  | limit => true
  | stopLimit => true
  | limitIfTouched => true
  | trailingStopLimit => true
  | _ => false

/-- The types that trade at whatever price there is. -/
def isMarketStyle : OrderType → Bool
  | market => true
  | marketToLimit => true
  | stopMarket => true
  | marketIfTouched => true
  | trailingStopMarket => true
  | _ => false

/-- `orderTypeAllowsLimitPrice`. -/
def allowsLimitPrice : OrderType → Bool
  | marketToLimit => true
  | t => t.isLimitStyle

/-- `orderTypeAllowsTriggerPrice`. -/
def allowsTriggerPrice : OrderType → Bool
  | stopMarket => true
  | stopLimit => true
  | marketIfTouched => true
  | limitIfTouched => true
  | _ => false

/-- `orderTypeAllowsTrailing`. -/
def allowsTrailing : OrderType → Bool
  | trailingStopMarket => true
  | trailingStopLimit => true
  | _ => false

end OrderType

def SubmitOrder.validate (o : SubmitOrder) : Except Err Unit := do
  reject (o.accountID = "" ∨ o.side = .unset ∨ o.type = .unset ∨ ¬ 0 < o.quantity)
    (invalidOrder "invalid submit order")
  o.type.validate
  o.timeInForce.validate
  o.emulationTrigger.validate
  o.trailingOffsetType.validate
  o.contingency.validate
  o.instrumentID.validate
  o.triggerInstrumentID.validateOptional
  reject (o.timeInForce = .gtd ∧ o.expireTime ≤ unixEpoch)
    (invalidOrder "GTD order requires expire time after UNIX epoch")
  reject (o.timeInForce ≠ .gtd ∧ o.expireTime ≠ 0)
    (invalidOrder "expire time requires GTD time in force")
  reject (o.type = .market ∧ o.timeInForce = .gtd)
    (invalidOrder "market order does not support GTD time in force")
  reject (o.type.isLimitStyle ∧ ¬ 0 < o.price) (invalidOrder "limit order requires price")
  reject (o.type.allowsTriggerPrice ∧ ¬ 0 < o.triggerPrice)
    (invalidOrder "trigger order requires trigger price")
  reject (o.type.allowsTrailing ∧ ¬ 0 < o.trailingOffset)
    (invalidOrder "trailing order requires trailing offset")
  reject (o.postOnly ∧ o.type.isMarketStyle)
    (invalidOrder "post-only requires limit-style order")

/-- The instrument whose prices trigger the order. -/
def SubmitOrder.triggerInstrument (o : SubmitOrder) : InstrumentID :=
  if o.triggerInstrumentID ≠ {} then o.triggerInstrumentID else o.instrumentID

/-- The event that announces a submission. It has no order id yet. -/
def orderSubmittedLifecycle (order : SubmitOrder) : OrderLifecycleEvent where
  metadata := order.metadata
  accountID := order.accountID
  instrumentID := order.instrumentID
  clientOrderID := order.clientOrderID
  kind := .submitted
  previousStatus := .initialized
  status := .submitted

/-! ### Order lists -/

structure OrderList where
  metadata : CommandMetadata := {}
  id : OrderListID := ""
  orders : List SubmitOrder := []
  deriving DecidableEq, Repr, Inhabited

namespace OrderList

def withCommandMetadataDefaults (l : OrderList) : OrderList :=
  { l with
    orders := l.orders.map fun o => { o with metadata := o.metadata.withDefaults l.metadata } }

/-- The checks of one order, `i` places into the list. -/
def validateOrder (l : OrderList) (i : Nat) (order : SubmitOrder) : Except Err Unit := do
  order.validate
  reject (order.orderListID ≠ l.id)
    (invalidOrder ("order " ++ toString i ++ " list id mismatch"))
  reject (order.instrumentID.venue ≠ ((l.orders.head?.map (·.instrumentID.venue)).getD ""))
    (invalidOrder "mixed venue order list")

def validate (l : OrderList) : Except Err Unit := do
  reject (l.id = "" ∨ l.orders = []) (invalidOrder "invalid order list")
  checkAll (fun entry => l.validateOrder entry.2 entry.1) l.orders.zipIdx

end OrderList

/-! ### Canceling -/

structure CancelOrder where
  metadata : CommandMetadata := {}
  accountID : AccountID := ""
  instrumentID : InstrumentID := {}
  orderID : OrderID := ""
  clientOrderID : ClientOrderID := ""
  deriving DecidableEq, Repr, Inhabited

def CancelOrder.validate (o : CancelOrder) : Except Err Unit := do
  reject (o.accountID = "" ∨ (o.orderID = "" ∧ o.clientOrderID = ""))
    (invalidOrder "invalid cancel order")
  o.instrumentID.validate

/-- The command with the ids of the order that it is about. -/
def fillCancelIdentity (cancel : CancelOrder) (existing : OrderStatusReport) : CancelOrder :=
  { cancel with
    orderID := orDefault cancel.orderID existing.orderID
    clientOrderID := orDefault cancel.clientOrderID existing.clientOrderID
    instrumentID :=
      if cancel.instrumentID = {} then existing.instrumentID else cancel.instrumentID }

structure BatchCancelOrders where
  metadata : CommandMetadata := {}
  accountID : AccountID := ""
  instrumentID : InstrumentID := {}
  cancels : List CancelOrder := []
  deriving DecidableEq, Repr, Inhabited

namespace BatchCancelOrders

def validateCancel (b : BatchCancelOrders) (cancel : CancelOrder) : Except Err Unit := do
  reject (cancel.accountID ≠ "" ∧ cancel.accountID ≠ b.accountID)
    (invalidOrder "batch cancel account mismatch")
  reject (cancel.instrumentID ≠ {} ∧ cancel.instrumentID ≠ b.instrumentID)
    (invalidOrder "batch cancel instrument mismatch")
  reject (cancel.orderID = "" ∧ cancel.clientOrderID = "")
    (invalidOrder "batch cancel requires order identity")

def validate (b : BatchCancelOrders) : Except Err Unit := do
  reject (b.accountID = "" ∨ b.cancels = []) (invalidOrder "invalid batch cancel orders")
  b.instrumentID.validate
  checkAll b.validateCancel b.cancels

end BatchCancelOrders

structure CancelAllOrders where
  metadata : CommandMetadata := {}
  accountID : AccountID := ""
  instrumentID : InstrumentID := {}
  orderSide : OrderSide := .unset
  deriving DecidableEq, Repr, Inhabited

namespace CancelAllOrders

def validate (c : CancelAllOrders) : Except Err Unit := do
  reject (c.accountID = "") (invalidOrder "invalid cancel all orders")
  reject (c.orderSide ≠ .unset ∧ c.orderSide ≠ .buy ∧ c.orderSide ≠ .sell)
    (invalidOrder "invalid cancel all order side")
  c.instrumentID.validate

def matchesOrder (c : CancelAllOrders) (order : OrderStatusReport) : Bool :=
  decide (order.accountID = c.accountID) && decide (order.instrumentID = c.instrumentID) &&
    decide (c.orderSide = .unset ∨ order.side = c.orderSide)

end CancelAllOrders

/-! ### Querying -/

structure QueryOrder where
  metadata : CommandMetadata := {}
  accountID : AccountID := ""
  instrumentID : InstrumentID := {}
  orderID : OrderID := ""
  venueOrderID : VenueOrderID := ""
  clientOrderID : ClientOrderID := ""
  deriving DecidableEq, Repr, Inhabited

def QueryOrder.validate (q : QueryOrder) : Except Err Unit := do
  reject (q.accountID = "" ∨ (q.orderID = "" ∧ q.clientOrderID = "" ∧ q.venueOrderID = ""))
    (invalidOrder "invalid query order")
  q.instrumentID.validate

structure QueryAccount where
  metadata : CommandMetadata := {}
  accountID : AccountID := ""
  deriving DecidableEq, Repr, Inhabited

def QueryAccount.validate (q : QueryAccount) : Except Err Unit :=
  reject (q.accountID = "") (invalidAccount "")

/-! ### Modifying -/

structure ModifyOrder where
  metadata : CommandMetadata := {}
  accountID : AccountID := ""
  instrumentID : InstrumentID := {}
  orderID : OrderID := ""
  venueOrderID : VenueOrderID := ""
  clientOrderID : ClientOrderID := ""
  quantity : Decimal := 0
  price : Decimal := 0
  triggerPrice : Decimal := 0
  activationPrice : Decimal := 0
  trailingOffset : Decimal := 0
  trailingOffsetType : TrailingOffsetType := .unset
  timeInForce : TimeInForce := .unset
  deriving DecidableEq, Repr, Inhabited

namespace ModifyOrder

/-- The amounts that a modification may change; zero leaves one as it is. -/
def values (o : ModifyOrder) : List Decimal :=
  [o.quantity, o.price, o.triggerPrice, o.activationPrice, o.trailingOffset]

def hasChange (o : ModifyOrder) : Bool :=
  decide (o.timeInForce ≠ .unset) || decide (o.trailingOffsetType ≠ .unset) ||
    o.values.any fun value => decide (0 < value)

def validate (o : ModifyOrder) : Except Err Unit := do
  reject (o.accountID = "" ∨ (o.orderID = "" ∧ o.clientOrderID = ""))
    (invalidOrder "invalid modify order")
  o.instrumentID.validate
  o.timeInForce.validate
  o.trailingOffsetType.validate
  reject (∃ value ∈ o.values, value < 0) (invalidOrder "invalid modify value")
  reject (o.hasChange = false) (invalidOrder "modify order requires a changed field")

end ModifyOrder

def fillModifyIdentity (modify : ModifyOrder) (existing : OrderStatusReport) : ModifyOrder :=
  { modify with
    orderID := orDefault modify.orderID existing.orderID
    clientOrderID := orDefault modify.clientOrderID existing.clientOrderID
    venueOrderID := orDefault modify.venueOrderID existing.venueOrderID
    instrumentID :=
      if modify.instrumentID = {} then existing.instrumentID else modify.instrumentID }

/-- Both ids are given and they differ. -/
def idMismatch (wanted actual : String) : Bool :=
  decide (wanted ≠ "" ∧ actual ≠ "" ∧ wanted ≠ actual)

/-- The order is the one that the modification names, and may be modified. -/
def checkModifiable (order : OrderStatusReport) (modify : ModifyOrder) : Except Err Unit := do
  modify.validate
  reject (modify.accountID ≠ order.accountID) (invalidOrder "account mismatch")
  reject (modify.instrumentID ≠ order.instrumentID) (invalidOrder "instrument mismatch")
  reject (idMismatch modify.orderID order.orderID) (invalidOrder "order id mismatch")
  reject (idMismatch modify.clientOrderID order.clientOrderID)
    (invalidOrder "client order id mismatch")
  reject (idMismatch modify.venueOrderID order.venueOrderID)
    (invalidOrder "venue order id mismatch")
  reject (order.status.isOpen = false ∨ order.status = .pendingCancel)
    (invalidOrder "order is not modifiable")

/-- A positive amount replaces the order's own, if the type of the order has
such an amount. -/
def modifiedValue (allowed : Bool) (refusal : String) (value current : Decimal) :
    Except Err Decimal :=
  if 0 < value then
    if allowed then .ok value else .error (invalidOrder refusal)
  else .ok current

/-- A new quantity also sets what is left of the order. -/
def modifiedQuantity (order : OrderStatusReport) (quantity : Decimal) :
    Except Err OrderStatusReport :=
  if 0 < quantity then
    if quantity < order.filledQuantity then
      .error (invalidOrder "quantity below filled quantity")
    else if quantity = order.quantity then .ok order
    else .ok { order with
      quantity := quantity
      leavesQuantity := max (quantity - order.filledQuantity) 0 }
  else .ok order

def modifiedTrailingType (order : OrderStatusReport) (t : TrailingOffsetType) :
    Except Err TrailingOffsetType :=
  if t ≠ .unset then
    if order.type.allowsTrailing then
      .ok (if t.canonical ≠ order.trailingOffsetType.canonical then t
        else order.trailingOffsetType)
    else .error (invalidOrder "order type does not support trailing type modification")
  else .ok order.trailingOffsetType

/-- `ApplyOrderModification`: the modified order, which is accepted again. -/
def applyOrderModification (order : OrderStatusReport) (modify : ModifyOrder) :
    Except Err OrderStatusReport := do
  checkModifiable order modify
  let updated ← modifiedQuantity order modify.quantity
  let price ← modifiedValue order.type.allowsLimitPrice
    "order type does not support price modification" modify.price order.price
  let triggerPrice ← modifiedValue order.type.allowsTriggerPrice
    "order type does not support trigger modification" modify.triggerPrice order.triggerPrice
  let activationPrice ← modifiedValue order.type.allowsTrailing
    "order type does not support activation modification"
    modify.activationPrice order.activationPrice
  let trailingOffset ← modifiedValue order.type.allowsTrailing
    "order type does not support trailing modification"
    modify.trailingOffset order.trailingOffset
  let trailingOffsetType ← modifiedTrailingType order modify.trailingOffsetType
  let timeInForce :=
    if modify.timeInForce ≠ .unset then modify.timeInForce else order.timeInForce
  let updated := { updated with
    price := price
    triggerPrice := triggerPrice
    activationPrice := activationPrice
    trailingOffset := trailingOffset
    trailingOffsetType := trailingOffsetType
    timeInForce := timeInForce }
  reject (updated = order) (invalidOrder "modify order did not change order")
  return { updated with status := .accepted }

/-- What a modification leaves of an order: who it is for, how much of it is
filled, and how long it may live. -/
structure Modified (order updated : OrderStatusReport) : Prop where
  accountID : updated.accountID = order.accountID
  orderID : updated.orderID = order.orderID
  instrumentID : updated.instrumentID = order.instrumentID
  clientOrderID : updated.clientOrderID = order.clientOrderID
  venueOrderID : updated.venueOrderID = order.venueOrderID
  side : updated.side = order.side
  type : updated.type = order.type
  reduceOnly : updated.reduceOnly = order.reduceOnly
  filledQuantity : updated.filledQuantity = order.filledQuantity
  expireTime : updated.expireTime = order.expireTime
  status : updated.status = .accepted
  wasOpen : order.status.isOpen = true
  quantity : updated.quantity = order.quantity ∧
      updated.leavesQuantity = order.leavesQuantity ∨
    order.filledQuantity ≤ updated.quantity ∧ 0 < updated.quantity ∧
      updated.leavesQuantity = updated.quantity - updated.filledQuantity

/-- A modification does not depend on the metadata and the time of the report. -/
theorem Modified.stamped {order updated : OrderStatusReport} (h : Modified order updated)
    (metadata : CommandMetadata) (time : Time) :
    Modified order { updated with metadata := metadata, lastUpdatedTime := time } :=
  ⟨h.accountID, h.orderID, h.instrumentID, h.clientOrderID, h.venueOrderID, h.side, h.type,
    h.reduceOnly, h.filledQuantity, h.expireTime, h.status, h.wasOpen, h.quantity⟩

theorem modifiedQuantity_eq_ok {order updated : OrderStatusReport} {quantity : Decimal}
    (h : modifiedQuantity order quantity = .ok updated) :
    updated = order ∨ order.filledQuantity ≤ quantity ∧ 0 < quantity ∧
      updated = { order with
        quantity := quantity, leavesQuantity := quantity - order.filledQuantity } := by
  unfold modifiedQuantity at h
  split_ifs at h with hpos hlow heq
  · cases h
    exact .inl rfl
  · cases h
    have hle : order.filledQuantity ≤ quantity := not_lt.mp hlow
    rw [max_eq_left (sub_nonneg.mpr hle)]
    exact .inr ⟨hle, hpos, rfl⟩
  · cases h
    exact .inl rfl

theorem modified_of_applyOrderModification {order updated : OrderStatusReport}
    {modify : ModifyOrder} (h : applyOrderModification order modify = .ok updated) :
    Modified order updated := by
  simp only [applyOrderModification, except_bind_eq_ok] at h
  obtain ⟨⟨⟩, hcheck, q, hq, price, -, trigger, -, activation, -, offset, -, kind, -, ⟨⟩, -,
    hout⟩ := h
  cases hout
  have hopen : order.status.isOpen = true := by
    simp only [checkModifiable, except_seq_eq_ok, reject_eq_ok, not_or] at hcheck
    simpa using hcheck.2.2.2.2.2.2.1
  obtain rfl | ⟨hle, hpos, rfl⟩ := modifiedQuantity_eq_ok hq
  · exact ⟨rfl, rfl, rfl, rfl, rfl, rfl, rfl, rfl, rfl, rfl, rfl, hopen, .inl ⟨rfl, rfl⟩⟩
  · exact ⟨rfl, rfl, rfl, rfl, rfl, rfl, rfl, rfl, rfl, rfl, rfl, hopen, .inr ⟨hle, hpos, rfl⟩⟩

/-! ### Market events -/

structure MarketEvent where
  ticker : Option Ticker := none
  orderBook : Option OrderBook := none
  trade : Option TradeTick := none
  quote : Option QuoteTick := none
  bar : Option Bar := none
  fundingRate : Option FundingRate := none
  custom : Option CustomData := none
  deriving DecidableEq, Repr, Inhabited

namespace MarketEvent

/-- The instrument of the first payload. -/
def instrumentID (e : MarketEvent) : InstrumentID :=
  match e.ticker, e.orderBook, e.trade, e.quote, e.bar, e.fundingRate, e.custom with
  | some ticker, _, _, _, _, _, _ => ticker.instrumentID
  | none, some book, _, _, _, _, _ => book.instrumentID
  | none, none, some trade, _, _, _, _ => trade.instrumentID
  | none, none, none, some quote, _, _, _ => quote.instrumentID
  | none, none, none, none, some bar, _, _ => bar.barType.canonical.instrumentID
  | none, none, none, none, none, some funding, _ => funding.instrumentID
  | none, none, none, none, none, none, some custom => custom.instrumentID
  | none, none, none, none, none, none, none => {}

/-- The number of payloads. -/
def payloadCount (e : MarketEvent) : Nat :=
  e.ticker.toList.length + e.orderBook.toList.length + e.trade.toList.length +
    e.quote.toList.length + e.bar.toList.length + e.fundingRate.toList.length +
    e.custom.toList.length

def validate (e : MarketEvent) : Except Err Unit := do
  ExecutionEvent.checkPayload Ticker.validate e.ticker
  ExecutionEvent.checkPayload OrderBook.validate e.orderBook
  ExecutionEvent.checkPayload TradeTick.validate e.trade
  ExecutionEvent.checkPayload QuoteTick.validate e.quote
  ExecutionEvent.checkPayload Bar.validate e.bar
  ExecutionEvent.checkPayload FundingRate.validate e.fundingRate
  ExecutionEvent.checkPayload CustomData.validate e.custom
  reject (e.payloadCount ≠ 1) (invalidMarketData "market event needs one payload")

end MarketEvent

end Exchanges.Model
