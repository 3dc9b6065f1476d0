import Exchanges.Cache.OrderIndexes

/-!
The execution manager: venue reports applied to the cache.

An order report replaces the stored order, and the fills that were deferred
until their order is known are then applied. A fill is applied once for each
trade of an account. A fill whose order is not known is deferred, unless it is
the fill of a leg of a combination, which is stored without an order.
-/

namespace Exchanges.Execution

open Exchanges.Lib Exchanges.Model

/-- What a manager is configured with; its cache is the state of the programs
below. -/
structure Manager where
  allowOverfills : Bool := false

section Manager

variable [DecimalPackage]

def validateOrderTransition (existing next : OrderStatusReport) : Except Err Unit :=
  reject (existing.status.isTerminal ∧ existing.status ≠ next.status)
    { sentinel := .invalidTransition
      detail := "cannot transition order " ++ existing.orderID ++ " from " ++
        existing.status.text ++ " to " ++ next.status.text }

/-- A report may follow any order that is not stored. -/
def checkTransition (existing : Option OrderStatusReport) (report : OrderStatusReport) :
    Except Err Unit :=
  match existing with
  | some existing => validateOrderTransition existing report
  | none => .ok ()

def averageFillPrice (order : OrderStatusReport) (fill : FillReport) (nextFilled : Decimal) :
    Decimal :=
  if nextFilled = 0 then 0
  else if order.filledQuantity = 0 ∨ order.averagePrice = 0 then fill.price
  else DecimalPackage.div
    (order.averagePrice * order.filledQuantity + fill.price * fill.quantity) nextFilled

def determineLegPositionID (fill : FillReport) : PositionID :=
  if fill.clientOrderID ≠ "" then fill.instrumentID.string ++ ":" ++ fill.clientOrderID
  else if fill.venueOrderID ≠ "" then fill.instrumentID.string ++ ":" ++ fill.venueOrderID
  else fill.instrumentID.string ++ ":" ++ fill.tradeID

/-- The order of a fill, by its order id or else by its client order id. -/
def orderOfFill (c : Cache) (fill : FillReport) : Option OrderStatusReport :=
  match c.order fill.accountID fill.orderID with
  | some order => some order
  | none =>
    if fill.clientOrderID ≠ "" then c.orderByClientID fill.accountID fill.clientOrderID
    else none

/-- A leg fill without a position is given one. -/
def withLegPositionID (fill : FillReport) : FillReport :=
  if fill.positionID = "" then { fill with positionID := determineLegPositionID fill }
  else fill

/-- The order with one more fill. -/
def addFill (order : OrderStatusReport) (fill : FillReport) : OrderStatusReport :=
  let nextFilled := order.filledQuantity + fill.quantity
  let leavesQuantity :=
    if 0 < order.quantity then max (order.quantity - nextFilled) 0 else order.leavesQuantity
  { order with
    filledQuantity := nextFilled
    leavesQuantity := leavesQuantity
    averagePrice := averageFillPrice order fill nextFilled
    status := if leavesQuantity = 0 then .filled else .partiallyFilled
    lastUpdatedTime := fill.timestamp }

def checkOverfill (m : Manager) (order : OrderStatusReport) (fill : FillReport) :
    Except Err Unit :=
  let nextFilled := order.filledQuantity + fill.quantity
  reject (0 < order.quantity ∧ order.quantity < nextFilled ∧ m.allowOverfills = false)
    { sentinel := .overfill
      detail := "filled " ++ DecimalPackage.print nextFilled ++ " exceeds quantity " ++
        DecimalPackage.print order.quantity }

/-- Add a fill to a known order; the answer says whether its trade was new. -/
def applyKnownFill (m : Manager) (order : OrderStatusReport) (fill : FillReport) :
    Prog Cache Err Bool := do
  Prog.lift (checkOverfill m order fill)
  let applied ← Prog.step (·.putFill fill)
  if applied then
    Prog.update (·.putOrder (addFill order fill))
    pure true
  else pure false

def deferFill (fill : FillReport) : Prog Cache Err Bool := do
  let _ ← Prog.step (·.putDeferredFill fill)
  pure false

/-- `ApplyFill`. -/
def applyFill (m : Manager) (fill : FillReport) : Prog Cache Err Bool := do
  Prog.lift fill.validate
  let c ← Prog.get
  match c.fillByTradeID fill.accountID fill.tradeID, orderOfFill c fill with
  | some _, _ => pure false
  | none, some order => applyKnownFill m order fill
  | none, none =>
    if fill.isLegFill then Prog.step (·.putFill (withLegPositionID fill))
    else deferFill fill

/-- `replayDeferredFills`. -/
def replayDeferredFills (m : Manager) (accountID : AccountID) (orderID : OrderID) :
    Prog Cache Err Unit := do
  let c ← Prog.get
  let fills := c.deferredFillsForOrder accountID orderID
  if fills = [] then pure ()
  else
    Prog.forEach (fun fill => do let _ ← applyFill m fill) fills
    Prog.modify (·.clearDeferredFillsForOrder accountID orderID)

/-- `ApplyOrderReport`. -/
def applyOrderReport (m : Manager) (report : OrderStatusReport) : Prog Cache Err Unit := do
  Prog.lift report.validate
  let c ← Prog.get
  Prog.lift (checkTransition (c.order report.accountID report.orderID) report)
  Prog.update (·.putOrder report)
  replayDeferredFills m report.accountID report.orderID

end Manager

end Exchanges.Execution
