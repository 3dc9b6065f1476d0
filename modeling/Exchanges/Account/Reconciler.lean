import Exchanges.Account.StateMachine
import Exchanges.Cache.Snapshots

/-!
The account reconciler: execution events applied to the cache.

An order report overwrites the stored order with the venue's totals. A fill is
added to the stored order as an increment, once for each trade. A fill that
comes before its order is only stored, and is replayed when an order report
without any filled quantity arrives.
-/

namespace Exchanges.Account

open Exchanges.Lib Exchanges.Model

section Fills

variable [DecimalPackage]

def averageFillPrice (previousAvg previousQty fillPrice fillQty : Decimal) : Decimal :=
  let nextQty := previousQty + fillQty
  if nextQty = 0 then 0
  else if previousAvg = 0 ∨ previousQty = 0 then fillPrice
  else DecimalPackage.div (previousAvg * previousQty + fillPrice * fillQty) nextQty

/-- The filled quantity after a fill: an order with a quantity is never filled
beyond it. -/
def nextFilledQuantity (order : OrderStatusReport) (fill : FillReport) : Decimal :=
  let nextFilled := order.filledQuantity + fill.quantity
  if 0 < order.quantity ∧ order.quantity < nextFilled then order.quantity else nextFilled

def applyFillToOrder (order : OrderStatusReport) (fill : FillReport) : OrderStatusReport :=
  let nextFilled := nextFilledQuantity order fill
  let averagePrice :=
    averageFillPrice order.averagePrice order.filledQuantity fill.price fill.quantity
  let lastUpdatedTime := max order.lastUpdatedTime fill.timestamp
  if 0 < order.quantity then
    if order.quantity ≤ nextFilled then
      { order with
        filledQuantity := nextFilled, averagePrice := averagePrice
        leavesQuantity := 0, status := .filled, lastUpdatedTime := lastUpdatedTime }
    else
      { order with
        filledQuantity := nextFilled, averagePrice := averagePrice
        leavesQuantity := max (order.quantity - nextFilled) 0
        status := if 0 < nextFilled then .partiallyFilled else order.status
        lastUpdatedTime := lastUpdatedTime }
  else
    { order with
      filledQuantity := nextFilled, averagePrice := averagePrice
      status := if 0 < nextFilled then .partiallyFilled else order.status
      lastUpdatedTime := lastUpdatedTime }

/-- Add each fill to the stored order. -/
def replay (accountID : AccountID) (orderID : OrderID) : List FillReport → Prog Cache Err Unit
  | [] => pure ()
  | fill :: fills => do
    let c ← Prog.get
    match c.order accountID orderID with
    | none => pure ()
    | some order => do
      Prog.update (·.putOrder (applyFillToOrder order fill))
      replay accountID orderID fills

def replayFills (accountID : AccountID) (orderID : OrderID) : Prog Cache Err Unit := do
  let c ← Prog.get
  replay accountID orderID (c.fillsForOrder accountID orderID)

/-- The report as it will be stored, or the reason for refusing it. -/
def checkOrder (existing : Option OrderStatusReport) (report : OrderStatusReport) :
    Except Err OrderStatusReport :=
  match existing with
  | none => .ok report
  | some existing =>
    match nextOrderStatus existing.status report.status with
    | none =>
      .error (invalidOrder ("invalid order transition " ++ existing.status.text ++
        " -> " ++ report.status.text))
    | some nextStatus =>
      if report.filledQuantity < existing.filledQuantity then
        .error (invalidOrder "filled quantity moved backwards")
      else .ok { report with status := nextStatus }

def applyOrder (report : OrderStatusReport) : Prog Cache Err Unit := do
  let c ← Prog.get
  let report ← Prog.lift (checkOrder (c.order report.accountID report.orderID) report)
  Prog.update (·.putOrder report)
  if report.filledQuantity = 0 then replayFills report.accountID report.orderID
  else pure ()

def applyFill (fill : FillReport) : Prog Cache Err Unit := do
  let stored ← Prog.step (·.putFill fill)
  if stored then
    let c ← Prog.get
    match c.order fill.accountID fill.orderID with
    | none => pure ()
    | some order => Prog.update (·.putOrder (applyFillToOrder order fill))
  else pure ()

/-- `Reconciler.Apply`. -/
def apply (event : ExecutionEvent) : Prog Cache Err Unit := do
  Prog.lift event.validate
  match event.account, event.order, event.fill, event.position with
  | some account, _, _, _ => Prog.modify (·.putAccount account)
  | none, some order, _, _ => applyOrder order
  | none, none, some fill, _ => applyFill fill
  | none, none, none, some position => Prog.update (·.putPosition position)
  | none, none, none, none => pure ()

end Fills

end Exchanges.Account
