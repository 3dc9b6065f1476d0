import Exchanges.Model.Order

/-!
Accounts, lifecycle events, and the execution event that carries any of them.

A balance keeps its amounts as text, as venues send them, and may leave some
of them out; `Balance.amounts` completes the missing ones. An execution event
has six optional payloads of which a valid event has exactly one.
-/

namespace Exchanges.Model

open Exchanges.Lib

section Amounts

variable [DecimalPackage]

/-- A missing amount is zero. -/
def parseOptionalDecimal (value name : String) : Except Err Decimal :=
  if value = "" then .ok 0
  else
    match DecimalPackage.parse value with
    | some amount => .ok amount
    | none => .error ⟨.invalidAccount, "invalid " ++ name ++ " amount", [value]⟩

end Amounts

inductive AccountType where
  | unset
  | cash
  | margin
  | other (name : String)
  deriving DecidableEq, Repr, Inhabited

structure Balance where
  currency : Currency := ""
  free : String := ""
  locked : String := ""
  total : String := ""
  deriving DecidableEq, Repr, Inhabited

/-- The numbers behind a balance. -/
structure BalanceAmounts where
  total : Decimal
  locked : Decimal
  free : Decimal
  deriving DecidableEq, Repr

structure MarginBalance where
  currency : Currency := ""
  instrumentID : InstrumentID := {}
  initial : String := ""
  maintenance : String := ""
  deriving DecidableEq, Repr, Inhabited

structure AccountSnapshot where
  accountID : AccountID := ""
  venue : Venue := ""
  type : AccountType := .unset
  baseCurrency : Currency := ""
  balances : List Balance := []
  margins : List MarginBalance := []
  timestamp : Time := 0
  deriving DecidableEq, Repr, Inhabited

section Validation

variable [DecimalPackage]

namespace Balance

/-- Complete the amounts that were left out. Each line may use an amount that
the line before it has just completed. -/
def complete (b : Balance) (total locked free : Decimal) : BalanceAmounts :=
  let total := if b.total = "" ∧ (b.free ≠ "" ∨ b.locked ≠ "") then free + locked else total
  let locked := if b.locked = "" ∧ b.total ≠ "" ∧ b.free ≠ "" then total - free else locked
  let free := if b.free = "" ∧ b.total ≠ "" then total - locked else free
  ⟨total, locked, free⟩

def amounts (b : Balance) : Except Err BalanceAmounts := do
  let total ← parseOptionalDecimal b.total "total"
  let locked ← parseOptionalDecimal b.locked "locked"
  let free ← parseOptionalDecimal b.free "free"
  return b.complete total locked free

def validate (b : Balance) : Except Err Unit := do
  reject (b.currency = "") (invalidAccount "missing balance currency")
  let a ← b.amounts
  reject (a.total < 0 ∨ a.locked < 0 ∨ a.free < 0) (invalidAccount "negative balance amount")
  reject (a.total - a.locked ≠ a.free) (invalidAccount "total - locked must equal free")

end Balance

def MarginBalance.amounts (m : MarginBalance) : Except Err (Decimal × Decimal) := do
  let initial ← parseOptionalDecimal m.initial "initial"
  let maintenance ← parseOptionalDecimal m.maintenance "maintenance"
  return (initial, maintenance)

def MarginBalance.validate (m : MarginBalance) : Except Err Unit := do
  reject (m.currency = "") (invalidAccount "missing margin currency")
  let initial ← parseOptionalDecimal m.initial "initial"
  let maintenance ← parseOptionalDecimal m.maintenance "maintenance"
  reject (initial < 0 ∨ maintenance < 0) (invalidAccount "negative margin amount")

def AccountType.validate : AccountType → Except Err Unit
  | .other name => .error ⟨.invalidAccount, "invalid account type", [name]⟩
  | _ => .ok ()

def AccountSnapshot.validate (a : AccountSnapshot) : Except Err Unit := do
  reject (a.accountID = "") (invalidAccount "")
  a.type.validate
  checkAll Balance.validate a.balances
  checkAll MarginBalance.validate a.margins

end Validation

/-! ### Lifecycle events -/

inductive OrderEventKind where
  | unset
  | initialized
  | denied
  | emulated
  | released
  | submitted
  | accepted
  | rejected
  | triggered
  | pendingUpdate
  | pendingCancel
  | updated
  | modifyRejected
  | cancelRejected
  | canceled
  | expired
  | partiallyFilled
  | filled
  | other (name : String)
  deriving DecidableEq, Repr, Inhabited

namespace OrderEventKind

def text : OrderEventKind → String
  | unset => ""
  | initialized => "order_initialized"
  | denied => "order_denied"
  | emulated => "order_emulated"
  | released => "order_released"
  | submitted => "order_submitted"
  | accepted => "order_accepted"
  | rejected => "order_rejected"
  | triggered => "order_triggered"
  | pendingUpdate => "order_pending_update"
  | pendingCancel => "order_pending_cancel"
  | updated => "order_updated"
  | modifyRejected => "order_modify_rejected"
  | cancelRejected => "order_cancel_rejected"
  | canceled => "order_canceled"
  | expired => "order_expired"
  | partiallyFilled => "order_partially_filled"
  | filled => "order_filled"
  | other name => name

def targetStatus : OrderEventKind → Option OrderStatus
  | initialized => some .initialized
  | denied => some .denied
  | emulated => some .emulated
  | released => some .released
  | submitted => some .submitted
  | accepted => some .accepted
  | rejected => some .rejected
  | triggered => some .triggered
  | pendingUpdate => some .pendingUpdate
  | pendingCancel => some .pendingCancel
  | updated => some .accepted
  | modifyRejected => some .accepted
  | cancelRejected => some .accepted
  | canceled => some .canceled
  | expired => some .expired
  | partiallyFilled => some .partiallyFilled
  | filled => some .filled
  | unset => none
  | other _ => none

end OrderEventKind

structure OrderLifecycleEvent where
  metadata : CommandMetadata := {}
  accountID : AccountID := ""
  instrumentID : InstrumentID := {}
  orderID : OrderID := ""
  clientOrderID : ClientOrderID := ""
  venueOrderID : VenueOrderID := ""
  kind : OrderEventKind := .unset
  previousStatus : OrderStatus := .unset
  status : OrderStatus := .unset
  reason : String := ""
  report : Option OrderStatusReport := none
  deriving DecidableEq, Repr, Inhabited

def OrderLifecycleEvent.validate (e : OrderLifecycleEvent) : Except Err Unit := do
  reject (e.accountID = "" ∨ (e.orderID = "" ∧ e.clientOrderID = "") ∨ e.kind = .unset ∨
    e.status = .unset) (invalidOrder "invalid order lifecycle event")
  e.instrumentID.validate
  match e.kind.targetStatus with
  | none => .error (invalidOrder ("unknown order event kind " ++ e.kind.text))
  | some target =>
    reject (e.status ≠ target) (invalidOrder
      ("event " ++ e.kind.text ++ " targets " ++ target.text ++ ", got " ++ e.status.text))
  match e.report with
  | none => .ok ()
  | some report => report.validate

/-- The event that announces a report. -/
def orderLifecycleFromReport (report : OrderStatusReport) (kind : OrderEventKind)
    (previous : OrderStatus) (reason : String) : OrderLifecycleEvent where
  metadata := report.metadata
  accountID := report.accountID
  instrumentID := report.instrumentID
  orderID := report.orderID
  clientOrderID := report.clientOrderID
  venueOrderID := report.venueOrderID
  kind := kind
  previousStatus := previous
  status := report.status
  reason := reason
  report := some report

inductive PositionEventKind where
  | unset
  | opened
  | changed
  | closed
  | other (name : String)
  deriving DecidableEq, Repr, Inhabited

structure PositionLifecycleEvent where
  accountID : AccountID := ""
  instrumentID : InstrumentID := {}
  positionID : PositionID := ""
  kind : PositionEventKind := .unset
  previousSide : PositionSide := .unset
  previousQuantity : Decimal := 0
  side : PositionSide := .unset
  quantity : Decimal := 0
  report : Option PositionStatusReport := none
  deriving DecidableEq, Repr, Inhabited

def isFlatPosition (side : PositionSide) (quantity : Decimal) : Bool :=
  decide (side = .unset ∨ side = .flat ∨ quantity = 0)

/-- The transition a position event announces. -/
def PositionLifecycleEvent.validateKind (e : PositionLifecycleEvent) : Except Err Unit :=
  let wasFlat := isFlatPosition e.previousSide e.previousQuantity
  let isFlat := isFlatPosition e.side e.quantity
  match e.kind with
  | .opened => reject (¬ wasFlat ∨ isFlat) (invalidOrder "invalid position opened transition")
  | .changed => reject (wasFlat ∨ isFlat) (invalidOrder "invalid position changed transition")
  | .closed => reject (wasFlat ∨ ¬ isFlat) (invalidOrder "invalid position closed transition")
  | .unset => .error (invalidOrder "unknown position event kind ")
  | .other name => .error (invalidOrder ("unknown position event kind " ++ name))

def PositionLifecycleEvent.validate (e : PositionLifecycleEvent) : Except Err Unit := do
  reject (e.accountID = "" ∨ e.positionID = "" ∨ e.kind = .unset)
    (invalidOrder "invalid position lifecycle event")
  e.instrumentID.validate
  reject (e.quantity < 0 ∨ e.previousQuantity < 0) (invalidOrder "invalid position quantities")
  e.validateKind
  match e.report with
  | none => .ok ()
  | some report => report.validate

/-- The event that a position report causes, if it changes anything. -/
def newPositionLifecycleEvent (previous : Option PositionStatusReport)
    (next : PositionStatusReport) : Option PositionLifecycleEvent :=
  let previousSide := (previous.map (·.side)).getD .flat
  let previousQuantity := (previous.map (·.quantity)).getD 0
  let previousFlat := isFlatPosition previousSide previousQuantity
  let nextFlat := isFlatPosition next.side next.quantity
  let event (kind : PositionEventKind) : PositionLifecycleEvent :=
    { accountID := next.accountID
      instrumentID := next.instrumentID
      positionID := next.positionID
      kind := kind
      previousSide := previousSide
      previousQuantity := previousQuantity
      side := next.side
      quantity := next.quantity
      report := some next }
  if previousFlat ∧ nextFlat then none
  else if previousFlat then some (event .opened)
  else if nextFlat then some (event .closed)
  else if previousSide = next.side ∧ previousQuantity = next.quantity then none
  else some (event .changed)

/-! ### Execution events -/

structure ExecutionEvent where
  account : Option AccountSnapshot := none
  order : Option OrderStatusReport := none
  lifecycle : Option OrderLifecycleEvent := none
  fill : Option FillReport := none
  position : Option PositionStatusReport := none
  positionLifecycle : Option PositionLifecycleEvent := none
  deriving DecidableEq, Repr, Inhabited

namespace ExecutionEvent

def ofAccount (a : AccountSnapshot) : ExecutionEvent := { account := some a }
def ofOrder (r : OrderStatusReport) : ExecutionEvent := { order := some r }
def ofFill (f : FillReport) : ExecutionEvent := { fill := some f }
def ofPosition (p : PositionStatusReport) : ExecutionEvent := { position := some p }

/-- Check a payload if there is one. -/
def checkPayload {α : Type} (check : α → Except Err Unit) : Option α → Except Err Unit
  | none => .ok ()
  | some a => check a

/-- The number of payloads. -/
def payloadCount (e : ExecutionEvent) : Nat :=
  e.account.toList.length + e.order.toList.length + e.lifecycle.toList.length +
    e.fill.toList.length + e.position.toList.length + e.positionLifecycle.toList.length

def validate [DecimalPackage] (e : ExecutionEvent) : Except Err Unit := do
  checkPayload AccountSnapshot.validate e.account
  checkPayload OrderStatusReport.validate e.order
  checkPayload OrderLifecycleEvent.validate e.lifecycle
  checkPayload FillReport.validate e.fill
  checkPayload PositionStatusReport.validate e.position
  checkPayload PositionLifecycleEvent.validate e.positionLifecycle
  reject (e.payloadCount ≠ 1) ⟨.invalidExecutionEvent, "", []⟩

end ExecutionEvent

end Exchanges.Model
