import Exchanges.Model.Basic

/-!
Orders as the execution side reports them: order, fill and position reports.

A report's `validate` performs the checks of the source in the source's order,
so that the error returned is the one the source returns. The lemmas at the
end give, for each kind of report, the facts that a passed validation
establishes; everything above the model layer uses those and never unfolds a
`validate`.
-/

namespace Exchanges.Model

open Exchanges.Lib

/-! ### Enumerations -/

inductive OrderSide where
  | unset
  | buy
  | sell
  | other (name : String)
  deriving DecidableEq, Repr, Inhabited

inductive ContingencyType where
  | unset
  | oto
  | oco
  | ouo
  | other (name : String)
  deriving DecidableEq, Repr, Inhabited

def ContingencyType.validate : ContingencyType → Except Err Unit
  | .other name => .error ⟨.invalidOrder, "invalid contingency type", [name]⟩
  | _ => .ok ()

inductive OrderType where
  | unset
  | market
  | limit
  | marketToLimit
  | stopMarket
  | stopLimit
  | marketIfTouched
  | limitIfTouched
  | trailingStopMarket
  | trailingStopLimit
  | other (name : String)
  deriving DecidableEq, Repr, Inhabited

def OrderType.validate : OrderType → Except Err Unit
  | .unset => .error ⟨.invalidOrder, "invalid order type", [""]⟩
  | .other name => .error ⟨.invalidOrder, "invalid order type", [name]⟩
  | _ => .ok ()

inductive TimeInForce where
  | unset
  | gtc
  | ioc
  | fok
  | gtd
  | day
  | other (name : String)
  deriving DecidableEq, Repr, Inhabited

def TimeInForce.validate : TimeInForce → Except Err Unit
  | .other name => .error ⟨.invalidOrder, "invalid time in force", [name]⟩
  | _ => .ok ()

inductive TriggerType where
  | unset
  | noTrigger
  | default
  | bidAsk
  | lastPrice
  | other (name : String)
  deriving DecidableEq, Repr, Inhabited

def TriggerType.validate : TriggerType → Except Err Unit
  | .other name => .error ⟨.invalidOrder, "invalid trigger type", [name]⟩
  | _ => .ok ()

def TriggerType.isActive : TriggerType → Bool
  | .unset => false
  | .noTrigger => false
  | _ => true

inductive TrailingOffsetType where
  | unset
  | price
  | basisPoints
  | ticks
  | other (name : String)
  deriving DecidableEq, Repr, Inhabited

def TrailingOffsetType.canonical : TrailingOffsetType → TrailingOffsetType
  | .unset => .price
  | t => t

def TrailingOffsetType.validate (t : TrailingOffsetType) : Except Err Unit :=
  match t.canonical with
  | .other name => .error ⟨.invalidOrder, "invalid trailing offset type", [name]⟩
  | _ => .ok ()

inductive OrderStatus where
  | unset
  | initialized
  | denied
  | emulated
  | released
  | submitted
  | accepted
  | triggered
  | pendingCancel
  | pendingUpdate
  | partiallyFilled
  | filled
  | canceled
  | rejected
  | expired
  | other (name : String)
  deriving DecidableEq, Repr, Inhabited

namespace OrderStatus

/-- The text of a status. -/
def text : OrderStatus → String
  | unset => ""
  | initialized => "initialized"
  | denied => "denied"
  | emulated => "emulated"
  | released => "released"
  | submitted => "submitted"
  | accepted => "accepted"
  | triggered => "triggered"
  | pendingCancel => "pending_cancel"
  | pendingUpdate => "pending_update"
  | partiallyFilled => "partially_filled"
  | filled => "filled"
  | canceled => "canceled"
  | rejected => "rejected"
  | expired => "expired"
  | other name => name

def isTerminal : OrderStatus → Bool
  | denied => true
  | filled => true
  | canceled => true
  | rejected => true
  | expired => true
  | _ => false

def isOpen (s : OrderStatus) : Bool := decide (s ≠ unset) && !s.isTerminal

theorem isOpen_eq_false {s : OrderStatus} (h : s ≠ unset) :
    s.isOpen = false ↔ s.isTerminal = true := by
  simp [isOpen, h]

end OrderStatus

inductive PositionSide where
  | unset
  | long
  | short
  | flat
  | other (name : String)
  deriving DecidableEq, Repr, Inhabited

/-! ### Order reports -/

structure OrderStatusReport where
  metadata : CommandMetadata := {}
  accountID : AccountID := ""
  instrumentID : InstrumentID := {}
  triggerInstrumentID : InstrumentID := {}
  orderListID : OrderListID := ""
  positionID : PositionID := ""
  orderID : OrderID := ""
  venueOrderID : VenueOrderID := ""
  parentClientOrderID : ClientOrderID := ""
  clientOrderID : ClientOrderID := ""
  status : OrderStatus := .unset
  side : OrderSide := .unset
  type : OrderType := .unset
  contingency : ContingencyType := .unset
  quantity : Decimal := 0
  filledQuantity : Decimal := 0
  leavesQuantity : Decimal := 0
  price : Decimal := 0
  triggerPrice : Decimal := 0
  activationPrice : Decimal := 0
  trailingOffset : Decimal := 0
  trailingOffsetType : TrailingOffsetType := .unset
  postOnly : Bool := false
  reduceOnly : Bool := false
  timeInForce : TimeInForce := .unset
  expireTime : Time := 0
  averagePrice : Decimal := 0
  lastUpdatedTime : Time := 0
  deriving DecidableEq, Repr, Inhabited

/-- An optional instrument: only a non-empty one is checked. -/
def InstrumentID.validateOptional (id : InstrumentID) : Except Err Unit :=
  if id = {} then .ok () else id.validate

def OrderStatusReport.validate (r : OrderStatusReport) : Except Err Unit := do
  reject (r.accountID = "" ∨ r.orderID = "" ∨ r.status = .unset)
    (invalidOrder "invalid order report")
  r.instrumentID.validate
  r.triggerInstrumentID.validateOptional
  r.contingency.validate
  r.trailingOffsetType.validate
  reject (r.filledQuantity < 0 ∨ r.quantity < 0) (invalidOrder "invalid order quantities")
  reject (r.leavesQuantity < 0) (invalidOrder "invalid leaves quantity")
  reject (0 < r.quantity ∧ r.quantity < r.filledQuantity)
    (invalidOrder "filled quantity exceeds order quantity")

def OrderStatusReport.triggerInstrument (r : OrderStatusReport) : InstrumentID :=
  if r.triggerInstrumentID = {} then r.instrumentID else r.triggerInstrumentID

/-! ### Fill reports -/

structure FillReport where
  accountID : AccountID := ""
  instrumentID : InstrumentID := {}
  orderID : OrderID := ""
  venueOrderID : VenueOrderID := ""
  clientOrderID : ClientOrderID := ""
  tradeID : TradeID := ""
  positionID : PositionID := ""
  isLeg : Bool := false
  side : OrderSide := .unset
  price : Decimal := 0
  quantity : Decimal := 0
  fee : Decimal := 0
  feeCurrency : Currency := ""
  timestamp : Time := 0
  deriving DecidableEq, Repr, Inhabited

/-- `strings.Contains`. -/
def containsText (s sub : String) : Bool := decide (sub.toList <:+: s.toList)

def FillReport.isLegFill (r : FillReport) : Bool :=
  r.isLeg || containsText r.clientOrderID "-LEG-" || containsText r.venueOrderID "-LEG-"

def FillReport.validate (r : FillReport) : Except Err Unit := do
  reject (r.accountID = "" ∨ r.tradeID = "") (invalidOrder "invalid fill report")
  reject (r.orderID = "" ∧ r.isLegFill = false) (invalidOrder "invalid fill report")
  r.instrumentID.validate
  reject (¬ 0 < r.price ∨ ¬ 0 < r.quantity) (invalidOrder "invalid fill price or quantity")
  reject (r.fee < 0) (invalidOrder "invalid fill fee")

/-! ### Position reports -/

structure PositionStatusReport where
  metadata : CommandMetadata := {}
  accountID : AccountID := ""
  instrumentID : InstrumentID := {}
  positionID : PositionID := ""
  venuePositionID : VenuePositionID := ""
  side : PositionSide := .unset
  quantity : Decimal := 0
  entryPrice : Decimal := 0
  timestamp : Time := 0
  deriving DecidableEq, Repr, Inhabited

def PositionStatusReport.validate (r : PositionStatusReport) : Except Err Unit := do
  reject (r.accountID = "" ∨ r.positionID = "") (invalidOrder "invalid position report")
  r.instrumentID.validate
  reject (r.entryPrice < 0) (invalidOrder "invalid position entry price")
  reject (r.side ≠ .unset ∧ r.side ≠ .long ∧ r.side ≠ .short ∧ r.side ≠ .flat)
    (invalidOrder "invalid position side")

/-! ### What a passed validation establishes -/

/-- The facts behind `OrderStatusReport.validate`. -/
structure OrderStatusReport.WellFormed (r : OrderStatusReport) : Prop where
  accountID_ne : r.accountID ≠ ""
  orderID_ne : r.orderID ≠ ""
  status_ne : r.status ≠ .unset
  instrument : r.instrumentID.validate = .ok ()
  triggerInstrument : r.triggerInstrumentID.validateOptional = .ok ()
  contingency : r.contingency.validate = .ok ()
  trailingOffsetType : r.trailingOffsetType.validate = .ok ()
  filled_nonneg : 0 ≤ r.filledQuantity
  quantity_nonneg : 0 ≤ r.quantity
  leaves_nonneg : 0 ≤ r.leavesQuantity
  filled_le : 0 < r.quantity → r.filledQuantity ≤ r.quantity

theorem OrderStatusReport.validate_eq_ok {r : OrderStatusReport} :
    r.validate = .ok () ↔ r.WellFormed := by
  simp only [OrderStatusReport.validate, except_seq_eq_ok, reject_eq_ok, not_or, not_and, not_lt]
  constructor
  · rintro ⟨⟨h1, h2, h3⟩, h4, h5, h6, h7, ⟨h8, h9⟩, h10, h11⟩
    exact ⟨h1, h2, h3, h4, h5, h6, h7, h8, h9, h10, h11⟩
  · rintro ⟨h1, h2, h3, h4, h5, h6, h7, h8, h9, h10, h11⟩
    exact ⟨⟨h1, h2, h3⟩, h4, h5, h6, h7, ⟨h8, h9⟩, h10, h11⟩

/-- Filled quantities can be compared along a run. -/
instance : IsTrans OrderStatusReport fun e e' => e.filledQuantity ≤ e'.filledQuantity :=
  ⟨fun _ _ _ h h' => le_trans h h'⟩

/-- The facts behind `FillReport.validate`. -/
structure FillReport.WellFormed (r : FillReport) : Prop where
  accountID_ne : r.accountID ≠ ""
  tradeID_ne : r.tradeID ≠ ""
  orderID_ne : r.orderID = "" → r.isLegFill = true
  instrument : r.instrumentID.validate = .ok ()
  price_pos : 0 < r.price
  quantity_pos : 0 < r.quantity
  fee_nonneg : 0 ≤ r.fee

theorem FillReport.validate_eq_ok {r : FillReport} :
    r.validate = .ok () ↔ r.WellFormed := by
  simp only [FillReport.validate, except_seq_eq_ok, reject_eq_ok, not_or, not_and, not_lt,
    not_le, Bool.not_eq_false]
  constructor
  · rintro ⟨⟨h1, h2⟩, h3, h4, ⟨h5, h6⟩, h7⟩
    exact ⟨h1, h2, h3, h4, h5, h6, h7⟩
  · rintro ⟨h1, h2, h3, h4, h5, h6, h7⟩
    exact ⟨⟨h1, h2⟩, h3, h4, ⟨h5, h6⟩, h7⟩

/-- The facts behind `PositionStatusReport.validate`. -/
structure PositionStatusReport.WellFormed (r : PositionStatusReport) : Prop where
  accountID_ne : r.accountID ≠ ""
  positionID_ne : r.positionID ≠ ""
  instrument : r.instrumentID.validate = .ok ()
  entryPrice_nonneg : 0 ≤ r.entryPrice
  side : r.side = .unset ∨ r.side = .long ∨ r.side = .short ∨ r.side = .flat

theorem PositionStatusReport.validate_eq_ok {r : PositionStatusReport} :
    r.validate = .ok () ↔ r.WellFormed := by
  simp only [PositionStatusReport.validate, except_seq_eq_ok, reject_eq_ok, not_or, not_lt]
  constructor
  · rintro ⟨⟨h1, h2⟩, h3, h4, h5⟩
    exact ⟨h1, h2, h3, h4, by tauto⟩
  · rintro ⟨h1, h2, h3, h4, h5⟩
    exact ⟨⟨h1, h2⟩, h3, h4, by tauto⟩

end Exchanges.Model
