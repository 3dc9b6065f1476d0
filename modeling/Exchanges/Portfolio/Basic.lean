import Exchanges.Cache.Consistency

/-!
The portfolio: positions, profit and loss, commissions and balances, kept up to
date fill by fill.

The portfolio shares its cache with the rest of the platform. It remembers which
fills it has applied by account, order and trade, and applies each of them once.
A fill that fails half way, for instance because a balance would become
negative, keeps what it changed before.
-/

namespace Exchanges

open Exchanges.Lib Exchanges.Model

/-- `portfolio.Portfolio`, without its lock and its analyzer. -/
structure Portfolio where
  cache : Cache := Cache.new
  marks : OrdMap (AccountID × InstrumentID) Decimal := ∅
  realized : OrdMap (AccountID × InstrumentID) Decimal := ∅
  commissions : OrdMap (AccountID × Currency) Decimal := ∅
  unrealizedCache : OrdMap (AccountID × InstrumentID) Decimal := ∅
  appliedFills : OrdMap ((AccountID × OrderID) × TradeID) Unit := ∅
  conversions : OrdMap (Currency × Currency) Decimal := ∅

namespace Portfolio

/-- `portfolio.New`. -/
def new (c : Cache) : Portfolio := { cache := c }

/-- Run a program of the cache. -/
def onCache {α : Type} (q : Prog Cache Err α) : Prog Portfolio Err α :=
  q.zoom (·.cache) fun c p => { p with cache := c }

/-! ### Signed quantities -/

def sameDirection (position : PositionStatusReport) (fill : FillReport) : Bool :=
  decide (position.side = .long ∧ fill.side = .buy) ||
    decide (position.side = .short ∧ fill.side = .sell)

def signedPosition (position : PositionStatusReport) : Decimal :=
  if position.side = .short then -position.quantity else position.quantity

def fillSignedQuantity (fill : FillReport) : Decimal :=
  if fill.side = .sell then -fill.quantity else fill.quantity

def sideFromSigned (qty : Decimal) : PositionSide :=
  if 0 < qty then .long else if qty < 0 then .short else .flat

/-! ### Marks and unrealized profit -/

def invalidatePnL (p : Portfolio) (accountID : AccountID) (instrumentID : InstrumentID) :
    Portfolio :=
  { p with unrealizedCache := p.unrealizedCache.delete (accountID, instrumentID) }

def setMark (p : Portfolio) (accountID : AccountID) (instrumentID : InstrumentID)
    (price : Decimal) : Portfolio :=
  invalidatePnL { p with marks := p.marks.put (accountID, instrumentID) price }
    accountID instrumentID

def realizedPnL (p : Portfolio) (accountID : AccountID) (instrumentID : InstrumentID) :
    Decimal :=
  (p.realized.get (accountID, instrumentID)).getD 0

def computeUnrealizedPnL (p : Portfolio) (accountID : AccountID)
    (instrumentID : InstrumentID) : Decimal :=
  match p.cache.positionByInstrument accountID instrumentID with
  | none => 0
  | some position =>
    let mark := (p.marks.get (accountID, instrumentID)).getD 0
    if position.side = .flat ∨ position.quantity = 0 then 0
    else if ¬ 0 < mark then 0
    else if position.side = .short then (position.entryPrice - mark) * position.quantity
    else (mark - position.entryPrice) * position.quantity

/-- The unrealized profit, and the portfolio that remembers it. -/
def unrealizedPnL (p : Portfolio) (accountID : AccountID) (instrumentID : InstrumentID) :
    Decimal × Portfolio :=
  match p.unrealizedCache.get (accountID, instrumentID) with
  | some value => (value, p)
  | none =>
    let value := p.computeUnrealizedPnL accountID instrumentID
    (value, { p with
      unrealizedCache := p.unrealizedCache.put (accountID, instrumentID) value })

/-! ### Balances -/

section Balances

variable [DecimalPackage]

/-- Add `delta` to the first balance of a currency. A currency without a
balance gets one, unless it is to be debited. -/
def applyBalanceDelta (balances : List Balance) (currency : Currency) (delta : Decimal) :
    Except Err (List Balance) :=
  match balances with
  | [] =>
    if delta < 0 then .error (invalidAccount ("missing balance for " ++ currency))
    else .ok [{
      currency := currency
      free := DecimalPackage.print delta
      total := DecimalPackage.print delta }]
  | balance :: rest =>
    if balance.currency = currency then do
      let a ← balance.amounts
      let total := a.total + delta
      let free := a.free + delta
      if total < 0 ∨ free < 0 then
        .error (invalidAccount ("balance delta makes " ++ currency ++ " negative"))
      else
        return {
          currency := currency
          free := DecimalPackage.print free
          locked := DecimalPackage.print a.locked
          total := DecimalPackage.print total } :: rest
    else do
      return balance :: (← applyBalanceDelta rest currency delta)

/-- Add the deltas one after the other; those that are zero are skipped. -/
def applyBalanceDeltas (balances : List Balance) :
    List (Currency × Decimal) → Except Err (List Balance)
  | [] => .ok balances
  | (currency, delta) :: deltas =>
    if delta = 0 then applyBalanceDeltas balances deltas
    else do
      let balances ← applyBalanceDelta balances currency delta
      applyBalanceDeltas balances deltas

/-- The deltas come from a map, whose currencies Go visits in no fixed order. -/
def accountWithBalanceDeltas (account : AccountSnapshot) (deltas : List (Currency × Decimal)) :
    Except Err AccountSnapshot := do
  let balances ← applyBalanceDeltas account.balances deltas
  let updated := { account with balances := balances }
  updated.validate
  return updated

def settlementCurrency (inst : Instrument) : Currency :=
  if inst.settle ≠ "" then inst.settle else inst.quote

def pnlCurrency (c : Cache) (instrumentID : InstrumentID) : Currency :=
  match c.instrument instrumentID with
  | none => ""
  | some inst => settlementCurrency inst

/-- What a fill adds to the balances: the realized profit in the settlement
currency, less the fee in its own. -/
def fillDeltas (c : Cache) (fill : FillReport) (realizedDelta : Decimal) :
    OrdMap Currency Decimal :=
  let currency := pnlCurrency c fill.instrumentID
  let deltas : OrdMap Currency Decimal :=
    if realizedDelta ≠ 0 ∧ currency ≠ "" then (∅ : OrdMap Currency Decimal).put currency
      realizedDelta
    else ∅
  if 0 < fill.fee ∧ fill.feeCurrency ≠ "" then
    deltas.put fill.feeCurrency ((deltas.get fill.feeCurrency).getD 0 - fill.fee)
  else deltas

def applyFillBalanceDeltas (fill : FillReport) (realizedDelta : Decimal) :
    Prog Cache Err Unit := do
  let c ← Prog.get
  let deltas := (fillDeltas c fill realizedDelta).entries
  match deltas, c.account fill.accountID with
  | [], _ => pure ()
  | _, none => pure ()
  | deltas, some account => do
    let updated ← Prog.lift (accountWithBalanceDeltas account deltas)
    Prog.modify (·.putAccount updated)

end Balances

/-! ### Fills -/

section Fills

variable [DecimalPackage]

def hasAppliedFill (p : Portfolio) (fill : FillReport) : Bool :=
  (p.appliedFills.get (Cache.fillKey fill)).isSome

def markAppliedFill (p : Portfolio) (fill : FillReport) : Portfolio :=
  { p with appliedFills := p.appliedFills.put (Cache.fillKey fill) () }

def applyCommission (p : Portfolio) (fill : FillReport) : Portfolio :=
  if ¬ 0 < fill.fee ∨ fill.feeCurrency = "" then p
  else
    let key := (fill.accountID, fill.feeCurrency)
    { p with commissions := p.commissions.put key ((p.commissions.get key).getD 0 + fill.fee) }

/-- The position id of a fill: its own, or else its instrument. -/
def fillPositionID (fill : FillReport) : PositionID :=
  if fill.positionID ≠ "" then fill.positionID else fill.instrumentID.string

/-- The entry price of a position after a fill, unless the fill flattens it. -/
def nextEntryPrice (existing : PositionStatusReport) (fill : FillReport) : Decimal :=
  if sameDirection existing fill then
    let totalQty := existing.quantity + fill.quantity
    if 0 < totalQty then
      DecimalPackage.div
        (existing.entryPrice * existing.quantity + fill.price * fill.quantity) totalQty
    else fill.price
  else if fill.quantity < existing.quantity then existing.entryPrice
  else fill.price

def nextPosition (c : Cache) (fill : FillReport) : PositionStatusReport :=
  let positionID := fillPositionID fill
  match c.position fill.accountID positionID with
  | none =>
    { accountID := fill.accountID
      instrumentID := fill.instrumentID
      positionID := positionID
      side := sideFromSigned (fillSignedQuantity fill)
      quantity := fill.quantity
      entryPrice := fill.price
      timestamp := fill.timestamp }
  | some existing =>
    let signed := signedPosition existing + fillSignedQuantity fill
    let side := sideFromSigned signed
    { accountID := fill.accountID
      instrumentID := fill.instrumentID
      positionID := positionID
      side := side
      quantity := |signed|
      entryPrice := if side = .flat then 0 else nextEntryPrice existing fill
      timestamp := fill.timestamp }

/-- The profit that a fill realizes on a position, if it closes any of it. -/
def realizedDelta (fill : FillReport) (previous : Option PositionStatusReport) :
    Option Decimal :=
  match previous with
  | none => none
  | some position =>
    if position.side = .flat ∨ position.quantity = 0 then none
    else if sameDirection position fill then none
    else
      let closeQty := min position.quantity fill.quantity
      if ¬ 0 < closeQty then none
      else if position.side = .short then some ((position.entryPrice - fill.price) * closeQty)
      else some ((fill.price - position.entryPrice) * closeQty)

def applyRealizedPnLFromPosition (p : Portfolio) (fill : FillReport)
    (previous : Option PositionStatusReport) : Portfolio :=
  match realizedDelta fill previous with
  | none => p
  | some pnl =>
    let realized := p.realizedPnL fill.accountID fill.instrumentID + pnl
    { p with realized := p.realized.put (fill.accountID, fill.instrumentID) realized }

def applyFillAccounting (fill : FillReport) (previous : Option PositionStatusReport)
    (position : PositionStatusReport) : Prog Portfolio Err Unit := do
  let p ← Prog.get
  if p.hasAppliedFill fill then pure ()
  else
    let _ ← onCache (Prog.step (·.putFill fill))
    Prog.modify fun p =>
      ((p.markAppliedFill fill).applyCommission fill).applyRealizedPnLFromPosition fill previous
    onCache (Prog.update (·.putPosition position))
    onCache (applyFillBalanceDeltas fill ((realizedDelta fill previous).getD 0))
    Prog.modify (·.setMark fill.accountID fill.instrumentID fill.price)

/-- A fill without a side is taken for a buy. -/
def withDefaultSide (fill : FillReport) : FillReport :=
  if fill.side = .unset then { fill with side := .buy } else fill

/-- `ApplyFill`. -/
def applyFill (fill : FillReport) : Prog Portfolio Err Unit := do
  Prog.lift fill.validate
  let fill := withDefaultSide fill
  let p ← Prog.get
  applyFillAccounting fill (p.cache.positionByInstrument fill.accountID fill.instrumentID)
    (nextPosition p.cache fill)

/-- `ApplyFillWithPosition`. -/
def applyFillWithPosition (fill : FillReport) (previous : Option PositionStatusReport)
    (position : PositionStatusReport) : Prog Portfolio Err Unit := do
  Prog.lift fill.validate
  applyFillAccounting (withDefaultSide fill) previous position

end Fills

end Portfolio

end Exchanges
