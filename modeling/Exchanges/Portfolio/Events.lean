import Exchanges.Cache.Market
import Exchanges.Portfolio.Effects

/-!
What the portfolio is told: accounts, orders, positions and market data.

Every handler writes to the shared cache, and then forgets the profits that it
takes to be out of date.
-/

namespace Exchanges.Portfolio

open Exchanges.Lib Exchanges.Model

/-! ### Execution events -/

/-- Forget the profits of every instrument of an account. -/
def invalidateAccountPnL (p : Portfolio) (accountID : AccountID) : Portfolio :=
  { p with unrealizedCache := p.unrealizedCache.deleteRow accountID }

def putOrder (order : OrderStatusReport) : Prog Portfolio Err Unit := do
  onCache (Prog.update (·.putOrder order))
  Prog.modify (·.invalidatePnL order.accountID order.instrumentID)

/-- A position is marked at its entry price as long as it has no other mark. -/
def markAtEntry (p : Portfolio) (position : PositionStatusReport) : Portfolio :=
  if 0 < position.entryPrice ∧
      ¬ 0 < (p.marks.get (position.accountID, position.instrumentID)).getD 0 then
    p.setMark position.accountID position.instrumentID position.entryPrice
  else p

def putPosition (position : PositionStatusReport) : Prog Portfolio Err Unit := do
  onCache (Prog.update (·.putPosition position))
  Prog.modify fun p =>
    (p.invalidatePnL position.accountID position.instrumentID).markAtEntry position

/-- The order that an event without a report describes. -/
def orderOfLifecycle (event : OrderLifecycleEvent) : OrderStatusReport :=
  { metadata := event.metadata
    accountID := event.accountID
    instrumentID := event.instrumentID
    orderID := event.orderID
    clientOrderID := event.clientOrderID
    venueOrderID := event.venueOrderID
    status := event.status }

def handleOrderLifecycleEvent (event : OrderLifecycleEvent) : Prog Portfolio Err Unit :=
  match event.report with
  | some report => putOrder report
  | none => if event.orderID = "" then pure () else putOrder (orderOfLifecycle event)

/-- The position that a position event stores: the reported one, or what the
event itself says. -/
def positionOfLifecycle (event : PositionLifecycleEvent) : PositionStatusReport :=
  match event.report with
  | some report => report
  | none =>
    { accountID := event.accountID
      instrumentID := event.instrumentID
      positionID := event.positionID
      side := event.side
      quantity := event.quantity }

def handlePositionLifecycleEvent (event : PositionLifecycleEvent) : Prog Portfolio Err Unit :=
  putPosition (positionOfLifecycle event)

section

variable [DecimalPackage]

def updateAccount (account : AccountSnapshot) : Prog Portfolio Err Unit := do
  Prog.lift account.validate
  onCache (Prog.modify (·.putAccount account))
  Prog.modify (·.invalidateAccountPnL account.accountID)

def handleExecutionEvent (event : ExecutionEvent) : Prog Portfolio Err Unit := do
  Prog.lift event.validate
  match event.account, event.order, event.lifecycle, event.fill, event.position,
      event.positionLifecycle with
  | some account, _, _, _, _, _ => updateAccount account
  | none, some order, _, _, _, _ => putOrder order
  | none, none, some lifecycle, _, _, _ => handleOrderLifecycleEvent lifecycle
  | none, none, none, some fill, _, _ => applyFill fill
  | none, none, none, none, some position, _ => putPosition position
  | none, none, none, none, none, some lifecycle => handlePositionLifecycleEvent lifecycle
  | none, none, none, none, none, none => Prog.fail ⟨.invalidExecutionEvent, "", []⟩

end

/-! ### Market events -/

/-- The price at which an event marks a position of a side, or zero. -/
def marketEventMark (event : MarketEvent) (side : PositionSide) : Decimal :=
  match event.quote, event.orderBook, event.ticker, event.trade, event.bar with
  | some quote, _, _, _, _ => if side = .short then quote.askPrice else quote.bidPrice
  | none, some book, _, _, _ =>
    match side, book.bids, book.asks with
    | .short, _, ask :: _ => ask.price
    | .long, bid :: _, _ => bid.price
    | _, _, _ => 0
  | none, none, some ticker, _, _ =>
    if 0 < ticker.last then ticker.last
    else if side = .short then ticker.ask
    else ticker.bid
  | none, none, none, some trade, _ => trade.price
  | none, none, none, none, some bar => bar.close
  | none, none, none, none, none => 0

/-- Mark the account of a position that is open, if the event gives a price. -/
def markPosition (event : MarketEvent) (p : Portfolio) (position : PositionStatusReport) :
    Portfolio :=
  if position.side = .flat ∨ position.quantity = 0 then p
  else if 0 < marketEventMark event position.side then
    p.setMark position.accountID event.instrumentID (marketEventMark event position.side)
  else p

/-- `ApplyMarketEvent`. -/
def applyMarketEvent (event : MarketEvent) : Prog Portfolio Err Unit := do
  Prog.lift event.validate
  onCache (Prog.update (·.putMarketEvent event))
  Prog.modify fun p =>
    (p.cache.positionsForInstrument event.instrumentID).foldl (markPosition event) p

end Exchanges.Portfolio
