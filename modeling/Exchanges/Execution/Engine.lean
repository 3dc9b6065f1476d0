import Exchanges.Execution.Emulator

/-!
The execution engine: commands routed to the emulator, to an algorithm or to the
client of the account.

The engine calls code that is not its own: the clients and the algorithms. What
such a call does is not fixed here. It is a program over the state of the whole
application, of which the engine's state is a part, so that a report that comes in
while a request is outstanding can change what the engine finds afterwards. `Host`
says where the engine's state is and what a call does.
-/

namespace Exchanges.Execution

open Exchanges.Lib Exchanges.Model

/-- `execution.Engine` with its manager and its emulator, which share one cache. The
synthetic instruments are those of the cache. -/
structure Engine where
  cache : Cache := Cache.new
  synthetics : OrdMap InstrumentID SyntheticInstrument := ∅
  /-- The manager's `submits`. -/
  submits : OrdMap ClientOrderID SubmitOrder := ∅
  emulator : Option Emulator := none
  /-- What the engine published and nobody has taken yet. -/
  events : List ExecutionEvent := []

namespace Engine

def tick (e : Engine) : InstrumentID → Option Decimal := priceTick e.cache e.synthetics

def onCache {α : Type} (q : Prog Cache Err α) : Prog Engine Err α :=
  q.zoom (·.cache) fun c e => { e with cache := c }

/-- `CacheSubmitCommand`. -/
def cacheSubmitCommand (order : SubmitOrder) : Prog Engine Err Unit := do
  Prog.lift order.validate
  Prog.modify fun e => { e with submits := e.submits.put order.clientOrderID order }

/-- `PopSubmitCommand`. -/
def popSubmitCommand (clientOrderID : ClientOrderID) : Prog Engine Err Unit :=
  Prog.modify fun e => { e with submits := e.submits.delete clientOrderID }

def setEmulator (em : Emulator) : Prog Engine Err Unit :=
  Prog.modify fun e => { e with emulator := some em }

def publishOrderLifecycle (report : OrderStatusReport) (kind : OrderEventKind)
    (previous : OrderStatus) : Prog Engine Err Unit :=
  Prog.modify fun e => { e with events := e.events ++
    [{ lifecycle := some (orderLifecycleFromReport report kind previous "") }] }

section Emulator

variable [DecimalPackage] (m : Manager) (em : Emulator)

/-- `Manager.ApplyOrderReport` on the engine's cache. -/
def applyReport (report : OrderStatusReport) : Prog Engine Err Unit :=
  onCache (applyOrderReport m report)

def applyRelease (release : EmulatedRelease) : Prog Engine Err Unit := do
  applyReport m release.triggered
  applyReport m release.released

/-! ### The emulator's methods -/

def latestBidAskMarketEvent (c : Cache) (instrumentID : InstrumentID) : Option MarketEvent :=
  match c.quotes.get instrumentID, c.orderBooks.get instrumentID with
  | some quote, some book =>
    if quote.timestamp < book.timestamp then some { orderBook := some book }
    else some { quote := some quote }
  | some quote, none => some { quote := some quote }
  | none, some book => some { orderBook := some book }
  | none, none => none

def latestMarketEvent (c : Cache) (order : SubmitOrder) : Option MarketEvent :=
  match order.emulationTrigger with
  | .bidAsk => latestBidAskMarketEvent c order.triggerInstrument
  | .default => latestBidAskMarketEvent c order.triggerInstrument
  | .lastPrice =>
    (c.trades.get order.triggerInstrument).map fun trade => { trade := some trade }
  | _ => none

/-- `Emulator.SubmitOrder`. An order that the market has already reached is released
at once and never held. -/
def emulatorSubmitOrder (order : SubmitOrder) :
    Prog Engine Err (OrderStatusReport × Option EmulatedRelease) := do
  Prog.lift (reject (order.emulationTrigger.isActive = false)
    (invalidOrder "order has no emulation trigger"))
  Prog.lift order.validate
  cacheSubmitCommand order
  let e ← Prog.get
  let report := orderStatusReportFromSubmit order .emulated
  match latestMarketEvent e.cache order with
  | none => do
    setEmulator (em.hold order)
    applyReport m report
    pure (report, none)
  | some event =>
    let evaluation := em.evaluate e.tick event order
    if evaluation.triggered then do
      setEmulator (em.unmark (emulatedKey order))
      applyRelease m evaluation.release
      pure (evaluation.release.released, some evaluation.release)
    else do
      setEmulator ((em.mark (emulatedKey order) evaluation.extreme).hold evaluation.order)
      let report := if evaluation.updated then
        orderStatusReportFromSubmit evaluation.order .emulated else report
      applyReport m report
      pure (report, none)

/-- The reports about the orders that changed, and then about those that were
triggered. -/
def applySweep (sweep : Sweep) : Prog Engine Err Unit := do
  Prog.forEach (applyReport m) sweep.updates
  Prog.forEach (applyRelease m) sweep.releases

/-- `Emulator.ProcessMarketEvent`. -/
def emulatorProcessMarketEvent (event : MarketEvent) :
    Prog Engine Err (List EmulatedRelease) := do
  Prog.lift event.validate
  let e ← Prog.get
  let sweep := em.sweep e.tick event
  setEmulator sweep.emulator
  applySweep m sweep
  pure sweep.releases

/-- The emulated order that a command names. -/
def emulatedOrderReport (c : Cache) (accountID : AccountID) (orderID : OrderID)
    (clientOrderID : ClientOrderID) : Option OrderStatusReport :=
  let isEmulated (report : OrderStatusReport) : Bool := decide (report.status = .emulated)
  ((if orderID ≠ "" then c.order accountID orderID else none).filter isEmulated).or
    ((if clientOrderID ≠ "" then c.orderByClientID accountID clientOrderID else none).filter
      isEmulated)

def reportKey (report : OrderStatusReport) : EmulatedKey :=
  (report.accountID, report.clientOrderID)

/-- `applyEmulatedOrderModification`. -/
def applyEmulatedOrderModification (order : SubmitOrder) (report : OrderStatusReport)
    (modify : ModifyOrder) : Except Err (SubmitOrder × OrderStatusReport) := do
  let updated ← applyOrderModification report modify
  let updated := { updated with
    status := .emulated
    metadata := modify.metadata.withDefaults report.metadata }
  return ({ order with
    metadata := modify.metadata.withDefaults order.metadata
    quantity := updated.quantity
    price := updated.price
    triggerPrice := updated.triggerPrice
    activationPrice := updated.activationPrice
    trailingOffset := updated.trailingOffset
    trailingOffsetType := updated.trailingOffsetType
    timeInForce := updated.timeInForce }, updated)

/-- A modification after which a trailing stop starts anew. -/
def restartsTrailing (modify : ModifyOrder) : Bool :=
  decide (0 < modify.triggerPrice ∨ 0 < modify.activationPrice ∨ 0 < modify.trailingOffset ∨
    modify.trailingOffsetType ≠ .unset)

/-- The rest of `Emulator.ModifyOrder` for an order that is held. -/
def modifyHeld (report : OrderStatusReport) (modify : ModifyOrder) (order : SubmitOrder) :
    Prog Engine Err (OrderStatusReport × Option EmulatedRelease) := do
  let (nextOrder, nextReport) ← Prog.lift (applyEmulatedOrderModification order report modify)
  let e ← Prog.get
  let key := reportKey report
  let em := if restartsTrailing modify then em.unmark key else em
  let em := em.hold nextOrder
  match latestMarketEvent e.cache nextOrder with
  | none => do
    setEmulator em
    applyReport m nextReport
    pure (nextReport, none)
  | some event =>
    let evaluation := em.evaluate e.tick event nextOrder
    let em := em.mark key evaluation.extreme
    if evaluation.triggered then do
      setEmulator (em.drop key)
      applyReport m nextReport
      applyRelease m evaluation.release
      pure (nextReport, some evaluation.release)
    else do
      setEmulator (if evaluation.updated then em.hold evaluation.order else em)
      let nextReport := if evaluation.updated then
        { orderStatusReportFromSubmit evaluation.order .emulated with
          metadata := modify.metadata.withDefaults report.metadata } else nextReport
      applyReport m nextReport
      pure (nextReport, none)

/-- `Emulator.ModifyOrder`; no answer means that the order is not held. -/
def emulatorModifyOrder (modify : ModifyOrder) :
    Prog Engine Err (Option (OrderStatusReport × Option EmulatedRelease)) := do
  Prog.lift modify.validate
  let e ← Prog.get
  match emulatedOrderReport e.cache modify.accountID modify.orderID modify.clientOrderID with
  | none => pure none
  | some report =>
    match em.orders.get (reportKey report) with
    | none => pure none
    | some order => do
      let answer ← modifyHeld m em report modify order
      pure (some answer)

/-- `Emulator.CancelOrder`; no answer means that the order is not held. -/
def emulatorCancelOrder (cancel : CancelOrder) :
    Prog Engine Err (Option OrderStatusReport) := do
  Prog.lift cancel.validate
  let e ← Prog.get
  match emulatedOrderReport e.cache cancel.accountID cancel.orderID cancel.clientOrderID with
  | none => pure none
  | some report =>
    if (em.orders.get (reportKey report)).isNone then pure none
    else do
      setEmulator (em.drop (reportKey report))
      popSubmitCommand report.clientOrderID
      let report := { report with
        metadata := cancel.metadata.withDefaults report.metadata
        status := .canceled
        leavesQuantity := 0 }
      applyReport m report
      pure (some report)

end Emulator

end Engine

/-! ### The engine's methods -/

/-- What the engine asks of code that is not its own. -/
inductive Request where
  | submit (order : SubmitOrder)
  | cancel (cancel : CancelOrder)
  | modify (modify : ModifyOrder)
  | algorithm (id : ExecAlgorithmID) (order : SubmitOrder)
  deriving DecidableEq

/-- The application that an engine runs in. -/
structure Host (σ : Type) where
  engine : σ → Engine
  setEngine : Engine → σ → σ
  /-- The account has a client. -/
  connected : AccountID → Bool
  /-- The account's client can modify orders. -/
  modifies : AccountID → Bool
  /-- The algorithm is registered. -/
  algorithms : ExecAlgorithmID → Bool
  call : Request → Prog σ Err OrderStatusReport

namespace Host

variable [DecimalPackage] {σ : Type} (host : Host σ) (m : Manager)

def onEngine {α : Type} (q : Prog Engine Err α) : Prog σ Err α :=
  q.zoom host.engine host.setEngine

def client (accountID : AccountID) : Prog σ Err Unit :=
  Prog.lift (reject (host.connected accountID = false) ⟨.clientNotFound, "account", [accountID]⟩)

def submitOrderToAlgorithm (order : SubmitOrder) (id : ExecAlgorithmID) :
    Prog σ Err OrderStatusReport := do
  Prog.lift (reject (host.algorithms id = false) ⟨.algorithmNotFound, "", [id]⟩)
  let report ← host.call (.algorithm id order)
  host.onEngine (Engine.applyReport m report)
  pure report

def submitOrderToClient (order : SubmitOrder) : Prog σ Err OrderStatusReport := do
  host.onEngine (Engine.cacheSubmitCommand order)
  host.client order.accountID
  let report ← host.call (.submit order)
  host.onEngine (Engine.applyReport m report)
  pure report

/-- `SubmitOrder` for an order that is not, or no longer, emulated. -/
def submitUnemulated (order : SubmitOrder) : Prog σ Err OrderStatusReport :=
  if order.metadata.execAlgorithmID ≠ "" then
    host.submitOrderToAlgorithm m order order.metadata.execAlgorithmID
  else host.submitOrderToClient m order

/-- An order that is released at once is submitted again, as it is then. -/
def submitOrderToEmulator (order : SubmitOrder) : Prog σ Err OrderStatusReport := do
  let s ← Prog.get
  match (host.engine s).emulator with
  | none => Prog.fail ⟨.notSupported, "execution emulator is not configured", []⟩
  | some em => do
    let (report, release) ← host.onEngine (Engine.emulatorSubmitOrder m em order)
    match release with
    | some release => do
      host.onEngine (Engine.publishOrderLifecycle release.triggered .triggered .initialized)
      host.onEngine (Engine.publishOrderLifecycle release.released .released .triggered)
      host.submitUnemulated m release.order
    | none => do
      host.onEngine (Engine.publishOrderLifecycle report .emulated .initialized)
      pure report

def submitOrder (order : SubmitOrder) : Prog σ Err OrderStatusReport :=
  if order.emulationTrigger.isActive then host.submitOrderToEmulator m order
  else host.submitUnemulated m order

/-- A released order is never sent back to the emulator. -/
theorem submitOrder_transformReleasedOrder (order : SubmitOrder) :
    host.submitOrder m (transformReleasedOrder order) =
      host.submitUnemulated m (transformReleasedOrder order) := by
  rw [submitOrder, emulationTrigger_transformReleasedOrder]
  rfl

/-- The loop of `ProcessMarketEvent`. -/
def submitReleases : List EmulatedRelease → Prog σ Err (List OrderStatusReport)
  | [] => pure []
  | release :: releases => do
    host.onEngine (Engine.publishOrderLifecycle release.triggered .triggered .emulated)
    host.onEngine (Engine.publishOrderLifecycle release.released .released .triggered)
    let report ← host.submitOrder m release.order
    let reports ← submitReleases releases
    pure (report :: reports)

def processMarketEvent (event : MarketEvent) : Prog σ Err (List OrderStatusReport) := do
  let s ← Prog.get
  match (host.engine s).emulator with
  | none => do
    Prog.lift event.validate
    pure []
  | some em => do
    let releases ← host.onEngine (Engine.emulatorProcessMarketEvent m em event)
    host.submitReleases m releases

/-- `cancelEmulatedOrder`; no answer means that the order is not held. -/
def cancelEmulatedOrder (cancel : CancelOrder) : Prog σ Err (Option OrderStatusReport) := do
  let s ← Prog.get
  match (host.engine s).emulator with
  | none => pure none
  | some em => do
    let answer ← host.onEngine (Engine.emulatorCancelOrder m em cancel)
    match answer with
    | none => pure none
    | some report => do
      host.onEngine (Engine.publishOrderLifecycle report .canceled .emulated)
      pure (some report)

def cancelOrder (cancel : CancelOrder) : Prog σ Err OrderStatusReport := do
  Prog.lift cancel.validate
  let answer ← host.cancelEmulatedOrder m cancel
  match answer with
  | some report => pure report
  | none => do
    host.client cancel.accountID
    let report ← host.call (.cancel cancel)
    host.onEngine (Engine.applyReport m report)
    pure report

end Host

end Exchanges.Execution
