import Exchanges.Backtest.Runtime

/-!
Strategies and the runner.

What a strategy does when it is called is a tree: it may look at the cache, the
portfolio and the clock, issue a command, go on depending on the answer and on
what it sees then, and so on until it returns. A strategy that loops for ever
has no such tree. Whatever a strategy keeps between two calls is the text that
it `remember`s.

A strategy is called from inside an operation of the runtime, and its commands
are operations of the runtime again. `nestedAt` builds what is available at
each depth from what is available one level further down, and a run is given a
depth beyond which everything fails. Results about runs hold for every depth.
-/

namespace Exchanges.Backtest

open Exchanges.Lib Exchanges.Model

/-! ### Strategies -/

/-- The part of `strategy.Runtime` that acts on orders, accounts and timers. -/
inductive Command where
  | setTimer (name : String) (interval : ℤ)
  | cancelTimer (name : String)
  | submitOrder (order : SubmitOrder)
  | submitOrderList (list : OrderList)
  | modifyOrder (modify : ModifyOrder)
  | cancelOrder (cancel : CancelOrder)
  | batchCancelOrders (batch : BatchCancelOrders)
  | cancelAllOrders (cancelAll : CancelAllOrders)
  | queryOrder (query : QueryOrder)
  | queryAccount (query : QueryAccount)
  deriving DecidableEq, Repr

inductive Reply where
  | done
  | order (report : OrderStatusReport)
  | orders (reports : List OrderStatusReport)
  | account (snapshot : AccountSnapshot)

/-- What a strategy sees when it looks. -/
structure View where
  now : Time
  cache : Cache
  pf : Portfolio
  memory : String

/-- What a strategy does in one call. -/
inductive Script where
  | done (result : Except Err Unit)
  | remember (memory : String) (next : Script)
  | command (command : Command) (next : Except Err Reply → View → Script)

structure Strategy where
  id : StrategyID
  onStart : View → Script
  onEvent : View → Envelope → Script
  onStop : View → Script

/-- Issue commands one after the other, whatever becomes of them. -/
def Script.issue : List Command → Script
  | [] => .done (.ok ())
  | next :: commands => .command next fun _ _ => Script.issue commands

/-- The strategy that answers market data and execution events with commands. -/
def Strategy.answering (id : StrategyID) (market : MarketEvent → List Command)
    (execution : ExecutionEvent → List Command) : Strategy where
  id := id
  onStart _ := .issue []
  onEvent _ env := match env.message with
    | .market event => .issue (market event)
    | .execution event => .issue (execution event)
    | _ => .issue []
  onStop _ := .issue []

def Runtime.view (r : Runtime) (id : StrategyID) : View where
  now := r.currentTime
  cache := r.cache
  pf := r.pf
  memory := (r.memory.get id).getD ""

/-- `commandMetadata`: a command says which strategy it is from, and when. -/
def commandMetadata (id : StrategyID) (now : Time) (metadata : CommandMetadata) :
    CommandMetadata :=
  metadata.withDefaults { strategyID := id, tsInit := now }

section Runner

variable [DecimalPackage]

/-- Carry out a command of a strategy. -/
def execute (cfg : Config) (nested : Nested) (id : StrategyID) (command : Command) :
    Prog Runtime Err Reply := do
  let r ← Prog.get
  let stamp := commandMetadata id r.currentTime
  match command with
  | .setTimer name interval => do
    setTimer name interval
    pure .done
  | .cancelTimer name => do
    cancelTimer name
    pure .done
  | .submitOrder order => do
    let report ← submitOrder cfg nested { order with metadata := stamp order.metadata }
    pure (.order report)
  | .submitOrderList list => do
    let list := { list with metadata := stamp list.metadata }
    let reports ← submitOrderList cfg nested list.withCommandMetadataDefaults
    pure (.orders reports)
  | .modifyOrder modify => do
    let report ← modifyOrder nested { modify with metadata := stamp modify.metadata }
    pure (.order report)
  | .cancelOrder cancel => do
    let report ← cancelOrder nested { cancel with metadata := stamp cancel.metadata }
    pure (.order report)
  | .batchCancelOrders batch => do
    let metadata := stamp batch.metadata
    let reports ← batchCancelOrders nested { batch with
      metadata := metadata
      cancels := batch.cancels.map fun cancel =>
        { cancel with metadata := cancel.metadata.withDefaults metadata } }
    pure (.orders reports)
  | .cancelAllOrders cancelAll => do
    let reports ← cancelAllOrders nested
      { cancelAll with metadata := stamp cancelAll.metadata }
    pure (.orders reports)
  | .queryOrder query => do
    let report ← queryOrder { query with metadata := stamp query.metadata }
    pure (.order report)
  | .queryAccount query => do
    let snapshot ← queryAccount nested { query with metadata := stamp query.metadata }
    pure (.account snapshot)

omit [DecimalPackage] in
/-- Run what a strategy does, with a way to carry out its commands. -/
def runScript (execute : Command → Prog Runtime Err Reply) (id : StrategyID)
    (execution : Bool) : Script → Prog Runtime Err Unit
  | .done result => Prog.lift result
  | .remember memory next => do
    Prog.modify fun r => { r with memory := r.memory.put id memory }
    runScript execute id execution next
  | .command command next => do
    record (.commanded execution)
    let reply ← (execute command).attempt
    let r ← Prog.get
    runScript execute id execution (next reply (r.view id))

/-- Call a strategy, with an execution event or not. -/
def callStrategy (cfg : Config) (nested : Nested) (s : Strategy) (execution : Bool)
    (script : View → Script) : Prog Runtime Err Unit := do
  let r ← Prog.get
  record (.callback r.currentTime r.cache)
  runScript (execute cfg nested s.id) s.id execution (script (r.view s.id))

omit [DecimalPackage] in
/-- Whether an envelope has an execution event. -/
def Envelope.isExecution (env : Envelope) : Bool := decide (env.topic = .execution)

omit [DecimalPackage] in
/-- Run a program for each strategy, whatever becomes of the others. The source
joins the errors; here the first stands for them. -/
def forAll (f : Strategy → Prog Runtime Err Unit) : List Strategy → Prog Runtime Err Unit
  | [] => pure ()
  | s :: strategies => do
    let first ← (f s).attempt
    let rest ← (forAll f strategies).attempt
    match first with
    | .error err => Prog.fail err
    | .ok () => Prog.lift rest

/-- What is available at a depth. -/
def nestedAt (cfg : Config) (strategies : List Strategy) : Nat → Nested
  | 0 => ⟨fun _ => Prog.fail outOfRoom, fun _ => Prog.fail outOfRoom⟩
  | depth + 1 =>
    let below := nestedAt cfg strategies depth
    ⟨fun env => forAll
        (fun s => callStrategy cfg below s env.isExecution (s.onEvent · env)) strategies,
      matchOrder cfg below⟩

/-! ### The runner -/

structure Event where
  time : Time
  topic : Topic
  message : Message

/-- What a run is made from: `Config` of the source, with the way in which the map
of accounts is enumerated and the room for nested calls and for timers. -/
structure Setup where
  cfg : Config := {}
  strategies : List Strategy := []
  events : List Event := []
  enumeration : Enumeration := .sorted
  depth : Nat
  timers : Nat

namespace Setup

variable (setup : Setup)

/-- The same input with another enumeration of the accounts. -/
def enumeratedBy (e : Enumeration) : Setup := { setup with enumeration := e }

def nested : Nested := nestedAt setup.cfg setup.strategies setup.depth

omit [DecimalPackage] in
/-- The events in the order of their times; those of one time stay in order. -/
def sortedEvents : List Event := setup.events.insertionSort fun a b => a.time ≤ b.time

/-- Match the open orders if there is market data. -/
def matchOnMarketData (event : Event) : Prog Runtime Err Unit :=
  if event.topic = .marketData then matchOpenOrders setup.cfg setup.nested setup.enumeration else pure ()

/-- The body of the loop of `Run`. -/
def processEvent (event : Event) : Prog Runtime Err Unit := do
  dispatchTimersDue setup.nested setup.timers event.time
  expireOpenOrders setup.nested setup.enumeration event.time
  setTime .event event.time
  recordMarket event.message
  setup.matchOnMarketData event
  setup.nested.process ⟨event.topic, event.message, event.time⟩
  setup.matchOnMarketData event

/-- The clock starts with the first event. -/
def startClock : Prog Runtime Err Unit :=
  match setup.sortedEvents with
  | [] => pure ()
  | event :: _ => setTime .start event.time

/-- `Run`. A strategy that fails to start ends the run; after a failure later on
the strategies are still stopped. -/
def run : Prog Runtime Err Unit := do
  setup.startClock
  Prog.forEach (fun s => callStrategy setup.cfg setup.nested s false s.onStart) setup.strategies
  let result ← (Prog.forEach setup.processEvent setup.sortedEvents).attempt
  let stopped ← (forAll (fun s => callStrategy setup.cfg setup.nested s false s.onStop)
    setup.strategies).attempt
  match result with
  | .error err => Prog.fail err
  | .ok () => Prog.lift stopped

end Setup

/-- The state a run starts in: `NewRunner` with a cache and a portfolio. -/
def initial (c : Cache) (p : Portfolio) : Runtime := { cache := c, pf := p }

/-- What a run leaves behind. -/
def Setup.result (setup : Setup) (c : Cache) (p : Portfolio) : Runtime :=
  (setup.run.run (initial c p)).2

end Runner

end Exchanges.Backtest
