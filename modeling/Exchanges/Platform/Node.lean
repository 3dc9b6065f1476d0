import Exchanges.Account.Repair
import Exchanges.Execution.Engine
import Exchanges.Model.Subscriptions
import Exchanges.Portfolio.Effects

/-!
The live node: execution events applied and published.

The node's portfolio shares the node's cache, as it does in a node that is
configured without a portfolio of its own. An event goes to the reconciler
first, then a fill to the portfolio, and then everybody is told. What follows a
filled order, releasing held orders and cancelling siblings, are commands like
any others that the node is given, and is a parameter here.
-/

namespace Exchanges.Platform

open Exchanges.Lib Exchanges.Model

set_option linter.unusedSectionVars false

/-- `platform.Node` with the state of its execution engine and of its data engine. The
two engines use the node's cache. -/
structure Node where
  portfolio : Portfolio := Portfolio.new Cache.new
  /-- What was published on the execution topic. -/
  published : List ExecutionEvent := []
  /-- The rest of the execution engine. -/
  synthetics : OrdMap InstrumentID SyntheticInstrument := ∅
  submits : OrdMap ClientOrderID SubmitOrder := ∅
  emulator : Option Execution.Emulator := none
  engineEvents : List ExecutionEvent := []
  heldChildren : OrdMap (AccountID × ClientOrderID) (List SubmitOrder) := ∅
  orderListMembers : OrdMap (AccountID × OrderListID) (List ClientOrderID) := ∅
  /-- How many uses an emulated order makes of a feed; a feed without a use has no entry. -/
  emulationDataSubs : SubscriptionKey → ℕ := fun _ => 0
  emulationOrderSubs : OrdMap (AccountID × ClientOrderID) (List SubscribeMarketData) := ∅
  /-- The subscriptions of the user. -/
  activeDataSubs : SubscriptionKey → Bool := fun _ => false
  /-- The subscriptions of the data engine. -/
  subscriptions : SubscriptionKey → Bool := fun _ => false
  /-- What has been asked of clients and algorithms. -/
  requests : List Execution.Request := []
  /-- The children that were ever held, each under the key of its parent. -/
  listed : List ((AccountID × ClientOrderID) × SubmitOrder) := []
  /-- The children that `SubmitOrder` was called for, and those that it accepted. -/
  attempts : List ((AccountID × ClientOrderID) × SubmitOrder) := []
  submitted : List ((AccountID × ClientOrderID) × SubmitOrder) := []

namespace Node

def cache (n : Node) : Cache := n.portfolio.cache

def onPortfolio {α : Type} (q : Prog Portfolio Err α) : Prog Node Err α :=
  q.zoom (·.portfolio) fun p n => { n with portfolio := p }

def onCache {α : Type} (q : Prog Cache Err α) : Prog Node Err α := onPortfolio (Portfolio.onCache q)

theorem run_onPortfolio {α : Type} {q : Prog Portfolio Err α} {n : Node} {x : Except Err α}
    {p : Portfolio} (h : q.run n.portfolio = (x, p)) :
    (onPortfolio q).run n = (x, { n with portfolio := p }) := Prog.run_zoom h

theorem run_onCache {α : Type} {q : Prog Cache Err α} {n : Node} {x : Except Err α} {c : Cache}
    (h : q.run n.cache = (x, c)) :
    (onCache q).run n = (x, { n with portfolio := { n.portfolio with cache := c } }) :=
  run_onPortfolio (Prog.run_zoom h)

def publish (event : ExecutionEvent) : Prog Node Err Unit :=
  Prog.modify fun n => { n with published := n.published ++ [event] }

/-- The change of position that an event is about to cause. -/
def derivePositionLifecycle (c : Cache) (event : ExecutionEvent) : Option PositionLifecycleEvent :=
  match event.position with
  | none => none
  | some position =>
    newPositionLifecycleEvent (c.position position.accountID position.positionID) position

section

variable [DecimalPackage]

/-- Hand an event to the reconciler and to the portfolio, and publish it. -/
def applyEvent (event : ExecutionEvent) : Prog Node Err Unit := do
  onCache (Account.apply event)
  match event.fill with
  | some fill => onPortfolio (Portfolio.applyFill fill)
  | none => pure ()
  publish event

def applyLifecycle (lifecycle : Option PositionLifecycleEvent) : Prog Node Err Unit :=
  match lifecycle with
  | none => pure ()
  | some lifecycle => do
    onCache (Account.apply { positionLifecycle := some lifecycle })
    publish { positionLifecycle := some lifecycle }

/-- The order whose progress an event reports: the reported one, or the stored
order of a fill. -/
def progressed (c : Cache) (event : ExecutionEvent) : Option OrderStatusReport :=
  match event.order, event.fill with
  | some order, _ => some order
  | none, some fill => c.order fill.accountID fill.orderID
  | none, none => none

/-- `handleOrderListProgress` is given. After an order report nothing follows
it. -/
def applyAndPublish (handleOrderListProgress : OrderStatusReport → Prog Node Err Unit)
    (event : ExecutionEvent) : Prog Node Err Unit := do
  let n ← Prog.get
  let lifecycle := derivePositionLifecycle n.cache event
  applyEvent event
  let n ← Prog.get
  match progressed n.cache event with
  | some order => handleOrderListProgress order
  | none => pure ()
  if event.order.isSome then pure () else applyLifecycle lifecycle

/-! ### What an event leaves in the cache -/

variable {I : Cache → Prop} {n : Node} {event : ExecutionEvent}

theorem keeps_onPortfolio {α : Type} {q : Prog Portfolio Err α}
    (h : Prog.Keeps (fun p : Portfolio => I p.cache) q) :
    Prog.Keeps (fun n : Node => I n.cache) (onPortfolio q) := by
  intro n hn
  exact h n.portfolio hn

theorem keeps_onCache {α : Type} {q : Prog Cache Err α} (h : Prog.Keeps I q) :
    Prog.Keeps (fun n : Node => I n.cache) (onCache q) :=
  keeps_onPortfolio (.zoom (fun _ _ => rfl) h)

theorem keeps_publish : Prog.Keeps (fun n : Node => I n.cache) (publish event) :=
  .modify fun _ h => h

theorem keeps_applyEvent (happly : Prog.Keeps I (Account.apply event))
    (hfill : ∀ c b c' g, c.putFill g = .ok (b, c') → I c → I c')
    (hposition : ∀ c c' position, c.putPosition position = .ok c' → I c → I c')
    (haccount : ∀ c account, I c → I (c.putAccount account)) :
    Prog.Keeps (fun n : Node => I n.cache) (applyEvent event) := by
  refine (keeps_onCache happly).bind fun _ => ?_
  split
  · exact (keeps_onPortfolio (Portfolio.keeps_applyFill hfill hposition haccount)).bind fun _ =>
      keeps_publish
  · exact (Prog.Keeps.pure ()).bind fun _ => keeps_publish

theorem keeps_reachable_applyEvent :
    Prog.Keeps (fun n : Node => Cache.Reachable n.cache) (applyEvent event) :=
  keeps_applyEvent Account.keeps_reachable_apply (fun _ _ _ _ hput h => .putFill h hput)
    (fun _ _ _ hput h => .putPosition h hput) fun _ account h => .putAccount account h

theorem orders_of_putFill {c c' : Cache} {b : Bool} {g : FillReport}
    (h : c.putFill g = .ok (b, c')) : c'.orders = c.orders := by
  have hg : g.WellFormed := by
    simp only [Cache.putFill, except_seq_eq_ok] at h
    exact FillReport.validate_eq_ok.mp h.1
  cases hget : c.fills.get (Cache.fillKey g) with
  | some g' =>
    rw [Cache.putFill_of_stored hg hget] at h
    cases h
    rfl
  | none =>
    rw [Cache.putFill_of_new hg hget] at h
    cases h
    rfl

theorem orders_of_putPosition {c c' : Cache} {position : PositionStatusReport}
    (h : c.putPosition position = .ok c') : c'.orders = c.orders := by
  have hrun := (Account.frame_putPosition c position).1
  rwa [Prog.run_update_ok h] at hrun

/-- The orders after an event are those that the reconciler leaves, whether the
portfolio takes the event or not. -/
theorem orders_applyEvent (n : Node) (event : ExecutionEvent) :
    ((applyEvent event).run n).2.cache.orders = (Account.afterEvent n.cache event).orders := by
  have hrest : Prog.Keeps (fun m : Node => m.cache.orders =
      (Account.afterEvent n.cache event).orders) (do
        match event.fill with
        | some fill => onPortfolio (Portfolio.applyFill fill)
        | none => pure ()
        publish event : Prog Node Err Unit) := by
    split
    · exact (keeps_onPortfolio (I := fun c => c.orders = _) (Portfolio.keeps_applyFill
        (fun _ _ _ _ hput h => (orders_of_putFill hput).trans h)
        (fun _ _ _ hput h => (orders_of_putPosition hput).trans h)
        fun _ _ h => h)).bind fun _ => keeps_publish (I := fun c => c.orders = _)
    · exact (Prog.Keeps.pure ()).bind fun _ => keeps_publish (I := fun c => c.orders = _)
  rw [applyEvent, Prog.run_bind]
  have hfirst : ((onCache (Account.apply event)).run n).2.cache =
      Account.afterEvent n.cache event := rfl
  match hrun : (onCache (Account.apply event)).run n with
  | (.ok (), m) =>
    rw [hrun] at hfirst
    exact hrest m (congrArg Cache.orders hfirst)
  | (.error err, m) =>
    rw [hrun] at hfirst
    exact congrArg Cache.orders hfirst

/-- Announcing a change of position leaves the cache alone. -/
theorem keeps_applyLifecycle (lifecycle : Option PositionLifecycleEvent) :
    Prog.Keeps (fun n : Node => I n.cache) (applyLifecycle lifecycle) := by
  unfold applyLifecycle
  split
  · exact .pure ()
  · exact (keeps_onCache ((Prog.Keeps.lift _).bind fun _ => .pure ())).bind fun _ =>
      keeps_publish

end

end Node

end Exchanges.Platform
