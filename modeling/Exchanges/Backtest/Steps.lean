import Exchanges.Backtest.Runner
import Exchanges.Lib.Steps

/-!
The steps of a backtest.

An operation of the runtime is interrupted by callbacks at many places, so that
what an operation did before a callback and what it does after it are steps of
their own. This module lists the steps with what is known about each of them
when it is taken. `Plain` steps change no position and add no fill; a fill is
booked in one step, together with the position that it leads to, since no
strategy is called in between.

Some orders are not read from the cache at the moment they are used: the open
orders are listed before the first of them is matched or expired, and an order
is matched in the version that was stored or listed. What is known about such a
version is the parameter `V`, a property that all stored orders have and that may
depend on what has happened until then.
-/

namespace Exchanges.Backtest

open Exchanges.Lib Exchanges.Model

/-- Nothing that the results speak of differs. -/
structure Same (r r' : Runtime) : Prop where
  cache : r'.cache = r.cache
  market : r'.market = r.market
  consumed : r'.consumed = r.consumed
  accounts : r'.accounts = r.accounts
  heldChildren : r'.heldChildren = r.heldChildren
  orderListMembers : r'.orderListMembers = r.orderListMembers
  eligibleAt : r'.eligibleAt = r.eligibleAt
  currentTime : r'.currentTime = r.currentTime
  nextOrder : r'.nextOrder = r.nextOrder
  nextTrade : r'.nextTrade = r.nextTrade
  trace : r'.trace = r.trace

/-! ### Timers -/

/-- A timer as `SetTimer` makes it. -/
structure TimerState.Sound (timer : TimerState) (name : String) : Prop where
  name_eq : timer.name = name
  name_ne : name ≠ ""
  interval_pos : 0 < timer.interval

/-- Every timer is found under its name. -/
def SoundTimers (r : Runtime) : Prop :=
  ∀ name timer, r.timers.get name = some timer → timer.Sound name

/-- No timer is overdue. -/
def Ahead (r : Runtime) : Prop :=
  ∀ name timer, r.timers.get name = some timer → r.currentTime ≤ timer.next

/-- What can become of the timers while the clock stands: they stay sound, and one
that was not there before is due later. -/
structure Retimed (r r' : Runtime) : Prop where
  sound : SoundTimers r → SoundTimers r'
  later : SoundTimers r → Ahead r → ∀ name timer, r'.timers.get name = some timer →
    r.timers.get name = some timer ∨ r.currentTime < timer.next

theorem Retimed.of_eq {r r' : Runtime} (h : r'.timers = r.timers) : Retimed r r' where
  sound hr name timer hget := hr name timer (h ▸ hget)
  later _ _ _ _ hget := .inl (h ▸ hget)

theorem retimed_put {r : Runtime} {name : String} {timer : TimerState}
    (hsound : SoundTimers r → timer.Sound name)
    (hlater : SoundTimers r → Ahead r → r.currentTime < timer.next) :
    Retimed r { r with timers := r.timers.put name timer } where
  sound hr name' timer' hget := by
    have hget : (r.timers.put name timer).get name' = some timer' := hget
    rw [OrdMap.get_put] at hget
    split at hget
    · next heq =>
        cases hget
        exact heq ▸ hsound hr
    · exact hr name' timer' hget
  later hr hahead name' timer' hget := by
    have hget : (r.timers.put name timer).get name' = some timer' := hget
    rw [OrdMap.get_put] at hget
    split at hget
    · cases hget
      exact .inr (hlater hr hahead)
    · exact .inl hget

theorem retimed_set (r : Runtime) {name : String} {interval : ℤ}
    (hvalid : validateTimer name interval = .ok ()) : Retimed r { r with
      timers := r.timers.put name ⟨name, interval, r.currentTime + interval⟩ } := by
  simp only [validateTimer, except_seq_eq_ok, reject_eq_ok, not_le] at hvalid
  obtain ⟨hname, hpos⟩ := hvalid
  exact retimed_put (fun _ => ⟨rfl, hname, hpos⟩) fun _ _ => lt_add_of_pos_right _ hpos

theorem retimed_cancel (r : Runtime) (name : String) :
    Retimed r { r with timers := r.timers.delete name } := by
  have hget : ∀ name' timer, (r.timers.delete name).get name' = some timer →
      r.timers.get name' = some timer := by
    intro name' timer hget
    rw [OrdMap.get_delete] at hget
    split at hget
    · cases hget
    · exact hget
  exact ⟨fun hr name' timer h => hr name' timer (hget name' timer h),
    fun _ _ name' timer h => .inl (hget name' timer h)⟩

theorem retimed_advance (r : Runtime) (timer : TimerState) :
    Retimed r (advanceTimer timer r) := by
  unfold advanceTimer
  split
  · next current hcurrent =>
      dsimp only
      split_ifs
      · refine retimed_put (fun hr => ?_) fun hr hahead => ?_
        · obtain ⟨hname, hne, hpos⟩ := hr _ _ hcurrent
          exact ⟨hname, hne, hpos⟩
        · exact lt_of_le_of_lt (hahead _ _ hcurrent)
            (lt_add_of_pos_right _ (hr _ _ hcurrent).interval_pos)
      · exact .of_eq rfl
  · exact .of_eq rfl

/-! ### Orders -/

/-- The order is stored. -/
def Cached (r : Runtime) (o : OrderStatusReport) : Prop := ∃ key, r.cache.orders.get key = some o

/-- The report is about the order, with the quantities of the order. -/
structure Revises (o report : OrderStatusReport) : Prop where
  accountID : report.accountID = o.accountID
  orderID : report.orderID = o.orderID
  instrumentID : report.instrumentID = o.instrumentID
  clientOrderID : report.clientOrderID = o.clientOrderID
  venueOrderID : report.venueOrderID = o.venueOrderID
  quantity : report.quantity = o.quantity
  filledQuantity : report.filledQuantity = o.filledQuantity
  leavesQuantity : report.leavesQuantity = o.leavesQuantity ∨
    report.leavesQuantity = 0 ∧ report.status.isTerminal = true

theorem Revises.refl (o : OrderStatusReport) : Revises o o :=
  ⟨rfl, rfl, rfl, rfl, rfl, rfl, rfl, .inl rfl⟩

section Steps

variable [DecimalPackage]

/-- The reports that the runtime gives to the reconciler. -/
inductive Amendment (V : OrderStatusReport → Prop) (r : Runtime) (report : OrderStatusReport) :
    Prop where
  /-- A stored order gets another status, or a price to rest at. -/
  | fresh {o : OrderStatusReport} (cached : Cached r o) (isOpen : o.status.isOpen = true)
      (revises : Revises o report)
      (status : report.status = o.status ∨ report.status = .pendingUpdate ∨
        report.status = .pendingCancel ∨ report.status = .canceled)
  /-- The report that the engine has just stored. -/
  | stored (stored : ∃ r₀, (storeReport report).run r₀ = (.ok (), r))
      (known : V report ∨ report.status = .canceled)
  /-- The trigger of an order was reached. -/
  | triggered {o : OrderStatusReport} {c : Cache} (admissible : V o)
      (isOpen : o.status.isOpen = true) (revises : Revises o report)
      (status : report.status = .triggered) (tested : r.trace.getLast? = some (.tested o c))
  /-- The time of an order is up. -/
  | expired {o : OrderStatusReport} (admissible : V o) (isOpen : o.status.isOpen = true)
      (revises : Revises o report) (status : report.status = .expired)

/-- The reports about stored orders that the engine stores. -/
inductive Storing (r : Runtime) (report : OrderStatusReport) : Prop where
  | canceled {o : OrderStatusReport} (cached : Cached r o) (isOpen : o.status.isOpen = true)
      (revises : Revises o report) (status : report.status = .canceled)
  | modified {o : OrderStatusReport} (cached : Cached r o) (modified : Modified o report)
  | queried {o : OrderStatusReport} (cached : Cached r o) (revises : Revises o report)
      (status : report.status = o.status)

/-- The runtime with the next order number. -/
def Runtime.numbered (r : Runtime) : Runtime := { r with nextOrder := r.nextOrder + 1 }

/-- The steps other than fills. -/
inductive Plain (cfg : Config) (V : OrderStatusReport → Prop) : Runtime → Runtime → Prop where
  | internal {r r' : Runtime} (same : Same r r') (timed : Retimed r r') : Plain cfg V r r'
  | callback (r : Runtime) :
      Plain cfg V r { r with trace := r.trace ++ [.callback r.currentTime r.cache] }
  | commanded (r : Runtime) (execution : Bool) :
      Plain cfg V r { r with trace := r.trace ++ [.commanded execution] }
  | listed (r : Runtime) (list : OrderList) : Plain cfg V r (indexOrderList list r)
  | released (r : Runtime) (key : AccountID × ClientOrderID) :
      Plain cfg V r { r with heldChildren := r.heldChildren.delete key }
  | tested (r : Runtime) (o : OrderStatusReport) (isOpen : o.status.isOpen = true)
      (untriggered : o.status ≠ .triggered) :
      Plain cfg V r { r with trace := r.trace ++ [.tested o r.cache] }
  | reported {r : Runtime} {report : OrderStatusReport} (amendment : Amendment V r report) :
      Plain cfg V r ((reconcile (.ofOrder report)).run r).2
  | stored {r : Runtime} {report : OrderStatusReport} (storing : Storing r report) :
      Plain cfg V r ((storeReport report).run r).2
  | submitted (r : Runtime) {order : SubmitOrder} (valid : order.validate = .ok ()) :
      Plain cfg V r ((storeReport (acceptance r.numbered order)).run r.numbered).2
  | account (r : Runtime) (snapshot : AccountSnapshot) :
      Plain cfg V r { r with cache := r.cache.putAccount snapshot }
  | registered (r : Runtime) (report : OrderStatusReport) :
      Plain cfg V r (register cfg report r)
  | consumed (r : Runtime) (id : InstrumentID) (price : Decimal) {quantity : Decimal}
      (pos : 0 < quantity) :
      Plain cfg V r ((recordConsumption id price quantity).run r).2

/-- Where the price of a match comes from, and the time of the fill. -/
inductive Origin (m : Market) (order : OrderStatusReport) : FillSource → Decimal → Time → Prop where
  | ticker {ticker : Ticker} (data : m.lastTicker.get order.instrumentID = some ticker)
      (market : order.type.isMarketStyle = true) :
      Origin m order .ticker ticker.last ticker.timestamp
  | quoteTick {quote : QuoteTick} (data : m.lastQuotes.get order.instrumentID = some quote)
      (can : canMatch order (quoteOffer order quote).1 = true) :
      Origin m order .quoteTick (quoteOffer order quote).1 quote.timestamp
  | tradeTick {trade : TradeTick} (data : m.lastTrades.get order.instrumentID = some trade)
      (can : canMatch order trade.price = true) :
      Origin m order .tradeTick trade.price trade.timestamp
  | bar {bar : Bar} {price : Decimal} (data : m.lastBars.get order.instrumentID = some bar)
      (within : barMatchPrice order bar = some price) :
      Origin m order .bar price bar.timestamp
  | orderBook {book : OrderBook} {price : Decimal}
      (data : m.lastBooks.get order.instrumentID = some book)
      (can : canMatch order price = true) :
      Origin m order .orderBook price book.timestamp

/-- The quantity of the earlier fills of a match list. -/
def Matched.earlierQuantity (m : Matched) : Decimal := (m.earlier.map (·.2.quantity)).sum

/-- The quantity of the earlier fills of a match list at the same price. -/
def Matched.earlierAtPrice (m : Matched) : Decimal :=
  ((m.earlier.filter fun f => f.1 = m.price).map (·.2.quantity)).sum

/-- What is known of a match when its fill is booked. -/
structure Fits (cfg : Config) (V : OrderStatusReport → Prop) (r : Runtime) (m : Matched) :
    Prop where
  admissible : V m.order
  isOpen : m.order.status.isOpen = true
  /-- The fill is the match with its slippage and fee. -/
  fill : ∃ drawn quantity ts, m.fill = applyFillFee r.cache m.order (rawFill m.order
    (cfg.fillModel.applySlippage (fillContext r.cache m.order m.price quantity ts m.source)
      m.price drawn).1 quantity ts (r.nextTrade + 1))
  origin : Origin r.market m.order m.source m.price m.fill.timestamp
  quantity_pos : 0 < m.fill.quantity
  /-- All fills of a match list together are within the order. -/
  quantity_le : m.earlierQuantity + m.fill.quantity ≤ openQuantity m.order
  /-- All fills of a match list at one price are within what was left there. -/
  level_le : ∀ book, m.source = .orderBook →
    r.market.lastBooks.get m.order.instrumentID = some book →
      m.consumed + m.earlierAtPrice + m.fill.quantity ≤
        levelSize m.price (bookLevels m.order book)

/-- The runtime after a fill is booked. -/
def booked (r : Runtime) (m : Matched) (drawn : Nat) : Runtime :=
  ((bookFill m).run { r with drawn := drawn, nextTrade := r.nextTrade + 1 }).2

/-! ### What a step leaves alone -/

omit [DecimalPackage] in
theorem indexOrderList_eq (list : OrderList) (r : Runtime) :
    ∃ held members, indexOrderList list r = { r with
      heldChildren := held
      orderListMembers := members
      trace := r.trace ++ [.listed list] } := by
  have hfold : ∀ (orders : List SubmitOrder) (r : Runtime), ∃ held members,
      orders.foldl (indexOrder list.id) r =
        { r with heldChildren := held, orderListMembers := members } := by
    intro orders
    induction orders with
    | nil => exact fun r => ⟨r.heldChildren, r.orderListMembers, rfl⟩
    | cons order orders ih =>
      intro r
      obtain ⟨held, members, hrest⟩ := ih (indexOrder list.id r order)
      exact ⟨held, members, hrest⟩
  obtain ⟨held, members, hlist⟩ := hfold list.orders r
  refine ⟨held, members, ?_⟩
  unfold indexOrderList
  rw [hlist]

/-- The state after a report has gone to the reconciler. -/
theorem reconcile_order (r : Runtime) (report : OrderStatusReport) :
    ((reconcile (.ofOrder report)).run r).2 = { r with
      cache := ((Account.apply (.ofOrder report)).run r.cache).2
      trace := r.trace ++ [.reported r.currentTime r.cache report
        ((Account.apply (.ofOrder report)).run r.cache).1] } := rfl

/-- The state after a report has gone to the manager. -/
theorem run_storeReport (r : Runtime) (report : OrderStatusReport) :
    (storeReport report).run r = (((Execution.applyOrderReport {} report).run r.cache).1, { r with
      cache := ((Execution.applyOrderReport {} report).run r.cache).2
      trace := r.trace ++ [.reported r.currentTime r.cache report
        ((Execution.applyOrderReport {} report).run r.cache).1] }) := rfl

/-- The cache after a fill and the position that it leads to. -/
def cacheAfterFill (c : Cache) (fill : FillReport) : Cache :=
  match (Account.apply (.ofFill fill)).run c with
  | (.error _, c₁) => c₁
  | (.ok _, c₁) => ((Account.apply (.ofPosition (nextPosition c fill))).run c₁).2

/-- What a fill adds to the trace. -/
def fillEntries (r : Runtime) (m : Matched) : List Entry :=
  match (Account.apply (.ofFill m.fill)).run r.cache with
  | (.error _, _) => []
  | (.ok _, c₁) =>
    match (Account.apply (.ofPosition (nextPosition r.cache m.fill))).run c₁ with
    | (.error _, _) => [.filled r.currentTime r.cache r.market m]
    | (.ok _, c₂) =>
      [.filled r.currentTime r.cache r.market m, .positioned r.cache c₂ m]

theorem fillEntries_cases (r : Runtime) (m : Matched) :
    fillEntries r m = [] ∨ fillEntries r m = [.filled r.currentTime r.cache r.market m] ∨
      fillEntries r m = [.filled r.currentTime r.cache r.market m,
        .positioned r.cache (cacheAfterFill r.cache m.fill) m] := by
  unfold fillEntries cacheAfterFill
  match hfill : (Account.apply (.ofFill m.fill)).run r.cache with
  | (.error err, c₁) => exact .inl rfl
  | (.ok u, c₁) =>
    dsimp only
    match (Account.apply (.ofPosition (nextPosition r.cache m.fill))).run c₁ with
    | (.error err, c₂) => exact .inr (.inl rfl)
    | (.ok v, c₂) => exact .inr (.inr rfl)

theorem mem_fillEntries {r : Runtime} {m : Matched} {e : Entry} (h : e ∈ fillEntries r m) :
    e = .filled r.currentTime r.cache r.market m ∨
      e = .positioned r.cache (cacheAfterFill r.cache m.fill) m := by
  obtain heq | heq | heq := fillEntries_cases r m
  · simp [heq] at h
  · rw [heq, List.mem_singleton] at h
    exact .inl h
  · simpa [heq] using h

omit [DecimalPackage] in
theorem run_onCache {α : Type} (q : Prog Cache Err α) (r : Runtime) :
    (onCache q).run r = ((q.run r.cache).1, { r with cache := (q.run r.cache).2 }) := rfl

theorem booked_eq (r : Runtime) (m : Matched) (drawn : Nat) : ∃ pf, booked r m drawn = { r with
    cache := cacheAfterFill r.cache m.fill
    pf := pf
    drawn := drawn
    nextTrade := r.nextTrade + 1
    trace := r.trace ++ fillEntries r m } := by
  unfold booked bookFill cacheAfterFill fillEntries
  rw [Prog.run_get_bind]
  dsimp only
  match hfill : (Account.apply (.ofFill m.fill)).run r.cache with
  | (.error err, c₁) =>
    refine ⟨r.pf, ?_⟩
    simp [Prog.run_bind, run_onCache, hfill]
  | (.ok u, c₁) =>
    match hposition : (Account.apply (.ofPosition (nextPosition r.cache m.fill))).run c₁ with
    | (.error err, c₂) =>
      refine ⟨r.pf, ?_⟩
      simp [Prog.run_bind, run_onCache, record, hfill, hposition]
    | (.ok v, c₂) =>
      refine ⟨((Portfolio.applyFillWithPosition m.fill
        (r.cache.positionByInstrument m.fill.accountID m.fill.instrumentID)
        (nextPosition r.cache m.fill)).run r.pf).2, ?_⟩
      simp [Prog.run_bind, run_onCache, record, onPortfolio, Prog.zoom, hfill, hposition]

end Steps

end Exchanges.Backtest
