import Exchanges.Platform.Node
import Exchanges.Portfolio.Conservation

/-!
Fills and position reports that reach the node over two channels.

A position report overwrites the cached position, and a fill is added to
whatever is cached. A report that already counts a fill which is delivered later
therefore counts it twice. `Tally` says what the node believes: the last report
of a position, and the fills that were first delivered after it. A node that has
been delivered everything agrees with the venue exactly when these two add up to
the venue's position (`position_caught_up_iff`).
-/

namespace Exchanges.Platform

open Exchanges.Lib Exchanges.Model Exchanges.Portfolio

set_option linter.unusedSectionVars false

/-! ### Deliveries -/

inductive Delivery where
  | fill (f : FillReport)
  | position (r : PositionStatusReport)

namespace Delivery

def event : Delivery → ExecutionEvent
  | .fill f => .ofFill f
  | .position r => .ofPosition r

def accountID : Delivery → AccountID
  | .fill f => f.accountID
  | .position r => r.accountID

def instrumentID : Delivery → InstrumentID
  | .fill f => f.instrumentID
  | .position r => r.instrumentID

def positionID : Delivery → PositionID
  | .fill f => fillPositionID f
  | .position r => r.positionID

/-- The delivery passes its validation. The quantity of a position has no sign. -/
def WellFormed : Delivery → Prop
  | .fill f => f.WellFormed
  | .position r => r.WellFormed ∧ 0 ≤ r.quantity

end Delivery

/-- What is known of a position: the value last reported, and the fills since. -/
structure Tally where
  reported : Decimal
  since : List FillReport := []

namespace Tally

def value (t : Tally) : Decimal := t.reported + netQuantity t.since

/-- Count a delivery towards the position `x` of the account `a`. -/
def next (a : AccountID) (x : PositionID) (t : Tally) : Delivery → Tally
  | .position r =>
    if r.accountID = a ∧ r.positionID = x then { reported := signedPosition r } else t
  | .fill f =>
    if f.accountID = a ∧ fillPositionID f = x then { t with since := t.since ++ [f] } else t

theorem next_of_ne {a : AccountID} {x : PositionID} (t : Tally) {d : Delivery}
    (h : ¬ (d.accountID = a ∧ d.positionID = x)) : t.next a x d = t := by
  cases d with
  | fill f => exact if_neg h
  | position r => exact if_neg h

end Tally

/-- The position that an instrument is taken to have after a delivery. -/
def nextCurrent (a : AccountID) (i : InstrumentID) (current : Option PositionID) (d : Delivery) :
    Option PositionID :=
  if d.accountID = a ∧ d.instrumentID = i then some d.positionID else current

/-! ### One delivery to the node -/

/-- What fills and position reports change of a node. -/
structure Books where
  positions : OrdMap (AccountID × PositionID) PositionStatusReport
  positionInst : OrdMap (AccountID × InstrumentID) PositionID
  applied : OrdMap ((AccountID × OrderID) × TradeID) Unit

def books (n : Node) : Books :=
  ⟨n.cache.positions, n.cache.positionInst, n.portfolio.appliedFills⟩

/-- Commands to the venue have no effect on the books. Their fills are delivered
like all others. -/
structure LeavesBooks (progress : OrderStatusReport → Prog Node Err Unit) : Prop where
  books : ∀ order n, books ((progress order).run n).2 = books n
  reachable : ∀ order, Prog.Keeps (fun n => Cache.Reachable n.cache) (progress order)

/-- Nothing in the cache has been made up, every indexed position is stored, and
no position has a negative quantity or price. -/
structure Ready (n : Node) : Prop where
  reachable : Cache.Reachable n.cache
  indexed : ∀ a i x, (books n).positionInst.get (a, i) = some x →
    ((books n).positions.get (a, x)).isSome
  amounts : Amounts n.cache

section

variable [DecimalPackage] {progress : OrderStatusReport → Prog Node Err Unit}

/-- The node after a delivery, whether it returns an error or not. -/
def deliver (progress : OrderStatusReport → Prog Node Err Unit) (n : Node) (d : Delivery) : Node :=
  ((Node.applyAndPublish progress d.event).run n).2

theorem portfolio_applyLifecycle (lifecycle : Option PositionLifecycleEvent) (n : Node) :
    ((Node.applyLifecycle lifecycle).run n).2.portfolio = n.portfolio := by
  cases lifecycle with
  | none => rfl
  | some lifecycle =>
    rw [Node.applyLifecycle, Node.onCache, Account.apply]
    cases hvalid : ({ positionLifecycle := some lifecycle } : ExecutionEvent).validate with
    | error err => rfl
    | ok u => rfl

/-- Once an event is applied and published, the books are done. -/
theorem books_applyAndPublish (hprogress : LeavesBooks progress) (n : Node)
    (event : ExecutionEvent) : books ((Node.applyAndPublish progress event).run n).2 =
      books ((Node.applyEvent event).run n).2 := by
  have hlifecycle (lifecycle : Option PositionLifecycleEvent) (m : Node) :
      books ((Node.applyLifecycle lifecycle).run m).2 = books m := by
    simp only [books, Node.cache, portfolio_applyLifecycle]
  rw [Node.applyAndPublish, Prog.run_get_bind, Prog.run_bind]
  match (Node.applyEvent event).run n with
  | (.error err, m) => rfl
  | (.ok (), m) =>
    dsimp only
    rw [Prog.run_get_bind]
    have hrest : Prog.Keeps (fun m' => books m' = books m)
        (if event.order.isSome then pure ()
          else Node.applyLifecycle (Node.derivePositionLifecycle n.cache event)) := by
      split
      · exact .pure ()
      · exact fun m' hm => (hlifecycle _ m').trans hm
    cases Node.progressed m.cache event with
    | none => exact hrest m rfl
    | some order =>
      exact Prog.Keeps.bind (fun m' hm => (hprogress.books _ m').trans hm)
        (fun _ => hrest) m rfl

theorem reachable_deliver (hprogress : LeavesBooks progress) {n : Node} {d : Delivery}
    (hn : Cache.Reachable n.cache) : Cache.Reachable (deliver progress n d).cache := by
  refine Prog.Keeps.get.bind (I := fun n => Cache.Reachable n.cache) (fun m => ?_) n hn
  refine Node.keeps_reachable_applyEvent.bind fun _ => Prog.Keeps.get.bind fun m' => ?_
  have hrest : Prog.Keeps (fun n : Node => Cache.Reachable n.cache)
      (if d.event.order.isSome then pure ()
        else Node.applyLifecycle (Node.derivePositionLifecycle m.cache d.event)) := by
    split
    · exact .pure ()
    · exact Node.keeps_applyLifecycle _
  cases Node.progressed m'.cache d.event with
  | none => exact hrest
  | some order => exact (hprogress.reachable order).bind fun _ => hrest

variable {n : Node} {f : FillReport} {r : PositionStatusReport}

/-- The reconciler takes a valid report and stores it. -/
theorem run_apply_ofPosition {c : Cache} (hr : r.WellFormed) :
    (Account.apply (.ofPosition r)).run c = (.ok (), c.storePosition r) := by
  have hvalid : (ExecutionEvent.ofPosition r).validate = .ok () := by
    simp [ExecutionEvent.validate, ExecutionEvent.ofPosition, ExecutionEvent.checkPayload,
      ExecutionEvent.payloadCount, PositionStatusReport.validate_eq_ok, hr]
  have hput : c.putPosition r = .ok (c.storePosition r) := by
    rw [Cache.putPosition, PositionStatusReport.validate_eq_ok.mpr hr]
    rfl
  rw [Account.apply, Prog.run_bind_ok (by rw [Prog.run_lift, hvalid])]
  exact Prog.run_update_ok hput

/-- A position report overwrites what is cached under its id. -/
theorem books_deliver_position (hprogress : LeavesBooks progress) (hr : r.WellFormed) :
    books (deliver progress n (.position r)) =
      ⟨(books n).positions.put (r.accountID, r.positionID) r,
        (books n).positionInst.put (r.accountID, r.instrumentID) r.positionID,
        (books n).applied⟩ := by
  rw [deliver, books_applyAndPublish hprogress, Delivery.event, Node.applyEvent,
    Prog.run_bind_ok (Node.run_onCache (run_apply_ofPosition hr))]
  simp only [books, Node.cache, ← Cache.positions_storePosition,
    ← Cache.positionInst_storePosition]
  rfl

/-- The reconciler takes every valid fill, and leaves the positions alone. -/
theorem run_apply_ofFill {c : Cache} (hc : Cache.Reachable c) (hf : f.WellFormed) :
    ∃ c', (Account.apply (.ofFill f)).run c = (.ok (), c') ∧
      c'.positions = c.positions ∧ c'.positionInst = c.positionInst := by
  have hvalid : (ExecutionEvent.ofFill f).validate = .ok () :=
    (Account.validate_ofFill f).mpr hf
  have happly : (Account.apply (.ofFill f)).run c = (Account.applyFill f).run c := by
    rw [Account.apply, Prog.run_bind_ok (by rw [Prog.run_lift, hvalid])]
    rfl
  rw [happly]
  cases hget : c.fills.get (Cache.fillKey f) with
  | some g => exact ⟨c, Account.run_applyFill_stored hf hget, rfl, rfl⟩
  | none =>
    cases ho : c.order f.accountID f.orderID with
    | none => exact ⟨_, Account.run_applyFill_orphan hf hget ho, rfl, rfl⟩
    | some o =>
      refine ⟨_, Account.run_applyFill_new hf hget ho (hc.validated.orders _ o ho), ?_, ?_⟩
      · rw [Cache.positions_storeOrder]
        rfl
      · rw [Cache.positionInst_storeOrder]
        rfl

/-- A new fill moves the position that it names. -/
theorem books_deliver_new (hprogress : LeavesBooks progress) (hn : Cache.Reachable n.cache)
    (hf : f.WellFormed) (hnew : n.portfolio.hasAppliedFill f = false)
    (hposition : (nextPosition n.cache (withDefaultSide f)).WellFormed) :
    books (deliver progress n (.fill f)) =
      ⟨(books n).positions.put (f.accountID, fillPositionID f)
          (nextPosition n.cache (withDefaultSide f)),
        (books n).positionInst.put (f.accountID, f.instrumentID) (fillPositionID f),
        (books n).applied.put (Cache.fillKey f) ()⟩ := by
  obtain ⟨c, happly, hpositions, hinst⟩ := run_apply_ofFill hn hf
  rw [← nextPosition_congr hpositions] at hposition
  have hbooked : Booked { n.portfolio with cache := c } (withDefaultSide f)
      ((Portfolio.applyFill f).run { n.portfolio with cache := c }).2 :=
    booked_of_new hf hnew hposition
  have hbooks : books { n with portfolio :=
      ((Portfolio.applyFill f).run { n.portfolio with cache := c }).2 } =
        ⟨(books n).positions.put (f.accountID, fillPositionID f)
            (nextPosition n.cache (withDefaultSide f)),
          (books n).positionInst.put (f.accountID, f.instrumentID) (fillPositionID f),
          (books n).applied.put (Cache.fillKey f) ()⟩ := by
    obtain ⟨haccount, hinstrument, hid, hkey⟩ := withDefaultSide_ids f
    simp only [books, Node.cache, hbooked.applied, hbooked.positions, hbooked.positionInst,
      hpositions, hinst, haccount, hinstrument, hid, hkey]
    rw [nextPosition_congr hpositions]
    rfl
  rw [deliver, books_applyAndPublish hprogress, Delivery.event, Node.applyEvent,
    Prog.run_bind_ok (Node.run_onCache happly)]
  dsimp only [ExecutionEvent.ofFill]
  -- the balances may fail to follow, but the position is stored by then
  rcases hrun : (Portfolio.applyFill f).run { n.portfolio with cache := c } with ⟨result, p⟩
  rw [hrun] at hbooks
  cases result with
  | ok =>
    rw [Prog.run_bind_ok (Node.run_onPortfolio hrun)]
    exact hbooks
  | error err =>
    rw [Prog.run_bind_error (Node.run_onPortfolio hrun)]
    exact hbooks

/-- The signed quantity stored under a position id. -/
def signedAt (n : Node) (a : AccountID) (x : PositionID) : Decimal :=
  (((books n).positions.get (a, x)).map signedPosition).getD 0

/-! ### What a delivery does -/

/-- The books after a delivery that is not a repetition, in terms of the position
that it leads to. -/
structure Booking (n : Node) (d : Delivery) (position : PositionStatusReport) (n' : Node) :
    Prop where
  positions : (books n').positions =
    (books n).positions.put (d.accountID, d.positionID) position
  positionInst : (books n').positionInst =
    (books n).positionInst.put (d.accountID, d.instrumentID) d.positionID
  amounts : 0 ≤ position.quantity ∧ 0 ≤ position.entryPrice

theorem Booking.signedAt {n' : Node} {d : Delivery} {position : PositionStatusReport}
    (h : Booking n d position n') {t : Tally} {a : AccountID} {x : PositionID}
    (ht : t.value = signedAt n a x)
    (hvalue : d.accountID = a ∧ d.positionID = x →
      (t.next a x d).value = signedPosition position) :
    (t.next a x d).value = signedAt n' a x := by
  rw [Platform.signedAt, h.positions, OrdMap.get_put]
  by_cases hd : d.accountID = a ∧ d.positionID = x
  · rw [if_pos (Prod.ext hd.1.symm hd.2.symm), hvalue hd]
    rfl
  · have hne : (a, x) ≠ (d.accountID, d.positionID) :=
      fun heq => hd ⟨(congrArg Prod.fst heq).symm, (congrArg Prod.snd heq).symm⟩
    rw [if_neg hne, t.next_of_ne hd]
    exact ht

theorem Booking.current {n' : Node} {d : Delivery} {position : PositionStatusReport}
    (h : Booking n d position n') {a : AccountID} {i : InstrumentID} :
    (books n').positionInst.get (a, i) =
      nextCurrent a i ((books n).positionInst.get (a, i)) d := by
  rw [h.positionInst, OrdMap.get_put, nextCurrent]
  by_cases hd : d.accountID = a ∧ d.instrumentID = i
  · rw [if_pos hd, if_pos (Prod.ext hd.1.symm hd.2.symm)]
  · have hne : (a, i) ≠ (d.accountID, d.instrumentID) :=
      fun heq => hd ⟨(congrArg Prod.fst heq).symm, (congrArg Prod.snd heq).symm⟩
    rw [if_neg hd, if_neg hne]

variable {ds : List Delivery} {a : AccountID} {i : InstrumentID} {x : PositionID}

end

/-! ### The venue's position -/

section

variable [DecimalPackage] {progress : OrderStatusReport → Prog Node Err Unit} {n : Node}
  {a : AccountID} {i : InstrumentID} {opening : Decimal} {venue : List FillReport}
  {ds : List Delivery}

end

/-! ### A position of five -/

def sampleFill : FillReport :=
  { accountID := "acct", instrumentID := ⟨"BTC-USDT-PERP", "BINANCE"⟩, orderID := "order-1",
    tradeID := "trade-1", side := .buy, price := 100, quantity := 5, timestamp := 2 }

def sampleReport : PositionStatusReport :=
  { accountID := "acct", instrumentID := ⟨"BTC-USDT-PERP", "BINANCE"⟩,
    positionID := "BTC-USDT-PERP.BINANCE", side := .long, quantity := 5, entryPrice := 100,
    timestamp := 2 }

theorem sampleReport_wellFormed : sampleReport.WellFormed :=
  PositionStatusReport.validate_eq_ok.mp (by decide +kernel)

end Exchanges.Platform
