import Exchanges.Account.Reconciler

/-!
What one event does to one order and its fills.

Everything the reconciler does to an order it does through two functions of
the stored order: `applyFillToOrder` for a fill, and `orderAfterReport` for a
report. The theorems below say that running `apply` on a report or a fill of
an order amounts to these functions, and they are the only place where the
reconciler's programs are executed.
-/

namespace Exchanges.Account

open Exchanges.Lib Exchanges.Model Exchanges.Cache

set_option linter.unusedSectionVars false

variable [DecimalPackage]

/-! ### One fill added to an order -/

section ApplyFillToOrder

variable (o : OrderStatusReport) (f : FillReport)

@[simp] theorem applyFillToOrder_accountID : (applyFillToOrder o f).accountID = o.accountID := by
  simp only [applyFillToOrder]
  split_ifs <;> rfl

@[simp] theorem applyFillToOrder_orderID : (applyFillToOrder o f).orderID = o.orderID := by
  simp only [applyFillToOrder]
  split_ifs <;> rfl

@[simp] theorem applyFillToOrder_clientOrderID :
    (applyFillToOrder o f).clientOrderID = o.clientOrderID := by
  simp only [applyFillToOrder]
  split_ifs <;> rfl

@[simp] theorem applyFillToOrder_venueOrderID :
    (applyFillToOrder o f).venueOrderID = o.venueOrderID := by
  simp only [applyFillToOrder]
  split_ifs <;> rfl

@[simp] theorem applyFillToOrder_instrumentID :
    (applyFillToOrder o f).instrumentID = o.instrumentID := by
  simp only [applyFillToOrder]
  split_ifs <;> rfl

@[simp] theorem applyFillToOrder_quantity : (applyFillToOrder o f).quantity = o.quantity := by
  simp only [applyFillToOrder]
  split_ifs <;> rfl

@[simp] theorem applyFillToOrder_filledQuantity :
    (applyFillToOrder o f).filledQuantity = nextFilledQuantity o f := by
  simp only [applyFillToOrder]
  split_ifs <;> rfl

end ApplyFillToOrder

variable {o : OrderStatusReport} {f : FillReport} {c : Cache}

theorem nextFilledQuantity_pos (ho : o.WellFormed) (hf : f.WellFormed) :
    0 < nextFilledQuantity o f := by
  have hsum : 0 < o.filledQuantity + f.quantity :=
    add_pos_of_nonneg_of_pos ho.filled_nonneg hf.quantity_pos
  simp only [nextFilledQuantity]
  split
  · next h => exact h.1
  · exact hsum

theorem nextFilledQuantity_le (h : 0 < o.quantity) : nextFilledQuantity o f ≤ o.quantity := by
  simp only [nextFilledQuantity]
  split
  · exact le_refl _
  · next hcap => exact not_lt.mp fun hlt => hcap ⟨h, hlt⟩

theorem applyFillToOrder_wellFormed (ho : o.WellFormed) (hf : f.WellFormed) :
    (applyFillToOrder o f).WellFormed := by
  have hpos := nextFilledQuantity_pos ho hf
  have hle := nextFilledQuantity_le (o := o) (f := f)
  obtain ⟨h1, h2, h3, h4, h5, h6, h7, h8, h9, h10, h11⟩ := ho
  simp only [applyFillToOrder]
  split_ifs <;> constructor <;> simp_all [le_of_lt]

/-- A fill leaves nothing for the cache to normalise. -/
theorem normalizeOrder_applyFillToOrder (ho : o.WellFormed) (hf : f.WellFormed) :
    normalizeOrder (applyFillToOrder o f) = applyFillToOrder o f := by
  have hpos := nextFilledQuantity_pos ho hf
  simp only [applyFillToOrder]
  split_ifs with hq hcap
  · simp [normalizeOrder, hpos.ne', OrderStatus.isOpen, OrderStatus.isTerminal]
  · have hlt : 0 < o.quantity - nextFilledQuantity o f := sub_pos.mpr (not_le.mp hcap)
    simp [normalizeOrder, hlt.le, hlt.ne']
  · simp [normalizeOrder, hq]

theorem run_putOrder_applyFillToOrder (ho : o.WellFormed) (hf : f.WellFormed) :
    (Prog.update (·.putOrder (applyFillToOrder o f)) : Prog Cache Err Unit).run c =
      (.ok (), c.storeOrder (applyFillToOrder o f)) := by
  have hnorm := normalizeOrder_applyFillToOrder ho hf
  have hrun := run_putOrder (c := c) (o := applyFillToOrder o f)
    (by rw [hnorm]; exact applyFillToOrder_wellFormed ho hf)
  rwa [hnorm] at hrun

/-- The order after some fills, in the order in which they are applied. -/
def fillAll (o : OrderStatusReport) (fills : List FillReport) : OrderStatusReport :=
  fills.foldl applyFillToOrder o

@[simp] theorem fillAll_nil (o : OrderStatusReport) : fillAll o [] = o := rfl

theorem fillAll_cons (o : OrderStatusReport) (f : FillReport) (fills : List FillReport) :
    fillAll o (f :: fills) = fillAll (applyFillToOrder o f) fills := rfl

/-! ### A report -/

/-- The stored order after a report, given the fills stored for it. -/
def orderAfterReport (fills : List FillReport) (existing : Option OrderStatusReport)
    (report : OrderStatusReport) : Option OrderStatusReport :=
  match checkOrder existing report with
  | .error _ => existing
  | .ok report =>
    if report.filledQuantity = 0 then some (fillAll (normalizeOrder report) fills)
    else some (normalizeOrder report)

/-- A cache order is kept under its own ids and is well formed. -/
structure OrderAt (a : AccountID) (i : OrderID) (o : OrderStatusReport) : Prop where
  accountID : o.accountID = a
  orderID : o.orderID = i
  wellFormed : o.WellFormed

theorem OrderAt.applyFillToOrder {a : AccountID} {i : OrderID} (h : OrderAt a i o)
    (hf : f.WellFormed) : OrderAt a i (applyFillToOrder o f) :=
  ⟨by simp [h.accountID], by simp [h.orderID], applyFillToOrder_wellFormed h.wellFormed hf⟩

theorem OrderAt.normalizeOrder {a : AccountID} {i : OrderID} (h : OrderAt a i o) :
    OrderAt a i (normalizeOrder o) :=
  ⟨by simp [h.accountID], by simp [h.orderID], normalizeOrder_wellFormed h.wellFormed⟩

theorem OrderAt.order_storeOrder {a : AccountID} {i : OrderID} (h : OrderAt a i o) :
    (c.storeOrder o).order a i = some o := by
  rw [← h.accountID, ← h.orderID]
  exact order_storeOrder_self c o

variable {a : AccountID} {i : OrderID}

theorem OrderAt.fillAll {fills : List FillReport} (hfills : ∀ f ∈ fills, f.WellFormed) :
    ∀ {o : OrderStatusReport}, OrderAt a i o → OrderAt a i (fillAll o fills) := by
  induction fills with
  | nil => exact fun h => h
  | cons f fills ih =>
    intro o h
    rw [fillAll_cons]
    exact ih (fun g hg => hfills g (List.mem_cons_of_mem f hg))
      (h.applyFillToOrder (hfills f List.mem_cons_self))

theorem run_replay_cons (fills : List FillReport) (ho : c.order a i = some o) :
    (replay a i (f :: fills)).run c =
      (Prog.update (·.putOrder (applyFillToOrder o f)) >>= fun _ => replay a i fills).run c := by
  refine (Prog.run_get_bind ..).trans ?_
  rw [ho]

/-- Replaying fills adds them to the stored order one after the other. -/
theorem run_replay {fills : List FillReport} (hfills : ∀ f ∈ fills, f.WellFormed) :
    ∀ {c : Cache} {o : OrderStatusReport}, OrderAt a i o → c.order a i = some o →
      ∃ c', (replay a i fills).run c = (.ok (), c') ∧
        c'.order a i = some (fillAll o fills) ∧ OrdersOnly c c' := by
  induction fills with
  | nil => exact fun {c o} _ ho => ⟨c, rfl, ho, .refl c⟩
  | cons f fills ih =>
    intro c o h ho
    have hf := hfills f List.mem_cons_self
    have hnext := h.applyFillToOrder hf
    obtain ⟨c', hrun, horder, honly⟩ :=
      ih (fun g hg => hfills g (List.mem_cons_of_mem f hg)) hnext
        (hnext.order_storeOrder (c := c))
    rw [fillAll_cons]
    refine ⟨c', ?_, horder, (ordersOnly_storeOrder c _).trans honly⟩
    rw [run_replay_cons fills ho,
      Prog.run_bind_ok (run_putOrder_applyFillToOrder h.wellFormed hf)]
    exact hrun

/-- The report is accepted next to what is stored, and the order takes the
status. -/
def AcceptedAs (existing : Option OrderStatusReport) (r : OrderStatusReport)
    (status : OrderStatus) : Prop :=
  match existing with
  | none => status = r.status
  | some e =>
    nextOrderStatus e.status r.status = some status ∧ e.filledQuantity ≤ r.filledQuantity

variable {existing : Option OrderStatusReport} {r : OrderStatusReport}

theorem exists_acceptedAs :
    (∃ status, AcceptedAs existing r status) ↔ ∀ e, existing = some e →
      canOrderTransition e.status r.status = true ∧ e.filledQuantity ≤ r.filledQuantity := by
  cases existing with
  | none => exact iff_of_true ⟨r.status, rfl⟩ (by simp)
  | some e => simp [AcceptedAs, canOrderTransition, Option.isSome_iff_exists]

theorem AcceptedAs.ne_unset
    {status : OrderStatus} (h : AcceptedAs existing r status) (hr : r.WellFormed) :
    status ≠ .unset := by
  cases existing with
  | none =>
    rw [show status = r.status from h]
    exact hr.status_ne
  | some e => exact nextOrderStatus_ne_unset hr.status_ne h.1

theorem checkOrder_eq_ok_iff {r r' : OrderStatusReport} :
    checkOrder existing r = .ok r' ↔
      ∃ status, r' = { r with status := status } ∧ AcceptedAs existing r status := by
  cases existing with
  | none =>
    constructor
    · intro h
      cases h
      exact ⟨r.status, rfl, rfl⟩
    · rintro ⟨status, rfl, rfl⟩
      rfl
  | some e =>
    simp only [checkOrder, AcceptedAs]
    cases nextOrderStatus e.status r.status with
    | none => simp
    | some status =>
      simp only [Option.some.injEq]
      split
      · next hback => simp [hback]
      · next hback =>
          constructor
          · intro h
            cases h
            exact ⟨status, rfl, rfl, not_lt.mp hback⟩
          · rintro ⟨status, rfl, rfl, -⟩
            rfl

/-- An accepted report is the report itself, but for its status. -/
theorem checkOrder_eq_ok {r r' : OrderStatusReport}
    (h : checkOrder existing r = .ok r') (hr : r.WellFormed) :
    ∃ status, r' = { r with status := status } ∧ status ≠ .unset ∧
      (existing = none → status = r.status) ∧
      ∀ e, existing = some e → nextOrderStatus e.status r.status = some status ∧
        e.filledQuantity ≤ r.filledQuantity := by
  obtain ⟨status, rfl, hs⟩ := checkOrder_eq_ok_iff.mp h
  refine ⟨status, rfl, hs.ne_unset hr, ?_, ?_⟩
  · rintro rfl
    exact hs
  · rintro e rfl
    exact hs

theorem orderAt_of_checkOrder {r r' : OrderStatusReport}
    (h : checkOrder existing r = .ok r') (hr : OrderAt a i r) : OrderAt a i r' := by
  obtain ⟨status, rfl, hstatus, -⟩ := checkOrder_eq_ok h hr.wellFormed
  obtain ⟨h1, h2, h3, h4, h5, h6, h7, h8, h9, h10, h11⟩ := hr.wellFormed
  exact ⟨hr.accountID, hr.orderID, h1, h2, hstatus, h4, h5, h6, h7, h8, h9, h10, h11⟩

/-- Running a report of an order. -/
theorem run_applyOrder (hr : OrderAt a i r) (hfills : ∀ f ∈ c.fillsForOrder a i, f.WellFormed) :
    ∃ result c', (applyOrder r).run c = (result, c') ∧
      c'.order a i = orderAfterReport (c.fillsForOrder a i) (c.order a i) r ∧
      OrdersOnly c c' := by
  simp only [applyOrder, Prog.run_get_bind, hr.accountID, hr.orderID, orderAfterReport]
  cases hcheck : checkOrder (c.order a i) r with
  | error e => exact ⟨.error e, c, rfl, rfl, .refl c⟩
  | ok r' =>
    have hr' := orderAt_of_checkOrder hcheck hr
    have hput := run_putOrder (c := c) (normalizeOrder_wellFormed hr'.wellFormed)
    have hstored := hr'.normalizeOrder.order_storeOrder (c := c)
    have honly := ordersOnly_storeOrder c (normalizeOrder r')
    change ∃ result c', (Prog.update _ >>= _).run c = _ ∧ _
    rw [Prog.run_bind_ok hput]
    by_cases hzero : r'.filledQuantity = 0
    · have hsame : (c.storeOrder (normalizeOrder r')).fillsForOrder a i =
          c.fillsForOrder a i := by
        simp [fillsForOrder]
      obtain ⟨c', hrun, horder, honly'⟩ :=
        run_replay (a := a) (i := i) hfills hr'.normalizeOrder hstored
      refine ⟨.ok (), c', ?_, by simpa [hzero] using horder, honly.trans honly'⟩
      simp only [hzero, if_true, hr'.accountID, hr'.orderID, replayFills, Prog.run_get_bind,
        hsame]
      exact hrun
    · refine ⟨.ok (), c.storeOrder (normalizeOrder r'), ?_, ?_, honly⟩
      · simp [hzero]
      · simp [hzero, hstored]

/-! ### A fill -/

section ApplyFill

variable (hf : f.WellFormed)
include hf

theorem run_applyFill_stored {g : FillReport} (hget : c.fills.get (fillKey f) = some g) :
    (applyFill f).run c = (.ok (), c) := by
  rw [applyFill, Prog.run_bind_ok (Prog.run_step_ok (putFill_of_stored hf hget))]
  rfl

theorem run_applyFill_orphan (hget : c.fills.get (fillKey f) = none)
    (ho : c.order f.accountID f.orderID = none) :
    (applyFill f).run c = (.ok (), c.insertFill f) := by
  have ho' : (c.insertFill f).order f.accountID f.orderID = none := ho
  rw [applyFill, Prog.run_bind_ok (Prog.run_step_ok (putFill_of_new hf hget))]
  simp [ho']

theorem run_applyFill_new (hget : c.fills.get (fillKey f) = none)
    (ho : c.order f.accountID f.orderID = some o) (hwf : o.WellFormed) :
    (applyFill f).run c = (.ok (), (c.insertFill f).storeOrder (applyFillToOrder o f)) := by
  have ho' : (c.insertFill f).order f.accountID f.orderID = some o := ho
  rw [applyFill, Prog.run_bind_ok (Prog.run_step_ok (putFill_of_new hf hget))]
  simp only [if_true, Prog.run_get_bind, ho']
  exact run_putOrder_applyFillToOrder hwf hf

end ApplyFill

/-! ### Events -/

theorem validate_ofOrder (r : OrderStatusReport) :
    (ExecutionEvent.ofOrder r).validate = .ok () ↔ r.WellFormed := by
  simp [ExecutionEvent.validate, ExecutionEvent.ofOrder, ExecutionEvent.checkPayload,
    ExecutionEvent.payloadCount, OrderStatusReport.validate_eq_ok]

theorem validate_ofFill (f : FillReport) :
    (ExecutionEvent.ofFill f).validate = .ok () ↔ f.WellFormed := by
  simp [ExecutionEvent.validate, ExecutionEvent.ofFill, ExecutionEvent.checkPayload,
    ExecutionEvent.payloadCount, FillReport.validate_eq_ok]

theorem run_apply_invalid {event : ExecutionEvent} (h : event.validate ≠ .ok ()) :
    ((apply event).run c).2 = c := by
  cases hv : event.validate with
  | ok u => exact absurd hv h
  | error e =>
    rw [apply, hv, Prog.run_bind_error (Prog.run_lift ..)]

theorem run_apply_ofOrder (hr : r.WellFormed) :
    (apply (.ofOrder r)).run c = (applyOrder r).run c := by
  rw [apply, (validate_ofOrder r).mpr hr, Prog.run_bind_ok (Prog.run_lift ..)]
  rfl

theorem run_apply_ofFill (hf : f.WellFormed) :
    (apply (.ofFill f)).run c = (applyFill f).run c := by
  rw [apply, (validate_ofFill f).mpr hf, Prog.run_bind_ok (Prog.run_lift ..)]
  rfl

/-- The cache after one event; an event that is refused may still have changed
it. -/
def afterEvent (c : Cache) (event : ExecutionEvent) : Cache := ((apply event).run c).2

/-- The cache after a sequence of events, errors being ignored. -/
def afterEvents (c : Cache) (events : List ExecutionEvent) : Cache :=
  events.foldl afterEvent c

theorem afterEvents_append (c : Cache) (events events' : List ExecutionEvent) :
    afterEvents c (events ++ events') = afterEvents (afterEvents c events) events' :=
  List.foldl_append

end Exchanges.Account
