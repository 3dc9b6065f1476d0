import Exchanges.Account.Outcome

/-!
Closing the cached open orders, and flattening the cached positions, that the
venue no longer lists.

`reconcileMissingOpenOrders` goes through the open orders of an account, skips
those of other instruments and those that a list of reports contains, and
applies a closing report for each of the others. The reports are recognised by
order id, client order id or venue order id. The loop stops at the first order
that the state table does not let be closed. Closing one order never touches
another, since the closing report carries the ids of the order it closes.
-/

namespace Exchanges.Account

open Exchanges.Lib Exchanges.Model Exchanges.Cache

set_option linter.unusedSectionVars false

/-! ### The program -/

structure OrderSnapshotIndex where
  orderIDs : List OrderID := []
  clientOrderIDs : List ClientOrderID := []
  venueOrderIDs : List VenueOrderID := []

def newOrderSnapshotIndex (reports : List OrderStatusReport) (accountID : AccountID)
    (instrumentID : InstrumentID) : OrderSnapshotIndex :=
  let reports := reports.filter fun report =>
    decide (report.accountID = accountID ∧ report.instrumentID = instrumentID)
  { orderIDs := (reports.map (·.orderID)).filter (· ≠ "")
    clientOrderIDs := (reports.map (·.clientOrderID)).filter (· ≠ "")
    venueOrderIDs := (reports.map (·.venueOrderID)).filter (· ≠ "") }

def OrderSnapshotIndex.contains (index : OrderSnapshotIndex) (order : OrderStatusReport) :
    Bool :=
  decide (order.orderID ≠ "" ∧ order.orderID ∈ index.orderIDs) ||
    decide (order.clientOrderID ≠ "" ∧ order.clientOrderID ∈ index.clientOrderIDs) ||
    decide (order.venueOrderID ≠ "" ∧ order.venueOrderID ∈ index.venueOrderIDs)

structure MissingOpenOrderRepairPolicy where
  missingStatus : OrderStatus
  /-- A duration in nanoseconds. -/
  recentActivityWindow : ℤ := 0
  now : Time := 0

def orderHasRecentActivity (order : OrderStatusReport) (now : Time) (window : ℤ) : Bool :=
  if window ≤ 0 then false
  else
    let last := max order.lastUpdatedTime order.metadata.tsInit
    if last = 0 then false else decide (now - last < window)

/-- The order as a closing report. -/
def closing (status : OrderStatus) (now : Time) (order : OrderStatusReport) :
    OrderStatusReport :=
  { order with status := status, lastUpdatedTime := now }

/-- The report about a position: by position id, or else by venue position id.
Of several reports under one id the last counts. -/
def matchPosition (reports : List PositionStatusReport) (accountID : AccountID)
    (instrumentID : InstrumentID) (position : PositionStatusReport) :
    Option PositionStatusReport :=
  let reports := (reports.filter fun report =>
    decide (report.accountID = accountID ∧ report.instrumentID = instrumentID)).reverse
  (reports.find? fun report =>
      decide (position.positionID ≠ "" ∧ report.positionID = position.positionID)).or
    (reports.find? fun report =>
      decide (position.venuePositionID ≠ "" ∧
        report.venuePositionID = position.venuePositionID))

def positionsMatch (cached venue : PositionStatusReport) : Bool :=
  decide (cached.side = venue.side ∧ cached.quantity = venue.quantity)

/-- The report that repairs a cached position, if it needs one. -/
def positionRepair (clock : Time) (reports : List PositionStatusReport) (accountID : AccountID)
    (instrumentID : InstrumentID) (position : PositionStatusReport) :
    Option PositionStatusReport :=
  if position.accountID ≠ accountID then none
  else
    match matchPosition reports accountID instrumentID position with
    | some report => if positionsMatch position report then none else some report
    | none =>
      if position.side = .flat ∨ position.quantity = 0 then none
      else some { position with side := .flat, quantity := 0, timestamp := clock }

/-- Without a limit on the attempts, which are then only counted. -/
def missingPositionReports (clock : Time) (accountID : AccountID) (instrumentID : InstrumentID)
    (reports : List PositionStatusReport) (c : Cache) :
    Except Err (List PositionStatusReport) := do
  reject (accountID = "") (invalidOrder "account id is required")
  instrumentID.validate
  return (c.positionsForInstrument instrumentID).filterMap
    (positionRepair clock reports accountID instrumentID)

def checkRepair (accountID : AccountID) (instrumentID : InstrumentID)
    (missingStatus : OrderStatus) : Except Err Unit := do
  reject (accountID = "") (invalidOrder "account id is required")
  instrumentID.validate
  reject (missingStatus.isTerminal = false)
    (invalidOrder "missing order status must be terminal")

section

variable [DecimalPackage]

/-- The loop over the open orders. It returns the closing reports, those before
a failure too. -/
def closeOrders (skip : OrderStatusReport → Bool) (status : OrderStatus) (now : Time) :
    List OrderStatusReport → List OrderStatusReport →
      Prog Cache (List OrderStatusReport × Err) (List OrderStatusReport)
  | generated, [] => pure generated
  | generated, order :: orders =>
    if skip order then closeOrders skip status now generated orders
    else do
      Prog.mapError (generated, ·) (applyOrder (closing status now order))
      closeOrders skip status now (generated ++ [closing status now order]) orders

/-- `clock` is what the wall clock shows. -/
def reconcileMissingOpenOrdersWithPolicy (clock : Time) (accountID : AccountID)
    (instrumentID : InstrumentID) (reports : List OrderStatusReport)
    (policy : MissingOpenOrderRepairPolicy) :
    Prog Cache (List OrderStatusReport × Err) (List OrderStatusReport) := do
  Prog.mapError ([], ·) (Prog.lift (checkRepair accountID instrumentID policy.missingStatus))
  let now := if policy.now = 0 then clock else policy.now
  let observed := newOrderSnapshotIndex reports accountID instrumentID
  let c ← Prog.get
  closeOrders
    (fun order => decide (order.instrumentID ≠ instrumentID) || observed.contains order ||
      orderHasRecentActivity order now policy.recentActivityWindow)
    policy.missingStatus now [] (c.openOrders accountID)

def reconcileMissingOpenOrders (clock : Time) (accountID : AccountID)
    (instrumentID : InstrumentID) (reports : List OrderStatusReport)
    (missingStatus : OrderStatus) :
    Prog Cache (List OrderStatusReport × Err) (List OrderStatusReport) :=
  reconcileMissingOpenOrdersWithPolicy clock accountID instrumentID reports
    { missingStatus := missingStatus }

variable {c c' c'' : Cache} {a : AccountID} {i : OrderID} {e r : OrderStatusReport}
  {inst : InstrumentID} {status : OrderStatus} {now : Time}
  {orders generated reports : List OrderStatusReport}

/-! ### Which orders are missing -/

theorem mem_openOrders (hc : OrdersIndexed c) :
    e ∈ c.openOrders a ↔ c.order a e.orderID = some e ∧ e.status.isOpen = true := by
  rw [openOrders, sortOrders, List.mem_insertionSort, List.mem_filter, OrdMap.mem_row]
  refine and_congr_left fun _ => ⟨?_, fun h => ⟨e.orderID, h⟩⟩
  rintro ⟨i, hi⟩
  obtain ⟨-, rfl, -⟩ := hc.keyed a i e hi
  exact hi

theorem openOrders_nodup (hc : OrdersIndexed c) (a : AccountID) :
    ((c.openOrders a).map (·.orderID)).Nodup := by
  have hrow : ((c.orders.row a).map (·.orderID)).Nodup := by
    rw [OrdMap.row, List.map_map]
    refine List.Nodup.map_on ?_ (c.orders.rowEntries_nodup a)
    rintro ⟨⟨b, j⟩, o⟩ he ⟨⟨b', j'⟩, o'⟩ he' heq
    obtain ⟨rfl, hget⟩ := OrdMap.mem_rowEntries.mp he
    obtain ⟨hrow, hget'⟩ := OrdMap.mem_rowEntries.mp he'
    dsimp only at hrow hget hget'
    subst hrow
    obtain ⟨-, rfl, -⟩ := hc.keyed _ _ _ hget
    obtain ⟨-, rfl, -⟩ := hc.keyed _ _ _ hget'
    have hid : o.orderID = o'.orderID := heq
    rw [hid] at hget
    rw [Option.some.inj (hget.symm.trans hget')]
  have hperm := (List.perm_insertionSort (fun o p : OrderStatusReport => o.orderID ≤ p.orderID)
    ((c.orders.row a).filter fun order => order.status.isOpen)).map (·.orderID)
  exact hperm.nodup_iff.mpr (hrow.sublist (List.filter_sublist.map _))

/-- The order is listed in the reports, under one of its ids. -/
def Listed (a : AccountID) (inst : InstrumentID) (reports : List OrderStatusReport)
    (e : OrderStatusReport) : Prop :=
  ∃ r ∈ reports, r.accountID = a ∧ r.instrumentID = inst ∧
    (e.orderID ≠ "" ∧ r.orderID = e.orderID ∨ SharesID r e)

theorem contains_newOrderSnapshotIndex :
    (newOrderSnapshotIndex reports a inst).contains e = true ↔ Listed a inst reports e := by
  have hmem : ∀ (key : OrderStatusReport → String) (k : String),
      (k ≠ "" ∧ k ∈ (((reports.filter fun report =>
        decide (report.accountID = a ∧ report.instrumentID = inst)).map key).filter (· ≠ ""))) ↔
      ∃ r ∈ reports, r.accountID = a ∧ r.instrumentID = inst ∧ k ≠ "" ∧ key r = k := by
    intro key k
    simp only [List.mem_filter, List.mem_map, decide_eq_true_eq]
    constructor
    · rintro ⟨hne, ⟨r, ⟨hr, ha, hi⟩, hkey⟩, -⟩
      exact ⟨r, hr, ha, hi, hne, hkey⟩
    · rintro ⟨r, hr, ha, hi, hne, hkey⟩
      exact ⟨hne, ⟨r, ⟨hr, ha, hi⟩, hkey⟩, hne⟩
  simp only [OrderSnapshotIndex.contains, newOrderSnapshotIndex, Bool.or_eq_true,
    decide_eq_true_eq, hmem]
  constructor
  · rintro ((⟨r, hr, ha, hi, hne, hid⟩ | ⟨r, hr, ha, hi, hne, hid⟩) | ⟨r, hr, ha, hi, hne, hid⟩)
    · exact ⟨r, hr, ha, hi, .inl ⟨hne, hid⟩⟩
    · exact ⟨r, hr, ha, hi, .inr (.inl ⟨hid ▸ hne, hid.symm⟩)⟩
    · exact ⟨r, hr, ha, hi, .inr (.inr ⟨hid ▸ hne, hid.symm⟩)⟩
  · rintro ⟨r, hr, ha, hi, ⟨hne, hid⟩ | ⟨hne, hid⟩ | ⟨hne, hid⟩⟩
    · exact .inl (.inl ⟨r, hr, ha, hi, hne, hid⟩)
    · exact .inl (.inr ⟨r, hr, ha, hi, hid ▸ hne, hid.symm⟩)
    · exact .inr ⟨r, hr, ha, hi, hid ▸ hne, hid.symm⟩

/-- The open orders of the instrument that are not listed, in the order of
their ids. -/
def missingOrders (c : Cache) (a : AccountID) (inst : InstrumentID)
    (reports : List OrderStatusReport) : List OrderStatusReport :=
  (c.openOrders a).filter fun e =>
    decide (e.instrumentID = inst) && !(newOrderSnapshotIndex reports a inst).contains e

theorem mem_missingOrders (hc : OrdersIndexed c) : e ∈ missingOrders c a inst reports ↔
    c.order a e.orderID = some e ∧ e.status.isOpen = true ∧ e.instrumentID = inst ∧
      ¬ Listed a inst reports e := by
  rw [missingOrders, List.mem_filter, mem_openOrders hc, Bool.and_eq_true, decide_eq_true_eq,
    Bool.not_eq_true', ← Bool.not_eq_true, contains_newOrderSnapshotIndex, and_assoc]

/-! ### Closing orders -/

/-- The cache after some of its orders were closed. -/
structure ClosesAll (a : AccountID) (status : OrderStatus) (now : Time)
    (orders : List OrderStatusReport) (c c' : Cache) : Prop where
  reachable : Reachable c'
  fills : c'.fills = c.fills
  closed : ∀ e ∈ orders, c'.order a e.orderID = some (outcome c (closing status now e) status)
  kept : ∀ b i, (∀ e ∈ orders, (b, i) ≠ (a, e.orderID)) → c'.order b i = c.order b i

theorem closing_wellFormed (now : Time) (he : e.WellFormed) (hs : status ≠ .unset) :
    (closing status now e).WellFormed := by
  obtain ⟨h1, h2, -, h4, h5, h6, h7, h8, h9, h10, h11⟩ := he
  exact ⟨h1, h2, hs, h4, h5, h6, h7, h8, h9, h10, h11⟩

theorem nextOrderStatus_terminal (hterminal : status.isTerminal = true) {source next : OrderStatus}
    (h : nextOrderStatus source status = some next) : next = status := by
  obtain rfl | ⟨rfl, -⟩ := nextOrderStatus_eq h
  · rfl
  · cases hterminal

theorem isTerminal_ne_unset (hterminal : status.isTerminal = true) : status ≠ .unset := by
  rintro rfl
  cases hterminal

/-- Closing one stored order. -/
theorem run_applyOrder_closing (now : Time) (hc : Reachable c) (hterminal : status.isTerminal = true)
    (he : c.order a e.orderID = some e) (hcan : canOrderTransition e.status status = true) :
    ∃ c', (applyOrder (closing status now e)).run c = (.ok (), c') ∧
      ClosesAll a status now [e] c c' := by
  have hindexed := hc.consistent.orders
  obtain ⟨rfl, -, -⟩ := hindexed.keyed a _ e he
  have hwf := hc.validated.orders _ e he
  obtain ⟨next, hnext⟩ := Option.isSome_iff_exists.mp hcan
  have hstatus := nextOrderStatus_terminal hterminal hnext
  have haccepted : AcceptedAs (c.order e.accountID e.orderID) (closing status now e) status := by
    rw [he]
    exact ⟨hstatus ▸ hnext, le_refl _⟩
  obtain ⟨c', hrun, hreach, honly, horders⟩ := run_applyOrder_outcome hc
    (closing_wellFormed now hwf (isTerminal_ne_unset hterminal)) haccepted
  have hids := version_outcome c (closing status now e) status
  refine ⟨c', hrun, hreach, by rw [honly]; rfl, ?_, ?_⟩
  · intro e' he'
    obtain rfl := List.mem_singleton.mp he'
    rw [Cache.order, horders, ← show (outcome c (closing status now e') status).accountID =
      e'.accountID from hids.accountID, ← show (outcome c (closing status now e') status).orderID =
      e'.orderID from hids.orderID, order_storeOrder_self]
  · intro b i hne
    rw [Cache.order, horders]
    have hstored : c.orders.get ((outcome c (closing status now e) status).accountID,
        (outcome c (closing status now e) status).orderID) = some e := by
      rw [hids.accountID, hids.orderID]
      exact he
    refine order_storeOrder_version hindexed hstored hids.clientOrderID hids.venueOrderID ?_
    rw [hids.accountID, hids.orderID]
    exact hne e List.mem_cons_self

theorem ClosesAll.cons (h : ClosesAll a status now [e] c c') (h' : ClosesAll a status now orders c' c'')
    (hnew : ∀ e' ∈ orders, e'.orderID ≠ e.orderID) :
    ClosesAll a status now (e :: orders) c c'' := by
  refine ⟨h'.reachable, h'.fills.trans h.fills, ?_, ?_⟩
  · intro e' he'
    rcases List.mem_cons.mp he' with rfl | he'
    · rw [h'.kept a _ fun o ho heq => hnew o ho (Prod.mk.inj heq).2.symm]
      exact h.closed e' List.mem_cons_self
    · rw [h'.closed e' he', outcome_congr h.fills]
  · intro b i hne
    rw [h'.kept b i fun o ho => hne o (List.mem_cons_of_mem e ho)]
    refine h.kept b i fun o ho => ?_
    rw [List.mem_singleton.mp ho]
    exact hne e List.mem_cons_self

theorem ClosesAll.nil (hc : Reachable c) : ClosesAll a status now [] c c :=
  ⟨hc, rfl, by simp, fun _ _ _ => rfl⟩

/-- Skipped orders are as if they were not there. -/
theorem closeOrders_filter (skip : OrderStatusReport → Bool) (orders : List OrderStatusReport) :
    ∀ generated, closeOrders skip status now generated orders =
      closeOrders (fun _ => false) status now generated (orders.filter fun e => !skip e) := by
  induction orders with
  | nil => exact fun _ => rfl
  | cons e orders ih =>
    intro generated
    cases hskip : skip e with
    | true => simp only [closeOrders, hskip, if_true, List.filter_cons, Bool.not_true,
        Bool.false_eq_true, if_false, ih]
    | false => simp only [closeOrders, hskip, List.filter_cons, Bool.not_false, if_true,
        Bool.false_eq_true, if_false, ih]

/-- The loop closes orders up to the first that cannot be closed. -/
theorem run_closeOrders (hterminal : status.isTerminal = true) :
    ∀ {orders : List OrderStatusReport} (generated : List OrderStatusReport) {c : Cache},
      Reachable c → (∀ e ∈ orders, c.order a e.orderID = some e) → (orders.map (·.orderID)).Nodup →
      ∃ result c', (closeOrders (fun _ => false) status now generated orders).run c =
          (result, c') ∧
        ClosesAll a status now (orders.takeWhile fun e => canOrderTransition e.status status)
          c c' ∧
        (if ∀ e ∈ orders, canOrderTransition e.status status = true then
          result = .ok (generated ++ orders.map (closing status now))
        else ∃ g err, result = .error (g, err)) := by
  intro orders
  induction orders with
  | nil => exact fun _ _ hc _ _ => ⟨_, _, rfl, .nil hc, by simp⟩
  | cons e orders ih =>
    intro generated c hc hstored hnodup
    have he := hstored e List.mem_cons_self
    obtain ⟨hfresh, hnodup⟩ := List.nodup_cons.mp hnodup
    have hnew : ∀ e' ∈ orders, e'.orderID ≠ e.orderID := fun e' he' heq =>
      hfresh (List.mem_map.mpr ⟨e', he', heq⟩)
    have hstep : closeOrders (fun _ => false) status now generated (e :: orders) =
        Prog.mapError (generated, ·) (applyOrder (closing status now e)) >>= fun _ =>
          closeOrders (fun _ => false) status now (generated ++ [closing status now e])
            orders := rfl
    rw [hstep]
    by_cases hcan : canOrderTransition e.status status = true
    · obtain ⟨c₁, hrun, hone⟩ := run_applyOrder_closing now hc hterminal he hcan
      have hstored' : ∀ e' ∈ orders, c₁.order a e'.orderID = some e' := by
        intro e' he'
        rw [hone.kept a _ fun o ho heq => ?_]
        · exact hstored e' (List.mem_cons_of_mem e he')
        · rw [List.mem_singleton.mp ho] at heq
          exact hnew e' he' (Prod.mk.inj heq).2
      obtain ⟨result, c', hrest, hall, hresult⟩ :=
        ih (generated ++ [closing status now e]) hone.reachable hstored' hnodup
      refine ⟨result, c', ?_, ?_, ?_⟩
      · rw [Prog.run_bind_ok (Prog.run_mapError_ok hrun), hrest]
      · rw [List.takeWhile_cons, if_pos hcan]
        exact hone.cons hall fun e' he' => hnew e' ((List.takeWhile_sublist _).subset he')
      · simpa [hcan] using hresult
    · obtain ⟨err, hrun⟩ := run_applyOrder_not_accepted (c := c) (r := closing status now e) (by
        intro s hs
        obtain ⟨rfl, -, -⟩ := hc.consistent.orders.keyed a _ e he
        rw [show c.order (closing status now e).accountID (closing status now e).orderID =
          some e from he] at hs
        exact hcan (Option.isSome_iff_exists.mpr ⟨s, hs.1⟩))
      refine ⟨.error (generated, err), c, ?_, ?_, ?_⟩
      · rw [Prog.run_bind_error (Prog.run_mapError_error hrun)]
      · rw [List.takeWhile_cons, if_neg hcan]
        exact .nil hc
      · rw [if_neg fun h => hcan (h e List.mem_cons_self)]
        exact ⟨_, _, rfl⟩

/-- Once its checks have passed, the repair is the loop over the missing
orders. -/
theorem run_reconcileMissingOpenOrders_eq (clock : Time) (reports : List OrderStatusReport)
    (c : Cache) (hchecks : checkRepair a inst status = .ok ()) :
    (reconcileMissingOpenOrders clock a inst reports status).run c =
      (closeOrders (fun _ => false) status clock [] (missingOrders c a inst reports)).run c := by
  rw [reconcileMissingOpenOrders, reconcileMissingOpenOrdersWithPolicy, hchecks,
    Prog.run_bind_ok (Prog.run_mapError_ok (Prog.run_lift ..)), Prog.run_get_bind,
    closeOrders_filter, missingOrders]
  congr 3
  funext e
  simp [orderHasRecentActivity]

/-- The repair closes the missing orders, up to the first that cannot be
closed. -/
theorem run_reconcileMissingOpenOrders (clock : Time) (reports : List OrderStatusReport)
    (hc : Reachable c) (ha : a ≠ "")
    (hinst : inst.validate = .ok ()) (hterminal : status.isTerminal = true) :
    ∃ result c', (reconcileMissingOpenOrders clock a inst reports status).run c = (result, c') ∧
      ClosesAll a status clock ((missingOrders c a inst reports).takeWhile fun e =>
        canOrderTransition e.status status) c c' ∧
      (if ∀ e ∈ missingOrders c a inst reports, canOrderTransition e.status status = true then
        result = .ok ((missingOrders c a inst reports).map (closing status clock))
      else ∃ g err, result = .error (g, err)) := by
  have hindexed := hc.consistent.orders
  have hchecks : checkRepair a inst status = .ok () := by
    simp [checkRepair, ha, hinst, hterminal]
  rw [run_reconcileMissingOpenOrders_eq clock reports c hchecks]
  have hsub : missingOrders c a inst reports ⊆ c.openOrders a := List.filter_subset_self _
  exact run_closeOrders hterminal [] hc (fun e he => ((mem_openOrders hindexed).mp (hsub he)).1)
    ((openOrders_nodup hindexed a).sublist (List.filter_sublist.map _))

end

end Exchanges.Account
