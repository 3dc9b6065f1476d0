import Exchanges.Account.Repair

/-!
Closing the missing open orders of a cache that the reconciler has built.

A closing report of an order without any filled quantity has the stored fills
replayed on it, which would open the order again. In a cache that only `apply`
has written there are none: a fill that finds its order is counted at once, and
one that comes first is counted when the order arrives (`Settled.counted`). So
the loop closes exactly the orders it chooses, and leaves nothing for a second
call.
-/

namespace Exchanges.Account

open Exchanges.Lib Exchanges.Model Exchanges.Cache

set_option linter.unusedSectionVars false

/-- One of the statuses that the code names. -/
def DefinedStatus (s : OrderStatus) : Prop := ∀ name, s ≠ .other name

theorem canOrderTransition_canceled {s : OrderStatus} (hs : DefinedStatus s)
    (hopen : s.isOpen = true) : canOrderTransition s .canceled = true := by
  cases s with
  | other name => exact absurd rfl (hs name)
  | _ => first | rfl | cases hopen

theorem DefinedStatus.next {source target next : OrderStatus} (h : DefinedStatus target)
    (hnext : nextOrderStatus source target = some next) : DefinedStatus next := by
  obtain rfl | ⟨-, rfl⟩ := nextOrderStatus_eq hnext
  · exact h
  · exact fun _ heq => nomatch heq

section

variable [DecimalPackage] {c : Cache} {a : AccountID} {i : OrderID} {e r : OrderStatusReport}
  {inst : InstrumentID} {now clock : Time} {window : ℤ} {reports : List OrderStatusReport}
  {f : FillReport} {event : ExecutionEvent}

/-! ### The caches that events build -/

/-- What holds of the orders and fills that events have brought into a cache. -/
structure Settled (c : Cache) : Prop where
  reachable : Reachable c
  defined : ∀ a i e, c.order a i = some e → DefinedStatus e.status
  /-- The fills of an order are counted. -/
  counted : ∀ a i e, c.order a i = some e → e.filledQuantity = 0 → c.fillsForOrder a i = []

theorem settled_new : Settled new := by
  refine ⟨.new, fun a i e he => ?_, fun a i e he => ?_⟩
  all_goals cases (OrdMap.get_empty _).symm.trans he

/-- The orders of the event have statuses that the code names. -/
def DefinedEvent (event : ExecutionEvent) : Prop :=
  ∀ r, event.order = some r → DefinedStatus r.status

/-- Only a fill changes the stored fills. -/
theorem fills_afterEvent (hc : Reachable c) (event : ExecutionEvent) :
    (afterEvent c event).fills = c.fills ∨ ∃ f : FillReport, f.WellFormed ∧ event = .ofFill f := by
  cases kind c event with
  | @order r hr =>
    obtain ⟨result, c', hrun, -, honly⟩ :=
      run_applyOrder ⟨rfl, rfl, hr⟩ (fillsForOrder_wellFormed hc)
    refine .inl ?_
    rw [afterEvent, run_apply_ofOrder hr, hrun, honly]
    rfl
  | @fill f hf => exact .inr ⟨f, hf, rfl⟩
  | other _ hsame => exact .inl hsame.2

theorem fillsForOrder_congr {c' : Cache} (h : c'.fills = c.fills) :
    c'.fillsForOrder a i = c.fillsForOrder a i := by
  rw [fillsForOrder, fillsForOrder, h]

theorem fillsForOrder_insertFill_of_ne (hne : (a, i) ≠ (f.accountID, f.orderID)) :
    (c.insertFill f).fillsForOrder a i = c.fillsForOrder a i := by
  rw [fillsForOrder, fillsForOrder]
  refine congrArg sortFills (OrdMap.row_congr fun t => ?_)
  exact OrdMap.get_put_of_ne _ (fun heq => hne (Prod.mk.inj heq).1) f

theorem eq_nil_of_totalQuantity {fills : List FillReport} (hfills : ∀ f ∈ fills, f.WellFormed)
    (h : totalQuantity fills = 0) : fills = [] := by
  cases fills with
  | nil => rfl
  | cons f fills =>
    have hpos := (hfills f List.mem_cons_self).quantity_pos
    have hrest := totalQuantity_nonneg fun g hg => hfills g (List.mem_cons_of_mem f hg)
    rw [totalQuantity_cons] at h
    linarith

/-- A report that leaves its order unfilled has found no fills. -/
theorem counted_outcome {s : OrderStatus} (hc : Reachable c) (hr : r.WellFormed)
    (hs : s ≠ .unset) (hzero : (outcome c r s).filledQuantity = 0) :
    c.fillsForOrder r.accountID r.orderID = [] := by
  have hfills := fillsForOrder_wellFormed (a := r.accountID) (i := r.orderID) hc
  rw [filledQuantity_outcome hc hr hs, filledWith] at hzero
  refine eq_nil_of_totalQuantity hfills ?_
  split_ifs at hzero with hnone hq hfilled
  · exact absurd hzero hnone
  · exact absurd hzero hq.ne'
  · rcases min_choice r.quantity (totalQuantity (c.fillsForOrder r.accountID r.orderID))
      with hmin | hmin
    · exact absurd (hmin.symm.trans hzero) hq.ne'
    · exact hmin.symm.trans hzero
  · exact hzero

/-! ### A report that comes twice -/

/-- A report that is accepted again has had no fills replayed on it, as they would have raised
the filled quantity, and is accepted with the same status. -/
theorem outcome_again {s s' : OrderStatus} (hc : Reachable c) (hr : r.WellFormed)
    (hs : AcceptedAs (c.order r.accountID r.orderID) r s)
    (hs' : AcceptedAs (some (outcome c r s)) r s') : outcome c r s' = outcome c r s := by
  obtain ⟨hnext, hle⟩ := hs'
  have hfills : replayedFills c r = [] := by
    unfold replayedFills
    split_ifs with hzero
    · have hnonneg := (outcome_wellFormed hc hr (hs.ne_unset hr)).filled_nonneg
      exact counted_outcome hc hr (hs.ne_unset hr) (le_antisymm (hzero ▸ hle) hnonneg)
    · rfl
  rw [outcome, hfills, fillAll_nil, normalizeOrder_status] at hnext
  have hstatus : s = r.status ∨ r.status = .submitted ∧ s = .pendingUpdate := by
    cases ho : c.order r.accountID r.orderID with
    | none => exact .inl (by rwa [ho] at hs)
    | some e => exact nextOrderStatus_eq (by rw [ho] at hs; exact hs.1)
  have hsame : nextOrderStatus s r.status = some s := by
    obtain rfl | ⟨hsubmitted, rfl⟩ := hstatus
    · exact if_pos rfl
    · rw [hsubmitted]
      rfl
  rw [Option.some.inj (hsame.symm.trans hnext)]

/-- To deliver a report a second time changes no order. -/
theorem report_again (hc : Reachable c) (hr : r.WellFormed) :
    (afterEvents c [.ofOrder r, .ofOrder r]).orders = (afterEvents c [.ofOrder r]).orders := by
  have hc' := reachable_afterEvent hc (.ofOrder r)
  have horders := orders_afterEvent hc (.ofOrder r)
  refine (orders_afterEvent hc' (.ofOrder r)).trans ?_
  cases hagain : written (afterEvent c (.ofOrder r)) (.ofOrder r) with
  | none => rfl
  | some o =>
    obtain ⟨s', hs', rfl⟩ := (written_ofOrder hr).mp hagain
    cases hw : written c (.ofOrder r) with
    | none =>
      rw [hw] at horders
      rw [Cache.order, horders] at hs'
      cases hw.symm.trans ((written_ofOrder hr).mpr ⟨s', hs', rfl⟩)
    | some o =>
      obtain ⟨s, hs, rfl⟩ := (written_ofOrder hr).mp hw
      rw [hw] at horders
      have hids := version_outcome c r s
      have hstored : (afterEvent c (.ofOrder r)).orders.get
          ((outcome c r s).accountID, (outcome c r s).orderID) = some (outcome c r s) := by
        rw [horders, order_storeOrder_self]
      rw [Cache.order, ← hids.accountID, ← hids.orderID, hstored] at hs'
      obtain hfills | ⟨f, -, hfill⟩ := fills_afterEvent hc (.ofOrder r)
      · rw [outcome_congr hfills, outcome_again hc hr hs hs']
        refine OrdMap.ext_get fun k => ?_
        by_cases hk : k = ((outcome c r s).accountID, (outcome c r s).orderID)
        · rw [hk, order_storeOrder_self]
          exact hstored.symm
        · exact order_storeOrder_version hc'.consistent.orders hstored rfl rfl hk
      · cases hfill

/-! ### The statuses and fills of the orders -/

theorem definedStatus_applyFillToOrder (he : DefinedStatus e.status) (f : FillReport) :
    DefinedStatus (applyFillToOrder e f).status := by
  intro name
  unfold applyFillToOrder
  dsimp only
  split_ifs
  all_goals first | exact he name | exact fun heq => nomatch heq

theorem definedStatus_fillAll (fills : List FillReport) :
    ∀ {e : OrderStatusReport}, DefinedStatus e.status → DefinedStatus (fillAll e fills).status := by
  induction fills with
  | nil => exact fun he => he
  | cons f fills ih => exact fun he => ih (definedStatus_applyFillToOrder he f)

theorem AcceptedAs.defined {existing : Option OrderStatusReport} {s : OrderStatus}
    (h : AcceptedAs existing r s) (hr : DefinedStatus r.status) : DefinedStatus s := by
  cases existing with
  | none => exact (show s = r.status from h) ▸ hr
  | some e => exact hr.next h.1

/-- A version that an event wrote has a status that the code names. -/
theorem Settled.defined_written (h : Settled c) (hdefined : DefinedEvent event)
    (hw : written c event = some e) : DefinedStatus e.status := by
  cases kind c event with
  | @order r hr =>
    obtain ⟨s, hs, rfl⟩ := (written_ofOrder hr).mp hw
    rw [outcome]
    refine definedStatus_fillAll _ ?_
    rw [normalizeOrder_status]
    exact hs.defined (hdefined r rfl)
  | @fill f hf =>
    obtain ⟨-, o, ho, rfl⟩ := (written_ofFill hf).mp hw
    exact definedStatus_applyFillToOrder (h.defined _ _ o ho) f
  | other hnil _ =>
    rw [written, hnil] at hw
    cases hw

/-- A version that an event wrote and left unfilled has no fills. -/
theorem Settled.counted_written (h : Settled c) (hw : written c event = some e)
    (hzero : e.filledQuantity = 0) :
    (afterEvent c event).fillsForOrder e.accountID e.orderID = [] := by
  cases kind c event with
  | @order r hr =>
    obtain ⟨s, hs, rfl⟩ := (written_ofOrder hr).mp hw
    have hids := version_outcome c r s
    rw [hids.accountID, hids.orderID]
    obtain hsame | ⟨f, -, heq⟩ := fills_afterEvent h.reachable (.ofOrder r)
    · rw [fillsForOrder_congr hsame]
      exact counted_outcome h.reachable hr (hs.ne_unset hr) hzero
    · cases heq
  | @fill f hf =>
    obtain ⟨-, o, ho, rfl⟩ := (written_ofFill hf).mp hw
    rw [applyFillToOrder_filledQuantity] at hzero
    have hpos := nextFilledQuantity_pos (h.reachable.validated.orders _ o ho) hf
    exact absurd hzero hpos.ne'
  | other hnil _ =>
    rw [written, hnil] at hw
    cases hw

/-- An order that an event does not write gets no fill from it. -/
theorem Settled.counted_kept (h : Settled c) (he : c.order a i = some e)
    (he' : (afterEvent c event).order a i = some e) (hzero : e.filledQuantity = 0) :
    (afterEvent c event).fillsForOrder a i = [] := by
  obtain hsame | ⟨f, hf, rfl⟩ := fills_afterEvent h.reachable event
  · rw [fillsForOrder_congr hsame]
    exact h.counted a i e he hzero
  · cases hget : c.fills.get (fillKey f) with
    | some g =>
      rw [afterEvent, run_apply_ofFill hf, run_applyFill_stored hf hget]
      exact h.counted a i e he hzero
    | none =>
      by_cases hkey : (a, i) = (f.accountID, f.orderID)
      · -- The fill would have been counted.
        obtain ⟨rfl, rfl⟩ := Prod.mk.inj hkey
        have hwf := h.reachable.validated.orders _ e he
        have hids := version_applyFillToOrder e f
        obtain ⟨haccount, hid, -⟩ := h.reachable.consistent.orders.keyed _ _ e he
        rw [afterEvent, run_apply_ofFill hf, run_applyFill_new hf hget he hwf] at he'
        have hstored := order_storeOrder_self (c.insertFill f) (applyFillToOrder e f)
        rw [hids.accountID, hids.orderID, haccount, hid] at hstored
        have heq := Option.some.inj (hstored.symm.trans he')
        have hpos := nextFilledQuantity_pos hwf hf
        rw [← heq, applyFillToOrder_filledQuantity] at hzero
        exact absurd hzero hpos.ne'
      · have hrow : (afterEvent c (.ofFill f)).fillsForOrder a i = c.fillsForOrder a i := by
          rw [afterEvent, run_apply_ofFill hf]
          cases ho : c.order f.accountID f.orderID with
          | none =>
            rw [run_applyFill_orphan hf hget ho]
            exact fillsForOrder_insertFill_of_ne hkey
          | some o =>
            rw [run_applyFill_new hf hget ho (h.reachable.validated.orders _ o ho)]
            exact (fillsForOrder_congr (fills_storeOrder ..)).trans
              (fillsForOrder_insertFill_of_ne hkey)
        rw [hrow]
        exact h.counted a i e he hzero

theorem Settled.afterEvent (h : Settled c) (hdefined : DefinedEvent event) :
    Settled (afterEvent c event) := by
  have hcases : ∀ a i e, (Account.afterEvent c event).order a i = some e →
      c.order a i = some e ∨
        written c event = some e ∧ (a, i) = (e.accountID, e.orderID) := by
    intro a i e he
    obtain hkept | ⟨o, ws, hw, hkey, rfl⟩ := order_afterEvent h.reachable he
    · exact .inl hkept
    · refine .inr ⟨by rw [written, hw, List.getLast?_eq_some_getLast (List.cons_ne_nil o ws)], ?_⟩
      have hindexed := (reachable_afterEvent h.reachable event).consistent.orders
      obtain ⟨haccount, hid, -⟩ := hindexed.keyed a i _ he
      rw [haccount, hid]
  refine ⟨reachable_afterEvent h.reachable event, fun a i e he => ?_, fun a i e he hzero => ?_⟩
  · obtain hkept | ⟨hw, -⟩ := hcases a i e he
    · exact h.defined a i e hkept
    · exact h.defined_written hdefined hw
  · obtain hkept | ⟨hw, hkey⟩ := hcases a i e he
    · exact h.counted_kept hkept he hzero
    · obtain ⟨rfl, rfl⟩ := Prod.mk.inj hkey
      exact h.counted_written hw hzero

theorem settled_afterEvents {events : List ExecutionEvent}
    (hdefined : ∀ event ∈ events, DefinedEvent event) : Settled (afterEvents new events) :=
  List.foldlRecOn events Account.afterEvent settled_new
    fun _ h event hevent => h.afterEvent (hdefined event hevent)

/-! ### Which orders are closed -/

/-- The order was updated or created within the window. -/
def ActiveWithin (now : Time) (window : ℤ) (e : OrderStatusReport) : Prop :=
  0 < window ∧ max e.lastUpdatedTime e.metadata.tsInit ≠ 0 ∧
    now - max e.lastUpdatedTime e.metadata.tsInit < window

theorem orderHasRecentActivity_iff :
    orderHasRecentActivity e now window = true ↔ ActiveWithin now window e := by
  unfold orderHasRecentActivity ActiveWithin
  split_ifs with hwindow
  · exact iff_of_false not_false fun h => absurd h.1 (not_lt.2 hwindow)
  · dsimp only
    split_ifs with hzero
    · exact iff_of_false not_false fun h => absurd hzero h.2.1
    · rw [decide_eq_true_eq]
      exact ⟨fun h => ⟨not_le.1 hwindow, hzero, h⟩, fun h => h.2.2⟩

/-- A stored open order of the account and instrument that no report lists and
that has not been active within the window. -/
structure Missing (c : Cache) (a : AccountID) (inst : InstrumentID)
    (reports : List OrderStatusReport) (now : Time) (window : ℤ) (e : OrderStatusReport) :
    Prop where
  stored : c.order a e.orderID = some e
  isOpen : e.status.isOpen = true
  instrumentID : e.instrumentID = inst
  unlisted : ¬ Listed a inst reports e
  inactive : ¬ ActiveWithin now window e

/-- The missing orders as the loop meets them. -/
def missingInactive (c : Cache) (a : AccountID) (inst : InstrumentID)
    (reports : List OrderStatusReport) (now : Time) (window : ℤ) : List OrderStatusReport :=
  (missingOrders c a inst reports).filter fun e => !orderHasRecentActivity e now window

theorem mem_missingInactive (hc : OrdersIndexed c) :
    e ∈ missingInactive c a inst reports now window ↔ Missing c a inst reports now window e := by
  rw [missingInactive, List.mem_filter, mem_missingOrders hc, Bool.not_eq_true',
    ← Bool.not_eq_true, orderHasRecentActivity_iff]
  exact ⟨fun ⟨⟨h1, h2, h3, h4⟩, h5⟩ => ⟨h1, h2, h3, h4, h5⟩,
    fun ⟨h1, h2, h3, h4, h5⟩ => ⟨⟨h1, h2, h3, h4⟩, h5⟩⟩

theorem run_reconcileWithPolicy_eq (clock : Time) (reports : List OrderStatusReport)
    (c : Cache) (ha : a ≠ "") (hinst : inst.validate = .ok ()) (hnow : now ≠ 0) :
    (reconcileMissingOpenOrdersWithPolicy clock a inst reports
        { missingStatus := .canceled, recentActivityWindow := window, now := now }).run c =
      (closeOrders (fun _ => false) .canceled now []
        (missingInactive c a inst reports now window)).run c := by
  have hchecks : checkRepair a inst .canceled = .ok () := by
    simp [checkRepair, ha, hinst, OrderStatus.isTerminal]
  rw [reconcileMissingOpenOrdersWithPolicy, hchecks,
    Prog.run_bind_ok (Prog.run_mapError_ok (Prog.run_lift ..)), Prog.run_get_bind,
    closeOrders_filter, missingInactive, missingOrders, List.filter_filter]
  dsimp only
  rw [if_neg hnow]
  congr 3
  funext e
  simp [Bool.and_comm]

/-- A settled order keeps its amounts when it is canceled. -/
theorem Settled.outcome_canceled (h : Settled c) (he : c.order a e.orderID = some e) :
    outcome c (closing .canceled now e) .canceled = closing .canceled now e := by
  obtain ⟨rfl, -, -⟩ := h.reachable.consistent.orders.keyed a _ e he
  have hreplayed : replayedFills c (closing .canceled now e) = [] := by
    unfold replayedFills
    split
    · next hzero => exact h.counted _ _ e he hzero
    · rfl
  rw [outcome, hreplayed, fillAll_nil]
  simp [normalizeOrder, closing, OrderStatus.isOpen, OrderStatus.isTerminal]

/-- The repair as a whole. -/
theorem Settled.run_reconcile (h : Settled c) (clock : Time) (reports : List OrderStatusReport)
    (ha : a ≠ "") (hinst : inst.validate = .ok ()) (hnow : now ≠ 0) (window : ℤ) :
    ∃ c', (reconcileMissingOpenOrdersWithPolicy clock a inst reports
        { missingStatus := .canceled, recentActivityWindow := window, now := now }).run c =
          (.ok ((missingInactive c a inst reports now window).map (closing .canceled now)), c') ∧
      ClosesAll a .canceled now (missingInactive c a inst reports now window) c c' := by
  have hindexed := h.reachable.consistent.orders
  have hcan : ∀ e ∈ missingInactive c a inst reports now window,
      canOrderTransition e.status .canceled = true := by
    intro e he
    have hmissing := (mem_missingInactive hindexed).1 he
    exact canOrderTransition_canceled (h.defined a _ e hmissing.stored) hmissing.isOpen
  have hsub : (missingInactive c a inst reports now window).Sublist (c.openOrders a) :=
    List.filter_sublist.trans List.filter_sublist
  obtain ⟨result, c', hrun, hcloses, hresult⟩ := @run_closeOrders _ a .canceled now rfl
    (missingInactive c a inst reports now window) [] c h.reachable
    (fun e he => ((mem_openOrders hindexed).mp (hsub.subset he)).1)
    ((openOrders_nodup hindexed a).sublist (hsub.map _))
  rw [if_pos hcan, List.nil_append] at hresult
  rw [List.takeWhile_eq_self_iff.mpr hcan] at hcloses
  exact ⟨c', by rw [run_reconcileWithPolicy_eq clock reports c ha hinst hnow, hrun, hresult],
    hcloses⟩

/-- After any events whose orders have statuses that the code names: the repair
succeeds; what it returns are the canceled versions of the missing orders, each
once; these are stored, every other order is as it was, and the same call finds
nothing to close any more. -/
theorem reconcile_closes_missing {events : List ExecutionEvent}
    (hdefined : ∀ event ∈ events, DefinedEvent event) (clock : Time) (ha : a ≠ "")
    (hinst : inst.validate = .ok ()) (reports : List OrderStatusReport) (window : ℤ)
    (hnow : now ≠ 0) :
    ∃ generated c', (reconcileMissingOpenOrdersWithPolicy clock a inst reports
        { missingStatus := .canceled, recentActivityWindow := window, now := now }).run
          (afterEvents new events) = (.ok generated, c') ∧
      (∀ r, r ∈ generated ↔ ∃ e, Missing (afterEvents new events) a inst reports now window e ∧
        r = closing .canceled now e) ∧
      (generated.map (·.orderID)).Nodup ∧
      (∀ e, Missing (afterEvents new events) a inst reports now window e →
        c'.order a e.orderID = some (closing .canceled now e)) ∧
      (∀ b i, (∀ e, Missing (afterEvents new events) a inst reports now window e →
        (b, i) ≠ (a, e.orderID)) → c'.order b i = (afterEvents new events).order b i) ∧
      ∀ clock', (reconcileMissingOpenOrdersWithPolicy clock' a inst reports
        { missingStatus := .canceled, recentActivityWindow := window, now := now }).run c' =
          (.ok [], c') := by
  have h := settled_afterEvents hdefined
  set c := afterEvents new events
  have hindexed := h.reachable.consistent.orders
  obtain ⟨c', hrun, hcloses⟩ := h.run_reconcile clock reports ha hinst hnow window
  have hclosed : ∀ e, Missing c a inst reports now window e →
      c'.order a e.orderID = some (closing .canceled now e) := by
    intro e he
    rw [hcloses.closed e ((mem_missingInactive hindexed).2 he), h.outcome_canceled he.stored]
  have hkept : ∀ b i, (∀ e, Missing c a inst reports now window e → (b, i) ≠ (a, e.orderID)) →
      c'.order b i = c.order b i := fun b i hne =>
    hcloses.kept b i fun e he => hne e ((mem_missingInactive hindexed).1 he)
  refine ⟨_, c', hrun, fun r => ?_, ?_, hclosed, hkept, fun clock' => ?_⟩
  · rw [List.mem_map]
    exact exists_congr fun e => and_congr (mem_missingInactive hindexed) eq_comm
  · rw [List.map_map]
    exact (openOrders_nodup hindexed a).sublist
      ((List.filter_sublist.trans List.filter_sublist).map _)
  · have hnone : missingInactive c' a inst reports now window = [] := by
      rw [List.eq_nil_iff_forall_not_mem]
      intro e he
      have hmissing := (mem_missingInactive hcloses.reachable.consistent.orders).1 he
      by_cases hwas : ∃ e', Missing c a inst reports now window e' ∧ e'.orderID = e.orderID
      · -- The order was canceled by the first call.
        obtain ⟨e', he', hid⟩ := hwas
        have hsame := hmissing.stored
        rw [← hid, hclosed e' he'] at hsame
        have hopen := hmissing.isOpen
        rw [← Option.some.inj hsame] at hopen
        cases hopen
      · have hstored := hmissing.stored
        rw [hkept a e.orderID fun e' he' heq => hwas ⟨e', he', (Prod.mk.inj heq).2.symm⟩]
          at hstored
        exact hwas ⟨e, ⟨hstored, hmissing.isOpen, hmissing.instrumentID, hmissing.unlisted,
          hmissing.inactive⟩, rfl⟩
    rw [run_reconcileWithPolicy_eq clock' reports c' ha hinst hnow, hnone]
    rfl

end

theorem report_again_accepted :
    (@afterEvents exactDecimals new [.ofOrder sampleReport, .ofOrder sampleReport]).orders =
      (@afterEvents exactDecimals new [.ofOrder sampleReport]).orders :=
  @report_again exactDecimals new sampleReport .new
    (OrderStatusReport.validate_eq_ok.mp (by decide +kernel))

/-- An accepted order that the venue does not list is canceled. -/
theorem reconcile_closes_missing_accepted :
    ∃ c', (@reconcileMissingOpenOrdersWithPolicy exactDecimals 9 "acct" samplePerp []
        { missingStatus := .canceled, recentActivityWindow := 3, now := 5 }).run
          (@afterEvents exactDecimals new [.ofOrder sampleReport]) =
        (.ok [closing .canceled 5 (normalizeOrder sampleReport)], c') ∧
      c'.order "acct" "order-1" = some (closing .canceled 5 (normalizeOrder sampleReport)) := by
  obtain ⟨generated, c', hrun, -, -, hclosed, -, -⟩ := @reconcile_closes_missing exactDecimals
    "acct" samplePerp 5 [.ofOrder sampleReport]
    (fun event hevent r hr => by
      obtain rfl := List.mem_singleton.1 hevent
      cases hr
      exact fun _ heq => nomatch heq)
    9 (by decide) (by decide +kernel) [] 3 (by decide)
  have hgenerated : generated = [closing .canceled 5 (normalizeOrder sampleReport)] := by
    have hresult : ((@reconcileMissingOpenOrdersWithPolicy exactDecimals 9 "acct" samplePerp []
        { missingStatus := .canceled, recentActivityWindow := 3, now := 5 }).run
          (@afterEvents exactDecimals new [.ofOrder sampleReport])).1 =
        .ok [closing .canceled 5 (normalizeOrder sampleReport)] := by decide +kernel
    rw [hrun] at hresult
    exact Except.ok.inj hresult
  refine ⟨c', hgenerated ▸ hrun, hclosed (normalizeOrder sampleReport) ⟨?_, ?_, ?_, ?_, ?_⟩⟩
  · decide +kernel
  · decide +kernel
  · decide +kernel
  · rintro ⟨r, hr, -⟩
    cases hr
  · exact fun hactive => absurd hactive.2.2 (by decide +kernel)

end Exchanges.Account
