import Exchanges.Account.OrderLedger

/-!
A report and its fills may arrive in any order, any number of times.

The result is `settledOrder`: the totals over the set of fills, whatever the
arrival order was. A fill before the report is replayed when the report
arrives, in the sorted order of the cache; a fill after it is added at once;
and a late duplicate of the report is refused, because its filled quantity has
fallen behind. The invariant carried along a run is that the stored order is
the settled order of the fills recorded so far.
-/

namespace Exchanges.Account

open Exchanges.Lib Exchanges.Model Exchanges.Cache

/-! ### Totals -/

/-- The notional traded in some fills. -/
def totalNotional (fills : List FillReport) : Decimal :=
  (fills.map fun f => f.price * f.quantity).sum

/-- The latest of an instant and the times of some fills. -/
def latestTime (t : Time) (fills : List FillReport) : Time :=
  fills.foldr (fun f latest => max latest f.timestamp) t

@[simp] theorem totalNotional_cons (f : FillReport) (fills : List FillReport) :
    totalNotional (f :: fills) = f.price * f.quantity + totalNotional fills := rfl

@[simp] theorem latestTime_cons (t : Time) (f : FillReport) (fills : List FillReport) :
    latestTime t (f :: fills) = max (latestTime t fills) f.timestamp := rfl

theorem totalNotional_perm {fills fills' : List FillReport} (h : fills.Perm fills') :
    totalNotional fills = totalNotional fills' :=
  (h.map _).sum_eq

theorem latestTime_perm (t : Time) {fills fills' : List FillReport} (h : fills.Perm fills') :
    latestTime t fills = latestTime t fills' := by
  induction h with
  | nil => rfl
  | cons f _ ih => simp only [latestTime_cons, ih]
  | swap f g fills => simp only [latestTime_cons, max_right_comm]
  | trans _ _ ih ih' => exact ih.trans ih'

theorem totalNotional_pos {fills : List FillReport} (h : ∀ f ∈ fills, f.WellFormed)
    (hne : fills ≠ []) : 0 < totalNotional fills := by
  apply List.sum_pos
  · intro n hn
    obtain ⟨f, hf, rfl⟩ := List.mem_map.mp hn
    exact mul_pos (h f hf).price_pos (h f hf).quantity_pos
  · simpa using hne

theorem totalQuantity_pos {fills : List FillReport} (h : ∀ f ∈ fills, f.WellFormed)
    (hne : fills ≠ []) : 0 < totalQuantity fills := by
  apply List.sum_pos
  · intro n hn
    obtain ⟨f, hf, rfl⟩ := List.mem_map.mp hn
    exact (h f hf).quantity_pos
  · simpa using hne

/-! ### The settled order -/

/-- The order that a report and a set of fills settle to. -/
def settledOrder (r : OrderStatusReport) (fills : List FillReport) : OrderStatusReport :=
  { r with
    filledQuantity := totalQuantity fills
    leavesQuantity := r.quantity - totalQuantity fills
    status := if totalQuantity fills = r.quantity then .filled else .partiallyFilled
    averagePrice := totalNotional fills / totalQuantity fills
    lastUpdatedTime := latestTime r.lastUpdatedTime fills }

/-- The stored order once the report and these fills have arrived. -/
def orderWith (r : OrderStatusReport) (fills : List FillReport) : OrderStatusReport :=
  if fills = [] then normalizeOrder r else settledOrder r fills

theorem orderWith_perm (r : OrderStatusReport) {fills fills' : List FillReport}
    (h : fills.Perm fills') : orderWith r fills = orderWith r fills' := by
  have hnil : fills = [] ↔ fills' = [] := ⟨fun hn => by simpa [hn] using h, fun hn => by
    simpa [hn] using h⟩
  simp only [orderWith, settledOrder, totalQuantity_perm h, totalNotional_perm h,
    latestTime_perm _ h, hnil]

/-- A fill that does not go beyond the order's quantity. -/
theorem applyFillToOrder_within [DecimalPackage] {o : OrderStatusReport} {f : FillReport}
    (hq : 0 < o.quantity) (hpos : 0 < o.filledQuantity + f.quantity)
    (hle : o.filledQuantity + f.quantity ≤ o.quantity) :
    applyFillToOrder o f =
      { o with
        filledQuantity := o.filledQuantity + f.quantity
        averagePrice :=
          averageFillPrice o.averagePrice o.filledQuantity f.price f.quantity
        leavesQuantity := o.quantity - (o.filledQuantity + f.quantity)
        status := if o.filledQuantity + f.quantity = o.quantity then .filled
          else .partiallyFilled
        lastUpdatedTime := max o.lastUpdatedTime f.timestamp } := by
  have hnext : nextFilledQuantity o f = o.filledQuantity + f.quantity := by
    simp [nextFilledQuantity, not_lt.mpr hle]
  simp only [applyFillToOrder, hnext, hq, if_true]
  by_cases hfull : o.quantity ≤ o.filledQuantity + f.quantity
  · have heq := le_antisymm hle hfull
    simp [heq]
  · have hlt := not_le.mp hfull
    simp [hfull, hlt.ne, hpos, hle]

section Settling

variable {r : OrderStatusReport}

theorem normalizeOrder_of_open (hopen : r.status.isOpen = true) :
    ∃ leaves, normalizeOrder r = { r with leavesQuantity := leaves } := by
  have hstatus : r.status ≠ .filled := by
    intro h
    simp [h, OrderStatus.isOpen, OrderStatus.isTerminal] at hopen
  by_cases hleaves : 0 < r.quantity ∧ r.leavesQuantity = 0 ∧ r.status.isOpen = true
  · exact ⟨r.quantity - r.filledQuantity, by simp [normalizeOrder, hleaves, hstatus]⟩
  · exact ⟨r.leavesQuantity, by simp only [normalizeOrder, hleaves, hstatus, if_false,
      false_and]⟩

variable [DecimalPackage] [ExactDivision]

/-- One more fill moves the settled order on by one fill. -/
theorem applyFillToOrder_orderWith (hopen : r.status.isOpen = true) (hq : 0 < r.quantity)
    (hzero : r.filledQuantity = 0) {fills : List FillReport} {f : FillReport}
    (hwf : ∀ g ∈ f :: fills, g.WellFormed) (hle : totalQuantity (f :: fills) ≤ r.quantity) :
    applyFillToOrder (orderWith r fills) f = orderWith r (f :: fills) := by
  have hf := hwf f List.mem_cons_self
  rw [totalQuantity_cons] at hle
  by_cases hnil : fills = []
  · -- the first fill sets the average price
    subst hnil
    obtain ⟨leaves, hnorm⟩ := normalizeOrder_of_open hopen
    have hsum : (0 : ℚ) + f.quantity ≤ r.quantity := by simpa using hle
    rw [orderWith, if_pos rfl, hnorm,
      applyFillToOrder_within (o := { r with leavesQuantity := leaves }) hq]
    · have hqne : f.quantity ≠ 0 := hf.quantity_pos.ne'
      simp [orderWith, settledOrder, averageFillPrice, hzero, totalQuantity, totalNotional,
        latestTime, hqne]
    · simpa [hzero] using hf.quantity_pos
    · simpa [hzero] using hsum
  · -- a later fill is averaged in
    have hfills : ∀ g ∈ fills, g.WellFormed := fun g hg => hwf g (List.mem_cons_of_mem f hg)
    have hquantity := totalQuantity_pos hfills hnil
    have hnotional := totalNotional_pos hfills hnil
    have hnext : 0 < totalQuantity fills + f.quantity := add_pos hquantity hf.quantity_pos
    have hbound : totalQuantity fills + f.quantity ≤ r.quantity := by linarith
    rw [orderWith, if_neg hnil,
      applyFillToOrder_within (o := settledOrder r fills) hq hnext hbound]
    have haverage : averageFillPrice (totalNotional fills / totalQuantity fills)
        (totalQuantity fills) f.price f.quantity =
        totalNotional (f :: fills) / totalQuantity (f :: fills) := by
      have hratio : totalNotional fills / totalQuantity fills ≠ 0 :=
        (div_pos hnotional hquantity).ne'
      simp only [averageFillPrice, hnext.ne', hratio, hquantity.ne', or_self, if_false,
        ExactDivision.div_eq, totalNotional_cons, totalQuantity_cons]
      rw [div_mul_cancel₀ _ hquantity.ne', add_comm (totalNotional fills),
        add_comm (totalQuantity fills)]
    have hcons : totalQuantity (f :: fills) = totalQuantity fills + f.quantity := by
      rw [totalQuantity_cons, add_comm]
    rw [orderWith, if_neg (List.cons_ne_nil f fills)]
    simp only [settledOrder, latestTime_cons]
    rw [haverage, hcons]
    rfl

/-- Replaying fills on the report settles it. -/
theorem fillAll_orderWith (hopen : r.status.isOpen = true) (hq : 0 < r.quantity)
    (hzero : r.filledQuantity = 0) :
    ∀ (later earlier : List FillReport), (∀ g ∈ later ++ earlier, g.WellFormed) →
      totalQuantity (later ++ earlier) ≤ r.quantity →
      fillAll (orderWith r earlier) later = orderWith r (later ++ earlier) := by
  intro later
  induction later with
  | nil => exact fun earlier _ _ => rfl
  | cons f later ih =>
    intro earlier hwf hle
    have hperm : (f :: later ++ earlier).Perm (later ++ f :: earlier) :=
      List.perm_middle.symm
    have hwf' : ∀ g ∈ later ++ f :: earlier, g.WellFormed :=
      fun g hg => hwf g (hperm.mem_iff.mpr hg)
    have hle' : totalQuantity (later ++ f :: earlier) ≤ r.quantity := by
      rwa [← totalQuantity_perm hperm]
    have hwf'' : ∀ g ∈ f :: earlier, g.WellFormed :=
      fun g hg => hwf' g (List.mem_append_right later hg)
    have hstep := applyFillToOrder_orderWith hopen hq hzero hwf'' ?_
    · rw [fillAll_cons, hstep, ih (f :: earlier) hwf' hle']
      exact (orderWith_perm r hperm).symm
    · have hlater : 0 ≤ totalQuantity later := totalQuantity_nonneg fun g hg =>
        hwf' g (List.mem_append_left _ hg)
      have happend : totalQuantity (later ++ f :: earlier) =
          totalQuantity later + totalQuantity (f :: earlier) := by
        simp [totalQuantity]
      linarith

/-! ### Runs -/

omit [ExactDivision] in
/-- The report refused as a late duplicate: some fill is recorded already. -/
theorem orderAfterReport_late (hzero : r.filledQuantity = 0) {fills : List FillReport}
    (hwf : ∀ f ∈ fills, f.WellFormed) (hne : fills ≠ []) :
    orderAfterReport fills (some (orderWith r fills)) r = some (orderWith r fills) := by
  have hbehind : r.filledQuantity < (orderWith r fills).filledQuantity := by
    rw [orderWith, if_neg hne, hzero]
    exact totalQuantity_pos hwf hne
  have hrefused : ∃ e, checkOrder (some (orderWith r fills)) r = .error e := by
    simp only [checkOrder]
    cases nextOrderStatus (orderWith r fills).status r.status with
    | none => exact ⟨_, rfl⟩
    | some status => exact ⟨_, if_pos hbehind⟩
  obtain ⟨e, he⟩ := hrefused
  simp only [orderAfterReport, he]

omit [ExactDivision] in
/-- The report repeated before any fill. -/
theorem orderAfterReport_again (hopen : r.status.isOpen = true) (hzero : r.filledQuantity = 0) :
    orderAfterReport [] (some (orderWith r [])) r = some (orderWith r []) := by
  obtain ⟨leaves, hnorm⟩ := normalizeOrder_of_open hopen
  have hstatus : (orderWith r []).status = r.status := by simp [orderWith]
  have hfilled : (orderWith r []).filledQuantity = 0 := by simp [orderWith, hnorm, hzero]
  have haccepted : checkOrder (some (orderWith r [])) r = .ok r := by
    have hnext : nextOrderStatus (orderWith r []).status r.status = some r.status := by
      simp [nextOrderStatus, hstatus]
    have hback : ¬ r.filledQuantity < (orderWith r []).filledQuantity := by
      rw [hfilled, hzero]
      exact lt_irrefl 0
    simp only [checkOrder, hnext, hback, if_false]
  simp only [orderAfterReport, haccepted, hzero, if_true, fillAll_nil]
  simp [orderWith]

/-- What is in the cache after the events `done`. -/
structure Progress (r : OrderStatusReport) (fills : List FillReport)
    (done : List ExecutionEvent) (c : Cache) : Prop where
  ledger : Ledger r.accountID r.orderID fills c
  recorded : ∀ f ∈ fills,
    f ∈ c.fillsForOrder r.accountID r.orderID ↔ ExecutionEvent.ofFill f ∈ done
  order : c.order r.accountID r.orderID =
    if ExecutionEvent.ofOrder r ∈ done then
      some (orderWith r (c.fillsForOrder r.accountID r.orderID))
    else none

variable {fills : List FillReport} {c : Cache} {done : List ExecutionEvent}

theorem Progress.report (hr : r.WellFormed) (hopen : r.status.isOpen = true)
    (hq : 0 < r.quantity) (hzero : r.filledQuantity = 0)
    (ht : TradesOf r.accountID r.orderID fills) (hle : totalQuantity fills ≤ r.quantity)
    (h : Progress r fills done c) :
    Progress r fills (done ++ [.ofOrder r]) (afterEvent c (.ofOrder r)) := by
  obtain ⟨hledger, hfills, horder⟩ := h.ledger.afterReport ht (r := r) rfl rfl
  have hsame : (afterEvent c (.ofOrder r)).fillsForOrder r.accountID r.orderID =
      c.fillsForOrder r.accountID r.orderID := by
    rw [fillsForOrder, hfills, fillsForOrder]
  have hwf := h.ledger.fills_wellFormed ht
  have hrecorded : totalQuantity (c.fillsForOrder r.accountID r.orderID) ≤ r.quantity :=
    (ht.totalQuantity_le h.ledger.fills_nodup fun f => h.ledger.mem_trades).trans hle
  -- first arrival replays, a repetition before any fill stores the same, a late one is refused
  have hafter : orderAfterReport (c.fillsForOrder r.accountID r.orderID)
      (c.order r.accountID r.orderID) r =
      some (orderWith r (c.fillsForOrder r.accountID r.orderID)) := by
    rw [h.order]
    split
    · by_cases hnil : c.fillsForOrder r.accountID r.orderID = []
      · rw [hnil, orderAfterReport_again hopen hzero]
      · exact orderAfterReport_late hzero hwf hnil
    · have hreplay := fillAll_orderWith hopen hq hzero
        (c.fillsForOrder r.accountID r.orderID) [] (by simpa using hwf) (by simpa using hrecorded)
      have hstart : orderWith r [] = normalizeOrder r := by simp [orderWith]
      rw [List.append_nil, hstart] at hreplay
      simp only [orderAfterReport, checkOrder, hzero, if_true, hreplay]
  refine ⟨hledger, ?_, ?_⟩
  · intro f hf
    rw [hsame, h.recorded f hf]
    simp [ExecutionEvent.ofOrder, ExecutionEvent.ofFill]
  · rw [hsame, if_pos (by simp)]
    obtain ⟨hinvalid, -⟩ | ⟨-, hchanged⟩ := horder
    · exact absurd hr hinvalid
    · rw [hchanged, hafter]

theorem Progress.fill (hopen : r.status.isOpen = true) (hq : 0 < r.quantity)
    (hzero : r.filledQuantity = 0) (ht : TradesOf r.accountID r.orderID fills)
    (hle : totalQuantity fills ≤ r.quantity) {f : FillReport} (hf : f ∈ fills)
    (h : Progress r fills done c) :
    Progress r fills (done ++ [.ofFill f]) (afterEvent c (.ofFill f)) := by
  have hnotOrder : ExecutionEvent.ofOrder r ∈ done ++ [ExecutionEvent.ofFill f] ↔
      ExecutionEvent.ofOrder r ∈ done := by
    simp [ExecutionEvent.ofOrder, ExecutionEvent.ofFill]
  by_cases hknown : f ∈ c.fillsForOrder r.accountID r.orderID
  · rw [h.ledger.afterFill_known ht hf hknown]
    refine ⟨h.ledger, recorded_concat h.recorded (by simpa using hknown), ?_⟩
    simp only [hnotOrder, h.order]
  · obtain ⟨hledger, hperm, horder⟩ := h.ledger.afterFill_new ht hf hknown
    refine ⟨hledger, recorded_concat h.recorded (by simp [hperm.mem_iff]), ?_⟩
    have hwf : ∀ g ∈ f :: c.fillsForOrder r.accountID r.orderID, g.WellFormed := by
      intro g hg
      obtain rfl | hg := List.mem_cons.mp hg
      · exact ht.wellFormed g hf
      · exact h.ledger.fills_wellFormed ht g hg
    have hstep := applyFillToOrder_orderWith hopen hq hzero hwf
      ((h.ledger.total_cons_le ht hf hknown).trans hle)
    simp only [horder, h.order, hnotOrder, orderWith_perm r hperm]
    split
    · rw [Option.map_some, hstep]
    · rfl

theorem progress_afterEvents (hr : r.WellFormed) (hopen : r.status.isOpen = true)
    (hq : 0 < r.quantity) (hzero : r.filledQuantity = 0)
    (ht : TradesOf r.accountID r.orderID fills) (hle : totalQuantity fills ≤ r.quantity)
    (hc : Unknown r.accountID r.orderID c) (events : List ExecutionEvent)
    (honly : ∀ e ∈ events, e = .ofOrder r ∨ ∃ f ∈ fills, e = .ofFill f) :
    Progress r fills events (afterEvents c events) := by
  induction events using List.reverseRecOn with
  | nil =>
    refine ⟨hc.ledger, ?_, ?_⟩
    · intro f _
      simp [afterEvents, hc.fillsForOrder]
    · simpa [afterEvents] using hc.order
  | append_singleton done e ih =>
    have hdone := ih fun e' he' => honly e' (List.mem_append_left [e] he')
    rw [afterEvents_append]
    obtain rfl | ⟨f, hf, rfl⟩ := honly e (List.mem_append_right done List.mem_cons_self)
    · exact hdone.report hr hopen hq hzero ht hle
    · exact hdone.fill hopen hq hzero ht hle hf

/-- Whatever the arrival order and however often each event is repeated, an
open order's report and its fills end in the same stored order. -/
theorem settles_in_any_order (hr : r.WellFormed) (hopen : r.status.isOpen = true)
    (hq : 0 < r.quantity) (hzero : r.filledQuantity = 0)
    (ht : TradesOf r.accountID r.orderID fills) (hne : fills ≠ [])
    (hle : totalQuantity fills ≤ r.quantity) (hc : Unknown r.accountID r.orderID c)
    (events : List ExecutionEvent)
    (honly : ∀ e ∈ events, e = .ofOrder r ∨ ∃ f ∈ fills, e = .ofFill f)
    (hreport : ExecutionEvent.ofOrder r ∈ events)
    (hfills : ∀ f ∈ fills, ExecutionEvent.ofFill f ∈ events) :
    (afterEvents c events).order r.accountID r.orderID = some (settledOrder r fills) := by
  have h := progress_afterEvents hr hopen hq hzero ht hle hc events honly
  -- every fill is recorded, so the recorded fills are the fills
  have hperm : ((afterEvents c events).fillsForOrder r.accountID r.orderID).Perm fills := by
    rw [List.perm_ext_iff_of_nodup h.ledger.fills_nodup ht.distinct.of_map]
    intro f
    exact ⟨h.ledger.mem_trades, fun hf => (h.recorded f hf).mpr (hfills f hf)⟩
  rw [h.order, if_pos hreport, orderWith_perm r hperm, orderWith, if_neg hne]

end Settling

/-- A fill, the report, a second fill, and both the report and the first fill
once more. -/
theorem settles_in_any_order_sample :
    (@afterEvents exactDecimals new
        [.ofFill sampleFill2, .ofOrder sampleReport, .ofFill sampleFill1,
          .ofOrder sampleReport, .ofFill sampleFill2]).order "acct" "order-1" =
      some (settledOrder sampleReport [sampleFill1, sampleFill2]) := by
  let _ : DecimalPackage := exactDecimals
  have _ : ExactDivision := exactDivision_exactDecimals
  refine settles_in_any_order sampleReport_wellFormed rfl (by decide +kernel) rfl
    tradesOf_sample (by simp) (by decide +kernel) (unknown_new _ _) _ ?_ ?_ ?_
  · simp
  · simp
  · simp

end Exchanges.Account
