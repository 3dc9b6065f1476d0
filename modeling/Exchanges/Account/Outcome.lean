import Exchanges.Account.OrderVersions

/-!
What one event leaves behind.

However many versions of an order an event writes, the cache afterwards is as if
only the last had been stored. For a report the last version is `outcome`: the
report, with the status it was accepted with, after the fills that were replayed
on it. Its filled quantity and whether it is closed are given in closed form, in
terms of the report and of the total of the stored fills.
-/

namespace Exchanges.Account

open Exchanges.Lib Exchanges.Model Exchanges.Cache

set_option linter.unusedSectionVars false

section

variable [DecimalPackage] {c : Cache} {o r : OrderStatusReport} {f : FillReport}
  {s : OrderStatus} {a : AccountID} {i : OrderID} {event : ExecutionEvent}
  {fills : List FillReport}

/-! ### Many fills on one order -/

theorem nextFilledQuantity_eq : nextFilledQuantity o f =
    if 0 < o.quantity then min o.quantity (o.filledQuantity + f.quantity)
    else o.filledQuantity + f.quantity := by
  simp only [nextFilledQuantity]
  by_cases hq : 0 < o.quantity
  · simp only [hq, true_and, if_true]
    split
    · next hlt => exact (min_eq_left hlt.le).symm
    · next hle => exact (min_eq_right (not_lt.mp hle)).symm
  · simp [hq]

theorem filledQuantity_fillAll (hfills : ∀ f ∈ fills, f.WellFormed) :
    ∀ {o : OrderStatusReport}, o.WellFormed → (fillAll o fills).filledQuantity =
      if 0 < o.quantity then min o.quantity (o.filledQuantity + totalQuantity fills)
      else o.filledQuantity + totalQuantity fills := by
  induction fills with
  | nil =>
    intro o ho
    rw [fillAll_nil, totalQuantity_nil, add_zero]
    split
    · next hq => exact (min_eq_right (ho.filled_le hq)).symm
    · rfl
  | cons f fills ih =>
    intro o ho
    have hf := hfills f List.mem_cons_self
    have hrest := fun g hg => hfills g (List.mem_cons_of_mem f hg)
    have htotal := totalQuantity_nonneg hrest
    rw [fillAll_cons, ih hrest (applyFillToOrder_wellFormed ho hf), applyFillToOrder_quantity,
      applyFillToOrder_filledQuantity, nextFilledQuantity_eq, totalQuantity_cons, ← add_assoc]
    split
    · -- once the quantity is reached, more fills change nothing
      rw [min_add, ← min_assoc, min_eq_left (le_add_of_nonneg_right htotal)]
    · rfl

theorem isTerminal_applyFillToOrder (ho : o.WellFormed) (hf : f.WellFormed) :
    (applyFillToOrder o f).status.isTerminal = true ↔
      0 < o.quantity ∧ o.quantity ≤ o.filledQuantity + f.quantity := by
  rw [status_applyFillToOrder ho hf]
  split
  · next hfull => simp [hfull, OrderStatus.isTerminal]
  · next hpart => simp [hpart, OrderStatus.isTerminal]

theorem isTerminal_fillAll (hfills : ∀ f ∈ fills, f.WellFormed) (hne : fills ≠ []) :
    ∀ {o : OrderStatusReport}, o.WellFormed → ((fillAll o fills).status.isTerminal = true ↔
      0 < o.quantity ∧ o.quantity ≤ o.filledQuantity + totalQuantity fills) := by
  induction fills with
  | nil => exact absurd rfl hne
  | cons f fills ih =>
    intro o ho
    have hf := hfills f List.mem_cons_self
    have hrest := fun g hg => hfills g (List.mem_cons_of_mem f hg)
    rw [fillAll_cons, totalQuantity_cons, ← add_assoc]
    by_cases hnil : fills = []
    · rw [hnil, fillAll_nil, totalQuantity_nil, add_zero]
      exact isTerminal_applyFillToOrder ho hf
    · have htotal := totalQuantity_nonneg hrest
      rw [ih hrest hnil (applyFillToOrder_wellFormed ho hf), applyFillToOrder_quantity,
        applyFillToOrder_filledQuantity, nextFilledQuantity_eq]
      refine and_congr_right fun hq => ?_
      rw [if_pos hq, min_add, le_min_iff]
      exact and_iff_right (le_add_of_nonneg_right htotal)

/-! ### A report -/

/-- The fills that a report is completed with. -/
def replayedFills (c : Cache) (r : OrderStatusReport) : List FillReport :=
  if r.filledQuantity = 0 then c.fillsForOrder r.accountID r.orderID else []

/-- The order that a report leaves behind when it is accepted with the status. -/
def outcome (c : Cache) (r : OrderStatusReport) (s : OrderStatus) : OrderStatusReport :=
  fillAll (normalizeOrder { r with status := s }) (replayedFills c r)

theorem version_fillAll (fills : List FillReport) :
    ∀ o : OrderStatusReport, Version o (fillAll o fills) := by
  induction fills with
  | nil => exact .refl
  | cons f fills ih => exact fun o => (version_applyFillToOrder o f).trans (ih _)

theorem version_outcome (c : Cache) (r : OrderStatusReport) (s : OrderStatus) :
    Version r (outcome c r s) :=
  Version.trans ⟨by simp, by simp, by simp, by simp, by simp⟩ (version_fillAll _ _)

theorem replayedFills_wellFormed (hc : Reachable c) : ∀ f ∈ replayedFills c r, f.WellFormed := by
  unfold replayedFills
  split
  · exact fillsForOrder_wellFormed hc
  · simp

theorem wellFormed_accepted (hr : r.WellFormed) (hs : s ≠ .unset) :
    (normalizeOrder { r with status := s }).WellFormed := by
  obtain ⟨h1, h2, -, h4, h5, h6, h7, h8, h9, h10, h11⟩ := hr
  exact normalizeOrder_wellFormed ⟨h1, h2, hs, h4, h5, h6, h7, h8, h9, h10, h11⟩

theorem outcome_wellFormed (hc : Reachable c) (hr : r.WellFormed) (hs : s ≠ .unset) :
    (outcome c r s).WellFormed :=
  (OrderAt.fillAll (replayedFills_wellFormed hc)
    ⟨rfl, rfl, wellFormed_accepted hr hs⟩).wellFormed

theorem getLast_replayWrites (fills : List FillReport) :
    ∀ o : OrderStatusReport, (o :: replayWrites o fills).getLast (List.cons_ne_nil _ _) =
      fillAll o fills := by
  induction fills with
  | nil => exact fun _ => rfl
  | cons f fills ih =>
    intro o
    simp only [replayWrites]
    rw [List.getLast_cons (List.cons_ne_nil _ _)]
    exact ih (applyFillToOrder o f)

theorem reportWrites_accepted (hs : AcceptedAs (c.order r.accountID r.orderID) r s) :
    reportWrites c r = normalizeOrder { r with status := s } ::
      replayWrites (normalizeOrder { r with status := s }) (replayedFills c r) := by
  rw [reportWrites, checkOrder_eq_ok_iff.mpr ⟨s, rfl, hs⟩, replayedFills]
  dsimp only
  split <;> rfl

theorem orders_afterEvent_accepted (hc : Reachable c) (hr : r.WellFormed)
    (hs : AcceptedAs (c.order r.accountID r.orderID) r s) :
    (afterEvent c (.ofOrder r)).orders = (c.storeOrder (outcome c r s)).orders := by
  have hwrites := (writes_ofOrder hr).trans (reportWrites_accepted hs)
  rw [orders_afterEvent_cons hc hwrites, getLast_replayWrites, outcome]

/-- An accepted report stores its outcome and leaves the rest of the cache. -/
theorem run_applyOrder_outcome (hc : Reachable c) (hr : r.WellFormed)
    (hs : AcceptedAs (c.order r.accountID r.orderID) r s) :
    ∃ c', (applyOrder r).run c = (.ok (), c') ∧ Reachable c' ∧ OrdersOnly c c' ∧
      c'.orders = (c.storeOrder (outcome c r s)).orders := by
  have hcheck := checkOrder_eq_ok_iff.mpr ⟨s, rfl, hs⟩
  have hrun := run_applyOrder_accepted hc hr hcheck
  obtain ⟨result, c', hrun', -, honly⟩ := run_applyOrder ⟨rfl, rfl, hr⟩ (fillsForOrder_wellFormed hc)
  obtain ⟨rfl, rfl⟩ := Prod.mk.inj (hrun'.symm.trans hrun)
  have hafter : afterEvent c (.ofOrder r) = (reportWrites c r).foldl storeOrder c :=
    afterEvent_ofOrder hc hr
  exact ⟨_, hrun, hafter ▸ reachable_afterEvent hc _, honly,
    hafter ▸ orders_afterEvent_accepted hc hr hs⟩

theorem run_applyOrder_not_accepted
    (hs : ∀ s, ¬ AcceptedAs (c.order r.accountID r.orderID) r s) :
    ∃ err, (applyOrder r).run c = (.error err, c) := by
  cases hcheck : checkOrder (c.order r.accountID r.orderID) r with
  | error err => exact ⟨err, run_applyOrder_refused hcheck⟩
  | ok r' =>
    obtain ⟨s, -, hs'⟩ := checkOrder_eq_ok_iff.mp hcheck
    exact absurd hs' (hs s)

theorem outcome_congr {c' : Cache} (h : c'.fills = c.fills) (r : OrderStatusReport)
    (s : OrderStatus) : outcome c' r s = outcome c r s := by
  rw [outcome, outcome, replayedFills, replayedFills, fillsForOrder, fillsForOrder, h]

/-- What a report has filled, with the stored fills of its order. -/
def filledWith (r : OrderStatusReport) (s : OrderStatus) (fills : List FillReport) : Decimal :=
  if r.filledQuantity ≠ 0 then r.filledQuantity
  else if 0 < r.quantity then
    if s = .filled then r.quantity else min r.quantity (totalQuantity fills)
  else totalQuantity fills

/-- Whether a report leaves its order closed, with the stored fills of it. -/
def ClosedWith (r : OrderStatusReport) (s : OrderStatus) (fills : List FillReport) : Prop :=
  if r.filledQuantity ≠ 0 ∨ fills = [] then s.isTerminal = true
  else 0 < r.quantity ∧ (s = .filled ∨ r.quantity ≤ totalQuantity fills)

theorem filledQuantity_outcome (hc : Reachable c) (hr : r.WellFormed) (hs : s ≠ .unset) :
    (outcome c r s).filledQuantity =
      filledWith r s (c.fillsForOrder r.accountID r.orderID) := by
  have htotal := totalQuantity_nonneg
    (fillsForOrder_wellFormed (a := r.accountID) (i := r.orderID) hc)
  by_cases hzero : r.filledQuantity = 0
  · rw [outcome, filledQuantity_fillAll (replayedFills_wellFormed hc) (wellFormed_accepted hr hs),
      normalizeOrder_quantity, normalizeOrder_filledQuantity, replayedFills, if_pos hzero,
      filledWith, if_neg (not_not.mpr hzero)]
    dsimp only
    rw [hzero]
    by_cases hq : 0 < r.quantity
    · rw [if_pos hq, if_pos hq]
      by_cases hfilled : s = .filled
      · rw [if_pos ⟨hfilled, hq, rfl⟩, if_pos hfilled,
          min_eq_left (le_add_of_nonneg_right htotal)]
      · rw [if_neg fun h => hfilled h.1, if_neg hfilled, zero_add]
    · rw [if_neg hq, if_neg hq, if_neg fun h => hq h.2.1, zero_add]
  · rw [outcome, replayedFills, if_neg hzero, fillAll_nil, normalizeOrder_filledQuantity,
      if_neg fun h => hzero h.2.2, filledWith, if_pos hzero]

theorem isTerminal_outcome (hc : Reachable c) (hr : r.WellFormed) (hs : s ≠ .unset) :
    (outcome c r s).status.isTerminal = true ↔
      ClosedWith r s (c.fillsForOrder r.accountID r.orderID) := by
  have hfills := fillsForOrder_wellFormed (a := r.accountID) (i := r.orderID) hc
  have htotal := totalQuantity_nonneg hfills
  by_cases hzero : r.filledQuantity = 0
  · rw [outcome, replayedFills, if_pos hzero, ClosedWith]
    by_cases hnil : c.fillsForOrder r.accountID r.orderID = []
    · rw [hnil, fillAll_nil, normalizeOrder_status, if_pos (.inr rfl)]
    · have hopen : ¬ (r.filledQuantity ≠ 0 ∨ c.fillsForOrder r.accountID r.orderID = []) := by
        simp [hzero, hnil]
      rw [if_neg hopen, isTerminal_fillAll hfills hnil (wellFormed_accepted hr hs),
        normalizeOrder_quantity, normalizeOrder_filledQuantity]
      dsimp only
      rw [hzero]
      refine and_congr_right fun hq => ?_
      by_cases hfilled : s = .filled
      · rw [if_pos ⟨hfilled, hq, rfl⟩]
        exact iff_of_true (le_add_of_nonneg_right htotal) (.inl hfilled)
      · rw [if_neg fun h => hfilled h.1, zero_add]
        exact (or_iff_right hfilled).symm
  · rw [outcome, replayedFills, if_neg hzero, fillAll_nil, normalizeOrder_status, ClosedWith,
      if_pos (.inl hzero)]

/-! ### Any event -/

/-- The order that an event leaves behind, if it writes one. -/
def written (c : Cache) (event : ExecutionEvent) : Option OrderStatusReport :=
  (writes c event).getLast?

theorem orders_afterEvent (hc : Reachable c) (event : ExecutionEvent) :
    (afterEvent c event).orders =
      match written c event with
      | none => c.orders
      | some o => (c.storeOrder o).orders := by
  unfold written
  cases hw : writes c event with
  | nil => exact orders_afterEvent_nil hc hw
  | cons o ws =>
    rw [List.getLast?_eq_some_getLast (List.cons_ne_nil o ws)]
    exact orders_afterEvent_cons hc hw

theorem written_ofOrder (hr : r.WellFormed) :
    written c (.ofOrder r) = some o ↔
      ∃ s, AcceptedAs (c.order r.accountID r.orderID) r s ∧ outcome c r s = o := by
  rw [written, writes_ofOrder hr]
  constructor
  · intro h
    cases hcheck : checkOrder (c.order r.accountID r.orderID) r with
    | error err => simp [reportWrites, hcheck] at h
    | ok r' =>
      obtain ⟨s, rfl, hs⟩ := checkOrder_eq_ok_iff.mp hcheck
      rw [reportWrites_accepted hs, List.getLast?_eq_some_getLast (List.cons_ne_nil _ _),
        getLast_replayWrites] at h
      exact ⟨s, hs, Option.some.inj h⟩
  · rintro ⟨s, hs, rfl⟩
    rw [reportWrites_accepted hs, List.getLast?_eq_some_getLast (List.cons_ne_nil _ _),
      getLast_replayWrites, outcome]

theorem written_ofFill (hf : f.WellFormed) :
    written c (.ofFill f) = some o ↔ c.fills.get (fillKey f) = none ∧
      ∃ e, c.order f.accountID f.orderID = some e ∧ applyFillToOrder e f = o := by
  rw [written, writes_ofFill hf, fillWrites]
  cases c.fills.get (fillKey f) with
  | some g => simp
  | none =>
    cases c.order f.accountID f.orderID with
    | none => simp
    | some e => simp

end

end Exchanges.Account
