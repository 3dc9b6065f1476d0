import Exchanges.Execution.Replay
import Exchanges.Lib.History

/-!
The versions of one order that the manager's calls leave in the cache.

A report replaces an order and a fill adds to it. Both write the filled quantity
and the status, and only a contradiction to a terminal status is checked for. So
whether the filled quantity ever falls, and whether a closed order is ever open
again, depends on what the reports say. The two theorems at the end state the
exact condition for each, call by call, over runs in which calls may fail.
-/

namespace Exchanges.Execution

open Exchanges.Lib Exchanges.Model Exchanges.Cache
open Exchanges.Account (OrderAt totalQuantity totalQuantity_cons totalQuantity_nil)

/-- A call of the manager. -/
inductive Call where
  | report (o : OrderStatusReport)
  | fill (f : FillReport)

section

variable [DecimalPackage]

def Call.run (m : Manager) : Call → Prog Cache Err Unit
  | .report o => applyOrderReport m o
  | .fill f => do let _ ← applyFill m f

/-- The cache after a call; a call that fails may have changed it. -/
def afterCall (m : Manager) (c : Cache) (call : Call) : Cache := ((call.run m).run c).2

def afterCalls (m : Manager) (c : Cache) (calls : List Call) : Cache :=
  calls.foldl (afterCall m) c

/-- The versions of an order that the cache holds in the course of some calls. -/
def versions (m : Manager) (a : AccountID) (i : OrderID) (c : Cache) (calls : List Call) :
    List OrderStatusReport :=
  observed (afterCall m) (·.order a i) c calls

/-- The last of them. The order may have been evicted since. -/
def lastVersion (m : Manager) (a : AccountID) (i : OrderID) (c : Cache) (calls : List Call) :
    Option OrderStatusReport :=
  lastObserved (afterCall m) (·.order a i) c calls

variable {m : Manager} {c : Cache} {f : FillReport} {o e : OrderStatusReport}
  {a : AccountID} {i : OrderID} {calls : List Call}

/-! ### Calls stay within the reachable caches -/

theorem keeps_reachable_applyFill : Prog.Keeps Reachable (applyFill m f) := by
  refine (Prog.Keeps.lift _).bind fun _ => Prog.Keeps.get.bind fun c => ?_
  split
  · exact .pure _
  · refine (Prog.Keeps.lift _).bind fun _ => (keeps_reachable_putFill f).bind fun applied => ?_
    split
    · exact (keeps_reachable_putOrder _).bind fun _ => .pure _
    · exact .pure _
  · split
    · exact keeps_reachable_putFill _
    · exact (Prog.Keeps.step fun _ _ _ hput h => .putDeferredFill h hput).bind fun _ => .pure _

theorem keeps_reachable_applyOrderReport : Prog.Keeps Reachable (applyOrderReport m o) := by
  refine (Prog.Keeps.lift _).bind fun _ => Prog.Keeps.get.bind fun _ =>
    (Prog.Keeps.lift _).bind fun _ => (keeps_reachable_putOrder o).bind fun _ c hc => ?_
  rw [run_replayDeferredFills]
  refine Prog.Keeps.bind ?_ (fun _ => .modify fun _ => .clearDeferredFills _ _) c hc
  exact .forEach fun f _ => keeps_reachable_applyFill.bind fun _ => .pure _

theorem reachable_afterCall (hc : Reachable c) (call : Call) : Reachable (afterCall m c call) := by
  cases call with
  | report o => exact keeps_reachable_applyOrderReport c hc
  | fill f => exact (keeps_reachable_applyFill.bind fun _ => .pure _) c hc

theorem reachable_afterCalls (hc : Reachable c) (calls : List Call) :
    Reachable (afterCalls m c calls) :=
  List.foldlRecOn calls (afterCall m) hc fun _ h call _ => reachable_afterCall h call

/-! ### What a call does to one order -/

/-- The order takes the fill: it is found for it, and the fill is valid, new and
fits. -/
structure Takes (c : Cache) (e : OrderStatusReport) (f : FillReport) : Prop where
  wellFormed : f.WellFormed
  found : orderOfFill c f = some e
  isNew : ¬ Known c f
  fits : Fits e f

theorem afterCall_fill (m : Manager) (c : Cache) (f : FillReport) :
    afterCall m c (.fill f) = ((applyFill m f).run c).2 := by
  rw [afterCall, Call.run, Prog.run_bind]
  match (applyFill m f).run c with
  | (.ok b, c') => rfl
  | (.error err, c') => rfl

theorem Takes.order_afterCall (h : Takes c e f) (hc : Reachable c)
    (he : c.order a i = some e) :
    (afterCall m c (.fill f)).order a i = some (counted e f) := by
  obtain ⟨rfl, rfl, -⟩ := hc.consistent.orders.keyed a i e he
  have hwf := hc.validated.orders _ e he
  rw [afterCall_fill, run_applyFill_counted hc.consistent h.wellFormed h.found hwf h.isNew h.fits]
  exact order_afterFill_self c e f

theorem FillEffect.orders_eq {c' : Cache} (h : FillEffect c f c') (hnone : orderOfFill c f = none) :
    c'.orders = c.orders := by
  cases h with
  | same => rfl
  | stored fill => rfl
  | deferred hput =>
    simp only [Cache.putDeferredFill, except_seq_eq_ok] at hput
    obtain ⟨-, hput⟩ := hput
    split at hput
    · cases hput
      rfl
    · cases hput
      rfl
  | counted _ ho _ => cases hnone.symm.trans ho

/-- A fill that no order takes leaves the orders alone. -/
theorem orders_applyFill (hc : Reachable c) (hnot : ∀ e, ¬ Takes c e f) :
    ((applyFill m f).run c).2.orders = c.orders := by
  cases hvalid : f.validate with
  | error err =>
    rw [applyFill, hvalid, Prog.run_bind_error (Prog.run_lift ..)]
  | ok u =>
    have hf := FillReport.validate_eq_ok.mp hvalid
    by_cases hknown : Known c f
    · rw [run_applyFill_known hf hknown]
    cases ho : orderOfFill c f with
    | none => exact (fillEffect_applyFill m c f).orders_eq ho
    | some e =>
      have hwf := hc.validated.orders _ e (order_of_orderOfFill hc.consistent.orders ho)
      have hfits : ¬ Fits e f := fun hfits => hnot e ⟨hf, ho, hknown, hfits⟩
      obtain ⟨err, hrun⟩ :=
        run_applyFill_overfill (m := m) hc.consistent hf ho hwf hknown hfits
      rw [hrun]
      by_cases hallow : m.allowOverfills = true
      · rw [if_pos hallow]
        rfl
      · rw [if_neg hallow]

/-- A fill that this order does not take leaves it alone. -/
theorem order_afterCall_fill (hc : Reachable c)
    (hnot : ∀ e, c.order a i = some e → ¬ Takes c e f) :
    (afterCall m c (.fill f)).order a i = c.order a i := by
  rw [afterCall_fill]
  by_cases htake : ∃ e, Takes c e f
  · obtain ⟨e, he⟩ := htake
    have hstored := order_of_orderOfFill hc.consistent.orders he.found
    have hwf := hc.validated.orders _ e hstored
    rw [run_applyFill_counted hc.consistent he.wellFormed he.found hwf he.isNew he.fits]
    refine order_afterFill_other hc.consistent hstored fun hkey => hnot e ?_ he
    obtain ⟨rfl, rfl⟩ := Prod.mk.inj hkey
    exact hstored
  · rw [Cache.order, orders_applyFill hc fun e he => htake ⟨e, he⟩, Cache.order]

theorem afterCall_report_refused (h : ¬ Accepts c o) : afterCall m c (.report o) = c := by
  obtain ⟨err, hrun⟩ := run_applyOrderReport_refused (m := m) h
  rw [afterCall, Call.run, hrun]

/-- An accepted report and the waiting fills that count make up the new version
of the order. The report may evict other orders, and changes none. -/
theorem orders_afterCall_report (m : Manager) (hc : Reachable c) (h : Accepts c o) :
    (afterCall m c (.report o)).order o.accountID o.orderID =
        some (countedAll (normalizeOrder o)
          (fitting (normalizeOrder o) (waiting c o.accountID o.orderID))) ∧
      ∀ a i e, (a, i) ≠ (o.accountID, o.orderID) →
        (afterCall m c (.report o)).order a i = some e → c.order a i = some e := by
  obtain ⟨r, c₁, hreplayed, hrun⟩ :=
    run_applyOrderReport_replay m hc.consistent h
  have hcounts := counts_waiting hc.consistent h.wellFormed
  -- clearing deferred fills and storing a fill change no order
  have horders : (afterCall m c (.report o)).orders = (countAll (c.storeOrder (normalizeOrder o))
      (normalizeOrder o) (fitting (normalizeOrder o)
        (waiting c o.accountID o.orderID))).orders := by
    rw [afterCall, Call.run, hrun]
    obtain ⟨-, rfl⟩ | ⟨-, -, f, -, rfl⟩ := hreplayed.cache
    · cases r <;> rfl
    · cases r <;> rfl
  refine ⟨?_, fun a i e hne he => ?_⟩
  · rw [Cache.order, horders]
    have horder := hcounts.order
    rwa [normalizeOrder_accountID, normalizeOrder_orderID] at horder
  · rw [Cache.order, horders] at he
    have hne' : (a, i) ≠ ((normalizeOrder o).accountID, (normalizeOrder o).orderID) := by
      rwa [normalizeOrder_accountID, normalizeOrder_orderID]
    have hbefore := (hcounts.others a i hne').symm.trans he
    exact ((order_storeOrder_other hc.consistent.orders hne').mp hbefore).1

/-! ### Filled quantities -/

/-- When a call does not lower the filled quantity: a report of the order must
report at least what was filled in its last version, less the fills that waited
for the report. -/
def KeepsFilled (a : AccountID) (i : OrderID) (last : Option OrderStatusReport) (c : Cache) :
    Call → Prop
  | .fill _ => True
  | .report o => (o.accountID, o.orderID) = (a, i) → ∀ e, last = some e →
      e.filledQuantity ≤ (normalizeOrder o).filledQuantity + totalQuantity (waiting c a i)

theorem filledQuantity_afterCall_report {y : OrderStatusReport} (hc : Reachable c)
    (hok : ((Call.run m (.report o)).run c).1 = .ok ())
    (hy : (afterCall m c (.report o)).order o.accountID o.orderID = some y) :
    y.filledQuantity = (normalizeOrder o).filledQuantity +
      totalQuantity (waiting c o.accountID o.orderID) := by
  obtain ⟨haccepts, hall, -⟩ :=
    (run_applyOrderReport_eq_ok hc.consistent).mp (Prod.ext hok rfl)
  have horder := (orders_afterCall_report m hc haccepts).1
  have hfilled := filledQuantity_countedAll
    (waiting_wellFormed (a := o.accountID) (i := o.orderID) hc.consistent)
    (normalizeOrder_wellFormed haccepts.wellFormed)
  rw [hall] at horder hfilled
  rw [← Option.some.inj (horder.symm.trans hy), hfilled]

/-- One call that succeeds, seen from the last version of an order. -/
theorem keepsFilled_iff {call : Call} {last : Option OrderStatusReport} (hc : Reachable c)
    (hlast : ∀ e, c.order a i = some e → last = some e)
    (hok : ((call.run m).run c).1 = .ok ()) :
    (∀ x y, last = some x → (afterCall m c call).order a i = some y →
      x.filledQuantity ≤ y.filledQuantity) ↔ KeepsFilled a i last c call := by
  have hsame : (afterCall m c call).order a i = c.order a i → ∀ x y, last = some x →
      (afterCall m c call).order a i = some y → x.filledQuantity ≤ y.filledQuantity := by
    intro heq x y hx hy
    rw [heq] at hy
    rw [Option.some.inj (hx.symm.trans (hlast y hy))]
  cases call with
  | fill f =>
    refine iff_of_true (fun x y hx hy => ?_) trivial
    by_cases htake : ∃ e, c.order a i = some e ∧ Takes c e f
    · obtain ⟨e, he, htakes⟩ := htake
      rw [htakes.order_afterCall hc he] at hy
      rw [Option.some.inj (hx.symm.trans (hlast e he)), ← Option.some.inj hy,
        counted_filledQuantity (hc.validated.orders _ e he) htakes.wellFormed]
      linarith [htakes.wellFormed.quantity_pos]
    · push Not at htake
      exact hsame (order_afterCall_fill hc htake) x y hx hy
  | report o =>
    have haccepts := ((run_applyOrderReport_eq_ok hc.consistent).mp (Prod.ext hok rfl)).1
    obtain ⟨hself, hothers⟩ := orders_afterCall_report m hc haccepts
    by_cases hkey : (o.accountID, o.orderID) = (a, i)
    · obtain ⟨rfl, rfl⟩ := Prod.mk.inj hkey
      have hfilled := filledQuantity_afterCall_report hc hok hself
      constructor
      · intro h _ e he
        rw [← hfilled]
        exact h e _ he hself
      · intro h x y hx hy
        rw [filledQuantity_afterCall_report hc hok hy]
        exact h rfl x hx
    · refine iff_of_true (fun x y hx hy => ?_) fun h => absurd h hkey
      have hbefore := hothers a i y (fun heq => hkey heq.symm) hy
      rw [Option.some.inj (hx.symm.trans (hlast y hbefore))]

/-- The filled quantity of an order never falls, in calls that all succeed,
exactly when no report falls below the order's last version. -/
theorem filled_never_falls_iff (hc : Reachable c)
    (hok : ((Prog.forEach (Call.run m) calls).run c).1 = .ok ()) :
    (versions m a i c calls).Pairwise (fun e e' => e.filledQuantity ≤ e'.filledQuantity) ↔
      ∀ pre call, pre ++ [call] <+: calls →
        KeepsFilled a i (lastVersion m a i c pre) (afterCalls m c pre) call := by
  rw [versions, pairwise_observed_iff]
  refine forall_congr' fun pre => forall_congr' fun call => forall_congr' fun hpre => ?_
  exact keepsFilled_iff (reachable_afterCalls hc pre) (fun e he => lastObserved_of_obs he)
    (Prog.run_forEach_ok_of_prefix hok hpre)

end

/-- An order of 10 is accepted, filled by 5, and reported as filled by 5. -/
def risingCalls : List Call :=
  [.report Account.sampleReport, .fill Account.sampleFill1,
    .report { Account.sampleReport with status := .partiallyFilled, filledQuantity := 5 }]

theorem filled_never_falls_iff_sample :
    ((Prog.forEach (@Call.run exactDecimals {}) risingCalls).run new).1 = .ok () ∧
      ∀ pre call, pre ++ [call] <+: risingCalls →
        KeepsFilled "acct" "order-1"
          (@lastVersion exactDecimals {} "acct" "order-1" new pre)
          (@afterCalls exactDecimals {} new pre) call := by
  let _ : DecimalPackage := exactDecimals
  have hok : ((Prog.forEach (Call.run {}) risingCalls).run new).1 = .ok () := by decide +kernel
  exact ⟨hok, (filled_never_falls_iff .new hok).mp (by decide +kernel)⟩

/-- The acknowledgement of the order arrives after its first fill. -/
def lateAcknowledgement : List Call :=
  [.report Account.sampleReport, .fill Account.sampleFill1, .report Account.sampleReport]

theorem acknowledgement_drops_fill :
    ((Prog.forEach (@Call.run exactDecimals {}) lateAcknowledgement).run new).1 = .ok () ∧
      (@versions exactDecimals {} "acct" "order-1" new lateAcknowledgement).map
        (·.filledQuantity) = [0, 5, 0] ∧
      ¬ (@versions exactDecimals {} "acct" "order-1" new lateAcknowledgement).Pairwise
        (fun e e' => e.filledQuantity ≤ e'.filledQuantity) := by
  refine ⟨by decide +kernel, by decide +kernel, by decide +kernel⟩

/-! ### Closed orders -/

section

variable [DecimalPackage] {m : Manager} {c : Cache} {f : FillReport} {o : OrderStatusReport}
  {a : AccountID} {i : OrderID} {fs : List FillReport} {calls : List Call}

/-- The order is closed after the fills. An order without a quantity is closed
by a fill only if it reports that nothing is left. -/
def Completed (o : OrderStatusReport) (fs : List FillReport) : Prop :=
  if fs = [] then o.status.isTerminal = true
  else if 0 < o.quantity then o.quantity ≤ o.filledQuantity + totalQuantity fs
  else o.leavesQuantity = 0

theorem isTerminal_counted : (counted o f).status.isTerminal = true ↔ Completed o [f] := by
  rw [counted, normalizeOrder_status, Completed, if_neg (List.cons_ne_nil f []),
    totalQuantity_cons, totalQuantity_nil, add_zero]
  have hstatus : ∀ leaves : Decimal, (if leaves = 0 then OrderStatus.filled
      else .partiallyFilled).isTerminal = true ↔ leaves = 0 := by
    intro leaves
    split <;> simp_all [OrderStatus.isTerminal]
  dsimp only [addFill]
  rw [hstatus]
  split_ifs with hq
  · rw [max_eq_right_iff, sub_nonpos]
  · exact Iff.rfl

theorem leavesQuantity_counted (hq : ¬ 0 < o.quantity) :
    (counted o f).leavesQuantity = o.leavesQuantity := by
  simp only [counted, normalizeOrder, addFill, if_neg hq]
  split_ifs <;> simp_all

/-- After the first fill, the others complete the order as they would have with
it. -/
theorem completed_counted (ho : o.WellFormed) (hf : f.WellFormed) :
    Completed (counted o f) fs ↔ Completed o (f :: fs) := by
  cases fs with
  | nil =>
    rw [← isTerminal_counted]
    exact Iff.of_eq (if_pos rfl)
  | cons g fs =>
    simp only [Completed, if_neg (List.cons_ne_nil _ _), counted_quantity,
      counted_filledQuantity ho hf, totalQuantity_cons, add_assoc]
    split_ifs with hq
    · exact Iff.rfl
    · rw [leavesQuantity_counted hq]

theorem isTerminal_countedAll (hfs : ∀ f ∈ fs, f.WellFormed) :
    ∀ {o : OrderStatusReport}, o.WellFormed →
      ((countedAll o (fitting o fs)).status.isTerminal = true ↔ Completed o (fitting o fs)) := by
  induction fs with
  | nil => exact fun _ => Iff.of_eq (if_pos rfl).symm
  | cons f fs ih =>
    intro o ho
    have hf := hfs f List.mem_cons_self
    rw [fitting]
    split
    · next hfits =>
        rw [← completed_counted ho hf, ← ih (fun g hg => hfs g (List.mem_cons_of_mem f hg))
          (counted_wellFormed ho hf hfits)]
        rfl
    · exact Iff.of_eq (if_pos rfl).symm

/-- When a call does not open a closed order: a fill that the order takes must
complete it, and a report must leave it closed, with the waiting fills that
count. -/
def StaysClosed (a : AccountID) (i : OrderID) (last : Option OrderStatusReport) (c : Cache) :
    Call → Prop
  | .fill f => ∀ e, c.order a i = some e → e.status.isTerminal = true → Takes c e f →
      Completed e [f]
  | .report o => (o.accountID, o.orderID) = (a, i) → Accepts c o →
      ∀ e, last = some e → e.status.isTerminal = true →
        Completed (normalizeOrder o) (fitting (normalizeOrder o) (waiting c a i))

/-- One call, whether it succeeds or fails, seen from the last version. -/
theorem staysClosed_iff {call : Call} {last : Option OrderStatusReport} (hc : Reachable c)
    (hlast : ∀ e, c.order a i = some e → last = some e) :
    (∀ x y, last = some x → (afterCall m c call).order a i = some y →
      x.status.isTerminal = true → y.status.isTerminal = true) ↔
      StaysClosed a i last c call := by
  have hsame : ∀ x y, last = some x → c.order a i = some y → x.status.isTerminal = true →
      y.status.isTerminal = true := by
    intro x y hx hy hterminal
    rwa [← Option.some.inj (hx.symm.trans (hlast y hy))]
  cases call with
  | fill f =>
    by_cases htake : ∃ e, c.order a i = some e ∧ Takes c e f
    · obtain ⟨e, he, htakes⟩ := htake
      have hnext := htakes.order_afterCall (m := m) hc he
      constructor
      · intro h e' he' hterminal _
        cases he.symm.trans he'
        exact isTerminal_counted.mp (h e _ (hlast e he) hnext hterminal)
      · intro h x y hx hy hterminal
        cases hx.symm.trans (hlast e he)
        cases hnext.symm.trans hy
        exact isTerminal_counted.mpr (h e he hterminal htakes)
    · push Not at htake
      refine iff_of_true (fun x y hx hy => ?_) fun e he _ htakes => absurd htakes (htake e he)
      exact hsame x y hx ((order_afterCall_fill hc htake).symm.trans hy)
  | report o =>
    by_cases haccepts : Accepts c o
    · obtain ⟨hself, hothers⟩ := orders_afterCall_report m hc haccepts
      by_cases hkey : (o.accountID, o.orderID) = (a, i)
      · obtain ⟨rfl, rfl⟩ := Prod.mk.inj hkey
        have hclosed := isTerminal_countedAll
          (waiting_wellFormed (a := o.accountID) (i := o.orderID) hc.consistent)
          (normalizeOrder_wellFormed haccepts.wellFormed)
        constructor
        · intro h _ _ e he hterminal
          exact hclosed.mp (h e _ he hself hterminal)
        · intro h x y hx hy hterminal
          cases hself.symm.trans hy
          exact hclosed.mpr (h rfl haccepts x hx hterminal)
      · refine iff_of_true (fun x y hx hy => ?_) fun h => absurd h hkey
        exact hsame x y hx (hothers a i y (fun heq => hkey heq.symm) hy)
    · refine iff_of_true (fun x y hx hy => ?_) fun _ h => absurd h haccepts
      rw [afterCall_report_refused haccepts] at hy
      exact hsame x y hx hy

/-- An order that was closed is never open again, in calls that may fail,
exactly when every call leaves it closed. -/
theorem closed_never_opens_iff (hc : Reachable c) :
    (versions m a i c calls).Pairwise
        (fun e e' => e.status.isTerminal = true → e'.status.isOpen = false) ↔
      ∀ pre call, pre ++ [call] <+: calls →
        StaysClosed a i (lastVersion m a i c pre) (afterCalls m c pre) call := by
  have htrans : IsTrans OrderStatusReport
      fun e e' => e.status.isTerminal = true → e'.status.isTerminal = true :=
    ⟨fun _ _ _ h h' ht => h' (h ht)⟩
  -- the cache only holds orders with a status
  have hstatus : ∀ e ∈ versions m a i c calls, e.status ≠ .unset := by
    intro e he
    obtain ⟨pre, -, he⟩ := exists_of_mem_observed he
    exact ((reachable_afterCalls hc pre).validated.orders _ e he).status_ne
  have hiff : (versions m a i c calls).Pairwise
        (fun e e' => e.status.isTerminal = true → e'.status.isOpen = false) ↔
      (versions m a i c calls).Pairwise
        (fun e e' => e.status.isTerminal = true → e'.status.isTerminal = true) :=
    List.Pairwise.iff_of_mem fun _ he' =>
      imp_congr_right fun _ => OrderStatus.isOpen_eq_false (hstatus _ he')
  rw [hiff, versions, pairwise_observed_iff]
  refine forall_congr' fun pre => forall_congr' fun call => forall_congr' fun _ => ?_
  exact staysClosed_iff (reachable_afterCalls hc pre) fun e he => lastObserved_of_obs he

end

/-- An order of 10 is accepted, canceled, and reported as canceled again. -/
def repeatedCancel : List Call :=
  [.report Account.sampleReport, .report { Account.sampleReport with status := .canceled },
    .report { Account.sampleReport with status := .canceled }]

theorem closed_never_opens_iff_sample :
    (@versions exactDecimals {} "acct" "order-1" new repeatedCancel).map (·.status) =
        [.accepted, .canceled, .canceled] ∧
      ∀ pre call, pre ++ [call] <+: repeatedCancel →
        @StaysClosed exactDecimals "acct" "order-1"
          (@lastVersion exactDecimals {} "acct" "order-1" new pre)
          (@afterCalls exactDecimals {} new pre) call := by
  let _ : DecimalPackage := exactDecimals
  exact ⟨by decide +kernel, (closed_never_opens_iff .new).mp (by decide +kernel)⟩

/-- The order is canceled, and a fill of 5 arrives late. -/
def lateFill : List Call :=
  [.report Account.sampleReport, .report { Account.sampleReport with status := .canceled },
    .fill Account.sampleFill1]

theorem late_fill_opens_canceled :
    (@versions exactDecimals {} "acct" "order-1" new lateFill).map (·.status) =
        [.accepted, .canceled, .partiallyFilled] ∧
      ¬ (@versions exactDecimals {} "acct" "order-1" new lateFill).Pairwise
        (fun e e' => e.status.isTerminal = true → e'.status.isOpen = false) :=
  ⟨by decide +kernel, by decide +kernel⟩

end Exchanges.Execution
