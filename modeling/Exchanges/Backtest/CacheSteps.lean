import Exchanges.Account.Outcome
import Exchanges.Account.PositionWrites
import Exchanges.Backtest.Runs
import Exchanges.Execution.OrderHistory

/-!
What the steps of a backtest do to the cache.

A report is refused, or stores one version of its order. A fill is refused if it
is not valid, and otherwise it is stored with a new version of its order, and the
position that it leads to is stored after it. Both hold on the caches that can
be built from an empty one, and in the absence of deferred fills, which no step
of a backtest creates.
-/

namespace Exchanges.Backtest

open Exchanges.Lib Exchanges.Model Exchanges.Account Exchanges.Cache

set_option linter.unusedSectionVars false

section CacheSteps

variable [DecimalPackage] {c c' : Cache} {f : FillReport} {report : OrderStatusReport}

/-! ### Reports -/

/-- What the reconciler does with a report. -/
inductive Reconciled (c : Cache) (report : OrderStatusReport) : Except Err Unit → Cache → Prop where
  | refused (err : Err) : Reconciled c report (.error err) c
  | accepted {c' : Cache} {s : OrderStatus} (wellFormed : report.WellFormed)
      (accepted : AcceptedAs (c.order report.accountID report.orderID) report s)
      (only : OrdersOnly c c') (orders : c'.orders = (c.storeOrder (outcome c report s)).orders) :
      Reconciled c report (.ok ()) c'

theorem reconciled_apply (hc : Reachable c) (report : OrderStatusReport) :
    Reconciled c report ((Account.apply (.ofOrder report)).run c).1
      ((Account.apply (.ofOrder report)).run c).2 := by
  by_cases hwf : report.WellFormed
  · rw [run_apply_ofOrder hwf]
    by_cases hs : ∃ s, AcceptedAs (c.order report.accountID report.orderID) report s
    · obtain ⟨s, hs⟩ := hs
      obtain ⟨c', hrun, -, honly, horders⟩ := run_applyOrder_outcome hc hwf hs
      rw [hrun]
      exact .accepted hwf hs honly horders
    · obtain ⟨err, hrun⟩ := run_applyOrder_not_accepted (not_exists.mp hs)
      rw [hrun]
      exact .refused err
  · cases hv : (ExecutionEvent.ofOrder report).validate with
    | ok u => exact absurd ((validate_ofOrder report).mp hv) hwf
    | error err =>
      rw [Account.apply, hv, Prog.run_bind_error (Prog.run_lift ..)]
      exact .refused err

/-- No fills are waiting for an order. -/
def NoneDeferred (c : Cache) : Prop := ∀ key, c.deferredFills.get key = none

/-- What the manager does with a report. -/
inductive Managed (c : Cache) (report : OrderStatusReport) : Except Err Unit → Cache → Prop where
  | refused (err : Err) : Managed c report (.error err) c
  | stored (wellFormed : report.WellFormed)
      (follows : ∀ e, c.order report.accountID report.orderID = some e →
        e.status.isTerminal = true → e.status = report.status) :
      Managed c report (.ok ()) (c.storeOrder (normalizeOrder report))

theorem managed_applyOrderReport (hdeferred : NoneDeferred c) (report : OrderStatusReport) :
    Managed c report ((Execution.applyOrderReport {} report).run c).1
      ((Execution.applyOrderReport {} report).run c).2 := by
  unfold Execution.applyOrderReport
  cases hv : report.validate with
  | error err =>
    rw [Prog.run_bind_error (Prog.run_lift ..)]
    exact .refused err
  | ok u =>
    have hwf := OrderStatusReport.validate_eq_ok.mp hv
    rw [Prog.run_bind_ok (Prog.run_lift ..), Prog.run_get_bind]
    cases hcheck : Execution.checkTransition (c.order report.accountID report.orderID)
        report with
    | error err =>
      rw [Prog.run_bind_error (Prog.run_lift ..)]
      exact .refused err
    | ok u =>
      rw [Prog.run_bind_ok (Prog.run_lift ..),
        Prog.run_bind_ok (run_putOrder (normalizeOrder_wellFormed hwf))]
      have hnone : (c.storeOrder (normalizeOrder report)).deferredFillsForOrder
          report.accountID report.orderID = [] := by
        have hrow : c.deferredFills.row (report.accountID, report.orderID) = [] := by
          refine List.eq_nil_iff_forall_not_mem.mpr fun fill hmem => ?_
          obtain ⟨k, hk⟩ := OrdMap.mem_row.mp hmem
          rw [hdeferred] at hk
          cases hk
        rw [deferredFillsForOrder, deferredFills_storeOrder, hrow]
        rfl
      rw [Execution.replayDeferredFills, Prog.run_get_bind, hnone, if_pos rfl, Prog.run_pure]
      refine .stored hwf fun e he hterminal => ?_
      rw [he] at hcheck
      by_contra hne
      simp [Execution.checkTransition, Execution.validateOrderTransition, reject_eq_ok,
        hterminal, hne] at hcheck

/-! ### Fills -/

/-- The cache with a valid fill that it did not have. -/
def withFill (c : Cache) (f : FillReport) : Cache :=
  match c.order f.accountID f.orderID with
  | none => c.insertFill f
  | some o => (c.insertFill f).storeOrder (applyFillToOrder o f)

theorem run_apply_fill (hc : Reachable c) (hf : f.WellFormed)
    (hnew : c.fills.get (fillKey f) = none) :
    (Account.apply (.ofFill f)).run c = (.ok (), withFill c f) := by
  rw [Account.run_apply_ofFill hf, withFill]
  cases ho : c.order f.accountID f.orderID with
  | none => exact run_applyFill_orphan hf hnew ho
  | some o => exact run_applyFill_new hf hnew ho (hc.validated.orders _ o ho)

theorem run_apply_fill_invalid (hf : ¬ f.WellFormed) :
    ∃ err, (Account.apply (.ofFill f)).run c = (.error err, c) := by
  cases hv : (ExecutionEvent.ofFill f).validate with
  | ok u => exact absurd ((validate_ofFill f).mp hv) hf
  | error err =>
    rw [Account.apply, hv, Prog.run_bind_error (Prog.run_lift ..)]
    exact ⟨err, rfl⟩

theorem run_apply_position {p : PositionStatusReport} (hp : p.WellFormed) :
    (Account.apply (.ofPosition p)).run c = (.ok (), c.storePosition p) := by
  have hvalid : (ExecutionEvent.ofPosition p).validate = .ok () := by
    simp [ExecutionEvent.validate, ExecutionEvent.ofPosition, ExecutionEvent.checkPayload,
      ExecutionEvent.payloadCount, PositionStatusReport.validate_eq_ok, hp]
  rw [Account.apply, hvalid, Prog.run_bind_ok (Prog.run_lift ..)]
  refine Prog.run_update_ok ?_
  rw [putPosition, PositionStatusReport.validate_eq_ok.mpr hp]
  rfl

theorem run_apply_position_invalid {p : PositionStatusReport} (hp : ¬ p.WellFormed) :
    ∃ err, (Account.apply (.ofPosition p)).run c = (.error err, c) := by
  cases hv : (ExecutionEvent.ofPosition p).validate with
  | ok u =>
    have hwf : p.WellFormed := by
      simpa [ExecutionEvent.validate, ExecutionEvent.ofPosition, ExecutionEvent.checkPayload,
        ExecutionEvent.payloadCount, PositionStatusReport.validate_eq_ok] using hv
    exact absurd hwf hp
  | error err =>
    rw [Account.apply, hv, Prog.run_bind_error (Prog.run_lift ..)]
    exact ⟨err, rfl⟩

theorem cacheAfterFill_invalid (hf : ¬ f.WellFormed) : cacheAfterFill c f = c := by
  obtain ⟨err, hrun⟩ := run_apply_fill_invalid (c := c) hf
  rw [cacheAfterFill, hrun]

/-- What a new fill does to the cache beside the orders and the entries of the
position. -/
structure FilledNew (c : Cache) (f : FillReport) (c' : Cache) : Prop where
  fills : c'.fills = c.fills.put (fillKey f) f
  deferredFills : c'.deferredFills = c.deferredFills
  positions : c'.positions =
    c.positions.put (f.accountID, f.instrumentID.string) (nextPosition c f)
  positionInst : c'.positionInst =
    c.positionInst.put (f.accountID, f.instrumentID) f.instrumentID.string

theorem nextPosition_ids (c : Cache) (f : FillReport) :
    (nextPosition c f).accountID = f.accountID ∧
      (nextPosition c f).positionID = f.instrumentID.string ∧
      (nextPosition c f).instrumentID = f.instrumentID := by
  unfold nextPosition
  dsimp only
  split <;> exact ⟨rfl, rfl, rfl⟩

theorem filledNew_storePosition (c : Cache) (f : FillReport) :
    FilledNew c f ((withFill c f).storePosition (nextPosition c f)) := by
  obtain ⟨haccount, hid, hinstrument⟩ := nextPosition_ids c f
  have hfill : (withFill c f).fills = c.fills.put (fillKey f) f ∧
      (withFill c f).deferredFills = c.deferredFills ∧
      (withFill c f).positions = c.positions ∧ (withFill c f).positionInst = c.positionInst := by
    unfold withFill
    split
    · exact ⟨rfl, rfl, rfl, rfl⟩
    · simp only [fills_storeOrder, deferredFills_storeOrder, positions_storeOrder,
        positionInst_storeOrder]
      exact ⟨rfl, rfl, rfl, rfl⟩
  obtain ⟨hfills, hdeferred, hpositions, hids⟩ := hfill
  refine ⟨?_, ?_, ?_, ?_⟩
  · rw [fills_storePosition, hfills]
  · rw [deferredFills_storePosition, hdeferred]
  · rw [positions_storePosition, hpositions, haccount, hid]
  · rw [positionInst_storePosition, hids, haccount, hid, hinstrument]

theorem cacheAfterFill_new (hc : Reachable c) (hf : f.WellFormed)
    (hnew : c.fills.get (fillKey f) = none) (hposition : (nextPosition c f).WellFormed) :
    cacheAfterFill c f = (withFill c f).storePosition (nextPosition c f) := by
  rw [cacheAfterFill, run_apply_fill hc hf hnew]
  dsimp only
  rw [run_apply_position hposition]

theorem reachable_cacheAfterFill (hc : Reachable c) (f : FillReport) :
    Reachable (cacheAfterFill c f) := by
  have hfill : Reachable ((Account.apply (.ofFill f)).run c).2 := reachable_afterEvent hc _
  unfold cacheAfterFill
  match hrun : (Account.apply (.ofFill f)).run c with
  | (.error _, c₁) =>
    rw [hrun] at hfill
    exact hfill
  | (.ok _, c₁) =>
    rw [hrun] at hfill
    exact reachable_afterEvent hfill _

/-- What the cache is after a fill alone. -/
theorem run_apply_fill_cases (hc : Reachable c) (f : FillReport) :
    (¬ f.WellFormed ∧ ∃ err, (Account.apply (.ofFill f)).run c = (.error err, c)) ∨
      (Account.apply (.ofFill f)).run c = (.ok (), c) ∨
      f.WellFormed ∧ c.fills.get (fillKey f) = none ∧
        (Account.apply (.ofFill f)).run c = (.ok (), withFill c f) := by
  by_cases hf : f.WellFormed
  · cases hget : c.fills.get (fillKey f) with
    | none => exact .inr (.inr ⟨hf, rfl, run_apply_fill hc hf hget⟩)
    | some g =>
      right
      left
      rw [Account.run_apply_ofFill hf]
      exact run_applyFill_stored hf hget
  · exact .inl ⟨hf, run_apply_fill_invalid hf⟩

/-- A position leaves the orders and the waiting fills alone. -/
theorem run_apply_position_orders (c : Cache) (p : PositionStatusReport) :
    ((Account.apply (.ofPosition p)).run c).2.orders = c.orders ∧
      ((Account.apply (.ofPosition p)).run c).2.deferredFills = c.deferredFills := by
  by_cases hp : p.WellFormed
  · rw [run_apply_position hp]
    exact ⟨orders_storePosition c p, deferredFills_storePosition c p⟩
  · obtain ⟨err, hrun⟩ := run_apply_position_invalid (c := c) hp
    rw [hrun]
    exact ⟨rfl, rfl⟩

/-- A fill leaves the orders alone, or stores its order with the fill. -/
theorem orders_cacheAfterFill (hc : Reachable c) (f : FillReport) :
    (cacheAfterFill c f).orders = c.orders ∨ f.WellFormed ∧ ∃ o,
      c.order f.accountID f.orderID = some o ∧
        (cacheAfterFill c f).orders = (c.storeOrder (applyFillToOrder o f)).orders := by
  unfold cacheAfterFill
  obtain ⟨-, err, hrun⟩ | hrun | ⟨hf, -, hrun⟩ := run_apply_fill_cases hc f
  · rw [hrun]
    exact .inl rfl
  · rw [hrun]
    exact .inl (run_apply_position_orders c _).1
  · rw [hrun]
    dsimp only
    rw [(run_apply_position_orders _ _).1, withFill]
    split
    · exact .inl rfl
    · next o ho =>
        refine .inr ⟨hf, o, ho, ?_⟩
        have hinsert := (hc.consistent.insertFill f).orders
        exact orders_storeOrder_congr hc.consistent.orders hinsert rfl _

theorem deferredFills_cacheAfterFill (hc : Reachable c) (f : FillReport) :
    (cacheAfterFill c f).deferredFills = c.deferredFills := by
  unfold cacheAfterFill
  obtain ⟨-, err, hrun⟩ | hrun | ⟨-, -, hrun⟩ := run_apply_fill_cases hc f
  · rw [hrun]
  · rw [hrun]
    exact (run_apply_position_orders c _).2
  · rw [hrun]
    dsimp only
    rw [(run_apply_position_orders _ _).2, withFill]
    split
    · rfl
    · rw [deferredFills_storeOrder]
      rfl

/-! ### Positions

Whatever a cache holds to begin with, reports and fills leave the positions
alone. -/

section HoldsPositions

variable {positions : OrdMap (AccountID × PositionID) PositionStatusReport}
  {ids : OrdMap (AccountID × InstrumentID) PositionID}

theorem keepsPositions_manager_applyFill (m : Execution.Manager) (f : FillReport) :
    Prog.Keeps (HoldsPositions positions ids) (Execution.applyFill m f) := by
  refine (Prog.Keeps.lift _).bind fun _ => Prog.Keeps.get.bind fun c => ?_
  split
  · exact .pure _
  · refine (Prog.Keeps.lift _).bind fun _ => (keepsPositions_putFill f).bind fun applied => ?_
    split
    · exact (keepsPositions_putOrder _).bind fun _ => .pure _
    · exact .pure _
  · split
    · exact keepsPositions_putFill _
    · refine Prog.Keeps.bind (Prog.Keeps.step fun c stored c' hput h => ?_) fun _ => .pure _
      simp only [putDeferredFill, except_seq_eq_ok] at hput
      obtain ⟨-, hput⟩ := hput
      split at hput
      · cases hput
        exact h
      · cases hput
        exact h

theorem keepsPositions_applyOrderReport (m : Execution.Manager) (report : OrderStatusReport) :
    Prog.Keeps (HoldsPositions positions ids) (Execution.applyOrderReport m report) := by
  refine (Prog.Keeps.lift _).bind fun _ => Prog.Keeps.get.bind fun _ =>
    (Prog.Keeps.lift _).bind fun _ => (keepsPositions_putOrder _).bind fun _ =>
      Prog.Keeps.get.bind fun c => ?_
  dsimp only
  split
  · exact .pure ()
  · refine Prog.Keeps.bind (.forEach fun f _ => ?_) fun _ => .modify fun _ h => h
    exact (keepsPositions_manager_applyFill m f).bind fun _ => .pure _

end HoldsPositions

/-- A fill leads to its position, or the positions stay. -/
theorem positions_cacheAfterFill (c : Cache) (f : FillReport) :
    HoldsPositions c.positions c.positionInst (cacheAfterFill c f) ∨
      f.WellFormed ∧ (nextPosition c f).WellFormed ∧
        (cacheAfterFill c f).positions =
          c.positions.put (f.accountID, (nextPosition c f).positionID) (nextPosition c f) ∧
        (cacheAfterFill c f).positionInst =
          c.positionInst.put (f.accountID, f.instrumentID) (nextPosition c f).positionID := by
  have hkeeps : HoldsPositions c.positions c.positionInst
      ((Account.apply (.ofFill f)).run c).2 := keepsPositions_apply_fill f c ⟨rfl, rfl⟩
  by_cases hf : f.WellFormed
  · unfold cacheAfterFill
    match hrun : (Account.apply (.ofFill f)).run c with
    | (.error _, c₁) =>
      rw [hrun] at hkeeps
      exact .inl hkeeps
    | (.ok _, c₁) =>
      rw [hrun] at hkeeps
      by_cases hposition : (nextPosition c f).WellFormed
      · right
        refine ⟨hf, hposition, ?_⟩
        dsimp only
        rw [run_apply_position hposition, positions_storePosition,
          positionInst_storePosition, hkeeps.1, hkeeps.2]
        unfold nextPosition
        dsimp only
        split <;> exact ⟨rfl, rfl⟩
      · left
        obtain ⟨err, hrefused⟩ := run_apply_position_invalid (c := c₁) hposition
        dsimp only
        rw [hrefused]
        exact hkeeps
  · left
    rw [cacheAfterFill_invalid hf]
    exact ⟨rfl, rfl⟩

/-! ### What a plain step leaves alone -/

/-- The cache holds the same fills and positions. -/
structure SameBooks (c c' : Cache) : Prop where
  fills : c'.fills = c.fills
  deferredFills : c'.deferredFills = c.deferredFills
  positions : c'.positions = c.positions
  positionInst : c'.positionInst = c.positionInst

theorem SameBooks.refl (c : Cache) : SameBooks c c := ⟨rfl, rfl, rfl, rfl⟩

theorem sameBooks_of_ordersOnly (h : OrdersOnly c c') : SameBooks c c' := by
  rw [OrdersOnly] at h
  rw [h]
  exact ⟨rfl, rfl, rfl, rfl⟩

theorem Reconciled.sameBooks {result : Except Err Unit} (h : Reconciled c report result c') :
    SameBooks c c' := by
  cases h with
  | refused err => exact .refl c
  | accepted wellFormed accepted only orders => exact sameBooks_of_ordersOnly only

theorem Managed.sameBooks {result : Except Err Unit} (h : Managed c report result c') :
    SameBooks c c' := by
  cases h with
  | refused err => exact .refl c
  | stored wellFormed follows => exact ⟨by simp, by simp, by simp, by simp⟩

/-- What is known of the cache all along a run. -/
structure Sound (c : Cache) : Prop where
  reachable : Reachable c
  noneDeferred : NoneDeferred c

section Plain

variable {cfg : Config} {V : OrderStatusReport → Prop} {G : Runtime → Matched → Prop}
  {r r' : Runtime}

theorem Plain.sameBooks (h : Plain cfg V r r') (hr : Sound r.cache) :
    SameBooks r.cache r'.cache := by
  cases h with
  | internal same =>
    rw [same.cache]
    exact .refl _
  | listed list =>
    obtain ⟨_, _, heq⟩ := indexOrderList_eq list r
    rw [heq]
    exact .refl _
  | reported amendment =>
    rw [reconcile_order]
    exact (reconciled_apply hr.reachable _).sameBooks
  | stored storing =>
    rw [run_storeReport]
    exact (managed_applyOrderReport hr.noneDeferred _).sameBooks
  | submitted order =>
    rw [run_storeReport]
    exact (managed_applyOrderReport hr.noneDeferred _).sameBooks
  | account snapshot => exact ⟨rfl, rfl, rfl, rfl⟩
  | _ => exact .refl _

/-- Plain steps leave the positions alone, whatever the cache holds. -/
theorem Plain.positions (h : Plain cfg V r r') :
    HoldsPositions r.cache.positions r.cache.positionInst r'.cache := by
  cases h with
  | internal same =>
    rw [same.cache]
    exact ⟨rfl, rfl⟩
  | listed list =>
    obtain ⟨_, _, heq⟩ := indexOrderList_eq list r
    rw [heq]
    exact ⟨rfl, rfl⟩
  | reported amendment => exact keepsPositions_apply_order _ r.cache ⟨rfl, rfl⟩
  | stored storing => exact keepsPositions_applyOrderReport _ _ r.cache ⟨rfl, rfl⟩
  | submitted order => exact keepsPositions_applyOrderReport _ _ r.cache ⟨rfl, rfl⟩
  | _ => exact ⟨rfl, rfl⟩

theorem Plain.reachable (h : Plain cfg V r r') (hr : Reachable r.cache) : Reachable r'.cache := by
  cases h with
  | internal same => rwa [same.cache]
  | listed list =>
    obtain ⟨_, _, heq⟩ := indexOrderList_eq list r
    rwa [heq]
  | reported amendment => exact reachable_afterEvent hr _
  | stored storing => exact Execution.keeps_reachable_applyOrderReport _ hr
  | submitted order => exact Execution.keeps_reachable_applyOrderReport _ hr
  | account snapshot => exact .putAccount snapshot hr
  | _ => exact hr

theorem Plain.sound (h : Plain cfg V r r') (hr : Sound r.cache) : Sound r'.cache := by
  refine ⟨h.reachable hr.reachable, fun key => ?_⟩
  rw [(h.sameBooks hr).deferredFills]
  exact hr.noneDeferred key

theorem booked_cache (r : Runtime) (m : Matched) (drawn : Nat) :
    (booked r m drawn).cache = cacheAfterFill r.cache m.fill := by
  obtain ⟨pf, h⟩ := booked_eq r m drawn
  rw [h]

theorem stable_sound (events : List Event) :
    Stable (fun r => Sound r.cache) (Move (Step cfg V G) events) := by
  intro r r' hmove hr
  cases hmove with
  | step step =>
    cases step with
    | plain step => exact step.sound hr
    | filled drawn fits guard =>
      rw [booked_cache]
      refine ⟨reachable_cacheAfterFill hr.reachable _, fun key => ?_⟩
      rw [deferredFills_cacheAfterFill hr.reachable]
      exact hr.noneDeferred key
  | clock tick t due => exact hr
  | @market event now =>
    obtain ⟨_, _, heq⟩ := rememberEvent_eq event r
    rw [Runtime.withMarket, heq]
    exact hr

/-! ### Stored orders -/

/-- The terms of an order that fills do not change. -/
structure SameTerms (o o' : OrderStatusReport) : Prop where
  type : o'.type = o.type
  timeInForce : o'.timeInForce = o.timeInForce
  expireTime : o'.expireTime = o.expireTime

theorem SameTerms.trans {o o' o'' : OrderStatusReport} (h : SameTerms o o')
    (h' : SameTerms o' o'') : SameTerms o o'' :=
  ⟨h'.1.trans h.1, h'.2.trans h.2, h'.3.trans h.3⟩

theorem sameTerms_applyFillToOrder (o : OrderStatusReport) (f : FillReport) :
    SameTerms o (applyFillToOrder o f) := by
  unfold applyFillToOrder
  dsimp only
  split_ifs <;> exact ⟨rfl, rfl, rfl⟩

theorem sameTerms_fillAll (fills : List FillReport) :
    ∀ o : OrderStatusReport, SameTerms o (fillAll o fills) := by
  induction fills with
  | nil => exact fun _ => ⟨rfl, rfl, rfl⟩
  | cons f fills ih => exact fun o => (sameTerms_applyFillToOrder o f).trans (ih _)

theorem sameTerms_normalizeOrder (o : OrderStatusReport) : SameTerms o (normalizeOrder o) := by
  unfold normalizeOrder
  dsimp only
  split_ifs <;> exact ⟨rfl, rfl, rfl⟩

/-- What a report is stored as, by the reconciler or by the manager. -/
inductive StoredAs (c : Cache) (report : OrderStatusReport) : OrderStatusReport → Prop where
  | accepted {s : OrderStatus}
      (accepted : AcceptedAs (c.order report.accountID report.orderID) report s) :
      StoredAs c report (outcome c report s)
  | managed (follows : ∀ e, c.order report.accountID report.orderID = some e →
        e.status.isTerminal = true → e.status = report.status) :
      StoredAs c report (normalizeOrder report)

theorem StoredAs.terms {o : OrderStatusReport} (h : StoredAs c report o) :
    SameTerms report o := by
  cases h with
  | @accepted s accepted =>
    have hstatus : SameTerms report { report with status := s } := ⟨rfl, rfl, rfl⟩
    exact hstatus.trans ((sameTerms_normalizeOrder _).trans (sameTerms_fillAll _ _))
  | managed follows => exact sameTerms_normalizeOrder report

/-- Where a report comes from that a plain step stores. -/
inductive ReportOf (V : OrderStatusReport → Prop) (r : Runtime) : OrderStatusReport → Prop where
  | amendment {report : OrderStatusReport} (amendment : Amendment V r report) : ReportOf V r report
  | storing {report : OrderStatusReport} (storing : Storing r report) : ReportOf V r report
  | acceptance {order : SubmitOrder} (valid : order.validate = .ok ()) :
      ReportOf V r (acceptance r.numbered order)

/-- What a plain step does to the orders: nothing, and it records no report as taken, or
it stores a report. -/
inductive StoresReport (V : OrderStatusReport → Prop) (r r' : Runtime) : Prop where
  | none (orders : r'.cache.orders = r.cache.orders)
      (untaken : ∀ t c report, .reported t c report (.ok ()) ∈ r'.trace →
        .reported t c report (.ok ()) ∈ r.trace)
  | one {report o : OrderStatusReport} (wellFormed : report.WellFormed)
      (source : ReportOf V r report)
      (trace : r'.trace = r.trace ++ [.reported r.currentTime r.cache report (.ok ())])
      (stored : StoredAs r.cache report o)
      (orders : r'.cache.orders = (r.cache.storeOrder o).orders)

theorem Plain.orders (h : Plain cfg V r r') (hr : Sound r.cache) : StoresReport V r r' := by
  have hmanaged : ∀ {report r₁}, ReportOf V r report →
      r₁.cache = ((Execution.applyOrderReport {} report).run r.cache).2 →
      r₁.trace = r.trace ++ [.reported r.currentTime r.cache report
        ((Execution.applyOrderReport {} report).run r.cache).1] → StoresReport V r r₁ := by
    intro report r₁ hof hcache htrace
    generalize hrun : (Execution.applyOrderReport {} report).run r.cache = out at hcache htrace
    have hstep := managed_applyOrderReport hr.noneDeferred report
    rw [hrun] at hstep
    obtain ⟨result, c'⟩ := out
    cases hstep with
    | refused err => exact .none (by rw [hcache]) (by simp [htrace])
    | stored wellFormed follows =>
      exact .one wellFormed hof htrace (.managed follows) (congrArg Cache.orders hcache)
  cases h with
  | internal same => exact .none (by rw [same.cache]) (by simp [same.trace])
  | listed list =>
    obtain ⟨_, _, heq⟩ := indexOrderList_eq list r
    exact .none (by rw [heq]) (by simp [heq])
  | @reported report amendment =>
    rw [reconcile_order]
    generalize hrun : (Account.apply (.ofOrder report)).run r.cache = out
    have hstep := reconciled_apply hr.reachable report
    rw [hrun] at hstep
    obtain ⟨result, c'⟩ := out
    cases hstep with
    | refused err => exact .none rfl (by simp)
    | accepted wellFormed accepted only orders =>
      exact .one wellFormed (.amendment amendment) rfl (.accepted accepted) orders
  | stored storing => exact hmanaged (.storing storing) rfl rfl
  | submitted valid => exact hmanaged (.acceptance valid) rfl rfl
  | registered report => exact .none rfl (by simp [register])
  | callback => exact .none rfl (by simp)
  | commanded execution => exact .none rfl (by simp)
  | tested o isOpen untriggered => exact .none rfl (by simp)
  | _ => exact .none rfl fun _ _ _ h => h

/-- A fill leaves the orders alone, or stores its order with the fill and is
recorded. -/
theorem orders_booked (hr : Sound r.cache) (m : Matched) (drawn : Nat) :
    (booked r m drawn).cache.orders = r.cache.orders ∨ ∃ o, m.fill.WellFormed ∧
      r.cache.order m.fill.accountID m.fill.orderID = some o ∧
      .filled r.currentTime r.cache r.market m ∈ (booked r m drawn).trace ∧
      (booked r m drawn).cache.orders =
        (r.cache.storeOrder (applyFillToOrder o m.fill)).orders := by
  obtain ⟨pf, heq⟩ := booked_eq r m drawn
  rw [heq]
  dsimp only
  obtain hsame | ⟨hf, o, ho, horders⟩ := orders_cacheAfterFill hr.reachable m.fill
  · exact .inl hsame
  · refine .inr ⟨o, hf, ho, List.mem_append_right _ ?_, horders⟩
    obtain hentries | hentries | hentries := fillEntries_cases r m
    · -- a valid fill is not refused
      exfalso
      unfold fillEntries at hentries
      obtain ⟨hinvalid, -⟩ | hrun | ⟨-, -, hrun⟩ := run_apply_fill_cases hr.reachable m.fill
      · exact hinvalid hf
      · rw [hrun] at hentries
        dsimp only at hentries
        split at hentries <;> cases hentries
      · rw [hrun] at hentries
        dsimp only at hentries
        split at hentries <;> cases hentries
    · simp [hentries]
    · simp [hentries]

end Plain

end CacheSteps

end Exchanges.Backtest
