import Exchanges.Cache.Consistency
import Exchanges.Execution.Manager

/-!
What the manager does with fills and order reports.

A fill whose trade is known changes nothing; any other fill of a stored order
raises the order's filled quantity. `FillEffect` lists what can come of a fill.
-/

namespace Exchanges.Execution

open Exchanges.Lib Exchanges.Model Exchanges.Cache

set_option linter.unusedSectionVars false

variable [DecimalPackage] {m : Manager} {c c' : Cache} {f : FillReport} {o : OrderStatusReport}
  {a : AccountID} {i : OrderID}

/-- The fill's trade is stored already. -/
def Known (c : Cache) (f : FillReport) : Prop :=
  (c.fillByTradeID f.accountID f.tradeID).isSome

instance (c : Cache) (f : FillReport) : Decidable (Known c f) := by
  unfold Known; infer_instance

/-! ### One fill -/

theorem run_applyFill (hf : f.WellFormed) : (applyFill m f).run c =
    (match c.fillByTradeID f.accountID f.tradeID, orderOfFill c f with
      | some _, _ => pure false
      | none, some order => applyKnownFill m order f
      | none, none =>
        if f.isLegFill then Prog.step (·.putFill (withLegPositionID f))
        else deferFill f : Prog Cache Err Bool).run c := by
  have hvalid : (Prog.lift f.validate : Prog Cache Err Unit).run c = (.ok (), c) := by
    rw [Prog.run_lift, FillReport.validate_eq_ok.mpr hf]
  rw [applyFill]
  exact Prog.run_bind_ok hvalid

theorem run_applyFill_known (hf : f.WellFormed) (hknown : Known c f) :
    (applyFill m f).run c = (.ok false, c) := by
  obtain ⟨g, hg⟩ := Option.isSome_iff_exists.mp hknown
  rw [run_applyFill hf, hg]
  rfl

/-- The cache after a new fill of a known order. -/
def afterFill (c : Cache) (order : OrderStatusReport) (fill : FillReport) : Cache :=
  (c.insertFill fill).storeOrder (normalizeOrder (addFill order fill))

theorem order_afterFill_self (c : Cache) (o : OrderStatusReport) (f : FillReport) :
    (afterFill c o f).order o.accountID o.orderID = some (normalizeOrder (addFill o f)) := by
  have hself := order_storeOrder_self (c.insertFill f) (normalizeOrder (addFill o f))
  rwa [normalizeOrder_accountID, normalizeOrder_orderID] at hself

/-- What a fill can do to the cache: nothing, store a fill, defer the fill, or
store it with the order that counts it. -/
inductive FillEffect (c : Cache) (f : FillReport) : Cache → Prop where
  | same : FillEffect c f c
  | stored (fill : FillReport) : FillEffect c f (c.insertFill fill)
  | deferred {b : Bool} {c' : Cache} : c.putDeferredFill f = .ok (b, c') → FillEffect c f c'
  | counted {order : OrderStatusReport} : f.WellFormed → orderOfFill c f = some order →
      (normalizeOrder (addFill order f)).WellFormed → FillEffect c f (afterFill c order f)

theorem fillEffect_applyKnownFill (hf : f.WellFormed) (ho : orderOfFill c f = some o) :
    FillEffect c f ((applyKnownFill m o f).run c).2 := by
  unfold applyKnownFill
  cases hover : checkOverfill m o f with
  | error e => exact .same
  | ok u =>
    have hlift : (Prog.lift (.ok u) : Prog Cache Err Unit).run c = (.ok u, c) := rfl
    rw [Prog.run_bind_ok hlift]
    cases hget : c.fills.get (fillKey f) with
    | some g =>
      rw [Prog.run_bind_ok (Prog.run_step_ok (putFill_of_stored hf hget))]
      exact .same
    | none =>
      rw [Prog.run_bind_ok (Prog.run_step_ok (putFill_of_new hf hget))]
      simp only [if_true]
      cases hput : (c.insertFill f).putOrder (addFill o f) with
      | error e =>
        rw [Prog.run_bind_error (Prog.run_update_error hput)]
        exact .stored f
      | ok c₁ =>
        rw [Prog.run_bind_ok (Prog.run_update_ok hput)]
        obtain ⟨hwf, rfl⟩ := putOrder_eq_ok.mp hput
        exact .counted hf ho hwf

theorem fillEffect_putFill (g : FillReport) :
    FillEffect c f ((Prog.step (·.putFill g) : Prog Cache Err Bool).run c).2 := by
  cases hput : c.putFill g with
  | error e =>
    rw [Prog.run_step_error hput]
    exact .same
  | ok r =>
    rw [Prog.run_step_ok hput]
    simp only [Cache.putFill, except_seq_eq_ok] at hput
    obtain ⟨-, hput⟩ := hput
    split at hput
    · cases hput
      exact .same
    · cases hput
      exact .stored g

theorem fillEffect_deferFill : FillEffect c f ((deferFill f).run c).2 := by
  unfold deferFill
  cases hput : c.putDeferredFill f with
  | error e =>
    rw [Prog.run_bind_error (Prog.run_step_error hput)]
    exact .same
  | ok r =>
    rw [Prog.run_bind_ok (Prog.run_step_ok hput)]
    exact .deferred hput

/-- `ApplyFill` does nothing else. -/
theorem fillEffect_applyFill (m : Manager) (c : Cache) (f : FillReport) :
    FillEffect c f ((applyFill m f).run c).2 := by
  cases hvalid : f.validate with
  | error e =>
    have herr : (Prog.lift f.validate : Prog Cache Err Unit).run c = (.error e, c) := by
      rw [hvalid, Prog.run_lift]
    rw [applyFill, Prog.run_bind_error herr]
    exact .same
  | ok u =>
    have hf := FillReport.validate_eq_ok.mp hvalid
    rw [run_applyFill hf]
    split
    · exact .same
    · next ho => exact fillEffect_applyKnownFill hf ho
    · split
      · exact fillEffect_putFill _
      · exact fillEffect_deferFill

/-- No fill is stored for a trade that is not. -/
theorem get_fillKey_of_trade_new (hc : Consistent c)
    (htrade : c.fillByTradeID f.accountID f.tradeID = none) :
    c.fills.get (fillKey f) = none := by
  cases hget : c.fills.get (fillKey f) with
  | none => rfl
  | some g =>
    obtain ⟨t, ht⟩ := hc.keyed.trades _ _ _ g hget
    cases htrade.symm.trans ht

/-! ### Filled quantities do not fall -/

theorem order_of_orderOfFill (hc : OrdersIndexed c) (ho : orderOfFill c f = some o) :
    c.order o.accountID o.orderID = some o := by
  have hkeyed : ∀ b j, c.order b j = some o → c.order o.accountID o.orderID = some o := by
    intro b j hget
    obtain ⟨rfl, rfl, -⟩ := hc.keyed b j o hget
    exact hget
  unfold orderOfFill at ho
  split at ho
  · next hget =>
      cases ho
      exact hkeyed _ _ hget
  · split at ho
    · obtain ⟨j, -, hget⟩ := Option.bind_eq_some_iff.mp ho
      exact hkeyed _ j hget
    · cases ho

theorem filledQuantity_addFill {q : Decimal} (hq : 0 ≤ q) (hf : f.WellFormed)
    (ho : q ≤ o.filledQuantity) :
    (normalizeOrder (addFill o f)).filledQuantity = o.filledQuantity + f.quantity := by
  have hpos := hf.quantity_pos
  have hne : (addFill o f).filledQuantity ≠ 0 := by
    change o.filledQuantity + f.quantity ≠ 0
    linarith
  rw [normalizeOrder_filledQuantity, if_neg fun h => hne h.2.2]
  rfl

theorem consistent_afterFill (hc : Consistent c)
    (hwf : (normalizeOrder (addFill o f)).WellFormed) : Consistent (afterFill c o f) :=
  (hc.insertFill f).storeOrder hwf.orderID_ne

theorem FillEffect.consistent (he : FillEffect c f c') (hc : Consistent c) : Consistent c' := by
  cases he with
  | same => exact hc
  | stored fill => exact hc.insertFill fill
  | deferred hput => exact hc.putDeferredFill hput
  | counted hf ho hwf => exact consistent_afterFill hc hwf

/-! ### One order report -/

/-- The report contradicts a terminal status. -/
def Contradicts (existing report : OrderStatusReport) : Prop :=
  existing.status.isTerminal = true ∧ existing.status ≠ report.status

/-- The cache with the order replaced by its report and no fills deferred for
it. -/
def overwrite (c : Cache) (o : OrderStatusReport) : Cache :=
  (c.storeOrder (normalizeOrder o)).clearDeferredFillsForOrder o.accountID o.orderID

theorem mem_deferredFillsForOrder : f ∈ c.deferredFillsForOrder a i ↔
    ∃ t, c.deferredFills.get ((a, i), t) = some f := by
  rw [deferredFillsForOrder, sortFills, List.mem_insertionSort, OrdMap.mem_row]

theorem clearDeferredFillsForOrder_eq_self (h : c.deferredFillsForOrder a i = []) :
    c.clearDeferredFillsForOrder a i = c := by
  have hrow : c.deferredFills.row (a, i) = [] := by
    refine List.eq_nil_iff_forall_not_mem.mpr fun f hf => ?_
    have hmem : f ∈ c.deferredFillsForOrder a i := by
      rwa [deferredFillsForOrder, sortFills, List.mem_insertionSort]
    rw [h] at hmem
    cases hmem
  rw [clearDeferredFillsForOrder, OrdMap.deleteRow_eq_self hrow]

/-- A deferred fill is a fill of the order it is deferred for. -/
theorem wellFormed_of_deferred (hc : Consistent c) (hf : f ∈ c.deferredFillsForOrder a i) :
    f.WellFormed ∧ f.accountID = a ∧ f.orderID = i := by
  obtain ⟨t, ht⟩ := mem_deferredFillsForOrder.mp hf
  obtain ⟨hkey, hwf⟩ := hc.keyed.deferred _ f ht
  simp only [fillKey, Prod.mk.injEq] at hkey
  exact ⟨hwf, hkey.1.1, hkey.1.2⟩

/-- The fills deferred for an order, applied one after the other. -/
theorem run_replayDeferredFills (m : Manager) (c : Cache) (a : AccountID) (i : OrderID) :
    (replayDeferredFills m a i).run c =
      (do
        Prog.forEach (fun f => do let _ ← applyFill m f) (c.deferredFillsForOrder a i)
        Prog.modify (·.clearDeferredFillsForOrder a i) : Prog Cache Err Unit).run c := by
  rw [replayDeferredFills, Prog.run_get_bind]
  dsimp only
  split
  · next hnil =>
      rw [hnil, Prog.forEach_nil, Prog.run_bind_ok (Prog.run_pure () c), Prog.run_modify,
        clearDeferredFillsForOrder_eq_self hnil]
      rfl
  · rfl

theorem order_storeOrder_normalize (c : Cache) (o : OrderStatusReport) :
    (c.storeOrder (normalizeOrder o)).order o.accountID o.orderID = some (normalizeOrder o) := by
  have hself := order_storeOrder_self c (normalizeOrder o)
  rwa [normalizeOrder_accountID, normalizeOrder_orderID] at hself

theorem deferredFillsForOrder_storeOrder (c : Cache) (o : OrderStatusReport) :
    (c.storeOrder o).deferredFillsForOrder a i = c.deferredFillsForOrder a i := by
  rw [deferredFillsForOrder, deferredFills_storeOrder, deferredFillsForOrder]

theorem known_storeOrder : Known (c.storeOrder o) f ↔ Known c f := by
  unfold Known fillByTradeID
  rw [fillTrades_storeOrder]

theorem checkTransition_eq_ok {existing : Option OrderStatusReport} :
    checkTransition existing o = .ok () ↔ ∀ e, existing = some e → ¬ Contradicts e o := by
  cases existing with
  | none => simp [checkTransition]
  | some e => simp [checkTransition, validateOrderTransition, Contradicts]

/-- A valid order report fails on a contradiction or goes on to the fills that
were deferred for it. -/
theorem run_applyOrderReport (ho : o.WellFormed) :
    (applyOrderReport m o).run c = (.ok (), c') ↔
      (∀ e, c.order o.accountID o.orderID = some e → ¬ Contradicts e o) ∧
        (replayDeferredFills m o.accountID o.orderID).run (c.storeOrder (normalizeOrder o)) =
          (.ok (), c') := by
  have hvalid : (Prog.lift o.validate : Prog Cache Err Unit).run c = (.ok (), c) := by
    rw [Prog.run_lift, OrderStatusReport.validate_eq_ok.mpr ho]
  have hput := run_putOrder (c := c) (normalizeOrder_wellFormed ho)
  rw [applyOrderReport, Prog.run_bind_ok hvalid, Prog.run_get_bind, Prog.run_bind_eq_ok,
    ← checkTransition_eq_ok]
  constructor
  · rintro ⟨u, c₁, hcheck, hrest⟩
    obtain rfl : c = c₁ := congrArg Prod.snd hcheck
    rw [Prog.run_bind_ok hput] at hrest
    exact ⟨congrArg Prod.fst hcheck, hrest⟩
  · rintro ⟨hcheck, hrest⟩
    refine ⟨(), c, by rw [Prog.run_lift, hcheck], ?_⟩
    rw [Prog.run_bind_ok hput]
    exact hrest

/-- A report that contradicts nothing and finds only known fills deferred
overwrites its order. -/
theorem run_applyOrderReport_overwrite (hc : Consistent c) (ho : o.WellFormed)
    (hok : ∀ e, c.order o.accountID o.orderID = some e → ¬ Contradicts e o)
    (hknown : ∀ f ∈ c.deferredFillsForOrder o.accountID o.orderID, Known c f) :
    (applyOrderReport m o).run c = (.ok (), overwrite c o) := by
  refine (run_applyOrderReport ho).mpr ⟨hok, ?_⟩
  have hloop : (Prog.forEach (fun f => do let _ ← applyFill m f)
      (c.deferredFillsForOrder o.accountID o.orderID) : Prog Cache Err Unit).run
        (c.storeOrder (normalizeOrder o)) = (.ok (), c.storeOrder (normalizeOrder o)) := by
    rw [Prog.run_forEach_foldl (g := fun c _ => c), List.foldl_fixed]
    intro pre f post hsplit
    have hmem : f ∈ c.deferredFillsForOrder o.accountID o.orderID := by
      rw [hsplit]
      exact List.mem_append_right pre List.mem_cons_self
    have hrun := run_applyFill_known (m := m) (wellFormed_of_deferred hc hmem).1
      (known_storeOrder (o := normalizeOrder o).mpr (hknown f hmem))
    rw [List.foldl_fixed, Prog.run_bind_ok hrun]
    rfl
  rw [run_replayDeferredFills, deferredFillsForOrder_storeOrder, Prog.run_bind_ok hloop]
  rfl

/-- What fills, the stored report and the cleared fills keep, a report keeps. -/
theorem keeps_applyOrderReport_of {I : Cache → Prop}
    (hfill : ∀ {c c' f}, FillEffect c f c' → I c → I c')
    (hput : ∀ {c c'}, c.putOrder o = .ok c' → I c → I c')
    (hclear : ∀ {c}, I c → I (c.clearDeferredFillsForOrder o.accountID o.orderID)) :
    Prog.Keeps I (applyOrderReport m o) := by
  have happly : ∀ f, Prog.Keeps I (applyFill m f) := fun f c h =>
    hfill (fillEffect_applyFill m c f) h
  have hreplay : Prog.Keeps I (replayDeferredFills m o.accountID o.orderID) := by
    intro c h
    rw [run_replayDeferredFills]
    refine Prog.Keeps.bind ?_ (fun _ => .modify fun _ => hclear) c h
    exact .forEach fun f _ => (happly f).bind fun _ => .pure ()
  exact (Prog.Keeps.lift _).bind fun _ => Prog.Keeps.get.bind fun _ =>
    (Prog.Keeps.lift _).bind fun _ => (Prog.Keeps.update fun _ _ => hput).bind fun _ => hreplay

theorem keeps_consistent_applyOrderReport : Prog.Keeps Consistent (applyOrderReport m o) :=
  keeps_applyOrderReport_of FillEffect.consistent (fun hput h => h.putOrder hput)
    fun h => h.clearDeferredFillsForOrder _ _

end Exchanges.Execution
