import Exchanges.Account.OrderEvents

/-!
One order, its trades, and what the reconciler has recorded of them.

The trades of an order are a list of fills with distinct trade ids. `Ledger`
is what holds of the cache while only reports of the order and fills for its
trades are applied: the stored order is well formed, and the stored fills are
trades of the order. The two step theorems say how a report and a fill move
the ledger; runs of events are reasoned about through them.
-/

namespace Exchanges.Account

open Exchanges.Lib Exchanges.Model Exchanges.Cache

/-- The fills of order `i` of account `a`, each of them once. -/
structure TradesOf (a : AccountID) (i : OrderID) (trades : List FillReport) : Prop where
  wellFormed : ∀ f ∈ trades, f.WellFormed
  accountID : ∀ f ∈ trades, f.accountID = a
  orderID : ∀ f ∈ trades, f.orderID = i
  distinct : (trades.map (·.tradeID)).Nodup

/-- The quantity traded in some fills. -/
def totalQuantity (fills : List FillReport) : Decimal := (fills.map (·.quantity)).sum

@[simp] theorem totalQuantity_nil : totalQuantity [] = 0 := rfl

@[simp] theorem totalQuantity_cons (f : FillReport) (fills : List FillReport) :
    totalQuantity (f :: fills) = f.quantity + totalQuantity fills := rfl

theorem totalQuantity_perm {fills fills' : List FillReport} (h : fills.Perm fills') :
    totalQuantity fills = totalQuantity fills' :=
  (h.map _).sum_eq

theorem totalQuantity_nonneg {fills : List FillReport} (h : ∀ f ∈ fills, f.WellFormed) :
    0 ≤ totalQuantity fills := by
  apply List.sum_nonneg
  intro q hq
  obtain ⟨f, hf, rfl⟩ := List.mem_map.mp hq
  exact (h f hf).quantity_pos.le

variable {a : AccountID} {i : OrderID} {trades : List FillReport} {c : Cache}

namespace TradesOf

/-- A trade id names one trade. -/
theorem eq_of_tradeID (h : TradesOf a i trades) {f g : FillReport} (hf : f ∈ trades)
    (hg : g ∈ trades) (hid : f.tradeID = g.tradeID) : f = g :=
  List.inj_on_of_nodup_map h.distinct hf hg hid

theorem fillKey_eq (h : TradesOf a i trades) {f : FillReport} (hf : f ∈ trades) :
    fillKey f = ((a, i), f.tradeID) := by
  rw [fillKey, h.accountID f hf, h.orderID f hf]

/-- Recorded trades, none of them twice, never exceed all trades. -/
theorem totalQuantity_le (h : TradesOf a i trades) {fills : List FillReport}
    (hnodup : fills.Nodup) (hsub : ∀ f ∈ fills, f ∈ trades) :
    totalQuantity fills ≤ totalQuantity trades := by
  obtain ⟨fills', hperm', hsublist⟩ := List.subperm_of_subset hnodup hsub
  obtain ⟨rest, hperm⟩ := hsublist.exists_perm_append
  have hrest : 0 ≤ totalQuantity rest := by
    apply totalQuantity_nonneg
    intro f hf
    exact h.wellFormed f (hperm.mem_iff.mpr (List.mem_append_right fills' hf))
  have hsum : totalQuantity trades = totalQuantity fills + totalQuantity rest := by
    rw [totalQuantity_perm hperm, ← totalQuantity_perm hperm']
    simp [totalQuantity]
  linarith

/-- Once every trade is recorded, the totals agree. -/
theorem totalQuantity_eq (h : TradesOf a i trades) {fills : List FillReport}
    (hnodup : fills.Nodup) (hmem : ∀ f, f ∈ fills ↔ f ∈ trades) :
    totalQuantity fills = totalQuantity trades := by
  have htrades : trades.Nodup := h.distinct.of_map
  exact totalQuantity_perm ((List.perm_ext_iff_of_nodup hnodup htrades).mpr hmem)

end TradesOf

/-! ### A sample order with two trades -/

def samplePerp : InstrumentID := ⟨"BTC-USDT-PERP", "BINANCE"⟩

def sampleReport : OrderStatusReport :=
  { accountID := "acct", instrumentID := samplePerp, orderID := "order-1", status := .accepted,
    side := .buy, type := .limit, quantity := 10, price := 100, lastUpdatedTime := 1 }

def sampleFill1 : FillReport :=
  { accountID := "acct", instrumentID := samplePerp, orderID := "order-1",
    tradeID := "trade-1", side := .buy, price := 100, quantity := 5, timestamp := 2 }

def sampleFill2 : FillReport :=
  { accountID := "acct", instrumentID := samplePerp, orderID := "order-1",
    tradeID := "trade-2", side := .buy, price := 98, quantity := 3, timestamp := 3 }

theorem sampleReport_wellFormed : sampleReport.WellFormed :=
  OrderStatusReport.validate_eq_ok.mp (by decide +kernel)

theorem tradesOf_sample : TradesOf "acct" "order-1" [sampleFill1, sampleFill2] := by
  refine ⟨?_, ?_, ?_, by decide⟩
  · simp only [List.mem_cons, List.not_mem_nil, or_false, forall_eq_or_imp, forall_eq]
    exact ⟨FillReport.validate_eq_ok.mp (by decide +kernel),
      FillReport.validate_eq_ok.mp (by decide +kernel)⟩
  · simp [sampleFill1, sampleFill2]
  · simp [sampleFill1, sampleFill2]

/-! ### The ledger -/

/-- What the cache records of an order and its trades. -/
structure Ledger (a : AccountID) (i : OrderID) (trades : List FillReport) (c : Cache) :
    Prop where
  order : ∀ o, c.order a i = some o → OrderAt a i o
  fills : ∀ t f, c.fills.get ((a, i), t) = some f → f ∈ trades ∧ f.tradeID = t

/-- A cache that knows neither the order nor a fill of it. -/
structure Unknown (a : AccountID) (i : OrderID) (c : Cache) : Prop where
  order : c.order a i = none
  fills : ∀ t, c.fills.get ((a, i), t) = none

theorem Unknown.ledger (h : Unknown a i c) : Ledger a i trades c :=
  ⟨fun o ho => by simp [h.order] at ho, fun t f hf => by simp [h.fills t] at hf⟩

theorem unknown_new (a : AccountID) (i : OrderID) : Unknown a i new :=
  ⟨OrdMap.get_empty _, fun _ => OrdMap.get_empty _⟩

theorem mem_fillsForOrder {f : FillReport} :
    f ∈ c.fillsForOrder a i ↔ ∃ t, c.fills.get ((a, i), t) = some f := by
  rw [fillsForOrder, sortFills, List.mem_insertionSort, OrdMap.mem_row]

theorem Unknown.fillsForOrder (h : Unknown a i c) : c.fillsForOrder a i = [] := by
  rw [List.eq_nil_iff_forall_not_mem]
  intro f hf
  obtain ⟨t, ht⟩ := mem_fillsForOrder.mp hf
  simp [h.fills t] at ht

namespace Ledger

theorem mem_trades (h : Ledger a i trades c) {f : FillReport}
    (hf : f ∈ c.fillsForOrder a i) : f ∈ trades := by
  obtain ⟨t, ht⟩ := mem_fillsForOrder.mp hf
  exact (h.fills t f ht).1

theorem fills_wellFormed (h : Ledger a i trades c) (ht : TradesOf a i trades) :
    ∀ f ∈ c.fillsForOrder a i, f.WellFormed :=
  fun f hf => ht.wellFormed f (h.mem_trades hf)

theorem fills_nodup (h : Ledger a i trades c) : (c.fillsForOrder a i).Nodup := by
  rw [fillsForOrder, sortFills, (List.perm_insertionSort _ _).nodup_iff, OrdMap.row]
  -- two entries with the same fill would have the same trade id
  refine List.Nodup.map_on ?_ (c.fills.rowEntries_nodup (a, i))
  intro e he e' he' heq
  obtain ⟨hrow, hget⟩ := OrdMap.mem_rowEntries.mp he
  obtain ⟨hrow', hget'⟩ := OrdMap.mem_rowEntries.mp he'
  obtain ⟨⟨b, t⟩, f⟩ := e
  obtain ⟨⟨b', t'⟩, f'⟩ := e'
  simp only at hrow hrow' hget hget' heq
  subst hrow hrow' heq
  have ht := (h.fills t f hget).2
  have ht' := (h.fills t' f hget').2
  rw [← ht, ← ht']

/-- A trade is recorded under its own trade id or not at all. -/
theorem get_fillKey (h : Ledger a i trades c) (ht : TradesOf a i trades) {f : FillReport}
    (hf : f ∈ trades) :
    c.fills.get (fillKey f) = if f ∈ c.fillsForOrder a i then some f else none := by
  rw [ht.fillKey_eq hf]
  cases hget : c.fills.get ((a, i), f.tradeID) with
  | none =>
    rw [if_neg]
    intro hmem
    obtain ⟨t, hmem⟩ := mem_fillsForOrder.mp hmem
    rw [← (h.fills t f hmem).2, hget] at hmem
    cases hmem
  | some g =>
    obtain ⟨hg, hid⟩ := h.fills f.tradeID g hget
    rw [ht.eq_of_tradeID hg hf hid] at hget
    rw [if_pos (mem_fillsForOrder.mpr ⟨_, hget⟩), ht.eq_of_tradeID hg hf hid]

/-- The recorded fills and one more are within all trades. -/
theorem total_cons_le (h : Ledger a i trades c) (ht : TradesOf a i trades) {f : FillReport}
    (hf : f ∈ trades) (hnew : f ∉ c.fillsForOrder a i) :
    totalQuantity (f :: c.fillsForOrder a i) ≤ totalQuantity trades := by
  refine ht.totalQuantity_le (List.nodup_cons.mpr ⟨hnew, h.fills_nodup⟩) fun g hg => ?_
  obtain rfl | hg := List.mem_cons.mp hg
  · exact hf
  · exact h.mem_trades hg

end Ledger

/-- The fills recorded are still the fills delivered when one more has been. -/
theorem recorded_concat {fills fills' : List FillReport} {done : List ExecutionEvent}
    {f : FillReport} (h : ∀ g ∈ trades, g ∈ fills ↔ ExecutionEvent.ofFill g ∈ done)
    (hfills : ∀ g, g ∈ fills' ↔ g = f ∨ g ∈ fills) :
    ∀ g ∈ trades, g ∈ fills' ↔ ExecutionEvent.ofFill g ∈ done ++ [.ofFill f] := by
  intro g hg
  rw [hfills, h g hg, List.mem_append, List.mem_singleton, or_comm]
  simp [ExecutionEvent.ofFill]

/-! ### Steps -/

variable [DecimalPackage]

/-- A report leaves the fills alone. The stored order is then as
`orderAfterReport` has it, or as it was if the report is invalid. -/
theorem Ledger.afterReport (h : Ledger a i trades c) (ht : TradesOf a i trades)
    {r : OrderStatusReport} (ha : r.accountID = a) (hi : r.orderID = i) :
    Ledger a i trades (afterEvent c (.ofOrder r)) ∧
      (afterEvent c (.ofOrder r)).fills = c.fills ∧
      (¬ r.WellFormed ∧ (afterEvent c (.ofOrder r)).order a i = c.order a i ∨
        r.WellFormed ∧ (afterEvent c (.ofOrder r)).order a i =
          orderAfterReport (c.fillsForOrder a i) (c.order a i) r) := by
  by_cases hr : r.WellFormed
  · have hat : OrderAt a i r := ⟨ha, hi, hr⟩
    obtain ⟨result, c', hrun, horder, honly⟩ := run_applyOrder hat (h.fills_wellFormed ht)
    have hc' : afterEvent c (.ofOrder r) = c' := by
      rw [afterEvent, run_apply_ofOrder hr, hrun]
    have hfills : c'.fills = c.fills := by
      rw [honly]
      rfl
    rw [hc']
    refine ⟨⟨?_, ?_⟩, hfills, .inr ⟨hr, horder⟩⟩
    · intro o ho
      rw [horder, orderAfterReport] at ho
      split at ho
      · exact h.order o ho
      · next r' hcheck =>
          have hr' := orderAt_of_checkOrder hcheck hat
          split at ho
          · cases ho
            exact hr'.normalizeOrder.fillAll (h.fills_wellFormed ht)
          · cases ho
            exact hr'.normalizeOrder
    · rw [hfills]
      exact h.fills
  · have hsame : afterEvent c (.ofOrder r) = c :=
      run_apply_invalid fun hv => hr ((validate_ofOrder r).mp hv)
    rw [hsame]
    exact ⟨h, rfl, .inl ⟨hr, rfl⟩⟩

/-- A trade that is recorded already changes nothing. -/
theorem Ledger.afterFill_known (h : Ledger a i trades c) (ht : TradesOf a i trades)
    {f : FillReport} (hf : f ∈ trades) (hknown : f ∈ c.fillsForOrder a i) :
    afterEvent c (.ofFill f) = c := by
  have hget := h.get_fillKey ht hf
  rw [if_pos hknown] at hget
  rw [afterEvent, run_apply_ofFill (ht.wellFormed f hf),
    run_applyFill_stored (ht.wellFormed f hf) hget]

/-- A new trade is recorded and added to the stored order. -/
theorem Ledger.afterFill_new (h : Ledger a i trades c) (ht : TradesOf a i trades)
    {f : FillReport} (hf : f ∈ trades) (hnew : f ∉ c.fillsForOrder a i) :
    Ledger a i trades (afterEvent c (.ofFill f)) ∧
      ((afterEvent c (.ofFill f)).fillsForOrder a i).Perm (f :: c.fillsForOrder a i) ∧
      (afterEvent c (.ofFill f)).order a i = (c.order a i).map (applyFillToOrder · f) := by
  have hwf := ht.wellFormed f hf
  have hget := h.get_fillKey ht hf
  rw [if_neg hnew] at hget
  -- in either case the fills are those of the cache with this fill put in
  have hkey : afterEvent c (.ofFill f) = ((applyFill f).run c).2 := by
    rw [afterEvent, run_apply_ofFill hwf]
  have hacct := ht.accountID f hf
  have hid := ht.orderID f hf
  have hstep : (afterEvent c (.ofFill f)).fills = (c.insertFill f).fills ∧
      (afterEvent c (.ofFill f)).order a i = (c.order a i).map (applyFillToOrder · f) ∧
      ∀ o, (afterEvent c (.ofFill f)).order a i = some o → OrderAt a i o := by
    cases ho : c.order a i with
    | none =>
      have ho' : c.order f.accountID f.orderID = none := by rw [hacct, hid, ho]
      have hafter : (c.insertFill f).order a i = none := ho
      rw [hkey, run_applyFill_orphan hwf hget ho']
      exact ⟨rfl, hafter, fun o hsome => by rw [hafter] at hsome; cases hsome⟩
    | some o =>
      have ho' : c.order f.accountID f.orderID = some o := by rw [hacct, hid, ho]
      have hat := (h.order o ho).applyFillToOrder hwf
      have hstored := hat.order_storeOrder (c := c.insertFill f)
      rw [hkey, run_applyFill_new hwf hget ho' (h.order o ho).wellFormed]
      refine ⟨fills_storeOrder .., hstored, ?_⟩
      intro o' hsome
      rw [hstored] at hsome
      cases hsome
      exact hat
  obtain ⟨hfills, horder, horderAt⟩ := hstep
  refine ⟨⟨horderAt, ?_⟩, ?_, horder⟩
  · intro t g hg
    rw [hfills, insertFill, OrdMap.get_put, ht.fillKey_eq hf] at hg
    split at hg
    · next heq =>
        cases hg
        exact ⟨hf, (Prod.mk.inj heq).2.symm⟩
    · exact h.fills t g hg
  · rw [fillsForOrder, fillsForOrder, hfills, insertFill, ht.fillKey_eq hf]
    rw [ht.fillKey_eq hf] at hget
    have hsorted := List.perm_insertionSort fillLE
      ((c.fills.put ((a, i), f.tradeID) f).row (a, i))
    have hput := OrdMap.row_put_perm hget f
    have hrow := List.perm_insertionSort fillLE (c.fills.row (a, i))
    exact (hsorted.trans hput).trans (hrow.symm.cons f)

end Exchanges.Account
