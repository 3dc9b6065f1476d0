import Exchanges.Account.OrderLedger
import Exchanges.Cache.Validated
import Exchanges.Execution.Reports

/-!
Fills that waited for their order, replayed on it.

A fill counts when its trade is new and the order has room for it; the first
fill that does not fit stops the replay with an error. `fitting` is the part of
the waiting fills that counts, and `countAll` the cache after counting them. The
theorems here describe the outcome of an order report completely, errors
included.
-/

namespace Exchanges.Execution

open Exchanges.Lib Exchanges.Model Exchanges.Cache
open Exchanges.Account (TradesOf OrderAt totalQuantity totalQuantity_cons totalQuantity_nil
  totalQuantity_nonneg)

set_option linter.unusedSectionVars false

variable [DecimalPackage] {m : Manager} {c c' : Cache} {f : FillReport} {o : OrderStatusReport}
  {a : AccountID} {i : OrderID} {fs : List FillReport}

/-! ### One fill counted -/

/-- The order with one more fill, as the cache stores it. -/
def counted (o : OrderStatusReport) (f : FillReport) : OrderStatusReport :=
  normalizeOrder (addFill o f)

theorem afterFill_eq (c : Cache) (o : OrderStatusReport) (f : FillReport) :
    afterFill c o f = (c.insertFill f).storeOrder (counted o f) := rfl

section Counted

variable (o : OrderStatusReport) (f : FillReport)

@[simp] theorem counted_accountID : (counted o f).accountID = o.accountID :=
  normalizeOrder_accountID _

@[simp] theorem counted_orderID : (counted o f).orderID = o.orderID :=
  normalizeOrder_orderID _

@[simp] theorem counted_clientOrderID : (counted o f).clientOrderID = o.clientOrderID :=
  normalizeOrder_clientOrderID _

@[simp] theorem counted_venueOrderID : (counted o f).venueOrderID = o.venueOrderID :=
  normalizeOrder_venueOrderID _

@[simp] theorem counted_quantity : (counted o f).quantity = o.quantity :=
  normalizeOrder_quantity _

end Counted

theorem counted_filledQuantity (ho : o.WellFormed) (hf : f.WellFormed) :
    (counted o f).filledQuantity = o.filledQuantity + f.quantity :=
  filledQuantity_addFill ho.filled_nonneg hf le_rfl

/-- The fill does not exceed the order's quantity, if there is one. -/
def Fits (o : OrderStatusReport) (f : FillReport) : Prop :=
  0 < o.quantity → o.filledQuantity + f.quantity ≤ o.quantity

instance (o : OrderStatusReport) (f : FillReport) : Decidable (Fits o f) := by
  unfold Fits; infer_instance

theorem addFill_wellFormed (ho : o.WellFormed) (hf : f.WellFormed) (hfits : Fits o f) :
    (addFill o f).WellFormed := by
  have hfilled : 0 ≤ o.filledQuantity + f.quantity :=
    add_nonneg ho.filled_nonneg hf.quantity_pos.le
  obtain ⟨h1, h2, h3, h4, h5, h6, h7, h8, h9, h10, h11⟩ := ho
  refine ⟨h1, h2, ?_, h4, h5, h6, h7, hfilled, h9, ?_, hfits⟩
  · dsimp only [addFill]
    split_ifs <;> simp
  · dsimp only [addFill]
    split_ifs
    · exact le_max_right ..
    · exact h10

theorem counted_wellFormed (ho : o.WellFormed) (hf : f.WellFormed) (hfits : Fits o f) :
    (counted o f).WellFormed :=
  normalizeOrder_wellFormed (addFill_wellFormed ho hf hfits)

theorem OrderAt.counted (ho : OrderAt a i o) (hf : f.WellFormed) (hfits : Fits o f) :
    OrderAt a i (counted o f) :=
  ⟨by simp [ho.accountID], by simp [ho.orderID], counted_wellFormed ho.wellFormed hf hfits⟩

theorem checkOverfill_eq_ok :
    checkOverfill m o f = .ok () ↔ Fits o f ∨ m.allowOverfills = true := by
  simp only [checkOverfill, reject_eq_ok, Fits]
  by_cases hq : 0 < o.quantity
  · by_cases hfits : o.filledQuantity + f.quantity ≤ o.quantity
    · simp [hq, hfits]
    · simp [hq, hfits, not_le.mp hfits]
  · simp [hq]

/-- A fill of a known order counts if its trade is new and it fits. -/
theorem run_applyFill_counted (hc : Consistent c) (hf : f.WellFormed)
    (ho : orderOfFill c f = some o) (hwf : o.WellFormed) (hnew : ¬ Known c f) (hfits : Fits o f) :
    (applyFill m f).run c = (.ok true, afterFill c o f) := by
  have htrade : c.fillByTradeID f.accountID f.tradeID = none :=
    Option.not_isSome_iff_eq_none.mp hnew
  have hcheck : (Prog.lift (checkOverfill m o f) : Prog Cache Err Unit).run c = (.ok (), c) := by
    rw [Prog.run_lift, checkOverfill_eq_ok.mpr (.inl hfits)]
  have hfill := putFill_of_new hf (get_fillKey_of_trade_new hc htrade)
  rw [run_applyFill hf, htrade, ho]
  change (applyKnownFill m o f).run c = _
  rw [applyKnownFill, Prog.run_bind_ok hcheck, Prog.run_bind_ok (Prog.run_step_ok hfill)]
  simp only [if_true]
  rw [Prog.run_bind_ok (run_putOrder (counted_wellFormed hwf hf hfits))]
  rfl

/-- A fill that does not fit is refused. If overfills are allowed it is stored
nevertheless, and only the order is left alone. -/
theorem run_applyFill_overfill (hc : Consistent c) (hf : f.WellFormed)
    (ho : orderOfFill c f = some o) (hwf : o.WellFormed) (hnew : ¬ Known c f)
    (hfits : ¬ Fits o f) : ∃ e, (applyFill m f).run c =
      (.error e, if m.allowOverfills then c.insertFill f else c) := by
  have htrade : c.fillByTradeID f.accountID f.tradeID = none :=
    Option.not_isSome_iff_eq_none.mp hnew
  rw [run_applyFill hf, htrade, ho]
  change ∃ e, (applyKnownFill m o f).run c = _
  unfold applyKnownFill
  by_cases hallow : m.allowOverfills = true
  · have hcheck : (Prog.lift (checkOverfill m o f) : Prog Cache Err Unit).run c =
        (.ok (), c) := by
      rw [Prog.run_lift, checkOverfill_eq_ok.mpr (.inr hallow)]
    have hfill := putFill_of_new hf (get_fillKey_of_trade_new hc htrade)
    rw [Prog.run_bind_ok hcheck, Prog.run_bind_ok (Prog.run_step_ok hfill), if_pos hallow]
    simp only [if_true]
    -- the cache does not store an order that is filled beyond its quantity
    cases hput : (c.insertFill f).putOrder (addFill o f) with
    | error e => exact ⟨e, by rw [Prog.run_bind_error (Prog.run_update_error hput)]⟩
    | ok c₁ =>
      have hle := (putOrder_eq_ok.mp hput).1.filled_le
      rw [filledQuantity_addFill hwf.filled_nonneg hf le_rfl, normalizeOrder_quantity] at hle
      exact absurd hle hfits
  · cases hcheck : checkOverfill m o f with
    | ok u => exact absurd (checkOverfill_eq_ok.mp hcheck) (by simp [hfits, hallow])
    | error e => exact ⟨e, by rw [Prog.run_bind_error (Prog.run_lift ..), if_neg hallow]⟩

/-! ### What counting a fill leaves alone -/

theorem order_afterFill_other {j : OrderID} {b : AccountID} (hc : Consistent c)
    (ho : c.order o.accountID o.orderID = some o) (hne : (b, j) ≠ (o.accountID, o.orderID)) :
    (afterFill c o f).order b j = c.order b j := by
  have hstored : (c.insertFill f).orders.get ((counted o f).accountID, (counted o f).orderID) =
      some o := by
    rw [counted_accountID, counted_orderID]
    exact ho
  have hother : (b, j) ≠ ((counted o f).accountID, (counted o f).orderID) := by
    rwa [counted_accountID, counted_orderID]
  exact order_storeOrder_version (hc.insertFill f).orders hstored (counted_clientOrderID o f)
    (counted_venueOrderID o f) hother

theorem known_insertFill {g : FillReport} : Known (c.insertFill f) g ↔
    (g.accountID = f.accountID ∧ g.tradeID = f.tradeID) ∨ Known c g := by
  change ((c.fillTrades.put (f.accountID, f.tradeID) f).get (g.accountID, g.tradeID)).isSome ↔ _
  rw [OrdMap.get_put]
  by_cases heq : (g.accountID, g.tradeID) = (f.accountID, f.tradeID)
  · simp [Prod.mk.inj heq]
  · rw [if_neg heq]
    rw [Prod.mk.injEq] at heq
    simp [heq, Known, fillByTradeID]

theorem known_afterFill {g : FillReport} : Known (afterFill c o f) g ↔
    (g.accountID = f.accountID ∧ g.tradeID = f.tradeID) ∨ Known c g := by
  rw [afterFill_eq, known_storeOrder, known_insertFill]

@[simp] theorem deferredFills_afterFill : (afterFill c o f).deferredFills = c.deferredFills :=
  deferredFills_storeOrder ..

@[simp] theorem fills_afterFill : (afterFill c o f).fills = c.fills.put (fillKey f) f :=
  fills_storeOrder ..

/-! ### Several fills -/

/-- The fills whose trade is not stored yet. -/
def newFills (c : Cache) (fs : List FillReport) : List FillReport :=
  fs.filter fun f => ¬ Known c f

/-- The fills that count: all before the first that does not fit. -/
def fitting (o : OrderStatusReport) : List FillReport → List FillReport
  | [] => []
  | f :: fs => if Fits o f then f :: fitting (counted o f) fs else []

/-- The cache after counting some fills of an order. -/
def countAll (c : Cache) (o : OrderStatusReport) : List FillReport → Cache
  | [] => c
  | f :: fs => countAll (afterFill c o f) (counted o f) fs

/-- The order after some fills. -/
def countedAll (o : OrderStatusReport) (fs : List FillReport) : OrderStatusReport :=
  fs.foldl counted o

/-- A replay of the new fills `fs` ended with `r` in `c'`. -/
structure Replayed (m : Manager) (c : Cache) (o : OrderStatusReport) (fs : List FillReport)
    (r : Except Err Unit) (c' : Cache) : Prop where
  ok : r = .ok () ↔ fitting o fs = fs
  cache : (r = .ok () ∨ m.allowOverfills = false) ∧ c' = countAll c o (fitting o fs) ∨
    r ≠ .ok () ∧ m.allowOverfills = true ∧
      ∃ f ∈ fs, c' = (countAll c o (fitting o fs)).insertFill f

theorem newFills_afterFill (h : ∀ g ∈ fs, g.tradeID ≠ f.tradeID) :
    newFills (afterFill c o f) fs = newFills c fs := by
  refine List.filter_congr fun g hg => ?_
  have hsame : Known (afterFill c o f) g ↔ Known c g := by
    rw [known_afterFill]
    exact ⟨fun h' => h'.resolve_left fun h'' => h g hg h''.2, .inr⟩
  simp only [hsame]

/-- The loop over the waiting fills of a stored order. -/
theorem replayed_forEach_applyFill (m : Manager) (ht : TradesOf a i fs) :
    ∀ {c : Cache} {o : OrderStatusReport}, Consistent c → OrderAt a i o → c.order a i = some o →
      ∃ r c', (Prog.forEach (fun f => do let _ ← applyFill m f) fs : Prog Cache Err Unit).run c =
        (r, c') ∧ Replayed m c o (newFills c fs) r c' := by
  induction fs with
  | nil =>
    intro c o _ _ _
    exact ⟨.ok (), c, rfl, ⟨by simp [newFills, fitting], .inl ⟨.inl rfl, rfl⟩⟩⟩
  | cons f fs ih =>
    intro c o hc hat ho
    have hf := ht.wellFormed f List.mem_cons_self
    have hdistinct := List.nodup_cons.mp ht.distinct
    have hrest : TradesOf a i fs :=
      ⟨fun g hg => ht.wellFormed g (List.mem_cons_of_mem f hg),
        fun g hg => ht.accountID g (List.mem_cons_of_mem f hg),
        fun g hg => ht.orderID g (List.mem_cons_of_mem f hg), hdistinct.2⟩
    have horder : orderOfFill c f = some o := by
      rw [orderOfFill, ht.accountID f List.mem_cons_self, ht.orderID f List.mem_cons_self, ho]
    rw [Prog.forEach_cons]
    by_cases hknown : Known c f
    · have hbody : (do let _ ← applyFill m f : Prog Cache Err Unit).run c = (.ok (), c) := by
        rw [Prog.run_bind_ok (run_applyFill_known hf hknown)]
        rfl
      have hnews : newFills c (f :: fs) = newFills c fs := by
        simp [newFills, hknown]
      rw [Prog.run_bind_ok hbody, hnews]
      exact ih hrest hc hat ho
    have hnews : newFills c (f :: fs) = f :: newFills c fs := by
      simp [newFills, hknown]
    rw [hnews]
    by_cases hfits : Fits o f
    · have hrun := run_applyFill_counted (m := m) hc hf horder hat.wellFormed hknown hfits
      have hbody : (do let _ ← applyFill m f : Prog Cache Err Unit).run c =
          (.ok (), afterFill c o f) := by
        rw [Prog.run_bind_ok hrun]
        rfl
      have hat' := OrderAt.counted hat hf hfits
      have hnext : (afterFill c o f).order a i = some (counted o f) := by
        rw [← hat.accountID, ← hat.orderID]
        exact order_afterFill_self c o f
      obtain ⟨r, c', hloop, hreplayed⟩ :=
        ih hrest (consistent_afterFill hc hat'.wellFormed) hat' hnext
      have htrades : ∀ g ∈ fs, g.tradeID ≠ f.tradeID := fun g hg heq =>
        hdistinct.1 (List.mem_map.mpr ⟨g, hg, heq⟩)
      rw [newFills_afterFill htrades] at hreplayed
      rw [Prog.run_bind_ok hbody, hloop]
      refine ⟨r, c', rfl, ?_, ?_⟩
      · rw [hreplayed.ok, fitting, if_pos hfits, List.cons.injEq]
        simp
      · rw [fitting, if_pos hfits]
        obtain hcache | ⟨hr, hallow, g, hg, hcache⟩ := hreplayed.cache
        · exact .inl hcache
        · exact .inr ⟨hr, hallow, g, List.mem_cons_of_mem f hg, hcache⟩
    · obtain ⟨e, hrun⟩ := run_applyFill_overfill (m := m) hc hf horder hat.wellFormed hknown hfits
      have hbody : (do let _ ← applyFill m f : Prog Cache Err Unit).run c =
          (.error e, if m.allowOverfills then c.insertFill f else c) :=
        Prog.run_bind_error hrun
      rw [Prog.run_bind_error hbody]
      refine ⟨_, _, rfl, ?_, ?_⟩
      · simp [fitting, hfits]
      · rw [fitting, if_neg hfits]
        by_cases hallow : m.allowOverfills = true
        · exact .inr ⟨by simp, hallow, f, List.mem_cons_self, by rw [if_pos hallow]; rfl⟩
        · exact .inl ⟨.inr (by simpa using hallow), by rw [if_neg hallow]; rfl⟩

/-! ### The fills that count -/

theorem fitting_subset : ∀ f ∈ fitting o fs, f ∈ fs := by
  induction fs generalizing o with
  | nil => simp [fitting]
  | cons g fs ih =>
    intro f hf
    rw [fitting] at hf
    split at hf
    · rcases List.mem_cons.mp hf with rfl | hf
      · exact List.mem_cons_self
      · exact List.mem_cons_of_mem g (ih f hf)
    · cases hf

/-- Everything counts exactly when there is room for the total. -/
theorem fitting_eq_self_iff (hfs : ∀ f ∈ fs, f.WellFormed) :
    ∀ {o : OrderStatusReport}, o.WellFormed →
      (fitting o fs = fs ↔ (0 < o.quantity → o.filledQuantity + totalQuantity fs ≤ o.quantity)) := by
  induction fs with
  | nil =>
    intro o ho
    simpa [fitting] using ho.filled_le
  | cons f fs ih =>
    intro o ho
    have hf := hfs f List.mem_cons_self
    have hrest : ∀ g ∈ fs, g.WellFormed := fun g hg => hfs g (List.mem_cons_of_mem f hg)
    have htotal := totalQuantity_nonneg hrest
    rw [fitting, totalQuantity_cons]
    split
    · next hfits =>
        have hnext := ih hrest (counted_wellFormed ho hf hfits)
        rw [counted_quantity, counted_filledQuantity ho hf] at hnext
        simp only [List.cons.injEq, true_and, hnext, add_assoc]
    · next hfits =>
        refine ⟨fun h => by simp at h, fun h => absurd (fun hq => ?_) hfits⟩
        linarith [h hq]

/-- What the counted fills add up to. -/
theorem filledQuantity_countedAll (hfs : ∀ f ∈ fs, f.WellFormed) :
    ∀ {o : OrderStatusReport}, o.WellFormed →
      (countedAll o (fitting o fs)).filledQuantity =
        o.filledQuantity + totalQuantity (fitting o fs) := by
  induction fs with
  | nil => simp [fitting, countedAll]
  | cons f fs ih =>
    intro o ho
    have hf := hfs f List.mem_cons_self
    rw [fitting]
    split
    · next hfits =>
        have hnext := ih (fun g hg => hfs g (List.mem_cons_of_mem f hg))
          (counted_wellFormed ho hf hfits)
        rw [counted_filledQuantity ho hf] at hnext
        rw [totalQuantity_cons, ← add_assoc, ← hnext]
        rfl
    · simp [countedAll]

theorem quantity_countedAll (o : OrderStatusReport) (fs : List FillReport) :
    (countedAll o fs).quantity = o.quantity :=
  List.foldlRecOn (motive := fun o' => o'.quantity = o.quantity) fs counted rfl
    fun o' h f _ => (counted_quantity o' f).trans h

/-- Counting fills of a stored order touches this order only. -/
structure Counts (c : Cache) (o : OrderStatusReport) (fs : List FillReport) (c' : Cache) :
    Prop where
  consistent : Consistent c'
  order : c'.order o.accountID o.orderID = some (countedAll o fs)
  others : ∀ b j, (b, j) ≠ (o.accountID, o.orderID) → c'.order b j = c.order b j
  deferred : c'.deferredFills = c.deferredFills
  fills : c'.fills = fs.foldl (fun fills f => fills.put (fillKey f) f) c.fills

theorem counts_countAll (hfs : ∀ f ∈ fs, f.WellFormed) :
    ∀ {c : Cache} {o : OrderStatusReport}, Consistent c → o.WellFormed →
      c.order o.accountID o.orderID = some o →
      Counts c o (fitting o fs) (countAll c o (fitting o fs)) := by
  induction fs with
  | nil => exact fun hc _ ho => ⟨hc, ho, fun _ _ _ => rfl, rfl, rfl⟩
  | cons f fs ih =>
    intro c o hc hwf ho
    have hf := hfs f List.mem_cons_self
    rw [fitting]
    split
    · next hfits =>
        have hwf' := counted_wellFormed hwf hf hfits
        have hself := order_afterFill_self c o f
        obtain ⟨h1, h2, h3, h4, h5⟩ := ih (fun g hg => hfs g (List.mem_cons_of_mem f hg))
          (consistent_afterFill hc hwf') hwf'
          (by rw [counted_accountID, counted_orderID]; exact hself)
        rw [counted_accountID, counted_orderID] at h2 h3
        refine ⟨h1, h2, fun b j hne => (h3 b j hne).trans (order_afterFill_other hc ho hne),
          h4.trans deferredFills_afterFill, ?_⟩
        rw [fills_afterFill] at h5
        exact h5
    · exact ⟨hc, ho, fun _ _ _ => rfl, rfl, rfl⟩

/-- Counting fills makes their trades known. -/
theorem known_countAll {g : FillReport} : ∀ {c : Cache} {o : OrderStatusReport},
    Known (countAll c o fs) g ↔
      (∃ f ∈ fs, g.accountID = f.accountID ∧ g.tradeID = f.tradeID) ∨ Known c g := by
  induction fs with
  | nil => simp [countAll]
  | cons f fs ih =>
    intro c o
    rw [countAll, ih, known_afterFill, List.exists_mem_cons_iff, ← or_assoc]
    exact or_congr_left or_comm

/-! ### An order report and the fills that waited for it -/

theorem tradesOf_deferred (hc : Consistent c) : TradesOf a i (c.deferredFillsForOrder a i) := by
  refine ⟨fun f hf => (wellFormed_of_deferred hc hf).1,
    fun f hf => (wellFormed_of_deferred hc hf).2.1,
    fun f hf => (wellFormed_of_deferred hc hf).2.2, ?_⟩
  -- the trade ids are the keys of the row
  have hkeys : (c.deferredFills.row (a, i)).map (·.tradeID) = c.deferredFills.rowKeys (a, i) := by
    rw [OrdMap.row, OrdMap.rowKeys, List.map_map]
    refine List.map_congr_left fun e he => ?_
    have hkey := (hc.keyed.deferred e.1 e.2 (OrdMap.mem_rowEntries.mp he).2).1
    exact congrArg Prod.snd hkey
  have hnodup : (c.deferredFills.rowKeys (a, i)).Nodup :=
    (c.deferredFills.rowKeys_pairwise (a, i)).imp fun hlt heq => by
      rw [heq] at hlt
      simp at hlt
  rw [← hkeys] at hnodup
  exact (((List.perm_insertionSort fillLE _).map _).nodup_iff).mpr hnodup

/-- The fills that a report of the order will count if there is room for them. -/
def waiting (c : Cache) (a : AccountID) (i : OrderID) : List FillReport :=
  newFills c (c.deferredFillsForOrder a i)

theorem waiting_wellFormed (hc : Consistent c) : ∀ f ∈ waiting c a i, f.WellFormed :=
  fun _ hf => (wellFormed_of_deferred hc (List.mem_filter.mp hf).1).1

/-- Counting them on the stored report. -/
theorem counts_waiting (hc : Consistent c) (ho : o.WellFormed) :
    Counts (c.storeOrder (normalizeOrder o)) (normalizeOrder o)
      (fitting (normalizeOrder o) (waiting c o.accountID o.orderID))
      (countAll (c.storeOrder (normalizeOrder o)) (normalizeOrder o)
        (fitting (normalizeOrder o) (waiting c o.accountID o.orderID))) := by
  have hwf := normalizeOrder_wellFormed ho
  exact counts_countAll (waiting_wellFormed (a := o.accountID) (i := o.orderID) hc)
    (hc.storeOrder hwf.orderID_ne) hwf (order_storeOrder_self c (normalizeOrder o))

theorem newFills_storeOrder : newFills (c.storeOrder o) fs = newFills c fs :=
  List.filter_congr fun f _ => by simp only [known_storeOrder]

/-- The report is valid and contradicts no terminal status. -/
structure Accepts (c : Cache) (o : OrderStatusReport) : Prop where
  wellFormed : o.WellFormed
  agrees : ∀ e, c.order o.accountID o.orderID = some e → ¬ Contradicts e o

/-- Any other report is refused and changes nothing. -/
theorem run_applyOrderReport_refused (h : ¬ Accepts c o) :
    ∃ err, (applyOrderReport m o).run c = (.error err, c) := by
  unfold applyOrderReport
  cases hvalid : o.validate with
  | error err => exact ⟨err, Prog.run_bind_error (Prog.run_lift ..)⟩
  | ok u =>
    rw [Prog.run_bind_ok (Prog.run_lift ..), Prog.run_get_bind]
    cases hcheck : checkTransition (c.order o.accountID o.orderID) o with
    | error err => exact ⟨err, Prog.run_bind_error (Prog.run_lift ..)⟩
    | ok u =>
      exact absurd ⟨OrderStatusReport.validate_eq_ok.mp hvalid,
        checkTransition_eq_ok.mp hcheck⟩ h

/-- An accepted report is stored and then the waiting fills are counted. They
stay deferred if one of them does not fit. -/
theorem run_applyOrderReport_replay (m : Manager) (hc : Consistent c) (h : Accepts c o) :
    ∃ r c₁, Replayed m (c.storeOrder (normalizeOrder o)) (normalizeOrder o)
        (waiting c o.accountID o.orderID) r c₁ ∧
      (applyOrderReport m o).run c =
        (r, match r with
          | .ok _ => c₁.clearDeferredFillsForOrder o.accountID o.orderID
          | .error _ => c₁) := by
  have hvalid : (Prog.lift o.validate : Prog Cache Err Unit).run c = (.ok (), c) := by
    rw [Prog.run_lift, OrderStatusReport.validate_eq_ok.mpr h.wellFormed]
  have hcheck : (Prog.lift (checkTransition (c.order o.accountID o.orderID) o) :
      Prog Cache Err Unit).run c = (.ok (), c) := by
    rw [Prog.run_lift, checkTransition_eq_ok.mpr h.agrees]
  have hwf := normalizeOrder_wellFormed h.wellFormed
  have hat : OrderAt o.accountID o.orderID (normalizeOrder o) :=
    ⟨normalizeOrder_accountID o, normalizeOrder_orderID o, hwf⟩
  obtain ⟨r, c₁, hloop, hreplayed⟩ := replayed_forEach_applyFill m
    (tradesOf_deferred (a := o.accountID) (i := o.orderID) hc)
    (hc.storeOrder (o := normalizeOrder o) hwf.orderID_ne) hat (order_storeOrder_normalize c o)
  rw [newFills_storeOrder] at hreplayed
  refine ⟨r, c₁, hreplayed, ?_⟩
  rw [applyOrderReport, Prog.run_bind_ok hvalid, Prog.run_get_bind, Prog.run_bind_ok hcheck,
    Prog.run_bind_ok (run_putOrder hwf), run_replayDeferredFills,
    deferredFillsForOrder_storeOrder]
  cases r with
  | ok u => rw [Prog.run_bind_ok hloop, Prog.run_modify]
  | error e => rw [Prog.run_bind_error hloop]

/-- A report succeeds when it is accepted and there is room for all the fills
that waited for it. -/
theorem run_applyOrderReport_eq_ok (hc : Consistent c) :
    (applyOrderReport m o).run c = (.ok (), c') ↔
      Accepts c o ∧
        fitting (normalizeOrder o) (waiting c o.accountID o.orderID) =
          waiting c o.accountID o.orderID ∧
        c' = (countAll (c.storeOrder (normalizeOrder o)) (normalizeOrder o)
          (waiting c o.accountID o.orderID)).clearDeferredFillsForOrder o.accountID o.orderID := by
  by_cases h : Accepts c o
  · obtain ⟨r, c₁, hreplayed, hrun⟩ := run_applyOrderReport_replay m hc h
    rw [hrun]
    constructor
    · intro heq
      cases heq
      have hall := hreplayed.ok.mp rfl
      obtain ⟨-, rfl⟩ | ⟨hr, -⟩ := hreplayed.cache
      · exact ⟨h, hall, by rw [hall]⟩
      · exact absurd rfl hr
    · rintro ⟨-, hall, rfl⟩
      obtain rfl := hreplayed.ok.mpr hall
      obtain ⟨-, rfl⟩ | ⟨hr, -⟩ := hreplayed.cache
      · rw [hall]
      · exact absurd rfl hr
  · obtain ⟨err, hrun⟩ := run_applyOrderReport_refused (m := m) h
    rw [hrun]
    exact iff_of_false (by simp) fun heq => h heq.1

end Exchanges.Execution
