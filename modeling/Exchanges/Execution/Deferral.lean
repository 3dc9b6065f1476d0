import Exchanges.Execution.OrderHistory

/-!
Fills that come before their order.

They are deferred and wait for a report of the order whose id they carry. Two
questions are answered here: what a report leaves behind when the waiting fills
do not all fit, and for which fills it makes no difference that they come before
the report and not after it.
-/

namespace Exchanges.Execution

open Exchanges.Lib Exchanges.Model Exchanges.Cache
open Exchanges.Account (totalQuantity totalQuantity_cons totalQuantity_perm)

set_option linter.unusedSectionVars false

section Failure

variable [DecimalPackage] {m : Manager} {c c' : Cache} {o : OrderStatusReport}

/-- A report that fails has not changed the cache, and a report of the same
order that would have succeeded still does. -/
def FailsCleanly (m : Manager) (c : Cache) (o : OrderStatusReport) : Prop :=
  ∀ err c', (applyOrderReport m o).run c = (.error err, c') →
    c' = c ∧ ∀ o' c₁, o'.accountID = o.accountID → o'.orderID = o.orderID →
      (applyOrderReport m o').run c = (.ok (), c₁) →
      ∃ c₂, (applyOrderReport m o').run c' = (.ok (), c₂)

/-- The order has room for all the fills that wait for it. -/
def HasRoom (c : Cache) (o : OrderStatusReport) : Prop :=
  0 < o.quantity → (normalizeOrder o).filledQuantity +
    totalQuantity (waiting c o.accountID o.orderID) ≤ o.quantity

/-- The report is already stored as it is, and is refused at the first waiting
fill. -/
def Repeats (m : Manager) (c : Cache) (o : OrderStatusReport) : Prop :=
  c.order o.accountID o.orderID = some (normalizeOrder o) ∧ m.allowOverfills = false ∧
    fitting (normalizeOrder o) (waiting c o.accountID o.orderID) = []

theorem hasRoom_iff (hc : Consistent c) (ho : o.WellFormed) :
    HasRoom c o ↔ fitting (normalizeOrder o) (waiting c o.accountID o.orderID) =
      waiting c o.accountID o.orderID := by
  rw [fitting_eq_self_iff (waiting_wellFormed hc) (normalizeOrder_wellFormed ho), HasRoom,
    normalizeOrder_quantity]

/-- A report that is accepted and fails has changed the cache, unless it only
repeated what was stored. -/
theorem eq_of_replay_error {r : Except Err Unit}
    (hreplayed : Replayed m (c.storeOrder (normalizeOrder o)) (normalizeOrder o)
      (waiting c o.accountID o.orderID) r c) (hr : r ≠ .ok ()) : Repeats m c o := by
  have hunknown : ∀ f ∈ waiting c o.accountID o.orderID, ¬ Known c f := fun f hf => by
    simpa using (List.mem_filter.mp hf).2
  -- a counted or stored fill would be known
  obtain ⟨hallow, hcache⟩ | ⟨-, -, f, hf, hcache⟩ := hreplayed.cache
  · have hnone : fitting (normalizeOrder o) (waiting c o.accountID o.orderID) = [] := by
      refine List.eq_nil_iff_forall_not_mem.mpr fun f hf => hunknown f (fitting_subset f hf) ?_
      rw [hcache]
      exact known_countAll.mpr (.inl ⟨f, hf, rfl, rfl⟩)
    rw [hnone] at hcache
    refine ⟨?_, hallow.resolve_left hr, hnone⟩
    rw [hcache]
    exact order_storeOrder_normalize c o
  · refine absurd ?_ (hunknown f hf)
    rw [hcache]
    exact known_insertFill.mpr (.inl ⟨rfl, rfl⟩)

/-- Exactly when a failing report leaves the cache as it was. -/
theorem fails_cleanly_iff (hc : Reachable c) :
    FailsCleanly m c o ↔ ¬ Accepts c o ∨ HasRoom c o ∨ Repeats m c o := by
  have hcons := hc.consistent
  constructor
  · intro hclean
    by_cases haccepts : Accepts c o
    · refine .inr ?_
      obtain ⟨r, c₁, hreplayed, hrun⟩ := run_applyOrderReport_replay m hcons haccepts
      cases r with
      | ok u =>
        exact .inl ((hasRoom_iff hcons haccepts.wellFormed).mpr (hreplayed.ok.mp rfl))
      | error err =>
        obtain ⟨rfl, -⟩ := hclean err c₁ hrun
        exact .inr (eq_of_replay_error hreplayed (by simp))
    · exact .inl haccepts
  · intro hcond err c' hfail
    have hsame : c' = c := by
      by_cases haccepts : Accepts c o
      · obtain ⟨r, c₁, hreplayed, hrun⟩ := run_applyOrderReport_replay m hcons haccepts
        obtain ⟨rfl, rfl⟩ : r = .error err ∧ c' = c₁ := by
          rw [hrun] at hfail
          cases r with
          | ok u => cases hfail
          | error e =>
            cases hfail
            exact ⟨rfl, rfl⟩
        obtain hroom | ⟨hstored, hallow, hnone⟩ := hcond.resolve_left (not_not_intro haccepts)
        · cases hreplayed.ok.mpr ((hasRoom_iff hcons haccepts.wellFormed).mp hroom)
        · obtain ⟨-, rfl⟩ | ⟨-, hallow', -⟩ := hreplayed.cache
          · rw [hnone]
            refine storeOrder_eq_self hcons.orders ?_
            rw [normalizeOrder_accountID, normalizeOrder_orderID]
            exact hstored
          · rw [hallow] at hallow'
            cases hallow'
      · obtain ⟨e, hrun⟩ := run_applyOrderReport_refused (m := m) haccepts
        rw [hrun] at hfail
        cases hfail
        rfl
    rw [hsame]
    exact ⟨rfl, fun o' c₁ _ _ hok => ⟨c₁, hok⟩⟩

end Failure

/-- A fill of 12 that waits for its order. -/
def waitingFill : FillReport := { Account.sampleFill1 with quantity := 12 }

def waitingCache : Cache := @afterCall exactDecimals {} new (.fill waitingFill)

theorem reachable_waitingCache : Reachable waitingCache :=
  let _ : DecimalPackage := exactDecimals
  reachable_afterCall .new _

theorem fails_cleanly_iff_sample :
    @FailsCleanly exactDecimals {} waitingCache { Account.sampleReport with quantity := 12 } := by
  let _ : DecimalPackage := exactDecimals
  refine (fails_cleanly_iff reachable_waitingCache).mpr (.inr (.inl ?_))
  unfold HasRoom
  decide +kernel

/-- A report of a canceled order of 10 fails for the waiting fill of 12, but the
order is stored as canceled. A report of an open order of 12, which would have
succeeded, then fails too. -/
theorem failed_report_stays :
    ¬ @FailsCleanly exactDecimals {} waitingCache
        { Account.sampleReport with status := .canceled } ∧
      ((@applyOrderReport exactDecimals {} { Account.sampleReport with quantity := 12 }).run
        waitingCache).1 = .ok () ∧
      ((@applyOrderReport exactDecimals {} { Account.sampleReport with quantity := 12 }).run
        (@afterCall exactDecimals {} waitingCache
          (.report { Account.sampleReport with status := .canceled }))).1 ≠ .ok () := by
  let _ : DecimalPackage := exactDecimals
  refine ⟨fun hclean => ?_, by decide +kernel, by decide +kernel⟩
  have hfail : ((applyOrderReport {} { Account.sampleReport with status := .canceled }).run
      waitingCache).1 ≠ .ok () := by decide +kernel
  match hrun : (applyOrderReport {} { Account.sampleReport with status := .canceled }).run
      waitingCache with
  | (.ok (), c') => exact hfail (by rw [hrun])
  | (.error err, c') =>
    have hsame := congrArg (fun c => (c.order "acct" "order-1").isSome)
      (hclean err c' hrun).1
    have hstored : (c'.order "acct" "order-1").isSome = true := by
      have hafter := congrArg (fun r => (r.2.order "acct" "order-1").isSome) hrun
      rw [← hafter]
      decide +kernel
    rw [hstored] at hsame
    revert hsame
    decide +kernel

/-! ### The report first or the fill first -/

section Order

variable [DecimalPackage] {m : Manager} {c c₀ c₁ c' : Cache} {f : FillReport}
  {o : OrderStatusReport}

/-- The fill is applied to the reported order when the report comes first. -/
structure AppliedAfter (m : Manager) (o : OrderStatusReport) (f : FillReport)
    (c c₀ c₁ : Cache) : Prop where
  report : (applyOrderReport m o).run c = (.ok (), c₀)
  found : orderOfFill c₀ f = c₀.order o.accountID o.orderID
  fill : (applyFill m f).run c₀ = (.ok true, c₁)

/-- The fill first and the report second end as `c₁` does: the order is filled
alike, the same fills are stored, and none is left deferred for the fill's
order. -/
def EndsAlike (m : Manager) (o : OrderStatusReport) (f : FillReport) (c c₁ : Cache) : Prop :=
  ∃ applied c' c₂, (applyFill m f).run c = (.ok applied, c') ∧
    (applyOrderReport m o).run c' = (.ok (), c₂) ∧
    (c₂.order o.accountID o.orderID).map (·.filledQuantity) =
      (c₁.order o.accountID o.orderID).map (·.filledQuantity) ∧
    c₂.fills = c₁.fills ∧ c₂.deferredFillsForOrder f.accountID f.orderID = []

/-- What the cache holds after a report that succeeded. -/
structure Settled (o : OrderStatusReport) (c c₀ : Cache) : Prop where
  accepts : Accepts c o
  all : fitting (normalizeOrder o) (waiting c o.accountID o.orderID) =
    waiting c o.accountID o.orderID
  consistent : Consistent c₀
  order : c₀.order o.accountID o.orderID =
    some (countedAll (normalizeOrder o) (waiting c o.accountID o.orderID))
  wellFormed : (countedAll (normalizeOrder o) (waiting c o.accountID o.orderID)).WellFormed
  filled : (countedAll (normalizeOrder o) (waiting c o.accountID o.orderID)).filledQuantity =
    (normalizeOrder o).filledQuantity + totalQuantity (waiting c o.accountID o.orderID)
  fills : c₀.fills = (waiting c o.accountID o.orderID).foldl
    (fun fills f => fills.put (fillKey f) f) c.fills
  known : ∀ g, Known c₀ g ↔ (∃ f ∈ waiting c o.accountID o.orderID,
    g.accountID = f.accountID ∧ g.tradeID = f.tradeID) ∨ Known c g
  deferred : c₀.deferredFills = c.deferredFills.deleteRow (o.accountID, o.orderID)

theorem settled_of_ok (hc : Reachable c) (hrun : (applyOrderReport m o).run c = (.ok (), c₀)) :
    Settled o c c₀ := by
  have hreach : Reachable c₀ := keeps_reachable_applyOrderReport.of_run hrun hc
  obtain ⟨haccepts, hall, rfl⟩ := (run_applyOrderReport_eq_ok hc.consistent).mp hrun
  have hwf := normalizeOrder_wellFormed haccepts.wellFormed
  have hcounts := counts_waiting hc.consistent haccepts.wellFormed
  have hfilled := filledQuantity_countedAll
    (waiting_wellFormed (a := o.accountID) (i := o.orderID) hc.consistent) hwf
  rw [hall] at hcounts hfilled
  have horder := hcounts.order
  rw [normalizeOrder_accountID, normalizeOrder_orderID] at horder
  refine ⟨haccepts, hall, hreach.consistent, horder, ?_, hfilled, ?_, fun g => ?_, ?_⟩
  · exact hreach.validated.orders (o.accountID, o.orderID) _ horder
  · exact hcounts.fills.trans (by rw [fills_storeOrder])
  · change Known (countAll _ _ _) g ↔ _
    rw [known_countAll, known_storeOrder]
  · change OrdMap.deleteRow (countAll _ _ _).deferredFills _ = _
    rw [hcounts.deferred, deferredFills_storeOrder]

theorem accountID_of_orderOfFill {e : OrderStatusReport} (hc : OrdersIndexed c)
    (he : orderOfFill c f = some e) : e.accountID = f.accountID := by
  unfold orderOfFill at he
  split at he
  · next hget =>
      cases he
      exact (hc.keyed _ _ _ hget).1
  · split at he
    · obtain ⟨j, -, hget⟩ := Option.bind_eq_some_iff.mp he
      exact (hc.keyed _ _ _ hget).1
    · cases he

/-- The fill was new before the report, also among the waiting fills, and there
was room for it after them. -/
structure AppliedAfter.Spec (o : OrderStatusReport) (f : FillReport) (c c₀ c₁ : Cache) :
    Prop where
  account : f.accountID = o.accountID
  isNew : ¬ Known c f
  trade : ∀ g ∈ c.deferredFillsForOrder o.accountID o.orderID, g.tradeID ≠ f.tradeID
  fits : Fits (countedAll (normalizeOrder o) (waiting c o.accountID o.orderID)) f
  after : c₁ = afterFill c₀ (countedAll (normalizeOrder o) (waiting c o.accountID o.orderID)) f

theorem AppliedAfter.spec (hc : Reachable c) (hf : f.WellFormed)
    (h : AppliedAfter m o f c c₀ c₁) : AppliedAfter.Spec o f c c₀ c₁ := by
  have hsettled := settled_of_ok hc h.report
  have hfound := h.found.trans hsettled.order
  have haccount : f.accountID = o.accountID :=
    (accountID_of_orderOfFill hsettled.consistent.orders hfound).symm.trans
      (hsettled.consistent.orders.keyed _ _ _ hsettled.order).1
  have hnew₀ : ¬ Known c₀ f := fun hknown => by
    have hrun := h.fill
    rw [run_applyFill_known hf hknown] at hrun
    cases hrun
  have hnew : ¬ Known c f := fun hknown => hnew₀ ((hsettled.known f).mpr (.inr hknown))
  have hfits : Fits (countedAll (normalizeOrder o) (waiting c o.accountID o.orderID)) f := by
    by_contra hnot
    obtain ⟨err, hrun⟩ := run_applyFill_overfill (m := m) hsettled.consistent hf hfound
      hsettled.wellFormed hnew₀ hnot
    rw [h.fill] at hrun
    cases hrun
  refine ⟨haccount, hnew, fun g hg heq => hnew₀ ?_, hfits, ?_⟩
  · -- a waiting fill of this trade would have been counted
    have hga := (wellFormed_of_deferred hc.consistent hg).2.1.trans haccount.symm
    have hgnew : ¬ Known c g := by
      rwa [Known, hga, heq]
    refine (hsettled.known f).mpr (.inl ⟨g, ?_, hga.symm, heq.symm⟩)
    exact List.mem_filter.mpr ⟨hg, by simpa using hgnew⟩
  · have hrun := run_applyFill_counted (m := m) hsettled.consistent hf hfound hsettled.wellFormed
      hnew₀ hfits
    rw [h.fill] at hrun
    cases hrun
    rfl

/-- What the order is filled to in the end when the report comes first. -/
theorem AppliedAfter.filled (hc : Reachable c) (hf : f.WellFormed)
    (h : AppliedAfter m o f c c₀ c₁) :
    (c₁.order o.accountID o.orderID).map (·.filledQuantity) =
      some ((normalizeOrder o).filledQuantity +
        totalQuantity (waiting c o.accountID o.orderID) + f.quantity) := by
  have hsettled := settled_of_ok hc h.report
  obtain ⟨ha, hi, -⟩ := hsettled.consistent.orders.keyed _ _ _ hsettled.order
  have hself := order_afterFill_self c₀
    (countedAll (normalizeOrder o) (waiting c o.accountID o.orderID)) f
  rw [ha, hi] at hself
  have hcounted := counted_filledQuantity hsettled.wellFormed hf
  rw [hsettled.filled] at hcounted
  rw [(h.spec hc hf).after, hself, Option.map_some]
  exact congrArg some hcounted

/-! ### Fills that are deferred for the report -/

/-- The cache with one more deferred fill. -/
def afterDeferral (c : Cache) (f : FillReport) : Cache :=
  { c with deferredFills := c.deferredFills.put (fillKey f) f }

theorem putDeferredFill_of_new (hf : f.WellFormed)
    (hget : c.deferredFills.get (fillKey f) = none) :
    c.putDeferredFill f = .ok (true, afterDeferral c f) := by
  have hvalid := FillReport.validate_eq_ok.mpr hf
  simp only [Cache.putDeferredFill, hvalid, hget]
  rfl

/-- A deferred fill, or an earlier one of its key, is found under its key. -/
theorem deferred_of_deferFill {b : Bool} (hrun : (deferFill f).run c = (.ok b, c')) :
    ∃ g, c'.deferredFills.get (fillKey f) = some g := by
  unfold deferFill at hrun
  cases hput : c.putDeferredFill f with
  | error err =>
    rw [Prog.run_bind_error (Prog.run_step_error hput)] at hrun
    cases hrun
  | ok r =>
    rw [Prog.run_bind_ok (Prog.run_step_ok hput)] at hrun
    cases hrun
    simp only [Cache.putDeferredFill, except_seq_eq_ok] at hput
    obtain ⟨-, hput⟩ := hput
    split at hput
    · next g hget =>
        cases hput
        exact ⟨g, hget⟩
    · cases hput
      exact ⟨f, OrdMap.get_put_self ..⟩

section Deferred

variable (hc : Reachable c) (hf : f.WellFormed) (h : AppliedAfter m o f c c₀ c₁)
  (hid : f.orderID = o.orderID)
include hc hf h hid

theorem AppliedAfter.not_deferred : c.deferredFills.get (fillKey f) = none := by
  have hspec := h.spec hc hf
  cases hget : c.deferredFills.get (fillKey f) with
  | none => rfl
  | some g =>
    have hkey := (hc.consistent.keyed.deferred _ g hget).1
    refine absurd (congrArg Prod.snd hkey) (hspec.trade g ?_)
    refine mem_deferredFillsForOrder.mpr ⟨f.tradeID, ?_⟩
    rwa [fillKey, hspec.account, hid] at hget

/-- The fill joins the waiting ones. -/
theorem AppliedAfter.waiting_perm :
    (waiting (afterDeferral c f) o.accountID o.orderID).Perm
      (f :: waiting c o.accountID o.orderID) := by
  have hspec := h.spec hc hf
  have hget := h.not_deferred hc hf hid
  have hkey : fillKey f = ((o.accountID, o.orderID), f.tradeID) := by
    rw [fillKey, hspec.account, hid]
  rw [hkey] at hget
  have hrow := OrdMap.row_put_perm hget f
  have hlist : (sortFills ((c.deferredFills.put ((o.accountID, o.orderID), f.tradeID) f).row
      (o.accountID, o.orderID))).Perm (f :: c.deferredFillsForOrder o.accountID o.orderID) :=
    ((List.perm_insertionSort fillLE _).trans hrow).trans
      ((List.perm_insertionSort fillLE _).symm.cons f)
  have hfilter := hlist.filter (fun g => decide (¬ Known c g))
  rw [List.filter_cons_of_pos (by simpa using hspec.isNew), ← hkey] at hfilter
  exact hfilter

/-- Storing the waiting fills and then this one, or all in the order of their
times, makes no difference. -/
theorem AppliedAfter.fills_eq {fs : List FillReport}
    (hperm : fs.Perm (f :: waiting c o.accountID o.orderID)) :
    fs.foldl (fun fills f => fills.put (fillKey f) f) c.fills = c₁.fills := by
  have hspec := h.spec hc hf
  have htrades := tradesOf_deferred (a := o.accountID) (i := o.orderID) hc.consistent
  have hmem : ∀ g ∈ fs, g = f ∨ g ∈ c.deferredFillsForOrder o.accountID o.orderID := by
    intro g hg
    rcases List.mem_cons.mp (hperm.mem_iff.mp hg) with rfl | hg
    · exact .inl rfl
    · exact .inr (List.mem_filter.mp hg).1
  -- fills of the same key are the same fill
  have hkey : ∀ x ∈ fs, ∀ y ∈ fs, fillKey x = fillKey y → x = y := by
    intro x hx y hy heq
    have htrade : x.tradeID = y.tradeID := congrArg Prod.snd heq
    obtain rfl | hx := hmem x hx
    · obtain rfl | hy := hmem y hy
      · rfl
      · exact absurd htrade.symm (hspec.trade y hy)
    · obtain rfl | hy := hmem y hy
      · exact absurd htrade (hspec.trade x hx)
      · exact htrades.eq_of_tradeID hx hy htrade
  have hswap : ∀ x ∈ fs, ∀ y ∈ fs, ∀ fills : OrdMap _ FillReport,
      (fills.put (fillKey x) x).put (fillKey y) y =
        (fills.put (fillKey y) y).put (fillKey x) x := by
    intro x hx y hy fills
    by_cases heq : fillKey x = fillKey y
    · rw [hkey x hx y hy heq]
    · exact OrdMap.put_comm fills heq x y
  have hlast : fs.Perm (waiting c o.accountID o.orderID ++ [f]) :=
    hperm.trans (List.perm_append_singleton f _).symm
  rw [hlast.foldl_eq' hswap, List.foldl_concat, hspec.after, fills_afterFill,
    (settled_of_ok hc h.report).fills]

theorem AppliedAfter.endsAlike (hnone : orderOfFill c f = none) (hleg : f.isLegFill = false) :
    EndsAlike m o f c c₁ := by
  have hspec := h.spec hc hf
  have hsettled := settled_of_ok hc h.report
  have hperm := h.waiting_perm hc hf hid
  have htotal : totalQuantity (waiting (afterDeferral c f) o.accountID o.orderID) =
      f.quantity + totalQuantity (waiting c o.accountID o.orderID) :=
    totalQuantity_perm hperm
  have hput := putDeferredFill_of_new hf (h.not_deferred hc hf hid)
  have hreach : Reachable (afterDeferral c f) := .putDeferredFill hc hput
  have hfill : (applyFill m f).run c = (.ok false, afterDeferral c f) := by
    have htrade : c.fillByTradeID f.accountID f.tradeID = none :=
      Option.not_isSome_iff_eq_none.mp hspec.isNew
    rw [run_applyFill hf, htrade, hnone]
    simp only [hleg, Bool.false_eq_true, if_false, deferFill]
    rw [Prog.run_bind_ok (Prog.run_step_ok hput)]
    rfl
  have haccepts : Accepts (afterDeferral c f) o :=
    ⟨hsettled.accepts.wellFormed, hsettled.accepts.agrees⟩
  have hroom : HasRoom (afterDeferral c f) o := by
    intro hq
    have hfits := hspec.fits
    rw [Fits, quantity_countedAll, normalizeOrder_quantity, hsettled.filled] at hfits
    rw [htotal]
    linarith [hfits hq]
  obtain ⟨c₂, hreport⟩ : ∃ c₂, (applyOrderReport m o).run (afterDeferral c f) = (.ok (), c₂) :=
    ⟨_, (run_applyOrderReport_eq_ok hreach.consistent).mpr
      ⟨haccepts, (hasRoom_iff hreach.consistent haccepts.wellFormed).mp hroom, rfl⟩⟩
  have hend := settled_of_ok hreach hreport
  refine ⟨false, _, c₂, hfill, hreport, ?_, ?_, ?_⟩
  · rw [hend.order, h.filled hc hf, Option.map_some, hend.filled, htotal]
    exact congrArg some (by ring)
  · rw [hend.fills]
    exact h.fills_eq hc hf hid hperm
  · rw [deferredFillsForOrder, hend.deferred, hspec.account, hid, OrdMap.row_deleteRow_self]
    rfl

end Deferred

/-! ### Other fills -/

/-- A fill that was counted or stored before the report, but does not wait for
it, is missing from the order afterwards. -/
theorem AppliedAfter.not_filled_alike {c₂ : Cache} (hc : Reachable c) (hf : f.WellFormed)
    (h : AppliedAfter m o f c c₀ c₁) (hc' : Reachable c')
    (hdeferred : c'.deferredFills = c.deferredFills)
    (hknown : ∀ g, Known c' g → g.tradeID = f.tradeID ∨ Known c g)
    (hmono : ∀ g, Known c g → Known c' g)
    (hreport : (applyOrderReport m o).run c' = (.ok (), c₂)) :
    (c₂.order o.accountID o.orderID).map (·.filledQuantity) ≠
      (c₁.order o.accountID o.orderID).map (·.filledQuantity) := by
  have hspec := h.spec hc hf
  have hend := settled_of_ok hc' hreport
  have hwaiting : waiting c' o.accountID o.orderID = waiting c o.accountID o.orderID := by
    rw [waiting, waiting, deferredFillsForOrder, hdeferred]
    refine List.filter_congr fun g hg => ?_
    have hiff : Known c' g ↔ Known c g :=
      ⟨fun hg' => (hknown g hg').resolve_left (hspec.trade g hg), hmono g⟩
    simp only [hiff]
  rw [hend.order, h.filled hc hf, Option.map_some, hend.filled, hwaiting]
  intro heq
  have := Option.some.inj heq
  linarith [hf.quantity_pos]

/-- Exactly which fills may come before the report of their order. -/
theorem commutes_iff (hc : Reachable c) (hf : f.WellFormed) (h : AppliedAfter m o f c c₀ c₁) :
    EndsAlike m o f c c₁ ↔
      orderOfFill c f = none ∧ f.isLegFill = false ∧ f.orderID = o.orderID := by
  have hspec := h.spec hc hf
  have htrade : c.fillByTradeID f.accountID f.tradeID = none :=
    Option.not_isSome_iff_eq_none.mp hspec.isNew
  refine ⟨?_, fun ⟨hnone, hleg, hid⟩ => h.endsAlike hc hf hid hnone hleg⟩
  rintro ⟨applied, c', c₂, hfill, hreport, halike, -, hdeferred⟩
  have hc' : Reachable c' := keeps_reachable_applyFill.of_run hfill hc
  cases ho : orderOfFill c f with
  | some e =>
    have hwf := hc.validated.orders _ e (order_of_orderOfFill hc.consistent.orders ho)
    have hfits : Fits e f := by
      by_contra hnot
      obtain ⟨err, hrun⟩ :=
        run_applyFill_overfill (m := m) hc.consistent hf ho hwf hspec.isNew hnot
      rw [hfill] at hrun
      cases hrun
    rw [run_applyFill_counted hc.consistent hf ho hwf hspec.isNew hfits] at hfill
    cases hfill
    refine absurd halike (h.not_filled_alike hc hf hc' deferredFills_afterFill ?_ ?_ hreport)
    · exact fun g hg => (known_afterFill.mp hg).imp And.right id
    · exact fun g hg => known_afterFill.mpr (.inr hg)
  | none =>
    rw [run_applyFill hf, htrade, ho] at hfill
    cases hleg : f.isLegFill with
    | true =>
      simp only [hleg, if_true] at hfill
      have hput : c' = c ∨ c' = c.insertFill (withLegPositionID f) := by
        cases hput : c.putFill (withLegPositionID f) with
        | error err =>
          rw [Prog.run_step_error hput] at hfill
          cases hfill
        | ok r =>
          rw [Prog.run_step_ok hput] at hfill
          cases hfill
          simp only [Cache.putFill, except_seq_eq_ok] at hput
          obtain ⟨-, hput⟩ := hput
          split at hput
          · cases hput
            exact .inl rfl
          · cases hput
            exact .inr rfl
      have hsame : (withLegPositionID f).tradeID = f.tradeID := by
        unfold withLegPositionID
        split <;> rfl
      refine absurd halike ?_
      obtain rfl | rfl := hput
      · exact h.not_filled_alike hc hf hc' rfl (fun _ => .inr) (fun _ => id) hreport
      · refine h.not_filled_alike hc hf hc' rfl ?_ ?_ hreport
        · exact fun g hg => (known_insertFill.mp hg).imp (fun hg => hg.2.trans hsame) id
        · exact fun g hg => known_insertFill.mpr (.inr hg)
    | false =>
      refine ⟨rfl, rfl, by_contra fun hne => ?_⟩
      simp only [hleg, Bool.false_eq_true, if_false] at hfill
      -- the fill is deferred under an id that the report does not clear
      obtain ⟨g, hg⟩ := deferred_of_deferFill hfill
      have hmem : g ∈ c₂.deferredFillsForOrder f.accountID f.orderID := by
        refine mem_deferredFillsForOrder.mpr ⟨f.tradeID, ?_⟩
        rw [(settled_of_ok hc' hreport).deferred, OrdMap.get_deleteRow, if_neg]
        · exact hg
        · exact fun heq => hne (Prod.mk.inj heq).2
      rw [hdeferred] at hmem
      cases hmem

end Order

theorem appliedAfter_sample :
    @AppliedAfter exactDecimals {} Account.sampleReport Account.sampleFill1 new
      (@afterCall exactDecimals {} new (.report Account.sampleReport))
      (@afterCalls exactDecimals {} new
        [.report Account.sampleReport, .fill Account.sampleFill1]) := by
  let _ : DecimalPackage := exactDecimals
  refine ⟨Prod.ext (by decide +kernel) rfl, by decide +kernel, Prod.ext (by decide +kernel) ?_⟩
  exact (afterCall_fill {} _ _).symm

theorem commutes_iff_sample :
    @EndsAlike exactDecimals {} Account.sampleReport Account.sampleFill1 new
      (@afterCalls exactDecimals {} new
        [.report Account.sampleReport, .fill Account.sampleFill1]) := by
  let _ : DecimalPackage := exactDecimals
  have hf : Account.sampleFill1.WellFormed := FillReport.validate_eq_ok.mp (by decide +kernel)
  exact (commutes_iff .new hf appliedAfter_sample).mpr
    ⟨by decide +kernel, by decide +kernel, rfl⟩

/-- An order with a client order id, and a fill that is only matched by it. -/
def clientReport : OrderStatusReport := { Account.sampleReport with clientOrderID := "client-1" }

def clientFill : FillReport :=
  { Account.sampleFill1 with orderID := "venue-7", clientOrderID := "client-1" }

/-- After the report the fill is applied to the order. Before it, it is deferred
under an order id that no report carries. -/
theorem client_fill_stays_deferred :
    @AppliedAfter exactDecimals {} clientReport clientFill new
        (@afterCall exactDecimals {} new (.report clientReport))
        (@afterCalls exactDecimals {} new [.report clientReport, .fill clientFill]) ∧
      ¬ @EndsAlike exactDecimals {} clientReport clientFill new
        (@afterCalls exactDecimals {} new [.report clientReport, .fill clientFill]) := by
  let _ : DecimalPackage := exactDecimals
  refine ⟨⟨Prod.ext (by decide +kernel) rfl, by decide +kernel,
    Prod.ext (by decide +kernel) (afterCall_fill {} _ _).symm⟩, ?_⟩
  rintro ⟨applied, c', c₂, hfill, hreport, halike, -⟩
  obtain rfl : _ = c' := congrArg Prod.snd hfill
  obtain rfl : _ = c₂ := congrArg Prod.snd hreport
  revert halike
  decide +kernel

end Exchanges.Execution
