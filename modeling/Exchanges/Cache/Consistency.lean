import Exchanges.Cache.OrderIndexes

/-!
What holds of every cache that the cache's own operations produce.

The order indexes describe the stored orders. A stored fill is also found by
its trade. Deferred fills and positions are stored under their own keys.
-/

namespace Exchanges.Cache

open Exchanges.Lib Exchanges.Model

/-- The caches that can be built from an empty one. -/
inductive Reachable : Cache → Prop where
  | new : Reachable new
  | putInstrument {c c' : Cache} {inst : Instrument} :
      Reachable c → c.putInstrument inst = .ok c' → Reachable c'
  | putAccount {c : Cache} (account : AccountSnapshot) :
      Reachable c → Reachable (c.putAccount account)
  | putOrder {c c' : Cache} {order : OrderStatusReport} :
      Reachable c → c.putOrder order = .ok c' → Reachable c'
  | putFill {c c' : Cache} {fill : FillReport} {stored : Bool} :
      Reachable c → c.putFill fill = .ok (stored, c') → Reachable c'
  | putDeferredFill {c c' : Cache} {fill : FillReport} {stored : Bool} :
      Reachable c → c.putDeferredFill fill = .ok (stored, c') → Reachable c'
  | clearDeferredFills {c : Cache} (accountID : AccountID) (orderID : OrderID) :
      Reachable c → Reachable (c.clearDeferredFillsForOrder accountID orderID)
  | putPosition {c c' : Cache} {position : PositionStatusReport} :
      Reachable c → c.putPosition position = .ok c' → Reachable c'
  | purge {c : Cache} (accountID : AccountID) (policy : PurgePolicy) :
      Reachable c → Reachable (c.purge accountID policy).1
  | putTicker {c : Cache} (ticker : Ticker) : Reachable c → Reachable (c.putTicker ticker)
  | putOrderBook {c : Cache} (book : OrderBook) : Reachable c → Reachable (c.putOrderBook book)
  | putTrade {c : Cache} (trade : TradeTick) : Reachable c → Reachable (c.putTrade trade)
  | putQuote {c : Cache} (quote : QuoteTick) : Reachable c → Reachable (c.putQuote quote)
  | putBar {c : Cache} (bar : Bar) : Reachable c → Reachable (c.putBar bar)
  | putFundingRate {c : Cache} (funding : FundingRate) :
      Reachable c → Reachable (c.putFundingRate funding)

/-- Fills, deferred fills and positions are found under their keys. -/
structure Keyed (c : Cache) : Prop where
  trades : ∀ a i t fill, c.fills.get ((a, i), t) = some fill →
    ∃ traded, c.fillTrades.get (a, t) = some traded
  deferred : ∀ k fill, c.deferredFills.get k = some fill → fillKey fill = k ∧ fill.WellFormed
  positions : ∀ a i position, c.positions.get (a, i) = some position →
    position.accountID = a ∧ position.positionID = i

structure Consistent (c : Cache) : Prop where
  orders : OrdersIndexed c
  keyed : Keyed c

theorem keyed_new : Keyed new := by
  refine ⟨?_, ?_, ?_⟩
  · intro a i t fill h
    cases (OrdMap.get_empty _).symm.trans h
  · intro k fill h
    cases (OrdMap.get_empty _).symm.trans h
  · intro a i position h
    cases (OrdMap.get_empty _).symm.trans h

theorem consistent_new : Consistent new := ⟨ordersIndexed_new, keyed_new⟩

/-- Only the maps named here matter for consistency. -/
theorem Consistent.of_frame {c c' : Cache} (h : Consistent c) (horders : c = c.withOrderMaps c')
    (hfills : c'.fills = c.fills) (htrades : c'.fillTrades = c.fillTrades)
    (hdeferred : c'.deferredFills = c.deferredFills) (hpositions : c'.positions = c.positions) :
    Consistent c' := by
  obtain ⟨h1, h2, h3, h4, h5, h6, h7⟩ := h.orders
  rw [horders] at h1 h2 h3 h4 h5 h6 h7
  obtain ⟨k1, k2, k3⟩ := h.keyed
  rw [← hfills, ← htrades] at k1
  rw [← hdeferred] at k2
  rw [← hpositions] at k3
  exact ⟨⟨h1, h2, h3, h4, h5, h6, h7⟩, k1, k2, k3⟩

section Steps

variable {c c' : Cache}

theorem Keyed.of_ordersOnly (h : Keyed c) (honly : OrdersOnly c c') : Keyed c' := by
  obtain ⟨h1, h2, h3⟩ := h
  rw [honly]
  exact ⟨h1, h2, h3⟩

theorem Consistent.storeOrder (h : Consistent c) {o : OrderStatusReport} (hid : o.orderID ≠ "") :
    Consistent (c.storeOrder o) :=
  ⟨ordersIndexed_storeOrder h.orders hid, h.keyed.of_ordersOnly (ordersOnly_storeOrder c o)⟩

theorem Consistent.putOrder (h : Consistent c) {o : OrderStatusReport}
    (hput : c.putOrder o = .ok c') : Consistent c' := by
  obtain ⟨hwf, rfl⟩ := putOrder_eq_ok.mp hput
  exact h.storeOrder hwf.orderID_ne

theorem Consistent.insertFill (h : Consistent c) (fill : FillReport) :
    Consistent (c.insertFill fill) := by
  obtain ⟨⟨h1, h2, h3, h4, h5, h6, h7⟩, k1, k2, k3⟩ := h
  refine ⟨⟨h1, h2, h3, h4, h5, h6, h7⟩, ?_, k2, k3⟩
  intro a i t stored hget
  change ∃ traded, (c.fillTrades.put _ fill).get (a, t) = some traded
  have hget : (c.fills.put (fillKey fill) fill).get ((a, i), t) = some stored := hget
  rw [OrdMap.get_put] at hget ⊢
  split
  · exact ⟨fill, rfl⟩
  · next hne =>
      rw [if_neg] at hget
      · exact k1 a i t stored hget
      · intro heq
        cases heq
        exact hne rfl

theorem Consistent.putFill (h : Consistent c) {fill : FillReport} {stored : Bool}
    (hput : c.putFill fill = .ok (stored, c')) : Consistent c' := by
  simp only [Cache.putFill, except_seq_eq_ok] at hput
  obtain ⟨-, hput⟩ := hput
  split at hput
  · cases hput
    exact h
  · cases hput
    exact h.insertFill fill

theorem Consistent.putDeferredFill (h : Consistent c) {fill : FillReport} {stored : Bool}
    (hput : c.putDeferredFill fill = .ok (stored, c')) : Consistent c' := by
  simp only [Cache.putDeferredFill, except_seq_eq_ok] at hput
  obtain ⟨hvalid, hput⟩ := hput
  split at hput
  · cases hput
    exact h
  · cases hput
    obtain ⟨⟨h1, h2, h3, h4, h5, h6, h7⟩, k1, k2, k3⟩ := h
    refine ⟨⟨h1, h2, h3, h4, h5, h6, h7⟩, k1, ?_, k3⟩
    intro k deferred hget
    have hget : (c.deferredFills.put (fillKey fill) fill).get k = some deferred := hget
    rw [OrdMap.get_put] at hget
    split at hget
    · next heq =>
        cases hget
        exact ⟨heq.symm, FillReport.validate_eq_ok.mp hvalid⟩
    · exact k2 k deferred hget

theorem Consistent.clearDeferredFillsForOrder (h : Consistent c) (a : AccountID) (i : OrderID) :
    Consistent (c.clearDeferredFillsForOrder a i) := by
  obtain ⟨⟨h1, h2, h3, h4, h5, h6, h7⟩, k1, k2, k3⟩ := h
  refine ⟨⟨h1, h2, h3, h4, h5, h6, h7⟩, k1, ?_, k3⟩
  intro k deferred hget
  have hget : (c.deferredFills.deleteRow (a, i)).get k = some deferred := hget
  rw [OrdMap.get_deleteRow] at hget
  split at hget
  · cases hget
  · exact k2 k deferred hget

theorem Keyed.storePosition (h : Keyed c) (p : PositionStatusReport) :
    Keyed (c.storePosition p) := by
  have hpositions := positions_storePosition c p
  refine ⟨?_, ?_, ?_⟩
  · unfold Cache.storePosition removeExistingPosition
    split <;> exact h.trades
  · unfold Cache.storePosition removeExistingPosition
    split <;> exact h.deferred
  · intro a i q hget
    rw [hpositions, OrdMap.get_put] at hget
    split at hget
    · next heq =>
        cases hget
        exact Prod.mk.inj heq.symm
    · exact h.positions a i q hget

theorem Consistent.storePosition (h : Consistent c) (position : PositionStatusReport) :
    Consistent (c.storePosition position) := by
  refine ⟨?_, h.keyed.storePosition position⟩
  obtain ⟨h1, h2, h3, h4, h5, h6, h7⟩ := h.orders
  unfold Cache.storePosition removeExistingPosition
  split <;> exact ⟨h1, h2, h3, h4, h5, h6, h7⟩

theorem Consistent.putPosition (h : Consistent c) {position : PositionStatusReport}
    (hput : c.putPosition position = .ok c') : Consistent c' := by
  simp only [Cache.putPosition, except_seq_eq_ok] at hput
  obtain ⟨-, hput⟩ := hput
  cases hput
  exact h.storePosition position

theorem Keyed.purge (h : Keyed c) (a : AccountID) (policy : PurgePolicy) :
    Keyed (c.purge a policy).1 := by
  refine purge_keeps (List.foldlRecOn _ removeOrder h fun _ hb _ _ =>
    ⟨hb.trades, hb.deferred, hb.positions⟩) (fun b p hb => ⟨hb.trades, hb.deferred, ?_⟩)
    fun _ _ _ hb => ⟨hb.trades, hb.deferred, hb.positions⟩
  exact fun a i q hget => hb.positions a i q (OrdMap.get_of_get_delete hget)

end Steps

/-- Every reachable cache is consistent. -/
theorem Reachable.consistent {c : Cache} (h : Reachable c) : Consistent c := by
  induction h with
  | new => exact consistent_new
  | putInstrument _ hput ih =>
    simp only [Cache.putInstrument, except_seq_eq_ok] at hput
    obtain ⟨-, hput⟩ := hput
    cases hput
    exact ih.of_frame rfl rfl rfl rfl rfl
  | putOrder _ hput ih => exact ih.putOrder hput
  | putFill _ hput ih => exact ih.putFill hput
  | putDeferredFill _ hput ih => exact ih.putDeferredFill hput
  | clearDeferredFills a i _ ih => exact ih.clearDeferredFillsForOrder a i
  | putPosition _ hput ih => exact ih.putPosition hput
  | purge a policy _ ih => exact ⟨ordersIndexed_purge ih.orders policy, ih.keyed.purge a policy⟩
  | putBar bar _ ih =>
    obtain ⟨bars, hbars⟩ := putBar_eq _ bar
    rw [hbars]
    exact ih.of_frame rfl rfl rfl rfl rfl
  | putAccount _ _ ih | putTicker _ _ ih | putOrderBook _ _ ih | putTrade _ _ ih
  | putQuote _ _ ih | putFundingRate _ _ ih => exact ih.of_frame rfl rfl rfl rfl rfl

theorem Reachable.storeInstrument {c : Cache} (h : Reachable c) {inst : Instrument}
    (hinst : inst.validate = .ok ()) :
    Reachable { c with instruments := c.instruments.put inst.id inst } := by
  have hput : c.putInstrument inst =
      .ok { c with instruments := c.instruments.put inst.id inst } := by
    rw [Cache.putInstrument, hinst]
    rfl
  exact .putInstrument h hput

theorem Reachable.storePosition {c : Cache} (h : Reachable c) {position : PositionStatusReport}
    (hposition : position.WellFormed) : Reachable (c.storePosition position) := by
  have hput : c.putPosition position = .ok (c.storePosition position) := by
    rw [Cache.putPosition, PositionStatusReport.validate_eq_ok.mpr hposition]
    rfl
  exact .putPosition h hput

/-! ### Programs stay within the reachable caches -/

theorem keeps_reachable_putFill (g : FillReport) :
    Prog.Keeps Reachable (Prog.step (·.putFill g) : Prog Cache Err Bool) :=
  .step fun _ _ _ hput h => .putFill h hput

theorem keeps_reachable_putOrder (o : OrderStatusReport) :
    Prog.Keeps Reachable (Prog.update (·.putOrder o) : Prog Cache Err Unit) :=
  .update fun _ _ hput h => .putOrder h hput

end Exchanges.Cache
