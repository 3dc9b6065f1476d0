import Exchanges.Cache.Consistency

/-!
What the cache's operations have checked of everything that they stored.

Validated orders and fills have passed their validation, and a trade is indexed
only for a fill that is stored.
-/

namespace Exchanges.Cache

open Exchanges.Lib Exchanges.Model

structure Validated (c : Cache) : Prop where
  orders : ∀ k o, c.orders.get k = some o → o.WellFormed
  fills : ∀ k f, c.fills.get k = some f → fillKey f = k ∧ f.WellFormed
  traded : ∀ a t g, c.fillTrades.get (a, t) = some g →
    ∃ i f, c.fills.get ((a, i), t) = some f

theorem validated_new : Validated new := by
  refine ⟨?_, ?_, ?_⟩
  · intro k o h
    cases (OrdMap.get_empty _).symm.trans h
  · intro k f h
    cases (OrdMap.get_empty _).symm.trans h
  · intro a t g h
    cases (OrdMap.get_empty _).symm.trans h

section Steps

variable {c c' : Cache}

/-- Only orders and fills matter, and orders may be forgotten. -/
theorem Validated.of_frame (h : Validated c)
    (horders : ∀ k o, c'.orders.get k = some o → c.orders.get k = some o)
    (hfills : c'.fills = c.fills) (htrades : c'.fillTrades = c.fillTrades) : Validated c' := by
  obtain ⟨h1, h2, h3⟩ := h
  rw [← hfills] at h2 h3
  rw [← htrades] at h3
  exact ⟨fun k o ho => h1 k o (horders k o ho), h2, h3⟩

/-- No order is stored by storing another one. -/
theorem orders_of_storeOrder {o e : OrderStatusReport} {k : AccountID × OrderID}
    (h : OrdersIndexed c) (he : (c.storeOrder o).orders.get k = some e) :
    e = o ∨ c.orders.get k = some e := by
  by_cases hkey : k = (o.accountID, o.orderID)
  · rw [hkey, order_storeOrder_self] at he
    exact .inl (Option.some.inj he).symm
  · exact .inr ((order_storeOrder_other h hkey).mp he).1

theorem Validated.storeOrder (h : Validated c) (hc : OrdersIndexed c) {o : OrderStatusReport}
    (ho : o.WellFormed) : Validated (c.storeOrder o) := by
  refine ⟨fun k e he => ?_, ?_, ?_⟩
  · obtain rfl | he := orders_of_storeOrder hc he
    · exact ho
    · exact h.orders k e he
  · rw [fills_storeOrder]
    exact h.fills
  · rw [fills_storeOrder, fillTrades_storeOrder]
    exact h.traded

theorem Validated.insertFill (h : Validated c) {fill : FillReport} (hfill : fill.WellFormed) :
    Validated (c.insertFill fill) := by
  refine ⟨h.orders, fun k f hf => ?_, fun a t g hg => ?_⟩
  · have hf : (c.fills.put (fillKey fill) fill).get k = some f := hf
    rw [OrdMap.get_put] at hf
    split at hf
    · next heq =>
        cases hf
        exact ⟨heq.symm, hfill⟩
    · exact h.fills k f hf
  · have hg : (c.fillTrades.put (fill.accountID, fill.tradeID) fill).get (a, t) = some g := hg
    change ∃ i f, (c.fills.put (fillKey fill) fill).get ((a, i), t) = some f
    rw [OrdMap.get_put] at hg
    split at hg
    · next heq =>
        obtain ⟨rfl, rfl⟩ := Prod.mk.inj heq
        exact ⟨fill.orderID, fill, OrdMap.get_put_self ..⟩
    · obtain ⟨i, f, hf⟩ := h.traded a t g hg
      by_cases hkey : ((a, i), t) = fillKey fill
      · exact ⟨i, fill, by rw [hkey, OrdMap.get_put_self]⟩
      · exact ⟨i, f, by rw [OrdMap.get_put_of_ne _ hkey, hf]⟩

theorem Validated.putFill (h : Validated c) {fill : FillReport} {stored : Bool}
    (hput : c.putFill fill = .ok (stored, c')) : Validated c' := by
  simp only [Cache.putFill, except_seq_eq_ok] at hput
  obtain ⟨hvalid, hput⟩ := hput
  split at hput
  · cases hput
    exact h
  · cases hput
    exact h.insertFill (FillReport.validate_eq_ok.mp hvalid)

theorem Validated.purge (h : Validated c) (a : AccountID) (policy : PurgePolicy) :
    Validated (c.purge a policy).1 := by
  refine purge_keeps (List.foldlRecOn _ removeOrder h fun b hb o _ => ?_)
    (fun _ _ hb => ⟨hb.orders, hb.fills, hb.traded⟩)
    fun _ _ _ hb => ⟨hb.orders, hb.fills, hb.traded⟩
  exact hb.of_frame (fun k e he => OrdMap.get_of_get_delete he) rfl rfl

theorem Validated.storePosition (h : Validated c) (p : PositionStatusReport) :
    Validated (c.storePosition p) := by
  obtain ⟨h1, h2, h3⟩ := h
  unfold Cache.storePosition removeExistingPosition
  split <;> exact ⟨h1, h2, h3⟩

end Steps

theorem Reachable.validated {c : Cache} (h : Reachable c) : Validated c := by
  induction h with
  | new => exact validated_new
  | putInstrument _ hput ih =>
    simp only [Cache.putInstrument, except_seq_eq_ok] at hput
    obtain ⟨-, hput⟩ := hput
    cases hput
    exact ih.of_frame (fun _ _ h => h) rfl rfl
  | putOrder hc hput ih =>
    obtain ⟨hwf, rfl⟩ := putOrder_eq_ok.mp hput
    exact ih.storeOrder hc.consistent.orders hwf
  | putFill _ hput ih => exact ih.putFill hput
  | putDeferredFill _ hput ih =>
    simp only [Cache.putDeferredFill, except_seq_eq_ok] at hput
    obtain ⟨-, hput⟩ := hput
    split at hput
    · cases hput
      exact ih
    · cases hput
      exact ih.of_frame (fun _ _ h => h) rfl rfl
  | putPosition _ hput ih =>
    simp only [Cache.putPosition, except_seq_eq_ok] at hput
    obtain ⟨-, hput⟩ := hput
    cases hput
    exact ih.storePosition _
  | purge a policy _ ih => exact ih.purge a policy
  | putBar bar _ ih =>
    obtain ⟨bars, hbars⟩ := putBar_eq _ bar
    rw [hbars]
    exact ih.of_frame (fun _ _ h => h) rfl rfl
  | clearDeferredFills _ _ _ ih | putAccount _ _ ih | putTicker _ _ ih | putOrderBook _ _ ih
  | putTrade _ _ ih | putQuote _ _ ih | putFundingRate _ _ ih =>
    exact ih.of_frame (fun _ _ h => h) rfl rfl

end Exchanges.Cache
