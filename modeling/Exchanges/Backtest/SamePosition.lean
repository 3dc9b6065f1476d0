import Exchanges.Backtest.Positions
import Exchanges.Portfolio.Conservation

/-!
Two ways to keep a position.

The backtest and the portfolio each compute the position that a fill leads to. The
backtest compares the signs of the position and of the fill and looks at absolute values,
the portfolio compares sides and unsigned quantities; and a position that is flat keeps a
price with the one and has none with the other. For buys and sells of something the two
lead to the same positions (`nextPositions_agree`). A fill that names no side is added
like a buy by both, but does not go in the direction of a long position for the
portfolio.
-/

namespace Exchanges.Backtest

open Exchanges.Lib Exchanges.Model Exchanges.Cache

set_option linter.unusedSectionVars false

/-- The positions agree, except for the price of a flat one. -/
structure SamePosition (p q : PositionStatusReport) : Prop where
  side : p.side = q.side
  quantity : p.quantity = q.quantity
  entryPrice : q.side ≠ .flat → p.entryPrice = q.entryPrice

/-- The positions that a list of fills leads to, each stored before the next fill. -/
def positionsAlong (next : Cache → FillReport → PositionStatusReport) :
    Cache → List FillReport → List PositionStatusReport
  | _, [] => []
  | c, f :: fills => next c f :: positionsAlong next (c.storePosition (next c f)) fills

/-- A buy or a sell of something, for a position that is named after its instrument. -/
structure Trades (a : AccountID) (i : InstrumentID) (f : FillReport) : Prop where
  accountID : f.accountID = a
  instrumentID : f.instrumentID = i
  positionID : f.positionID = ""
  side : f.side = .buy ∨ f.side = .sell
  quantity : 0 < f.quantity

section

variable [DecimalPackage] {f : FillReport} {p q : PositionStatusReport} {net : Decimal}

/-! ### One fill -/

/-- The portfolio's test of the direction, in terms of signs. -/
theorem sameDirection_iff (hside : f.side = .buy ∨ f.side = .sell) (hquantity : 0 < f.quantity)
    (hnet : Portfolio.IsNet q net) :
    Portfolio.sameDirection q f = true ↔ 0 < net * signedFill f := by
  rcases lt_trichotomy net 0 with hneg | rfl | hpos
  · rw [Portfolio.sameDirection_short (hnet.1.trans (Portfolio.sideFromSigned_neg hneg))]
    rcases hside with h | h
    · simpa [signedFill, h] using (mul_neg_of_neg_of_pos hneg hquantity).le
    · simpa [signedFill, h] using mul_neg_of_neg_of_pos hneg hquantity
  · rw [Portfolio.sameDirection_flat (hnet.1.trans Portfolio.sideFromSigned_zero)]
    simp
  · rw [Portfolio.sameDirection_long (hnet.1.trans (Portfolio.sideFromSigned_pos hpos))]
    rcases hside with h | h
    · simpa [signedFill, h] using mul_pos hpos hquantity
    · simpa [signedFill, h] using (mul_pos hpos hquantity).le

theorem abs_signedFill (hquantity : 0 < f.quantity) : |signedFill f| = f.quantity := by
  unfold signedFill
  split
  · rw [abs_neg, abs_of_pos hquantity]
  · exact abs_of_pos hquantity

/-- The two entry prices, unless the fill flattens the position. -/
theorem entryPrice_eq (hside : f.side = .buy ∨ f.side = .sell) (hquantity : 0 < f.quantity)
    (hnet : Portfolio.IsNet q net) (hsame : SamePosition p q) (hopen : net + signedFill f ≠ 0) :
    (if 0 < net * signedFill f ∧ 0 < |net + signedFill f| then
        DecimalPackage.div (p.entryPrice * p.quantity + f.price * f.quantity)
          |net + signedFill f|
      else if |signedFill f| < |net| then p.entryPrice else f.price) =
    Portfolio.nextEntryPrice q f := by
  have hentry (hne : net ≠ 0) : p.entryPrice = q.entryPrice :=
    hsame.entryPrice (by rwa [hnet.1, ne_eq, Portfolio.sideFromSigned_eq_flat])
  have habs := abs_signedFill hquantity
  unfold Portfolio.nextEntryPrice
  by_cases hdirection : 0 < net * signedFill f
  · -- quantities in the same direction add up
    have htotal : |net + signedFill f| = q.quantity + f.quantity := by
      rw [hnet.2, ← habs]
      rcases pos_and_pos_or_neg_and_neg_of_mul_pos hdirection with ⟨hn, hf⟩ | ⟨hn, hf⟩
      · rw [abs_of_pos hn, abs_of_pos hf, abs_of_pos (add_pos hn hf)]
      · rw [abs_of_neg hn, abs_of_neg hf, abs_of_neg (add_neg hn hf), neg_add]
    have hpositive : 0 < q.quantity + f.quantity := htotal ▸ abs_pos.mpr hopen
    rw [if_pos ⟨hdirection, abs_pos.mpr hopen⟩,
      if_pos ((sameDirection_iff hside hquantity hnet).mpr hdirection)]
    dsimp only
    rw [if_pos hpositive, htotal, hentry (left_ne_zero_of_mul hdirection.ne'), hsame.quantity]
  · rw [if_neg fun h => hdirection h.1,
      if_neg fun h => hdirection ((sameDirection_iff hside hquantity hnet).mp h), habs, hnet.2]
    split
    · next hless => exact hentry (abs_pos.mp (hquantity.trans hless))
    · rfl

variable {c c' : Cache} {a : AccountID} {i : InstrumentID}

/-- What is cached of the position on both sides. -/
inductive Tracks (a : AccountID) (i : InstrumentID) (c c' : Cache) : Prop
  | nothing (h : c.position a i.string = none) (h' : c'.position a i.string = none)
  | position (p q : PositionStatusReport) (net : Decimal)
      (h : c.position a i.string = some p) (h' : c'.position a i.string = some q)
      (hnet : Portfolio.IsNet q net) (hsame : SamePosition p q)

theorem samePosition_nextPosition (htracks : Tracks a i c c') (hf : Trades a i f) :
    SamePosition (nextPosition c f) (Portfolio.nextPosition c' f) := by
  obtain ⟨rfl, rfl, hid, hside, hquantity⟩ := hf
  have hname : Portfolio.fillPositionID f = f.instrumentID.string := if_neg (not_not.mpr hid)
  unfold nextPosition Portfolio.nextPosition
  rw [hname]
  dsimp only
  cases htracks with
  | nothing h h' =>
    rw [h, h']
    refine ⟨?_, rfl, fun _ => rfl⟩
    dsimp only
    rcases hside with hbuy | hsell
    · rw [Portfolio.fillSignedQuantity, hbuy, if_neg (by decide), if_neg (by decide),
        Portfolio.sideFromSigned_pos hquantity]
    · rw [Portfolio.fillSignedQuantity, hsell, if_pos rfl, if_pos rfl,
        Portfolio.sideFromSigned_neg (neg_lt_zero.mpr hquantity)]
  | position p q net h h' hnet hsame =>
    have hq : Portfolio.signedPosition q = net := Portfolio.signedPosition_of_isNet hnet
    have hp : signedPosition p = net := by
      rw [signedPosition, hsame.side, hsame.quantity]
      exact hq
    rw [h, h']
    dsimp only
    rw [hp, hq]
    refine ⟨rfl, rfl, fun hopen => ?_⟩
    have hopen : net + signedFill f ≠ 0 := fun hzero =>
      hopen (Portfolio.sideFromSigned_eq_flat.mpr hzero)
    refine (entryPrice_eq hside hquantity hnet hsame hopen).trans (if_neg ?_).symm
    exact fun hflat => hopen (Portfolio.sideFromSigned_eq_flat.mp hflat)

/-- A step of both, with the positions that they store. -/
theorem tracks_storePosition (htracks : Tracks a i c c') (hf : Trades a i f) :
    Tracks a i (c.storePosition (nextPosition c f))
      (c'.storePosition (Portfolio.nextPosition c' f)) := by
  have hsame := samePosition_nextPosition htracks hf
  have hnet := Portfolio.isNet_nextPosition (c := c') hf.quantity
  obtain ⟨haccount, hid, -⟩ := nextPosition_ids c f
  obtain ⟨haccount', hid', -⟩ := Portfolio.nextPosition_ids c' f
  have hname : Portfolio.fillPositionID f = f.instrumentID.string :=
    if_neg (not_not.mpr hf.positionID)
  refine .position _ _ _ ?_ ?_ hnet hsame
  · rw [Cache.position, positions_storePosition, haccount, hid, hf.accountID, hf.instrumentID,
      OrdMap.get_put_self]
  · rw [Cache.position, positions_storePosition, haccount', hid', hname, hf.accountID,
      hf.instrumentID, OrdMap.get_put_self]

/-! ### All fills -/

/-- From no position on, the two agree after every fill. -/
theorem nextPositions_agree {fills : List FillReport} (h : c.position a i.string = none)
    (h' : c'.position a i.string = none) (hfills : ∀ f ∈ fills, Trades a i f) :
    List.Forall₂ SamePosition (positionsAlong nextPosition c fills)
      (positionsAlong Portfolio.nextPosition c' fills) := by
  have htracks : Tracks a i c c' := .nothing h h'
  clear h h'
  induction fills generalizing c c' with
  | nil => exact .nil
  | cons f fills ih =>
    obtain ⟨hf, hrest⟩ := List.forall_mem_cons.mp hfills
    exact .cons (samePosition_nextPosition htracks hf)
      (ih hrest (tracks_storePosition htracks hf))

end

/-! ### Three fills, and one without a side -/

def perpFill (side : OrderSide) (quantity price : Decimal) : FillReport :=
  { accountID := "acct", instrumentID := ⟨"BTC-USDT-PERP", "BINANCE"⟩, orderID := "order-1",
    tradeID := "trade-1", side := side, price := price, quantity := quantity, timestamp := 2 }

/-- A long position is reversed and then closed. -/
theorem nextPositions_agree_reversal :
    List.Forall₂ SamePosition
      (positionsAlong (@nextPosition exactDecimals) Cache.new
        [perpFill .buy 2 100, perpFill .sell 5 110, perpFill .buy 3 90])
      (positionsAlong (@Portfolio.nextPosition exactDecimals) Cache.new
        [perpFill .buy 2 100, perpFill .sell 5 110, perpFill .buy 3 90]) := by
  refine @nextPositions_agree exactDecimals Cache.new Cache.new "acct"
    ⟨"BTC-USDT-PERP", "BINANCE"⟩ _ rfl rfl fun f hf => ?_
  simp only [List.mem_cons, List.not_mem_nil, or_false] at hf
  rcases hf with rfl | rfl | rfl
  · exact ⟨rfl, rfl, rfl, .inl rfl, by decide +kernel⟩
  · exact ⟨rfl, rfl, rfl, .inr rfl, by decide +kernel⟩
  · exact ⟨rfl, rfl, rfl, .inl rfl, by decide +kernel⟩

/-- A valid fill without a side adds to a long position. The backtest averages the
price, and the portfolio takes that of the fill. -/
theorem blank_side_diverges :
    (perpFill .buy 1 100).validate = .ok () ∧ (perpFill .unset 1 200).validate = .ok () ∧
      (positionsAlong (@nextPosition exactDecimals) Cache.new
        [perpFill .buy 1 100, perpFill .unset 1 200]).map
          (fun p => (p.side, p.quantity, p.entryPrice)) =
        [(.long, 1, 100), (.long, 2, 150)] ∧
      (positionsAlong (@Portfolio.nextPosition exactDecimals) Cache.new
        [perpFill .buy 1 100, perpFill .unset 1 200]).map
          (fun p => (p.side, p.quantity, p.entryPrice)) =
        [(.long, 1, 100), (.long, 2, 200)] := by
  refine ⟨by decide +kernel, by decide +kernel, by decide +kernel, by decide +kernel⟩

end Exchanges.Backtest
