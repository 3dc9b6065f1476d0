import Exchanges.Portfolio.Basic

/-!
What a fill does to the books of a portfolio.

The books are the applied fills, the positions with their instrument index, and
the realized profit. A fill that is new changes all of them at once, even when
its balance changes fail afterwards (`booked_of_new`), and a fill that was
applied before changes nothing.
-/

namespace Exchanges.Portfolio

open Exchanges.Lib Exchanges.Model

set_option linter.unusedSectionVars false

variable [DecimalPackage] {p p' : Portfolio} {f : FillReport}

/-- Applying a fill touches the cache by storing fills, positions and accounts
only. -/
theorem keeps_applyFill {I : Cache → Prop}
    (hfill : ∀ c b c' g, c.putFill g = .ok (b, c') → I c → I c')
    (hposition : ∀ c c' position, c.putPosition position = .ok c' → I c → I c')
    (haccount : ∀ c account, I c → I (c.putAccount account)) :
    Prog.Keeps (fun p => I p.cache) (applyFill f) := by
  have hcache {α : Type} {q : Prog Cache Err α} (h : Prog.Keeps I q) :
      Prog.Keeps (fun p => I p.cache) (onCache q) := .zoom (fun _ _ => rfl) h
  have hbalances (g : FillReport) (pnl : Decimal) :
      Prog.Keeps I (applyFillBalanceDeltas g pnl) := by
    refine Prog.Keeps.get.bind fun c => ?_
    dsimp only
    split
    · exact .pure ()
    · exact .pure ()
    · exact (Prog.Keeps.lift _).bind fun _ => .modify fun _ h => haccount _ _ h
  -- commissions, profits and marks are kept outside the cache
  have hbooks (p : Portfolio) (g : FillReport) (previous : Option PositionStatusReport) :
      (((p.markAppliedFill g).applyCommission g).applyRealizedPnLFromPosition g previous).cache =
        p.cache := by
    unfold applyRealizedPnLFromPosition applyCommission
    split <;> split <;> rfl
  refine (Prog.Keeps.lift _).bind fun _ => Prog.Keeps.get.bind fun p =>
    Prog.Keeps.get.bind fun q => ?_
  split
  · exact .pure ()
  · refine (hcache (.step fun _ _ _ hput h => hfill _ _ _ _ hput h)).bind fun _ =>
      (Prog.Keeps.modify fun p h => ?_).bind fun _ =>
      (hcache (.update fun _ _ hput h => hposition _ _ _ hput h)).bind fun _ =>
      (hcache (hbalances _ _)).bind fun _ => .modify fun _ h => h
    rw [hbooks]
    exact h

/-- The fill has been entered in the books. -/
structure Booked (p : Portfolio) (f : FillReport) (p' : Portfolio) : Prop where
  applied : p'.appliedFills = p.appliedFills.put (Cache.fillKey f) ()
  realized : p'.realized = (p.applyRealizedPnLFromPosition f
    (p.cache.positionByInstrument f.accountID f.instrumentID)).realized
  positions : p'.cache.positions =
    p.cache.positions.put (f.accountID, fillPositionID f) (nextPosition p.cache f)
  positionInst : p'.cache.positionInst =
    p.cache.positionInst.put (f.accountID, f.instrumentID) (fillPositionID f)

theorem withDefaultSide_wellFormed (hf : f.WellFormed) : (withDefaultSide f).WellFormed := by
  unfold withDefaultSide
  split
  · exact ⟨hf.1, hf.2, hf.3, hf.4, hf.5, hf.6, hf.7⟩
  · exact hf

theorem withDefaultSide_of_ne (h : f.side ≠ .unset) : withDefaultSide f = f := if_neg h

theorem withDefaultSide_ids (f : FillReport) :
    (withDefaultSide f).accountID = f.accountID ∧
      (withDefaultSide f).instrumentID = f.instrumentID ∧
      fillPositionID (withDefaultSide f) = fillPositionID f ∧
      Cache.fillKey (withDefaultSide f) = Cache.fillKey f := by
  unfold withDefaultSide
  split <;> exact ⟨rfl, rfl, rfl, rfl⟩

theorem run_applyFill (hf : f.WellFormed) : (applyFill f).run p =
    (applyFillAccounting (withDefaultSide f)
      (p.cache.positionByInstrument (withDefaultSide f).accountID
        (withDefaultSide f).instrumentID)
      (nextPosition p.cache (withDefaultSide f))).run p := by
  have hvalid : (Prog.lift f.validate : Prog Portfolio Err Unit).run p = (.ok (), p) := by
    rw [Prog.run_lift, FillReport.validate_eq_ok.mpr hf]
  rw [applyFill, Prog.run_bind_ok hvalid]
  dsimp only
  rw [Prog.run_get_bind]

theorem hasAppliedFill_withDefaultSide :
    p.hasAppliedFill (withDefaultSide f) = p.hasAppliedFill f := by
  unfold withDefaultSide
  split <;> rfl

/-- A fill that was applied before is not applied again. -/
theorem run_applyFill_applied (hf : f.WellFormed) (happlied : p.hasAppliedFill f = true) :
    (applyFill f).run p = (.ok (), p) := by
  rw [run_applyFill hf, applyFillAccounting, Prog.run_get_bind, hasAppliedFill_withDefaultSide,
    if_pos happlied]
  rfl

/-- Balance changes leave the positions alone. -/
theorem positions_applyFillBalanceDeltas (f : FillReport) (pnl : Decimal) (c : Cache) :
    ((applyFillBalanceDeltas f pnl).run c).2.positions = c.positions ∧
      ((applyFillBalanceDeltas f pnl).run c).2.positionInst = c.positionInst := by
  refine Prog.Keeps.get.bind
    (I := fun c' => c'.positions = c.positions ∧ c'.positionInst = c.positionInst)
    (fun c' => ?_) c ⟨rfl, rfl⟩
  dsimp only
  split
  · exact .pure ()
  · exact .pure ()
  · exact (Prog.Keeps.lift _).bind fun _ => .modify fun _ h => h

/-- Balances and marks are not part of the books. -/
theorem keeps_booked_tail (q : Portfolio) (pnl : Decimal) :
    Prog.Keeps (Booked q f) (do
      onCache (applyFillBalanceDeltas f pnl)
      Prog.modify (·.setMark f.accountID f.instrumentID f.price) : Prog Portfolio Err Unit) := by
  have hbalances : Prog.Keeps (Booked q f) (onCache (applyFillBalanceDeltas f pnl)) := by
    intro p h
    have hframe := positions_applyFillBalanceDeltas f pnl p.cache
    exact ⟨h.applied, h.realized, hframe.1.trans h.positions, hframe.2.trans h.positionInst⟩
  refine hbalances.bind fun _ => .modify fun p h => ?_
  exact ⟨h.applied, h.realized, h.positions, h.positionInst⟩

/-- The caches have the same positions, accounts and instruments. -/
structure SameHoldings (c c' : Cache) : Prop where
  positions : c'.positions = c.positions
  positionInst : c'.positionInst = c.positionInst
  accounts : c'.accounts = c.accounts
  instruments : c'.instruments = c.instruments

theorem putFill_ok (c : Cache) (hf : f.WellFormed) :
    ∃ b c', c.putFill f = .ok (b, c') ∧ SameHoldings c c' := by
  cases hget : c.fills.get (Cache.fillKey f) with
  | some g => exact ⟨false, c, Cache.putFill_of_stored hf hget, rfl, rfl, rfl, rfl⟩
  | none => exact ⟨true, _, Cache.putFill_of_new hf hget, rfl, rfl, rfl, rfl⟩

/-- The fields that a new fill changes before the position is stored. -/
def entered (p : Portfolio) (f : FillReport) (previous : Option PositionStatusReport) :
    Portfolio :=
  ((p.markAppliedFill f).applyCommission f).applyRealizedPnLFromPosition f previous

theorem entered_fields (p : Portfolio) (f : FillReport)
    (previous : Option PositionStatusReport) :
    (p.entered f previous).appliedFills = p.appliedFills.put (Cache.fillKey f) () ∧
      (p.entered f previous).realized = (p.applyRealizedPnLFromPosition f previous).realized ∧
      (p.entered f previous).cache = p.cache := by
  unfold entered applyRealizedPnLFromPosition applyCommission markAppliedFill
  cases realizedDelta f previous with
  | none =>
    dsimp only
    split <;> exact ⟨rfl, rfl, rfl⟩
  | some pnl =>
    dsimp only
    split <;> exact ⟨rfl, rfl, rfl⟩

/-- Up to storing the position, nothing of a new fill can fail. -/
theorem run_applyFillAccounting_new (hf : f.WellFormed) (hnew : p.hasAppliedFill f = false)
    (previous : Option PositionStatusReport) (position : PositionStatusReport) :
    ∃ c, SameHoldings p.cache c ∧
      (applyFillAccounting f previous position).run p =
        (do
          onCache (Prog.update (·.putPosition position))
          onCache (applyFillBalanceDeltas f ((realizedDelta f previous).getD 0))
          Prog.modify (·.setMark f.accountID f.instrumentID f.price) :
            Prog Portfolio Err Unit).run ({ p with cache := c }.entered f previous) := by
  obtain ⟨b, c, hput, hsame⟩ := putFill_ok p.cache hf
  have hstep : (onCache (Prog.step (·.putFill f))).run p = (.ok b, { p with cache := c }) :=
    Prog.run_zoom (Prog.run_step_ok hput)
  have hnew' : ¬ p.hasAppliedFill f = true := by
    rw [hnew]
    exact Bool.false_ne_true
  refine ⟨c, hsame, ?_⟩
  rw [applyFillAccounting, Prog.run_get_bind, if_neg hnew', Prog.run_bind_ok hstep,
    Prog.run_bind_ok (Prog.run_modify _ _)]
  rfl

theorem nextPosition_ids (c : Cache) (f : FillReport) :
    (nextPosition c f).accountID = f.accountID ∧
      (nextPosition c f).positionID = fillPositionID f ∧
      (nextPosition c f).instrumentID = f.instrumentID := by
  unfold nextPosition
  dsimp only
  split <;> exact ⟨rfl, rfl, rfl⟩

/-- Storing a valid position completes the books. -/
theorem booked_storePosition {c : Cache} (hpositions : c.positions = p.cache.positions)
    (hinst : c.positionInst = p.cache.positionInst) :
    Booked p f ({ ({ p with cache := c }.entered f
      (p.cache.positionByInstrument f.accountID f.instrumentID)) with
        cache := c.storePosition (nextPosition p.cache f) }) := by
  obtain ⟨happlied, hrealized, -⟩ := entered_fields { p with cache := c } f
    (p.cache.positionByInstrument f.accountID f.instrumentID)
  have hids := nextPosition_ids p.cache f
  refine ⟨happlied, ?_, ?_, ?_⟩
  · rw [hrealized]
    unfold applyRealizedPnLFromPosition
    split <;> rfl
  · dsimp only
    rw [Cache.positions_storePosition, hpositions, hids.1, hids.2.1]
  · dsimp only
    rw [Cache.positionInst_storePosition, hinst, hids.1, hids.2.1, hids.2.2]

theorem run_putPosition {position : PositionStatusReport} (h : position.WellFormed) :
    (onCache (Prog.update (·.putPosition position))).run p =
      (.ok (), { p with cache := p.cache.storePosition position }) := by
  refine Prog.run_zoom (Prog.run_update_ok ?_)
  rw [Cache.putPosition, PositionStatusReport.validate_eq_ok.mpr h]
  rfl

theorem run_putPosition_error {position : PositionStatusReport} (h : ¬ position.WellFormed) :
    ∃ e, (onCache (Prog.update (·.putPosition position))).run p = (.error e, p) := by
  cases hvalid : position.validate with
  | ok u => exact absurd (PositionStatusReport.validate_eq_ok.mp hvalid) h
  | error e =>
    refine ⟨e, Prog.run_zoom (Prog.run_update_error ?_)⟩
    rw [Cache.putPosition, hvalid]
    rfl

section Accounting

variable (hf : f.WellFormed) (hnew : p.hasAppliedFill f = false)
include hf hnew

/-- A new fill is booked, whatever its balance changes come to. -/
theorem booked_applyFillAccounting (hposition : (nextPosition p.cache f).WellFormed) :
    Booked p f ((applyFillAccounting f
      (p.cache.positionByInstrument f.accountID f.instrumentID)
      (nextPosition p.cache f)).run p).2 := by
  obtain ⟨c, hsame, hrun⟩ := run_applyFillAccounting_new hf hnew
    (p.cache.positionByInstrument f.accountID f.instrumentID) (nextPosition p.cache f)
  rw [hrun, Prog.run_bind_ok (run_putPosition hposition)]
  refine keeps_booked_tail p _ _ ?_
  rw [(entered_fields { p with cache := c } f _).2.2]
  exact booked_storePosition hsame.positions hsame.positionInst

theorem applyFillAccounting_error (hposition : ¬ (nextPosition p.cache f).WellFormed) :
    ∃ e, ((applyFillAccounting f (p.cache.positionByInstrument f.accountID f.instrumentID)
      (nextPosition p.cache f)).run p).1 = .error e := by
  obtain ⟨c, -, hrun⟩ := run_applyFillAccounting_new hf hnew
    (p.cache.positionByInstrument f.accountID f.instrumentID) (nextPosition p.cache f)
  obtain ⟨e, herror⟩ := run_putPosition_error
    (p := { p with cache := c }.entered f _) hposition
  rw [hrun, Prog.run_bind_error herror]
  exact ⟨e, rfl⟩

end Accounting

theorem booked_of_new (hf : f.WellFormed) (hnew : p.hasAppliedFill f = false)
    (hposition : (nextPosition p.cache (withDefaultSide f)).WellFormed) :
    Booked p (withDefaultSide f) ((applyFill f).run p).2 := by
  rw [run_applyFill hf]
  rw [← hasAppliedFill_withDefaultSide] at hnew
  exact booked_applyFillAccounting (withDefaultSide_wellFormed hf) hnew hposition

/-- A fill that is applied without an error was applied before or is booked. -/
theorem applyFill_ok (hrun : (applyFill f).run p = (.ok (), p')) :
    f.WellFormed ∧ (p.hasAppliedFill f = true ∧ p' = p ∨
      p.hasAppliedFill f = false ∧ Booked p (withDefaultSide f) p') := by
  have hf : f.WellFormed := by
    rw [applyFill] at hrun
    obtain ⟨u, p₁, hvalid, -⟩ := Prog.run_bind_eq_ok.mp hrun
    exact FillReport.validate_eq_ok.mp (congrArg Prod.fst hvalid)
  refine ⟨hf, ?_⟩
  cases hnew : p.hasAppliedFill f with
  | true =>
    rw [run_applyFill_applied hf hnew] at hrun
    exact .inl ⟨rfl, (congrArg Prod.snd hrun).symm⟩
  | false =>
    by_cases hposition : (nextPosition p.cache (withDefaultSide f)).WellFormed
    · have hbooked := booked_of_new hf hnew hposition
      rw [hrun] at hbooked
      exact .inr ⟨rfl, hbooked⟩
    · rw [run_applyFill hf] at hrun
      rw [← hasAppliedFill_withDefaultSide] at hnew
      obtain ⟨e, he⟩ := applyFillAccounting_error (withDefaultSide_wellFormed hf) hnew hposition
      rw [hrun] at he
      cases he

/-! ### The position that a fill leads to -/

/-- No stored position has a negative quantity or entry price. -/
def Amounts (c : Cache) : Prop :=
  ∀ k position, c.positions.get k = some position →
    0 ≤ position.quantity ∧ 0 ≤ position.entryPrice

omit [DecimalPackage] in
theorem amounts_new : Amounts Cache.new := by
  intro k q h
  cases (OrdMap.get_empty _).symm.trans h

theorem nextPosition_congr {c c' : Cache} (h : c'.positions = c.positions) :
    nextPosition c' f = nextPosition c f := by
  simp only [nextPosition, Cache.position, h]

theorem fillSignedQuantity_withDefaultSide (f : FillReport) :
    fillSignedQuantity (withDefaultSide f) = fillSignedQuantity f := by
  unfold withDefaultSide
  split
  · next h => simp [fillSignedQuantity, h]
  · rfl

theorem nextEntryPrice_nonneg [AmountDivision] {existing : PositionStatusReport}
    (hf : f.WellFormed) (hquantity : 0 ≤ existing.quantity) (hentry : 0 ≤ existing.entryPrice) :
    0 ≤ nextEntryPrice existing f := by
  have hprice := hf.price_pos
  have hfilled := hf.quantity_pos
  unfold nextEntryPrice
  dsimp only
  split
  · split
    · next htotal => exact AmountDivision.div_nonneg _ _ (by positivity) htotal
    · exact hprice.le
  · split
    · exact hentry
    · exact hprice.le

/-- A fill on top of amounts gives amounts. -/
theorem amounts_nextPosition [AmountDivision] {c : Cache} (hc : Amounts c) (hf : f.WellFormed) :
    0 ≤ (nextPosition c f).quantity ∧ 0 ≤ (nextPosition c f).entryPrice := by
  unfold nextPosition
  dsimp only
  cases hget : c.position f.accountID (fillPositionID f) with
  | none => exact ⟨hf.quantity_pos.le, hf.price_pos.le⟩
  | some existing =>
    obtain ⟨hquantity, hentry⟩ := hc _ existing hget
    refine ⟨abs_nonneg _, ?_⟩
    dsimp only
    split
    · exact le_refl 0
    · exact nextEntryPrice_nonneg hf hquantity hentry

theorem nextPosition_wellFormed [AmountDivision] {c : Cache} (hc : Amounts c)
    (hf : f.WellFormed) : (nextPosition c f).WellFormed := by
  obtain ⟨haccount, hid, hinstrument⟩ := nextPosition_ids c f
  have hside (net : Decimal) : sideFromSigned net = .unset ∨ sideFromSigned net = .long ∨
      sideFromSigned net = .short ∨ sideFromSigned net = .flat := by
    unfold sideFromSigned
    split_ifs <;> simp
  refine ⟨haccount ▸ hf.accountID_ne, hid ▸ ?_, hinstrument ▸ hf.instrument,
    (amounts_nextPosition hc hf).2, ?_⟩
  · unfold fillPositionID
    split
    · assumption
    · exact InstrumentID.string_ne_empty hf.instrument
  · unfold nextPosition
    dsimp only
    split <;> exact hside _

end Exchanges.Portfolio
