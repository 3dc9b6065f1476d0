import Exchanges.Account.PositionWrites
import Exchanges.Lib.Trace
import Exchanges.Portfolio.Events

/-!
The remembered profits.

The portfolio remembers the unrealized profit of an instrument until it is told
to forget it. The profit depends on the position that the cache has for the
instrument and on the mark. Marks are set by the portfolio alone, which forgets
the profit each time. Positions are stored by others too, and under an id that
several instruments may share, so that a remembered profit can be left behind.
`profits_current_iff` says exactly when this happens in a run.
-/

namespace Exchanges.Portfolio

open Exchanges.Lib Exchanges.Model Exchanges.Account

set_option linter.unusedSectionVars false

/-! ### What a profit is computed from -/

/-- The unrealized profit of a position at a mark. -/
def profitAt (mark : Decimal) (position : PositionStatusReport) : Decimal :=
  if position.side = .flat ∨ position.quantity = 0 then 0
  else if ¬ 0 < mark then 0
  else if position.side = .short then (position.entryPrice - mark) * position.quantity
  else (mark - position.entryPrice) * position.quantity

def markOf (p : Portfolio) (a : AccountID) (i : InstrumentID) : Decimal :=
  (p.marks.get (a, i)).getD 0

theorem computeUnrealizedPnL_eq (p : Portfolio) (a : AccountID) (i : InstrumentID) :
    p.computeUnrealizedPnL a i =
      (p.cache.positionByInstrument a i).elim 0 (profitAt (p.markOf a i)) := by
  unfold computeUnrealizedPnL
  cases p.cache.positionByInstrument a i <;> rfl

/-- What the portfolio says about an instrument is what the position and the mark
give now. -/
def Current (p : Portfolio) : Prop :=
  ∀ a i, (p.unrealizedPnL a i).1 = p.computeUnrealizedPnL a i

theorem current_iff {p : Portfolio} : p.Current ↔
    ∀ a i v, p.unrealizedCache.get (a, i) = some v → v = p.computeUnrealizedPnL a i := by
  refine forall₂_congr fun a i => ?_
  unfold unrealizedPnL
  cases p.unrealizedCache.get (a, i) <;> simp

theorem current_new (c : Cache) : (new c).Current := by
  rw [current_iff]
  intro a i v h
  cases (OrdMap.get_empty (a, i)).symm.trans h

/-! ### What an operation does to positions, marks and remembered profits -/

section Effects

variable {p p' p'' : Portfolio}

/-- The mark and the remembered profit of an instrument are the same. -/
def SameAt (p p' : Portfolio) (k : AccountID × InstrumentID) : Prop :=
  p'.unrealizedCache.get k = p.unrealizedCache.get k ∧ p'.marks.get k = p.marks.get k

/-- The positions stay, and where a mark may have changed the profit is
forgotten. -/
structure Marked (p p' : Portfolio) : Prop where
  positions : HoldsPositions p.cache.positions p.cache.positionInst p'.cache
  each : ∀ k, SameAt p p' k ∨ p'.unrealizedCache.get k = none

/-- A position was stored, and the profit of at most one instrument is
forgotten. -/
structure Wrote (position : PositionStatusReport) (told : Option (AccountID × InstrumentID))
    (p p' : Portfolio) : Prop where
  positions : p'.cache.positions =
    p.cache.positions.put (position.accountID, position.positionID) position
  positionInst : p'.cache.positionInst =
    p.cache.positionInst.put (position.accountID, position.instrumentID) position.positionID
  forgotten : ∀ k, told = some k → p'.unrealizedCache.get k = none
  rest : ∀ k, told ≠ some k → SameAt p p' k

theorem Marked.refl (p : Portfolio) : Marked p p := ⟨⟨rfl, rfl⟩, fun _ => .inl ⟨rfl, rfl⟩⟩

theorem Marked.trans (h : Marked p p') (h' : Marked p' p'') : Marked p p'' := by
  refine ⟨⟨h'.positions.1.trans h.positions.1, h'.positions.2.trans h.positions.2⟩, fun k => ?_⟩
  rcases h'.each k with hsame | hnone
  · rcases h.each k with hfirst | hfirst
    · exact .inl ⟨hsame.1.trans hfirst.1, hsame.2.trans hfirst.2⟩
    · exact .inr (hsame.1.trans hfirst)
  · exact .inr hnone

theorem marked_setMark (p : Portfolio) (a : AccountID) (i : InstrumentID) (price : Decimal) :
    Marked p (p.setMark a i price) := by
  refine ⟨⟨rfl, rfl⟩, fun k => ?_⟩
  by_cases hk : k = (a, i)
  · subst hk
    exact .inr (OrdMap.get_delete_self ..)
  · exact .inl ⟨OrdMap.get_delete_of_ne _ hk, OrdMap.get_put_of_ne _ hk _⟩

theorem marked_invalidatePnL (p : Portfolio) (a : AccountID) (i : InstrumentID) :
    Marked p (p.invalidatePnL a i) := by
  refine ⟨⟨rfl, rfl⟩, fun k => ?_⟩
  by_cases hk : k = (a, i)
  · subst hk
    exact .inr (OrdMap.get_delete_self ..)
  · exact .inl ⟨OrdMap.get_delete_of_ne _ hk, rfl⟩

theorem marked_invalidateAccountPnL (p : Portfolio) (a : AccountID) :
    Marked p (p.invalidateAccountPnL a) := by
  refine ⟨⟨rfl, rfl⟩, fun k => ?_⟩
  have hget : (p.invalidateAccountPnL a).unrealizedCache.get k =
      if k.1 = a then none else p.unrealizedCache.get k := OrdMap.get_deleteRow ..
  by_cases hk : k.1 = a
  · exact .inr (by rw [hget, if_pos hk])
  · exact .inl ⟨by rw [hget, if_neg hk], rfl⟩

/-- A change of the cache that leaves the positions alone. -/
theorem marked_onCache {c : Cache}
    (h : HoldsPositions p.cache.positions p.cache.positionInst c) :
    Marked p { p with cache := c } := ⟨h, fun _ => .inl ⟨rfl, rfl⟩⟩

/-! ### The profit of an instrument after a position was stored -/

/-- Storing the position makes it the position of the instrument. -/
def ReadAt (c : Cache) (position : PositionStatusReport) (a : AccountID) (i : InstrumentID) :
    Prop :=
  a = position.accountID ∧
    (i = position.instrumentID ∨ c.positionInst.get (a, i) = some position.positionID)

theorem Wrote.positionByInstrument {q : PositionStatusReport}
    {told : Option (AccountID × InstrumentID)} (h : Wrote q told p p') (a : AccountID)
    (i : InstrumentID) :
    (ReadAt p.cache q a i → p'.cache.positionByInstrument a i = some q) ∧
      (¬ ReadAt p.cache q a i →
        p'.cache.positionByInstrument a i = p.cache.positionByInstrument a i) := by
  unfold Cache.positionByInstrument
  rw [h.positions, h.positionInst]
  constructor
  · rintro ⟨rfl, hi⟩
    by_cases hself : i = q.instrumentID
    · subst hself
      simp
    · have hne : (q.accountID, i) ≠ (q.accountID, q.instrumentID) := by simp [hself]
      rw [OrdMap.get_put_of_ne _ hne, hi.resolve_left hself]
      simp
  · intro hnot
    have hne : (a, i) ≠ (q.accountID, q.instrumentID) := by
      intro heq
      cases heq
      exact hnot ⟨rfl, .inl rfl⟩
    rw [OrdMap.get_put_of_ne _ hne]
    cases hid : p.cache.positionInst.get (a, i) with
    | none => rfl
    | some id =>
      refine OrdMap.get_put_of_ne _ ?_ _
      intro heq
      cases heq
      exact hnot ⟨rfl, .inr hid⟩

/-- Every remembered profit that is not forgotten, of an instrument that the
position will be read for, is the profit of the position. -/
def Fits (p : Portfolio) (position : PositionStatusReport)
    (told : Option (AccountID × InstrumentID)) : Prop :=
  ∀ i v, ReadAt p.cache position position.accountID i → told ≠ some (position.accountID, i) →
    p.unrealizedCache.get (position.accountID, i) = some v →
      v = profitAt (p.markOf position.accountID i) position

theorem computeUnrealizedPnL_congr {a : AccountID} {i : InstrumentID}
    (hposition : p'.cache.positionByInstrument a i = p.cache.positionByInstrument a i)
    (hmark : p'.marks.get (a, i) = p.marks.get (a, i)) :
    p'.computeUnrealizedPnL a i = p.computeUnrealizedPnL a i := by
  rw [computeUnrealizedPnL_eq, computeUnrealizedPnL_eq, markOf, markOf, hposition, hmark]

theorem Marked.current (h : Marked p p') (hp : p.Current) : p'.Current := by
  rw [current_iff] at hp ⊢
  intro a i v hv
  rcases h.each (a, i) with hsame | hnone
  · have hposition : p'.cache.positionByInstrument a i = p.cache.positionByInstrument a i := by
      rw [Cache.positionByInstrument, Cache.positionByInstrument, h.positions.1, h.positions.2]
    rw [computeUnrealizedPnL_congr hposition hsame.2]
    exact hp a i v (hsame.1 ▸ hv)
  · cases hnone.symm.trans hv

theorem current_unrealizedPnL (hp : p.Current) (a : AccountID) (i : InstrumentID) :
    (p.unrealizedPnL a i).2.Current := by
  rw [current_iff] at hp ⊢
  intro b j v hv
  unfold unrealizedPnL at hv ⊢
  cases hget : p.unrealizedCache.get (a, i) with
  | some value =>
    simp only [hget] at hv ⊢
    exact hp b j v hv
  | none =>
    simp only [hget] at hv ⊢
    change v = p.computeUnrealizedPnL b j
    rw [OrdMap.get_put] at hv
    split at hv
    · next heq =>
        cases heq
        cases hv
        rfl
    · exact hp b j v hv

theorem Wrote.current_iff {q : PositionStatusReport} {told : Option (AccountID × InstrumentID)}
    (h : Wrote q told p p') (hp : p.Current) : p'.Current ↔ Fits p q told := by
  rw [Portfolio.current_iff] at hp ⊢
  constructor
  · intro hcurrent i v hread htold hv
    have hsame := h.rest _ htold
    rw [hcurrent q.accountID i v (hsame.1.trans hv), computeUnrealizedPnL_eq,
      (h.positionByInstrument _ i).1 hread, markOf, markOf, hsame.2]
    rfl
  · intro hfits a i v hv
    by_cases htold : told = some (a, i)
    · cases (h.forgotten _ htold).symm.trans hv
    have hsame := h.rest _ htold
    by_cases hread : ReadAt p.cache q a i
    · obtain rfl := hread.1
      rw [computeUnrealizedPnL_eq, (h.positionByInstrument _ i).1 hread, markOf, hsame.2]
      exact hfits i v hread htold (hsame.1 ▸ hv)
    · rw [computeUnrealizedPnL_congr ((h.positionByInstrument a i).2 hread) hsame.2]
      exact hp a i v (hsame.1 ▸ hv)

end Effects

/-! ### Operations -/

/-- What can happen to a portfolio and its cache. -/
inductive Op where
  | fill (fill : FillReport)
  | fillWithPosition (fill : FillReport) (previous : Option PositionStatusReport)
      (position : PositionStatusReport)
  | market (event : MarketEvent)
  | mark (accountID : AccountID) (instrumentID : InstrumentID) (price : Decimal)
  | execution (event : ExecutionEvent)
  /-- The reconciler applies an event to the cache. -/
  | reconciled (event : ExecutionEvent)
  | query (accountID : AccountID) (instrumentID : InstrumentID)

section Operations

variable [DecimalPackage] {p p' : Portfolio}

def Op.program : Op → Prog Portfolio Err Unit
  | .fill report => applyFill report
  | .fillWithPosition report previous position => applyFillWithPosition report previous position
  | .market event => applyMarketEvent event
  | .mark accountID instrumentID price => Prog.modify (·.setMark accountID instrumentID price)
  | .execution event => handleExecutionEvent event
  | .reconciled event => onCache (Account.apply event)
  | .query accountID instrumentID =>
    Prog.modify fun p => (p.unrealizedPnL accountID instrumentID).2

/-- The portfolio after an operation, whether it succeeds or fails. -/
def perform (p : Portfolio) (op : Op) : Portfolio := (op.program.run p).2

/-- The position that a fill stores, with the instrument whose profit it makes the
portfolio forget: its own, if the balances allow the fill. -/
def accountingWrite (p : Portfolio) (fill : FillReport) (previous : Option PositionStatusReport)
    (position : PositionStatusReport) :
    Option (PositionStatusReport × Option (AccountID × InstrumentID)) :=
  if p.hasAppliedFill fill = false ∧ position.validate.isOk then
    some (position,
      if ((applyFillBalanceDeltas fill ((realizedDelta fill previous).getD 0)).run
          p.cache).1.isOk then
        some (fill.accountID, fill.instrumentID)
      else none)
  else none

def fillWrite (p : Portfolio) (fill : FillReport) :
    Option (PositionStatusReport × Option (AccountID × InstrumentID)) :=
  if fill.validate.isOk then
    p.accountingWrite (withDefaultSide fill)
      (p.cache.positionByInstrument fill.accountID fill.instrumentID)
      (nextPosition p.cache (withDefaultSide fill))
  else none

def positionWrite (position : PositionStatusReport) :
    Option (PositionStatusReport × Option (AccountID × InstrumentID)) :=
  if position.validate.isOk then
    some (position, some (position.accountID, position.instrumentID))
  else none

/-- The position that an operation stores, and the instrument whose profit is then
forgotten. -/
def written (p : Portfolio) :
    Op → Option (PositionStatusReport × Option (AccountID × InstrumentID))
  | .fill fill => p.fillWrite fill
  | .fillWithPosition fill previous position =>
    if fill.validate.isOk then p.accountingWrite (withDefaultSide fill) previous position
    else none
  | .execution event =>
    match event.validate, event.account, event.order, event.lifecycle, event.fill,
        event.position, event.positionLifecycle with
    | .ok (), none, none, none, some fill, _, _ => p.fillWrite fill
    | .ok (), none, none, none, none, some position, _ => positionWrite position
    | .ok (), none, none, none, none, none, some lifecycle =>
      positionWrite (positionOfLifecycle lifecycle)
    | _, _, _, _, _, _, _ => none
  | .reconciled event =>
    match event.validate, event.account, event.order, event.fill, event.position with
    | .ok (), none, none, none, some position => some (position, none)
    | _, _, _, _, _ => none
  | _ => none

/-- Nothing that is remembered is out of date after the operation. -/
def Spares (p : Portfolio) (op : Op) : Prop :=
  ∀ position told, p.written op = some (position, told) → p.Fits position told

/-- What an operation that stores `write` does. -/
inductive Effect (p : Portfolio) :
    Option (PositionStatusReport × Option (AccountID × InstrumentID)) → Portfolio → Prop where
  | marked {p' : Portfolio} (h : Marked p p') : Effect p none p'
  | asked (a : AccountID) (i : InstrumentID) : Effect p none (p.unrealizedPnL a i).2
  | wrote {p' : Portfolio} {position : PositionStatusReport}
      {told : Option (AccountID × InstrumentID)} (h : Wrote position told p p') :
      Effect p (some (position, told)) p'

theorem Effect.current_iff {op : Op} (h : Effect p (p.written op) p') (hp : p.Current) :
    p'.Current ↔ p.Spares op := by
  unfold Spares
  generalize p.written op = w at h
  cases h with
  | marked h => simp [h.current hp]
  | asked a i => simp [current_unrealizedPnL hp a i]
  | wrote h =>
    rw [h.current_iff hp]
    constructor
    · rintro hfits _ _ ⟨⟩
      exact hfits
    · exact fun hspares => hspares _ _ rfl

/-! ### Every operation has its effect -/

/-- Whether the balances allow a fill depends on accounts and instruments only. -/
theorem result_applyFillBalanceDeltas {c c' : Cache} {f : FillReport} {pnl : Decimal}
    (haccounts : c'.accounts = c.accounts) (hinstruments : c'.instruments = c.instruments) :
    ((applyFillBalanceDeltas f pnl).run c').1 = ((applyFillBalanceDeltas f pnl).run c).1 := by
  have hcurrency : pnlCurrency c' f.instrumentID = pnlCurrency c f.instrumentID := by
    rw [pnlCurrency, pnlCurrency, Cache.instrument, Cache.instrument, hinstruments]
  have hdeltas : fillDeltas c' f pnl = fillDeltas c f pnl := by
    simp only [fillDeltas, hcurrency]
  have haccount : c'.account f.accountID = c.account f.accountID := by
    rw [Cache.account, Cache.account, haccounts]
  rw [applyFillBalanceDeltas, Prog.run_get_bind, Prog.run_get_bind, hdeltas, haccount]
  dsimp only
  split
  · rfl
  · rfl
  · rw [Prog.run_bind, Prog.run_bind, Prog.run_lift, Prog.run_lift]
    cases accountWithBalanceDeltas _ _ <;> rfl

theorem entered_marks (p : Portfolio) (f : FillReport) (previous : Option PositionStatusReport) :
    (p.entered f previous).marks = p.marks ∧
      (p.entered f previous).unrealizedCache = p.unrealizedCache := by
  unfold entered applyRealizedPnLFromPosition applyCommission markAppliedFill
  cases realizedDelta f previous with
  | none =>
    dsimp only
    split <;> exact ⟨rfl, rfl⟩
  | some pnl =>
    dsimp only
    split <;> exact ⟨rfl, rfl⟩

theorem isOk_validate {position : PositionStatusReport} :
    position.validate.isOk = true ↔ position.WellFormed := by
  rw [← PositionStatusReport.validate_eq_ok]
  cases position.validate with
  | ok u => exact ⟨fun _ => rfl, fun _ => rfl⟩
  | error e => exact ⟨nofun, nofun⟩

section Accounting

variable {f : FillReport} {previous : Option PositionStatusReport} {q : PositionStatusReport}

/-- Balances and the mark of a fill, after its position has been stored. -/
theorem wrote_tail {r : Portfolio} (hr : Wrote q none p r)
    (haccounts : r.cache.accounts = p.cache.accounts)
    (hinstruments : r.cache.instruments = p.cache.instruments) (pnl : Decimal) :
    Wrote q (if ((applyFillBalanceDeltas f pnl).run p.cache).1.isOk then
        some (f.accountID, f.instrumentID) else none) p
      ((do
        onCache (applyFillBalanceDeltas f pnl)
        Prog.modify (·.setMark f.accountID f.instrumentID f.price) :
          Prog Portfolio Err Unit).run r).2 := by
  have hresult : ((applyFillBalanceDeltas f pnl).run r.cache).1 =
      ((applyFillBalanceDeltas f pnl).run p.cache).1 :=
    result_applyFillBalanceDeltas haccounts hinstruments
  have hframe := positions_applyFillBalanceDeltas f pnl r.cache
  rw [← hresult]
  match hrun : (applyFillBalanceDeltas f pnl).run r.cache with
  | (.error err, c) =>
    have hzoom : (onCache (applyFillBalanceDeltas f pnl)).run r =
        (.error err, { r with cache := c }) := Prog.run_zoom hrun
    rw [hrun] at hframe
    rw [Prog.run_bind_error hzoom]
    exact ⟨hframe.1.trans hr.positions, hframe.2.trans hr.positionInst, nofun,
      fun k _ => hr.rest k nofun⟩
  | (.ok u, c) =>
    have hzoom : (onCache (applyFillBalanceDeltas f pnl)).run r =
        (.ok u, { r with cache := c }) := Prog.run_zoom hrun
    rw [hrun] at hframe
    rw [Prog.run_bind_ok hzoom, Prog.run_modify]
    refine ⟨hframe.1.trans hr.positions, hframe.2.trans hr.positionInst, ?_, fun k hk => ?_⟩
    · rintro k ⟨⟩
      exact OrdMap.get_delete_self ..
    · have hne : k ≠ (f.accountID, f.instrumentID) := fun heq => hk (congrArg some heq.symm)
      have hsame := hr.rest k nofun
      exact ⟨(OrdMap.get_delete_of_ne _ hne).trans hsame.1,
        (OrdMap.get_put_of_ne _ hne _).trans hsame.2⟩

theorem effect_applyFillAccounting (hf : f.WellFormed) :
    Effect p (p.accountingWrite f previous q) ((applyFillAccounting f previous q).run p).2 := by
  unfold accountingWrite
  cases hnew : p.hasAppliedFill f with
  | true =>
    rw [if_neg (fun h => (by cases h.1)), applyFillAccounting, Prog.run_get_bind, if_pos hnew]
    exact .marked (.refl p)
  | false =>
    obtain ⟨c, hsame, hrun⟩ := run_applyFillAccounting_new hf hnew previous q
    have hcache := (entered_fields { p with cache := c } f previous).2.2
    obtain ⟨hmarks, hmemo⟩ := entered_marks { p with cache := c } f previous
    rw [hrun]
    by_cases hq : q.WellFormed
    · rw [if_pos ⟨rfl, isOk_validate.mpr hq⟩, Prog.run_bind_ok (run_putPosition hq)]
      refine .wrote (wrote_tail ⟨?_, ?_, fun _ h => (by cases h), fun k _ => ⟨?_, ?_⟩⟩ ?_ ?_ _)
      · dsimp only
        rw [Cache.positions_storePosition, hcache, hsame.positions]
      · dsimp only
        rw [Cache.positionInst_storePosition, hcache, hsame.positionInst]
      · dsimp only
        rw [hmemo]
      · dsimp only
        rw [hmarks]
      · dsimp only
        rw [Cache.accounts_storePosition, hcache, hsame.accounts]
      · dsimp only
        rw [Cache.instruments_storePosition, hcache, hsame.instruments]
    · obtain ⟨e, herror⟩ :=
        run_putPosition_error (p := { p with cache := c }.entered f previous) hq
      rw [if_neg fun h => hq (isOk_validate.mp h.2), Prog.run_bind_error herror]
      refine .marked ⟨⟨?_, ?_⟩, fun k => .inl ⟨?_, ?_⟩⟩
      · rw [hcache, hsame.positions]
      · rw [hcache, hsame.positionInst]
      · rw [hmemo]
      · rw [hmarks]

theorem effect_applyFillWithPosition (f : FillReport) (previous : Option PositionStatusReport)
    (q : PositionStatusReport) :
    Effect p (if f.validate.isOk then p.accountingWrite (withDefaultSide f) previous q else none)
      ((applyFillWithPosition f previous q).run p).2 := by
  cases hvalid : f.validate with
  | error err =>
    rw [applyFillWithPosition, hvalid, Prog.run_bind_error (Prog.run_lift ..)]
    exact .marked (.refl p)
  | ok u =>
    rw [applyFillWithPosition, hvalid, Prog.run_bind_ok (Prog.run_lift ..)]
    exact effect_applyFillAccounting
      (withDefaultSide_wellFormed (FillReport.validate_eq_ok.mp hvalid))

/-- A fill comes with the position of its instrument and the one it leads to. -/
theorem run_applyFill_eq (f : FillReport) (p : Portfolio) : (applyFill f).run p =
    (applyFillWithPosition f (p.cache.positionByInstrument f.accountID f.instrumentID)
      (nextPosition p.cache (withDefaultSide f))).run p := by
  rw [applyFill, applyFillWithPosition, Prog.run_bind, Prog.run_bind, Prog.run_lift]
  obtain ⟨haccount, hinstrument, -⟩ := withDefaultSide_ids f
  cases f.validate with
  | error err => rfl
  | ok u =>
    dsimp only
    rw [Prog.run_get_bind, haccount, hinstrument]

theorem effect_applyFill (f : FillReport) : Effect p (p.fillWrite f) ((applyFill f).run p).2 := by
  rw [run_applyFill_eq]
  exact effect_applyFillWithPosition f _ _

end Accounting

theorem wrote_markAtEntry {r : Portfolio} {q : PositionStatusReport}
    (h : Wrote q (some (q.accountID, q.instrumentID)) p r) :
    Wrote q (some (q.accountID, q.instrumentID)) p (r.markAtEntry q) := by
  unfold markAtEntry
  split
  · refine ⟨h.positions, h.positionInst, ?_, fun k hk => ?_⟩
    · rintro k ⟨⟩
      exact OrdMap.get_delete_self ..
    · have hne : k ≠ (q.accountID, q.instrumentID) := fun heq => hk (congrArg some heq.symm)
      exact ⟨(OrdMap.get_delete_of_ne _ hne).trans (h.rest k hk).1,
        (OrdMap.get_put_of_ne _ hne _).trans (h.rest k hk).2⟩
  · exact h

theorem effect_putPosition (q : PositionStatusReport) :
    Effect p (positionWrite q) ((putPosition q).run p).2 := by
  unfold positionWrite
  by_cases hq : q.WellFormed
  · rw [if_pos (isOk_validate.mpr hq), putPosition, Prog.run_bind_ok (run_putPosition hq)]
    refine .wrote (wrote_markAtEntry ⟨Cache.positions_storePosition ..,
      Cache.positionInst_storePosition .., ?_,
      fun k hk => ⟨OrdMap.get_delete_of_ne _ fun heq => hk (congrArg some heq.symm), rfl⟩⟩)
    rintro k ⟨⟩
    exact OrdMap.get_delete_self ..
  · obtain ⟨e, herror⟩ := run_putPosition_error (p := p) hq
    rw [if_neg fun h => hq (isOk_validate.mp h), putPosition, Prog.run_bind_error herror]
    exact .marked (.refl p)

theorem marked_putOrder (order : OrderStatusReport) : Marked p ((putOrder order).run p).2 := by
  have hcache := keepsPositions_putOrder order p.cache ⟨rfl, rfl⟩
  rw [putOrder, Prog.run_bind]
  match hrun : (Prog.update (·.putOrder order) : Prog Cache Err Unit).run p.cache with
  | (.error err, c) =>
    rw [hrun] at hcache
    have hzoom : (onCache (Prog.update (·.putOrder order))).run p =
        (.error err, { p with cache := c }) := Prog.run_zoom hrun
    rw [hzoom]
    exact marked_onCache hcache
  | (.ok u, c) =>
    rw [hrun] at hcache
    have hzoom : (onCache (Prog.update (·.putOrder order))).run p =
        (.ok u, { p with cache := c }) := Prog.run_zoom hrun
    rw [hzoom]
    exact (marked_onCache hcache).trans (marked_invalidatePnL ..)

theorem marked_updateAccount (account : AccountSnapshot) :
    Marked p ((updateAccount account).run p).2 := by
  rw [updateAccount, Prog.run_bind, Prog.run_lift]
  cases account.validate with
  | error err => exact .refl p
  | ok u =>
    have hstored : Marked p { p with cache := p.cache.putAccount account } :=
      marked_onCache ⟨rfl, rfl⟩
    exact hstored.trans (marked_invalidateAccountPnL ..)

theorem marked_applyMarketEvent (event : MarketEvent) :
    Marked p ((applyMarketEvent event).run p).2 := by
  have hfold : ∀ (positions : List PositionStatusReport) (r : Portfolio),
      Marked r (positions.foldl (markPosition event) r) := by
    intro positions
    induction positions with
    | nil => exact .refl
    | cons q positions ih =>
      intro r
      refine Marked.trans ?_ (ih (markPosition event r q))
      unfold markPosition
      split
      · exact .refl r
      · split
        · exact marked_setMark ..
        · exact .refl r
  rw [applyMarketEvent, Prog.run_bind, Prog.run_lift]
  cases hvalid : event.validate with
  | error err => exact .refl p
  | ok u =>
    have hput : (onCache (Prog.update (·.putMarketEvent event))).run p =
        (.ok (), { p with cache := p.cache.storeMarketEvent event }) := by
      refine Prog.run_zoom (Prog.run_update_ok ?_)
      rw [Cache.putMarketEvent, hvalid]
      rfl
    dsimp only
    rw [Prog.run_bind_ok hput, Prog.run_modify]
    refine Marked.trans (marked_onCache ?_) (hfold _ _)
    obtain ⟨_, _, _, _, _, _, heq⟩ := Cache.marketOnly_storeMarketEvent p.cache event
    rw [heq]
    exact ⟨rfl, rfl⟩

theorem effect_handleExecutionEvent (event : ExecutionEvent) :
    Effect p (p.written (.execution event)) ((handleExecutionEvent event).run p).2 := by
  rw [handleExecutionEvent, Prog.run_bind, Prog.run_lift, written]
  cases event.validate with
  | error err => exact .marked (.refl p)
  | ok u =>
    cases event.account with
    | some account => exact .marked (marked_updateAccount account)
    | none =>
      cases event.order with
      | some order => exact .marked (marked_putOrder order)
      | none =>
        cases event.lifecycle with
        | some lifecycle =>
          refine .marked ?_
          change Marked p ((handleOrderLifecycleEvent lifecycle).run p).2
          unfold handleOrderLifecycleEvent
          split
          · exact marked_putOrder _
          · split
            · exact .refl p
            · exact marked_putOrder _
        | none =>
          cases event.fill with
          | some fill => exact effect_applyFill fill
          | none =>
            cases event.position with
            | some position => exact effect_putPosition position
            | none =>
              cases event.positionLifecycle with
              | some lifecycle => exact effect_putPosition _
              | none => exact .marked (.refl p)

theorem effect_reconciled (event : ExecutionEvent) :
    Effect p (p.written (.reconciled event)) ((onCache (Account.apply event)).run p).2 := by
  have hrun := run_apply_positions p.cache event
  rw [written]
  change Effect p _ { p with cache := ((Account.apply event).run p.cache).2 }
  -- only a position report reaches the positions, and no profit is forgotten
  revert hrun
  cases event.validate with
  | error err => exact fun hrun => .marked (marked_onCache hrun)
  | ok u =>
    cases event.account with
    | some account => exact fun hrun => .marked (marked_onCache hrun)
    | none =>
      cases event.order with
      | some order => exact fun hrun => .marked (marked_onCache hrun)
      | none =>
        cases event.fill with
        | some fill => exact fun hrun => .marked (marked_onCache hrun)
        | none =>
          cases event.position with
          | none => exact fun hrun => .marked (marked_onCache hrun)
          | some q =>
            intro hrun
            dsimp only at hrun ⊢
            rw [hrun]
            exact .wrote ⟨Cache.positions_storePosition ..,
              Cache.positionInst_storePosition .., nofun, fun k _ => ⟨rfl, rfl⟩⟩

theorem effect_perform (op : Op) : Effect p (p.written op) (p.perform op) := by
  cases op with
  | fill f => exact effect_applyFill f
  | fillWithPosition f previous q => exact effect_applyFillWithPosition f previous q
  | market event => exact .marked (marked_applyMarketEvent event)
  | mark a i price => exact .marked (marked_setMark p a i price)
  | execution event => exact effect_handleExecutionEvent event
  | reconciled event => exact effect_reconciled event
  | query a i => exact .asked a i

/-! ### Runs -/

/-- The profits are current throughout a run exactly if every operation spares
what is remembered. -/
theorem profits_current_iff (c : Cache) (ops : List Op) :
    Throughout (fun pre => (pre.foldl perform (new c)).Current) ops ↔
      Along (fun pre op => (pre.foldl perform (new c)).Spares op) ops := by
  induction ops using List.reverseRecOn with
  | nil => simp [throughout_nil, along_nil, current_new]
  | append_singleton ops op ih =>
    rw [throughout_concat, along_concat, ih, List.foldl_append]
    refine and_congr_right fun hspares => ?_
    have hcurrent : (ops.foldl perform (new c)).Current :=
      ih.mpr hspares ops (List.prefix_refl ops)
    exact (effect_perform op).current_iff hcurrent

end Operations

/-! ### A position report of the reconciler -/

def memoInstrument : InstrumentID := ⟨"BTC-USDT-PERP", "BINANCE"⟩

/-- A long position of a quantity, entered at 100. -/
def memoPosition (quantity : Decimal) : PositionStatusReport :=
  { accountID := "acct", instrumentID := memoInstrument, positionID := "position-1", side := .long
    quantity := quantity, entryPrice := 100, timestamp := 1 }

/-- A position of 1 is reported to the portfolio, marked at 110 and asked for its
profit. The reconciler then stores a report of 3. -/
def staleRun : List Op :=
  [.execution (.ofPosition (memoPosition 1)), .mark "acct" memoInstrument 110,
    .query "acct" memoInstrument, .reconciled (.ofPosition (memoPosition 3))]

/-- The portfolio says 10 where the position and the mark give 30. -/
theorem profit_stale_after_report :
    (unrealizedPnL (staleRun.foldl (@perform exactDecimals) (new Cache.new)) "acct"
        memoInstrument).1 = 10 ∧
      computeUnrealizedPnL (staleRun.foldl (@perform exactDecimals) (new Cache.new)) "acct"
        memoInstrument = 30 := by
  decide +kernel

end Exchanges.Portfolio
