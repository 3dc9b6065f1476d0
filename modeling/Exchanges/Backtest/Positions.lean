import Exchanges.Backtest.CacheSteps
import Exchanges.Portfolio.Effects

/-!
Positions and fills of a backtest.

A fill and the position that it leads to are booked together, before any
strategy hears of either. Wherever a run is interrupted by a strategy, the
cached positions are therefore the sums of the recorded fills, if they were so
to begin with. Trades are numbered, which makes every fill a new one, and the
position of an instrument is stored under the name of the instrument, which
keeps the positions of two instruments apart.
-/

namespace Exchanges.Backtest

open Exchanges.Lib Exchanges.Model Exchanges.Cache
open Exchanges.Account (samplePerp HoldsPositions)

set_option linter.unusedSectionVars false

section Positions

variable [DecimalPackage] {c c' : Cache} {f : FillReport} {a : AccountID} {i : InstrumentID}

/-! ### Where positions are stored -/

/-- Every position is stored under the name of an instrument, and indexed for
that instrument only. -/
structure Keyed (c : Cache) : Prop where
  ids : ∀ {a i id}, c.positionInst.get (a, i) = some id →
    id = i.string ∧ i.validate = .ok () ∧ ∃ p, c.positions.get (a, id) = some p
  positions : ∀ {a id p}, c.positions.get (a, id) = some p →
    ∃ i : InstrumentID, i.validate = .ok () ∧ i.string = id ∧
      c.positionInst.get (a, i) = some id

theorem Keyed.congr (h : Keyed c) (hc : HoldsPositions c.positions c.positionInst c') :
    Keyed c' := by
  obtain ⟨hpositions, hids⟩ := hc
  refine ⟨?_, ?_⟩
  · rw [hpositions, hids]
    exact h.ids
  · rw [hpositions, hids]
    exact h.positions

/-- In such a cache the position of an instrument is found under its name. -/
theorem Keyed.positionByInstrument (h : Keyed c) (hi : i.validate = .ok ()) :
    c.positionByInstrument a i = c.positions.get (a, i.string) := by
  cases hid : c.positionInst.get (a, i) with
  | some id =>
    obtain ⟨rfl, -, -⟩ := h.ids hid
    simp [Cache.positionByInstrument, hid]
  | none =>
    cases hp : c.positions.get (a, i.string) with
    | none => simp [Cache.positionByInstrument, hid]
    | some p =>
      obtain ⟨i', hi', hname, hid'⟩ := h.positions hp
      obtain rfl := InstrumentID.string_injective hi' hi hname
      simp [hid] at hid'

theorem Keyed.afterFill (h : Keyed c) (f : FillReport) : Keyed (cacheAfterFill c f) := by
  obtain hsame | ⟨hf, -, hpositions, hids⟩ := positions_cacheAfterFill c f
  · exact h.congr hsame
  · rw [(nextPosition_ids c f).2.1] at hpositions hids
    refine ⟨fun {a i id} hid => ?_, fun {a id p} hp => ?_⟩
    · rw [hids, OrdMap.get_put] at hid
      rw [hpositions]
      split_ifs at hid with hkey
      · obtain ⟨rfl, rfl⟩ := Prod.mk.inj hkey
        cases hid
        exact ⟨rfl, hf.instrument, _, OrdMap.get_put_self ..⟩
      · obtain ⟨rfl, hi, p, hp⟩ := h.ids hid
        refine ⟨rfl, hi, ?_⟩
        rw [OrdMap.get_put]
        split_ifs
        · exact ⟨_, rfl⟩
        · exact ⟨p, hp⟩
    · rw [hpositions, OrdMap.get_put] at hp
      rw [hids]
      split_ifs at hp with hkey
      · obtain ⟨rfl, rfl⟩ := Prod.mk.inj hkey
        exact ⟨f.instrumentID, hf.instrument, rfl, OrdMap.get_put_self ..⟩
      · obtain ⟨i, hi, rfl, hid⟩ := h.positions hp
        refine ⟨i, hi, rfl, ?_⟩
        rw [OrdMap.get_put_of_ne, hid]
        intro heq
        obtain ⟨rfl, rfl⟩ := Prod.mk.inj heq
        exact hkey rfl

/-- The position that the cache has of an account in an instrument, negative if
it is short. -/
def cachedPosition (c : Cache) (a : AccountID) (i : InstrumentID) : Decimal :=
  match c.positionByInstrument a i with
  | none => 0
  | some position => signedPosition position

/-! ### What a fill does to a position -/

theorem signedPosition_sideFromSigned (value : Decimal) {p : PositionStatusReport}
    (hside : p.side = sideFromSigned value) (hquantity : p.quantity = |value|) :
    signedPosition p = value := by
  rcases lt_trichotomy value 0 with hneg | rfl | hpos
  · simp [signedPosition, hside, hquantity, sideFromSigned, hneg, hneg.le, abs_of_neg hneg]
  · simp [signedPosition, hside, hquantity, sideFromSigned]
  · simp [signedPosition, hside, hquantity, sideFromSigned, hpos, abs_of_pos hpos]

theorem signedPosition_nextPosition (c : Cache) (f : FillReport) :
    signedPosition (nextPosition c f) =
      ((c.position f.accountID f.instrumentID.string).map signedPosition).getD 0 +
        signedFill f := by
  unfold nextPosition
  dsimp only
  cases c.position f.accountID f.instrumentID.string with
  | none => by_cases hside : f.side = .sell <;> simp [signedPosition, signedFill, hside]
  | some existing => exact signedPosition_sideFromSigned _ rfl rfl

theorem Keyed.cachedPosition_eq (h : Keyed c) (hi : i.validate = .ok ()) :
    cachedPosition c a i =
      ((c.position a i.string).map signedPosition).getD 0 := by
  rw [cachedPosition, h.positionByInstrument hi, Cache.position]
  cases c.positions.get (a, i.string) with
  | none => rfl
  | some p => rfl

/-- A fill that has led to a position has moved that of its account and
instrument by its quantity, and no other one. -/
theorem Keyed.cachedPosition_moved (h : Keyed c) (hf : f.WellFormed)
    (hkeyed : Keyed c')
    (hpositions : c'.positions =
      c.positions.put (f.accountID, f.instrumentID.string) (nextPosition c f))
    (hids : c'.positionInst =
      c.positionInst.put (f.accountID, f.instrumentID) f.instrumentID.string) :
    cachedPosition c' a i = cachedPosition c a i +
      if f.accountID = a ∧ f.instrumentID = i then signedFill f else 0 := by
  split_ifs with hkey
  · obtain ⟨rfl, rfl⟩ := hkey
    rw [hkeyed.cachedPosition_eq hf.instrument, h.cachedPosition_eq hf.instrument,
      ← signedPosition_nextPosition, Cache.position, hpositions, OrdMap.get_put_self]
    rfl
  · -- another instrument of the account has another name
    have hother : c'.positionByInstrument a i = c.positionByInstrument a i := by
      have hid : c'.positionInst.get (a, i) = c.positionInst.get (a, i) := by
        rw [hids, OrdMap.get_put_of_ne]
        intro heq
        obtain ⟨rfl, rfl⟩ := Prod.mk.inj heq
        exact hkey ⟨rfl, rfl⟩
      unfold Cache.positionByInstrument
      rw [hid]
      cases hget : c.positionInst.get (a, i) with
      | none => rfl
      | some id =>
        obtain ⟨rfl, hi, -⟩ := h.ids hget
        change c'.positions.get (a, i.string) = c.positions.get (a, i.string)
        rw [hpositions, OrdMap.get_put_of_ne]
        intro heq
        obtain ⟨rfl, hname⟩ := Prod.mk.inj heq
        exact hkey ⟨rfl, InstrumentID.string_injective hf.instrument hi hname.symm⟩
    rw [cachedPosition, cachedPosition, hother, add_zero]

theorem nextPosition_wellFormed [AmountDivision] (hc : Portfolio.Amounts c)
    (hf : f.WellFormed) : (nextPosition c f).WellFormed := by
  obtain ⟨haccount, hid, hinstrument⟩ := nextPosition_ids c f
  refine ⟨haccount ▸ hf.accountID_ne, hid ▸ InstrumentID.string_ne_empty hf.instrument,
    hinstrument ▸ hf.instrument, ?_, ?_⟩
  · unfold nextPosition
    dsimp only
    cases hget : c.position f.accountID f.instrumentID.string with
    | none => exact hf.price_pos.le
    | some existing =>
      obtain ⟨hquantity, hentry⟩ := hc _ existing hget
      have hprice := hf.price_pos
      have hfilled := hf.quantity_pos
      dsimp only
      split_ifs with hadds
      · exact AmountDivision.div_nonneg _ _ (by positivity) hadds.2
      · exact hentry
      · exact hprice.le
  · unfold nextPosition
    dsimp only
    split
    · dsimp only
      split_ifs <;> simp
    · dsimp only
      unfold sideFromSigned
      split_ifs <;> simp

theorem amounts_afterFill (hc : Portfolio.Amounts c) (hf : f.WellFormed)
    (hposition : (nextPosition c f).WellFormed)
    (hpositions : c'.positions =
      c.positions.put (f.accountID, f.instrumentID.string) (nextPosition c f)) :
    Portfolio.Amounts c' := by
  intro key p hget
  rw [hpositions, OrdMap.get_put] at hget
  split_ifs at hget
  · cases hget
    refine ⟨?_, hposition.entryPrice_nonneg⟩
    unfold nextPosition
    dsimp only
    split
    · exact hf.quantity_pos.le
    · exact abs_nonneg _
  · exact hc key p hget

/-! ### Recorded fills -/

/-- The fills of an account in an instrument that the cache has recorded. -/
def recordedFills (c : Cache) (a : AccountID) (i : InstrumentID) : List FillReport :=
  (c.fills.entries.map (·.2)).filter fun f => f.accountID = a ∧ f.instrumentID = i

/-- The sum of the signed quantities of the recorded fills. -/
def netFilled (c : Cache) (a : AccountID) (i : InstrumentID) : Decimal :=
  ((recordedFills c a i).map signedFill).sum

theorem netFilled_congr (h : c'.fills = c.fills) : netFilled c' a i = netFilled c a i := by
  rw [netFilled, netFilled, recordedFills, recordedFills, h]

theorem netFilled_new (hnew : c.fills.get (fillKey f) = none)
    (hfills : c'.fills = c.fills.put (fillKey f) f) :
    netFilled c' a i = netFilled c a i +
      if f.accountID = a ∧ f.instrumentID = i then signedFill f else 0 := by
  have hperm : (recordedFills c' a i).Perm
      ((f :: c.fills.entries.map (·.2)).filter fun f => f.accountID = a ∧ f.instrumentID = i) := by
    rw [recordedFills, hfills]
    exact ((OrdMap.entries_put_perm hnew f).map Prod.snd).filter _
  rw [netFilled, (hperm.map signedFill).sum_eq, netFilled, recordedFills, List.filter_cons]
  split_ifs with hdec hkey hkey
  · rw [List.map_cons, List.sum_cons, add_comm]
  · exact absurd (of_decide_eq_true hdec) hkey
  · exact absurd (decide_eq_true hkey) hdec
  · rw [add_zero]

/-! ### The positions add up -/

/-- The cached position of every account and instrument is the sum of the
signed quantities of the fills recorded for it. -/
def PositionsAddUp (c : Cache) : Prop :=
  ∀ a i, cachedPosition c a i = netFilled c a i

def tradeName (n : Nat) : TradeID := "bt-trade-" ++ toString n

theorem tradeName_injective {m n : Nat} (h : tradeName m = tradeName n) : m = n :=
  Nat.repr_injective ((String.append_right_inj _).mp h)

theorem Fits.tradeID {cfg : Config} {V : OrderStatusReport → Prop} {r : Runtime} {m : Matched}
    (h : Fits cfg V r m) : m.fill.tradeID = tradeName (r.nextTrade + 1) := by
  obtain ⟨drawn, quantity, ts, hfill⟩ := h.fill
  rw [hfill]
  simp [rawFill, tradeName]

/-- What a run that starts without fills and positions preserves. -/
structure Balanced (r : Runtime) : Prop where
  sound : Sound r.cache
  keyed : Keyed r.cache
  amounts : Portfolio.Amounts r.cache
  numbered : ∀ key f, r.cache.fills.get key = some f →
    ∃ n ≤ r.nextTrade, f.tradeID = tradeName n
  addUp : PositionsAddUp r.cache

section Steps

variable {cfg : Config} {V : OrderStatusReport → Prop} {r r' : Runtime} {m : Matched}

theorem Balanced.of_sameBooks (h : Balanced r) (hsound : Sound r'.cache)
    (hbooks : SameBooks r.cache r'.cache) (htrade : r.nextTrade ≤ r'.nextTrade) :
    Balanced r' where
  sound := hsound
  keyed := h.keyed.congr ⟨hbooks.positions, hbooks.positionInst⟩
  amounts := by
    unfold Portfolio.Amounts
    rw [hbooks.positions]
    exact h.amounts
  numbered key f hget := by
    rw [hbooks.fills] at hget
    obtain ⟨n, hle, hname⟩ := h.numbered key f hget
    exact ⟨n, hle.trans htrade, hname⟩
  addUp a i := by
    rw [netFilled_congr hbooks.fills, ← h.addUp a i, cachedPosition, cachedPosition,
      Cache.positionByInstrument, Cache.positionByInstrument, hbooks.positions,
      hbooks.positionInst]

theorem Plain.nextTrade (h : Plain cfg V r r') : r'.nextTrade = r.nextTrade := by
  cases h with
  | internal same => exact same.nextTrade
  | listed list =>
    obtain ⟨_, _, heq⟩ := indexOrderList_eq list r
    rw [heq]
  | _ => rfl

/-- A trade that gets the next number is a new one. -/
theorem Balanced.new (h : Balanced r) (fits : Fits cfg V r m) :
    r.cache.fills.get (fillKey m.fill) = none := by
  cases hget : r.cache.fills.get (fillKey m.fill) with
  | none => rfl
  | some g =>
    obtain ⟨n, hle, hname⟩ := h.numbered _ g hget
    have hkey := (h.sound.reachable.validated.fills _ g hget).1
    have htrade : g.tradeID = m.fill.tradeID := congrArg Prod.snd hkey
    rw [hname, fits.tradeID] at htrade
    have := tradeName_injective htrade
    omega

theorem Balanced.booked [AmountDivision] (h : Balanced r) (fits : Fits cfg V r m) (drawn : Nat) :
    Balanced (booked r m drawn) := by
  obtain ⟨pf, heq⟩ := booked_eq r m drawn
  rw [heq]
  by_cases hf : m.fill.WellFormed
  · have hnew := h.new fits
    have hposition := nextPosition_wellFormed h.amounts hf
    have hcache := cacheAfterFill_new h.sound.reachable hf hnew hposition
    obtain ⟨hfills, hdeferred, hpositions, hids⟩ :=
      filledNew_storePosition r.cache m.fill
    rw [← hcache] at hfills hdeferred hpositions hids
    have hkeyed : Keyed (cacheAfterFill r.cache m.fill) := h.keyed.afterFill m.fill
    refine ⟨⟨reachable_cacheAfterFill h.sound.reachable _, fun key => ?_⟩, hkeyed,
      amounts_afterFill h.amounts hf hposition hpositions, fun key g hget => ?_, fun a i => ?_⟩
    · rw [hdeferred]
      exact h.sound.noneDeferred key
    · change (cacheAfterFill r.cache m.fill).fills.get key = some g at hget
      rw [hfills, OrdMap.get_put] at hget
      split_ifs at hget
      · cases hget
        exact ⟨r.nextTrade + 1, le_rfl, fits.tradeID⟩
      · obtain ⟨n, hle, hname⟩ := h.numbered key g hget
        exact ⟨n, hle.trans (Nat.le_succ _), hname⟩
    · change cachedPosition (cacheAfterFill r.cache m.fill) a i =
        netFilled (cacheAfterFill r.cache m.fill) a i
      rw [h.keyed.cachedPosition_moved hf hkeyed hpositions hids, netFilled_new hnew hfills,
        h.addUp a i]
  · have hsame : cacheAfterFill r.cache m.fill = r.cache := cacheAfterFill_invalid hf
    refine h.of_sameBooks ?_ ?_ (Nat.le_succ _)
    · rw [hsame]
      exact h.sound
    · rw [hsame]
      exact .refl _

/-- Market data and the clock leave the books alone. -/
theorem stable_balanced [AmountDivision] (setup : Setup) :
    Stable (fun r => Balanced r ∧ ∀ t c, .callback t c ∈ r.trace → PositionsAddUp c)
      (AnyMove setup) := by
  rintro r r' hmove ⟨hr, htrace⟩
  refine ⟨?_, fun t c hmem => ?_⟩
  · cases hmove with
    | step step =>
      cases step with
      | plain step =>
        exact hr.of_sameBooks (step.sound hr.sound) (step.sameBooks hr.sound)
          step.nextTrade.ge
      | filled drawn fits guard => exact hr.booked fits drawn
    | clock tick t due => exact hr.of_sameBooks hr.sound (.refl _) le_rfl
    | @market event now =>
      obtain ⟨_, _, heq⟩ := rememberEvent_eq event r
      rw [Runtime.withMarket, heq]
      exact hr.of_sameBooks hr.sound (.refl _) le_rfl
  · obtain ⟨matched, hextends, -⟩ := hmove.extends
    rcases hextends.mem hmem with hold | hnew
    · exact htrace t c hold
    · cases hnew
      exact hr.addUp

end Steps

/-- A cache without positions. -/
structure WithoutPositions (c : Cache) : Prop where
  positions : ∀ key, c.positions.get key = none
  positionInst : ∀ key, c.positionInst.get key = none

theorem WithoutPositions.keyed (h : WithoutPositions c) : Keyed c := by
  refine ⟨fun {a i id} hid => ?_, fun {a id p} hp => ?_⟩
  · cases (h.positionInst _).symm.trans hid
  · cases (h.positions _).symm.trans hp

/-- A cache that can be built from an empty one, without positions and without
fills, also deferred ones. -/
structure WithoutFillsOrPositions (c : Cache) : Prop extends WithoutPositions c where
  reachable : Reachable c
  fills : ∀ key, c.fills.get key = none
  deferredFills : ∀ key, c.deferredFills.get key = none

theorem WithoutFillsOrPositions.balanced (h : WithoutFillsOrPositions c) (p : Portfolio) :
    Balanced (initial c p) where
  sound := ⟨h.reachable, h.deferredFills⟩
  keyed := h.keyed
  amounts key p hp := by cases (h.positions _).symm.trans hp
  numbered key f hf := by cases (h.fills _).symm.trans hf
  addUp a i := by
    have hnone : recordedFills c a i = [] := by
      refine List.eq_nil_iff_forall_not_mem.mpr fun f hmem => ?_
      obtain ⟨⟨key, f'⟩, hentry, -⟩ := List.mem_map.mp (List.mem_filter.mp hmem).1
      cases (h.fills key).symm.trans (OrdMap.mem_entries.mp hentry)
    have hposition : c.positionByInstrument a i = none := by
      simp [Cache.positionByInstrument, h.positionInst]
    change cachedPosition c a i = netFilled c a i
    rw [cachedPosition, hposition, netFilled, hnone]
    rfl

/-- Whenever a strategy is called, from the runner or from inside an operation,
the cached positions are the sums of the recorded fills. -/
theorem positions_add_up [AmountDivision] (setup : Setup) (p : Portfolio)
    (hc : WithoutFillsOrPositions c) :
    ∀ t c', .callback t c' ∈ (setup.result c p).trace → PositionsAddUp c' :=
  (of_result (stable_balanced setup) ⟨hc.balanced p, fun t c' hmem => by simp [initial] at hmem⟩).2

/-! ### The numbers of the trades -/

/-- The trade ids of the fills, in the order in which they were booked. -/
def tradeIDs (trace : List Entry) : List TradeID :=
  trace.filterMap fun
    | .filled _ _ _ m => some m.fill.tradeID
    | _ => none

/-- The fills so far are numbered in order, with the numbers given so far. -/
def Numbered (r : Runtime) : Prop :=
  (tradeIDs r.trace).Sublist ((List.range r.nextTrade).map fun n => tradeName (n + 1))

theorem stable_numbered (setup : Setup) : Stable Numbered (AnyMove setup) := by
  intro r r' hmove hr
  have hkeeps : ∀ entries, r'.trace = r.trace ++ entries → tradeIDs entries = [] →
      r'.nextTrade = r.nextTrade → Numbered r' := by
    intro entries htrace hnone hnext
    rw [Numbered, htrace, tradeIDs, List.filterMap_append, ← tradeIDs, ← tradeIDs, hnone,
      List.append_nil, hnext]
    exact hr
  cases hmove with
  | step step =>
    cases step with
    | plain step =>
      obtain heq | ⟨e, heq, hidle⟩ := step.trace
      · exact hkeeps [] (heq.trans (List.append_nil _).symm) rfl step.nextTrade
      · refine hkeeps [e] heq ?_ step.nextTrade
        cases e <;> first | rfl | exact hidle.elim
    | @filled m drawn fits guard =>
      obtain ⟨pf, heq⟩ := booked_eq r m drawn
      have hname : (tradeIDs (fillEntries r m)).Sublist [tradeName (r.nextTrade + 1)] := by
        rw [← fits.tradeID]
        obtain h | h | h := fillEntries_cases r m <;> rw [h]
        · exact List.nil_sublist _
        · exact .refl _
        · exact .refl _
      rw [heq, Numbered, tradeIDs, List.filterMap_append, List.range_succ, List.map_append]
      exact hr.append hname
  | clock tick t due => exact hkeeps _ rfl rfl rfl
  | @market event now =>
    obtain ⟨_, _, heq⟩ := rememberEvent_eq event r
    rw [Runtime.withMarket, heq] at hkeeps ⊢
    exact hkeeps _ rfl rfl rfl

/-- The fills of a run are numbered in the order in which they are booked, and no number is
given to two of them. -/
theorem trades_numbered (setup : Setup) (c : Cache) (p : Portfolio) :
    (tradeIDs (setup.result c p).trace).Sublist
        ((List.range (setup.result c p).nextTrade).map fun n => tradeName (n + 1)) ∧
      (tradeIDs (setup.result c p).trace).Nodup := by
  have h := of_result (stable_numbered setup) (c := c) (p := p) (List.nil_sublist _)
  refine ⟨h, h.nodup (List.nodup_range.map fun m n heq => ?_)⟩
  exact Nat.succ.inj (tradeName_injective heq)

end Positions

/-! ### A buy -/

/-- A buy of one at 100. -/
def sampleBuy : SubmitOrder :=
  { accountID := "acct", instrumentID := samplePerp, clientOrderID := "buy", side := .buy
    type := .limit, quantity := 1, price := 100 }

def sampleAsks (t : Time) (asks : List OrderBookLevel) : Event :=
  ⟨t, .marketData,
    .market { orderBook := some { instrumentID := samplePerp, asks := asks, timestamp := t } }⟩

/-- A strategy that buys when it sees a book. -/
def buyOnBook : Strategy := .answering "buyer"
  (fun event => if event.orderBook.isSome then [.submitOrder sampleBuy] else []) fun _ => []

def boughtSetup : Setup :=
  { strategies := [buyOnBook], events := [sampleAsks 1 [⟨100, 2⟩]], depth := 2, timers := 1 }

/-- The entry tells of a call at which the position was `position`. -/
def Entry.seesPosition (position : Decimal) : Entry → Bool
  | .callback _ c => decide (cachedPosition c "acct" samplePerp = position)
  | _ => false

theorem positions_add_up_bought :
    (@Setup.result exactDecimals boughtSetup Cache.new (Portfolio.new Cache.new)).trace.any
        (Entry.seesPosition 1) = true ∧
      ∀ t c', .callback t c' ∈
        (@Setup.result exactDecimals boughtSetup Cache.new (Portfolio.new Cache.new)).trace →
          PositionsAddUp c' := by
  refine ⟨by decide +kernel, ?_⟩
  have hempty : WithoutFillsOrPositions Cache.new :=
    ⟨⟨OrdMap.get_empty, OrdMap.get_empty⟩, .new, OrdMap.get_empty, OrdMap.get_empty⟩
  exact @positions_add_up exactDecimals Cache.new amountDivision_exactDecimals boughtSetup
    (Portfolio.new Cache.new) hempty

end Exchanges.Backtest
