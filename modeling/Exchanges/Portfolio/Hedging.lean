import Exchanges.Lib.History
import Exchanges.Portfolio.Conservation

/-!
Several positions of one account and instrument.

A fill is added to the position that it names, but the profit that it realizes
is taken against the position of the instrument that was stored last, and the
unrealized profit is that of this one position. The two agree as long as a fill
names the position stored last, or finds that position flat: then all other
positions are flat too (`Sound`), and nothing is missed. The first fill that
names another position while the last one is open breaks the totals, since the
open position drops out of them (`profit_of_positions_iff`).
-/

namespace Exchanges.Portfolio

open Exchanges.Lib Exchanges.Model

set_option linter.unusedSectionVars false

section

variable [DecimalPackage]

/-- The portfolio after a fill, whether it is refused or not. -/
def afterFill (p : Portfolio) (f : FillReport) : Portfolio := ((applyFill f).run p).2

def afterFills (p : Portfolio) (fs : List FillReport) : Portfolio := fs.foldl afterFill p

/-- The fill realizes its profit against the position that it names. -/
def RealizesOwn (p : Portfolio) (f : FillReport) : Prop :=
  realizedDelta f (p.cache.positionByInstrument f.accountID f.instrumentID) =
    realizedDelta f (p.cache.position f.accountID (fillPositionID f))

/-- Realized and unrealized profit are together what the fills have earned, at
any mark. -/
def Totals (a : AccountID) (i : InstrumentID) (fs : List FillReport) (p : Portfolio) : Prop :=
  ∀ m, 0 < m → p.realizedPnL a i + ((p.setMark a i m).unrealizedPnL a i).1 = earned m fs

/-- The position of the instrument that was stored last is the one that the fill
names, or is flat. -/
def OwnOrFlat (p : Portfolio) (f : FillReport) : Prop :=
  ∀ position, p.cache.positionByInstrument f.accountID f.instrumentID = some position →
    position.positionID = fillPositionID f ∨ position.quantity = 0

/-! ### What the fills of a position add up to -/

def fillsAt (a : AccountID) (x : PositionID) (fs : List FillReport) : List FillReport :=
  fs.filter fun f => decide (f.accountID = a ∧ fillPositionID f = x)

/-- Every position of the account is that of its fills, and the index of the
instrument names the position of the last fill. -/
structure Tracks (a : AccountID) (i : InstrumentID) (seen : List FillReport) (p : Portfolio) :
    Prop where
  amounts : Amounts p.cache
  applied : ∀ f, p.hasAppliedFill f = true ↔ Cache.fillKey f ∈ seen.map Cache.fillKey
  none : ∀ x, fillsAt a x seen = [] → p.cache.position a x = none
  held : ∀ x, fillsAt a x seen ≠ [] → ∃ position, p.cache.position a x = some position ∧
    position.positionID = x ∧ IsNet position (netQuantity (fillsAt a x seen))
  last : p.cache.positionInst.get (a, i) =
    (fillsOf a i seen).getLast?.map fillPositionID

/-- The position stored last carries the totals, and all others of the instrument
are flat. -/
structure Sound (a : AccountID) (i : InstrumentID) (seen : List FillReport) (p : Portfolio) :
    Prop where
  net : netQuantity (fillsOf a i seen) =
    ((p.cache.positionByInstrument a i).map signedPosition).getD 0
  realized : p.realizedPnL a i =
    ((p.cache.positionByInstrument a i).map fun q => signedPosition q * q.entryPrice).getD 0 -
      netCost (fillsOf a i seen)
  flat : ∀ x, p.cache.positionInst.get (a, i) ≠ some x →
    (∃ f ∈ fillsOf a i seen, fillPositionID f = x) → netQuantity (fillsAt a x seen) = 0

variable {a : AccountID} {i : InstrumentID} {seen fs : List FillReport} {p p' : Portfolio}
  {f : FillReport}

/-! ### One fill -/

section Step

variable (hf : f.WellFormed) (hside : f.side = .buy ∨ f.side = .sell)
include hf hside

theorem booked_afterFill [AmountDivision] (hamounts : Amounts p.cache)
    (hnew : p.hasAppliedFill f = false) : Booked p f (afterFill p f) := by
  have hdefault : withDefaultSide f = f := by
    apply withDefaultSide_of_ne
    rcases hside with h | h <;> simp [h]
  have hbooked := booked_of_new hf hnew
    (nextPosition_wellFormed hamounts (withDefaultSide_wellFormed hf))
  rwa [hdefault] at hbooked

/-- The value of a position at its entry price changes by what is paid for the
fill and by what the fill realizes on it. -/
theorem value_nextPosition [ExactDivision] {c : Cache}
    (hown : ∀ q, c.position f.accountID (fillPositionID f) = some q →
      IsNet q (signedPosition q)) :
    signedPosition (nextPosition c f) * (nextPosition c f).entryPrice =
      ((c.position f.accountID (fillPositionID f)).map
          fun q => signedPosition q * q.entryPrice).getD 0 +
        fillSignedQuantity f * f.price +
        (realizedDelta f (c.position f.accountID (fillPositionID f))).getD 0 := by
  rw [signedPosition_nextPosition hf.quantity_pos]
  unfold nextPosition
  dsimp only
  cases hget : c.position f.accountID (fillPositionID f) with
  | none => simp [realizedDelta]
  | some q =>
    have hentry := mul_entryAfter q f (signedPosition q + fillSignedQuantity f)
    rw [entryAfter] at hentry
    simp only [Option.map_some, Option.getD_some]
    rw [hentry, entry_value_next hf.quantity_pos hside (hown q hget)]

end Step

theorem fillsAt_append_self (hfa : f.accountID = a) :
    fillsAt a (fillPositionID f) (seen ++ [f]) = fillsAt a (fillPositionID f) seen ++ [f] := by
  simp [fillsAt, hfa]

theorem fillsAt_append_of_ne {x : PositionID} (h : ¬ (f.accountID = a ∧ fillPositionID f = x)) :
    fillsAt a x (seen ++ [f]) = fillsAt a x seen := by
  simp [fillsAt, h]

theorem fillsOf_append_self (h : f.accountID = a ∧ f.instrumentID = i) :
    fillsOf a i (seen ++ [f]) = fillsOf a i seen ++ [f] := by
  simp [fillsOf, h]

theorem fillsOf_append_of_ne (h : ¬ (f.accountID = a ∧ f.instrumentID = i)) :
    fillsOf a i (seen ++ [f]) = fillsOf a i seen := by
  simp [fillsOf, h]

theorem position_booked (hbook : Booked p f p') (x : PositionID) :
    p'.cache.position a x =
      if f.accountID = a ∧ fillPositionID f = x then some (nextPosition p.cache f)
      else p.cache.position a x := by
  rw [Cache.position, hbook.positions, OrdMap.get_put]
  by_cases h : f.accountID = a ∧ fillPositionID f = x
  · rw [if_pos h, if_pos (Prod.ext h.1.symm h.2.symm)]
  · have hne : (a, x) ≠ (f.accountID, fillPositionID f) :=
      fun heq => h ⟨(congrArg Prod.fst heq).symm, (congrArg Prod.snd heq).symm⟩
    rw [if_neg h, if_neg hne]
    rfl

theorem positionInst_booked (hbook : Booked p f p') :
    p'.cache.positionInst.get (a, i) =
      if f.accountID = a ∧ f.instrumentID = i then some (fillPositionID f)
      else p.cache.positionInst.get (a, i) := by
  rw [hbook.positionInst, OrdMap.get_put]
  by_cases h : f.accountID = a ∧ f.instrumentID = i
  · rw [if_pos h, if_pos (Prod.ext h.1.symm h.2.symm)]
  · have hne : (a, i) ≠ (f.accountID, f.instrumentID) :=
      fun heq => h ⟨(congrArg Prod.fst heq).symm, (congrArg Prod.snd heq).symm⟩
    rw [if_neg h, if_neg hne]

/-- The position of the fill is then the one stored last. -/
theorem current_booked (hof : f.accountID = a ∧ f.instrumentID = i) (hbook : Booked p f p') :
    p'.cache.positionInst.get (a, i) = some (fillPositionID f) ∧
      p'.cache.positionByInstrument a i = some (nextPosition p.cache f) := by
  have hinst : p'.cache.positionInst.get (a, i) = some (fillPositionID f) := by
    rw [positionInst_booked hbook, if_pos hof]
  have hposition : p'.cache.position a (fillPositionID f) = _ := position_booked hbook _
  rw [if_pos ⟨hof.1, rfl⟩] at hposition
  refine ⟨hinst, ?_⟩
  rw [Cache.positionByInstrument, hinst]
  exact hposition

namespace Tracks

/-- A new fill is one more fill tracked. -/
theorem book [AmountDivision] (h : Tracks a i seen p) (hf : f.WellFormed)
    (hbook : Booked p f p') : Tracks a i (seen ++ [f]) p' := by
  refine ⟨fun k q hq => ?_, fun g => ?_, fun x hx => ?_, fun x hx => ?_, ?_⟩
  · rw [hbook.positions, OrdMap.get_put] at hq
    split at hq
    · cases hq
      exact amounts_nextPosition h.amounts hf
    · exact h.amounts k q hq
  · have hg := h.applied g
    simp only [hasAppliedFill, hbook.applied, OrdMap.get_put] at hg ⊢
    split
    · next heq => simp [heq]
    · next hne => simp [hg, hne]
  · rw [position_booked hbook]
    split
    · next hfx =>
        rw [← hfx.2, fillsAt_append_self hfx.1] at hx
        simp at hx
    · next hfx =>
        rw [fillsAt_append_of_ne hfx] at hx
        exact h.none x hx
  · rw [position_booked hbook]
    split
    · next hfx =>
        obtain ⟨rfl, rfl⟩ := hfx
        refine ⟨_, rfl, (nextPosition_ids p.cache f).2.1, ?_⟩
        rw [fillsAt_append_self rfl, netQuantity_append]
        have hnet := isNet_nextPosition (c := p.cache) hf.quantity_pos
        by_cases hnil : fillsAt f.accountID (fillPositionID f) seen = []
        · rw [h.none _ hnil] at hnet
          rw [hnil]
          exact hnet
        · obtain ⟨q, hq, -, hqnet⟩ := h.held _ hnil
          rw [hq, Option.map_some, Option.getD_some, signedPosition_of_isNet hqnet] at hnet
          exact hnet
    · next hfx =>
        rw [fillsAt_append_of_ne hfx] at hx ⊢
        exact h.held x hx
  · rw [positionInst_booked hbook]
    split
    · next hfi => rw [fillsOf_append_self hfi, List.getLast?_concat, Option.map_some]
    · next hfi => rw [fillsOf_append_of_ne hfi, h.last]

/-- The position stored last, if there is any. -/
theorem current (h : Tracks a i seen p) :
    fillsOf a i seen = [] ∧ p.cache.positionInst.get (a, i) = Option.none ∧
        p.cache.positionByInstrument a i = Option.none ∨
      ∃ x q, p.cache.positionInst.get (a, i) = some x ∧
        p.cache.positionByInstrument a i = some q ∧ p.cache.position a x = some q ∧
        q.positionID = x ∧ IsNet q (netQuantity (fillsAt a x seen)) := by
  have hlast := h.last
  cases hfs : (fillsOf a i seen).getLast? with
  | none =>
    rw [hfs] at hlast
    exact .inl ⟨List.getLast?_eq_none_iff.mp hfs, hlast, by
      rw [Cache.positionByInstrument, hlast]
      rfl⟩
  | some g =>
    rw [hfs] at hlast
    have hg := List.mem_filter.mp (List.mem_of_getLast? hfs)
    have hmem : g ∈ fillsAt a (fillPositionID g) seen := by
      simp only [fillsAt, List.mem_filter, decide_eq_true_eq, and_true]
      exact ⟨hg.1, (of_decide_eq_true hg.2).1⟩
    obtain ⟨q, hq, hid, hnet⟩ := h.held _ (List.ne_nil_of_mem hmem)
    refine .inr ⟨_, q, hlast, ?_, hq, hid, hnet⟩
    rw [Cache.positionByInstrument, hlast]
    exact hq

/-- A profit that is right at every mark is right in its slope and its constant. -/
theorem totals_iff (h : Tracks a i seen p) : Totals a i (fillsOf a i seen) p ↔
    netQuantity (fillsOf a i seen) =
        ((p.cache.positionByInstrument a i).map signedPosition).getD 0 ∧
      p.realizedPnL a i =
        ((p.cache.positionByInstrument a i).map fun q => signedPosition q * q.entryPrice).getD 0 -
          netCost (fillsOf a i seen) := by
  have hunrealized (m : Decimal) (hm : 0 < m) : ((p.setMark a i m).unrealizedPnL a i).1 =
      ((p.cache.positionByInstrument a i).map signedPosition).getD 0 * m -
        ((p.cache.positionByInstrument a i).map fun q => signedPosition q * q.entryPrice).getD 0 := by
    rcases h.current with ⟨-, -, hnone⟩ | ⟨x, q, -, hq, -, -, hnet⟩
    · rw [unrealizedPnL_none hnone, hnone]
      simp
    · rw [unrealizedPnL_setMark hm hq hnet, hq]
      simp only [Option.map_some, Option.getD_some, signedPosition_of_isNet hnet]
      ring
  constructor
  · intro htotals
    have hone := htotals 1 one_pos
    have htwo := htotals 2 two_pos
    rw [hunrealized _ one_pos, earned_eq] at hone
    rw [hunrealized _ two_pos, earned_eq] at htwo
    constructor <;> linarith
  · rintro ⟨hnet, hrealized⟩ m hm
    rw [hunrealized m hm, earned_eq, hnet, hrealized]
    ring

end Tracks

/-! ### A fill of the instrument -/

/-- A position belongs to one instrument. -/
def OneInstrument (fs : List FillReport) : Prop :=
  ∀ f ∈ fs, ∀ g ∈ fs, f.accountID = g.accountID → fillPositionID f = fillPositionID g →
    f.instrumentID = g.instrumentID

theorem isNet_zero {q : PositionStatusReport} {net : Decimal} (h : IsNet q net)
    (hq : q.quantity = 0) : net = 0 := by
  rw [h.2] at hq
  exact abs_eq_zero.mp hq

theorem realizedDelta_flat {q : PositionStatusReport} (h : IsNet q 0) :
    realizedDelta f (some q) = none := by
  obtain ⟨hside, -⟩ := h
  rw [sideFromSigned_zero] at hside
  rw [realizedDelta, if_pos (.inl hside)]

section Own

variable (htracks : Tracks a i seen p) (hsound : Sound a i seen p)
  (hof : f.accountID = a ∧ f.instrumentID = i) (hone : OneInstrument (seen ++ [f]))
include htracks hsound hof hone

/-- A position other than the one stored last has no value and nothing to realize. -/
theorem own_flat (hid : p.cache.positionInst.get (a, i) ≠ some (fillPositionID f)) :
    p.cache.position a (fillPositionID f) = none ∨
      ∃ q, p.cache.position a (fillPositionID f) = some q ∧ IsNet q 0 := by
  by_cases hnil : fillsAt a (fillPositionID f) seen = []
  · exact .inl (htracks.none _ hnil)
  · obtain ⟨g, hg⟩ := List.exists_mem_of_ne_nil _ hnil
    obtain ⟨hseen, hat⟩ := List.mem_filter.mp hg
    obtain ⟨hga, hgx⟩ := of_decide_eq_true hat
    have hgi : g.instrumentID = f.instrumentID :=
      hone g (List.mem_append_left _ hseen) f (by simp) (hga.trans hof.1.symm) hgx
    have hgof : g ∈ fillsOf a i seen :=
      List.mem_filter.mpr ⟨hseen, decide_eq_true ⟨hga, hgi.trans hof.2⟩⟩
    obtain ⟨q, hq, -, hnet⟩ := htracks.held _ hnil
    rw [hsound.flat _ hid ⟨g, hgof, hgx⟩] at hnet
    exact .inr ⟨q, hq, hnet⟩

/-- When the position stored last is the fill's own or flat, it is worth as much
as the fill's own, and the fill realizes as much on it. -/
theorem own_agrees (hflat : OwnOrFlat p f) :
    RealizesOwn p f ∧
      ((p.cache.positionByInstrument a i).map signedPosition).getD 0 =
        ((p.cache.position a (fillPositionID f)).map signedPosition).getD 0 ∧
      ((p.cache.positionByInstrument a i).map fun q => signedPosition q * q.entryPrice).getD 0 =
        ((p.cache.position a (fillPositionID f)).map
          fun q => signedPosition q * q.entryPrice).getD 0 := by
  obtain ⟨ha, hi⟩ := hof
  rw [RealizesOwn, ha, hi]
  rw [OwnOrFlat, ha, hi] at hflat
  by_cases hid : p.cache.positionInst.get (a, i) = some (fillPositionID f)
  · have hown : p.cache.positionByInstrument a i = p.cache.position a (fillPositionID f) := by
      rw [Cache.positionByInstrument, hid]
      rfl
    rw [hown]
    exact ⟨rfl, rfl, rfl⟩
  -- both positions are flat or absent
  have hcurrent : p.cache.positionByInstrument a i = none ∨
      ∃ q, p.cache.positionByInstrument a i = some q ∧ IsNet q 0 := by
    rcases htracks.current with ⟨-, -, hnone⟩ | ⟨x, q, hx, hq, -, hqx, hnet⟩
    · exact .inl hnone
    · rcases hflat q hq with hsame | hzero
      · exact absurd (by rw [hx, ← hqx, hsame]) hid
      · rw [isNet_zero hnet hzero] at hnet
        exact .inr ⟨q, hq, hnet⟩
  have hsigned {q : PositionStatusReport} (h : IsNet q 0) : signedPosition q = 0 :=
    signedPosition_of_isNet h
  have hnothing : realizedDelta f none = none := rfl
  rcases hcurrent with hc | ⟨q, hc, hq⟩ <;>
    rcases own_flat htracks hsound ⟨ha, hi⟩ hone hid with ho | ⟨q', ho, hq'⟩ <;>
    simp [realizedDelta_flat, *]

/-- A fill of the instrument that meets the condition keeps the books sound. -/
theorem Sound.book [ExactDivision] (hf : f.WellFormed) (hside : f.side = .buy ∨ f.side = .sell)
    (hbook : Booked p f p') (hflat : OwnOrFlat p f) : Sound a i (seen ++ [f]) p' := by
  obtain ⟨hown, hsigned, hvalue⟩ := own_agrees htracks hsound hof hone hflat
  obtain ⟨hinst, hcurrent⟩ := current_booked hof hbook
  obtain ⟨rfl, rfl⟩ := hof
  have hrealized : p'.realizedPnL f.accountID f.instrumentID =
      p.realizedPnL f.accountID f.instrumentID + (realizedDelta f
        (p.cache.position f.accountID (fillPositionID f))).getD 0 := by
    rw [← hown, ← realizedPnL_applyRealized, realizedPnL, hbook.realized]
    rfl
  have hnets : ∀ q, p.cache.position f.accountID (fillPositionID f) = some q →
      IsNet q (signedPosition q) := by
    intro q hq
    by_cases hnil : fillsAt f.accountID (fillPositionID f) seen = []
    · rw [htracks.none _ hnil] at hq
      cases hq
    · obtain ⟨q', hq', -, hnet⟩ := htracks.held _ hnil
      cases hq'.symm.trans hq
      rwa [signedPosition_of_isNet hnet]
  refine ⟨?_, ?_, fun y hy hused => ?_⟩
  · rw [fillsOf_append_self ⟨rfl, rfl⟩, netQuantity_append, hsound.net, hcurrent, hsigned]
    exact (signedPosition_nextPosition hf.quantity_pos).symm
  · rw [fillsOf_append_self ⟨rfl, rfl⟩, netCost_append, hrealized, hcurrent, hsound.realized,
      hvalue]
    simp only [Option.map_some, Option.getD_some]
    rw [value_nextPosition hf hside hnets]
    ring
  · rw [hinst] at hy
    have hne : fillPositionID f ≠ y := fun heq => hy (congrArg some heq)
    rw [fillsAt_append_of_ne fun h => hne h.2]
    obtain ⟨g, hg, hgy⟩ := hused
    rw [fillsOf_append_self ⟨rfl, rfl⟩] at hg
    have hg : g ∈ fillsOf f.accountID f.instrumentID seen := by
      rcases List.mem_append.mp hg with hg | hg
      · exact hg
      · cases List.mem_singleton.mp hg
        exact absurd hgy hne
    by_cases hid : p.cache.positionInst.get (f.accountID, f.instrumentID) = some y
    · -- the position stored before was flat
      rcases htracks.current with ⟨-, hnone, -⟩ | ⟨x, q, hx, hq, -, hqx, hnet⟩
      · cases hnone.symm.trans hid
      · cases hx.symm.trans hid
        rcases hflat q hq with hsame | hzero
        · exact absurd (hsame.symm.trans hqx) hne
        · exact isNet_zero hnet hzero
    · exact hsound.flat y hid ⟨g, hg, hgy⟩

/-- A fill that names another position while the last one is open loses the last
one. -/
theorem ownOrFlat_of_totals [AmountDivision] (hf : f.WellFormed) (hbook : Booked p f p')
    (htotals : Totals a i (fillsOf a i (seen ++ [f])) p') : OwnOrFlat p f := by
  have hnext := ((htracks.book hf hbook).totals_iff.mp htotals).1
  have hcurrent := (current_booked hof hbook).2
  rw [hcurrent, fillsOf_append_self hof, netQuantity_append, hsound.net] at hnext
  simp only [Option.map_some, Option.getD_some] at hnext
  rw [signedPosition_nextPosition hf.quantity_pos, hof.1] at hnext
  rw [OwnOrFlat, hof.1, hof.2]
  intro q hq
  by_contra hboth
  obtain ⟨hother, hopen⟩ := not_or.mp hboth
  rcases htracks.current with ⟨-, -, hnone⟩ | ⟨x, q', hx, hq', -, hqx, hnet⟩
  · cases hnone.symm.trans hq
  cases hq'.symm.trans hq
  have hid : p.cache.positionInst.get (a, i) ≠ some (fillPositionID f) := by
    rw [hx, ← hqx]
    exact fun heq => hother (Option.some.inj heq)
  have hzero : ((p.cache.position a (fillPositionID f)).map signedPosition).getD 0 = 0 := by
    rcases own_flat htracks hsound hof hone hid with ho | ⟨q', ho, hq'⟩
    · rw [ho]
      rfl
    · rw [ho]
      exact signedPosition_of_isNet hq'
  rw [hq, hzero, Option.map_some, Option.getD_some, signedPosition_of_isNet hnet] at hnext
  have hnil : netQuantity (fillsAt a x seen) = 0 := by linarith
  apply hopen
  rw [hnet.2, hnil, abs_zero]

end Own

/-! ### Sequences of fills -/

/-- A fill of another account or instrument leaves the books sound. -/
theorem Sound.other (hsound : Sound a i seen p) (htracks : Tracks a i seen p)
    (hof : ¬ (f.accountID = a ∧ f.instrumentID = i)) (hone : OneInstrument (seen ++ [f]))
    (hbook : Booked p f p') : Sound a i (seen ++ [f]) p' := by
  -- the fill names none of the instrument's positions
  have hother {g : FillReport} (hg : g ∈ fillsOf a i seen) :
      ¬ (f.accountID = a ∧ fillPositionID f = fillPositionID g) := by
    rintro ⟨hfa, hid⟩
    obtain ⟨hseen, hat⟩ := List.mem_filter.mp hg
    obtain ⟨hga, hgi⟩ := of_decide_eq_true hat
    refine hof ⟨hfa, ?_⟩
    rw [hone f (by simp) g (List.mem_append_left _ hseen) (hfa.trans hga.symm) hid, hgi]
  have hinst : p'.cache.positionInst.get (a, i) = p.cache.positionInst.get (a, i) := by
    rw [positionInst_booked hbook, if_neg hof]
  have hcurrent : p'.cache.positionByInstrument a i = p.cache.positionByInstrument a i := by
    rw [Cache.positionByInstrument, Cache.positionByInstrument, hinst]
    have hlast := htracks.last
    cases hfs : (fillsOf a i seen).getLast? with
    | none =>
      rw [hfs] at hlast
      rw [hlast]
      rfl
    | some g =>
      rw [hfs] at hlast
      rw [hlast]
      have hposition : p'.cache.position a (fillPositionID g) = _ := position_booked hbook _
      rw [if_neg (hother (List.mem_of_getLast? hfs))] at hposition
      exact hposition
  have hrealized : p'.realizedPnL a i = p.realizedPnL a i := by
    rw [realizedPnL, hbook.realized]
    unfold applyRealizedPnLFromPosition
    split
    · rfl
    · have hne : (a, i) ≠ (f.accountID, f.instrumentID) :=
        fun heq => hof ⟨(congrArg Prod.fst heq).symm, (congrArg Prod.snd heq).symm⟩
      dsimp only
      rw [OrdMap.get_put_of_ne _ hne]
      rfl
  refine ⟨?_, ?_, fun x hx hused => ?_⟩
  · rw [fillsOf_append_of_ne hof, hcurrent, hsound.net]
  · rw [fillsOf_append_of_ne hof, hcurrent, hrealized, hsound.realized]
  · rw [hinst] at hx
    rw [fillsOf_append_of_ne hof] at hused
    obtain ⟨g, hg, rfl⟩ := hused
    rw [fillsAt_append_of_ne (hother hg)]
    exact hsound.flat _ hx ⟨g, hg, rfl⟩

theorem addDistinct_cases (seen : List FillReport) (f : FillReport) :
    Cache.fillKey f ∈ seen.map Cache.fillKey ∧ addDistinct seen f = seen ∨
      Cache.fillKey f ∉ seen.map Cache.fillKey ∧ addDistinct seen f = seen ++ [f] := by
  unfold addDistinct
  split
  · exact .inl ⟨‹_›, rfl⟩
  · exact .inr ⟨‹_›, rfl⟩

theorem mem_of_mem_distinctFills (hf : f ∈ distinctFills fs) : f ∈ fs := by
  induction fs using List.reverseRecOn with
  | nil => exact hf
  | append_singleton fs g ih =>
    rw [distinctFills, List.foldl_concat] at hf
    rcases addDistinct_cases (distinctFills fs) g with ⟨-, heq⟩ | ⟨-, heq⟩
    · exact List.mem_append_left _ (ih (heq ▸ hf))
    · rcases List.mem_append.mp (heq ▸ hf) with hf | hf
      · exact List.mem_append_left _ (ih hf)
      · exact List.mem_append_right _ hf

theorem distinctFills_concat (fs : List FillReport) (f : FillReport) :
    distinctFills (fs ++ [f]) = addDistinct (distinctFills fs) f := List.foldl_concat ..

theorem afterFills_concat (p : Portfolio) (fs : List FillReport) (f : FillReport) :
    afterFills p (fs ++ [f]) = afterFill (afterFills p fs) f := List.foldl_concat ..

theorem OneInstrument.of_subset {gs : List FillReport} (h : OneInstrument gs) (hsub : fs ⊆ gs) :
    OneInstrument fs :=
  fun f hf g hg => h f (hsub hf) g (hsub hg)

theorem OneInstrument.distinctFills_concat (h : OneInstrument (fs ++ [f])) :
    OneInstrument (distinctFills fs ++ [f]) := by
  refine h.of_subset fun g hg => ?_
  rcases List.mem_append.mp hg with hg | hg
  · exact List.mem_append_left _ (mem_of_mem_distinctFills hg)
  · exact List.mem_append_right _ hg

/-- No position of the account is stored, and nothing negative. -/
structure NoPositions (a : AccountID) (c : Cache) : Prop where
  amounts : Amounts c
  none : ∀ x, c.position a x = none
  unindexed : ∀ i, c.positionInst.get (a, i) = Option.none

def Tradable (fs : List FillReport) : Prop :=
  ∀ f ∈ fs, f.WellFormed ∧ (f.side = .buy ∨ f.side = .sell)

theorem tracks_afterFills [AmountDivision] {c : Cache} (hc : NoPositions a c)
    (hfs : Tradable fs) : Tracks a i (distinctFills fs) (afterFills (new c) fs) := by
  induction fs using List.reverseRecOn with
  | nil =>
    refine ⟨hc.amounts, fun f => ?_, fun x _ => hc.none x, fun x hx => absurd rfl hx,
      hc.unindexed i⟩
    simp [hasAppliedFill, afterFills, new, distinctFills]
  | append_singleton fs f ih =>
    have htracks := ih fun g hg => hfs g (List.mem_append_left _ hg)
    obtain ⟨hf, hside⟩ := hfs f (by simp)
    rw [distinctFills_concat, afterFills_concat]
    rcases addDistinct_cases (distinctFills fs) f with ⟨hmem, heq⟩ | ⟨hmem, heq⟩
    · rw [heq, afterFill, run_applyFill_applied hf ((htracks.applied f).mpr hmem)]
      exact htracks
    · have hnew : (afterFills (new c) fs).hasAppliedFill f = false := by
        rw [← Bool.not_eq_true, htracks.applied]
        exact hmem
      rw [heq]
      exact htracks.book hf (booked_afterFill hf hside htracks.amounts hnew)

/-- Every new fill of the instrument meets the condition. -/
def AllOwnOrFlat (a : AccountID) (i : InstrumentID) (p : Portfolio) (fs : List FillReport) :
    Prop :=
  ∀ pre f, pre ++ [f] <+: fs → f.accountID = a → f.instrumentID = i →
    (afterFills p pre).hasAppliedFill f = false → OwnOrFlat (afterFills p pre) f

theorem sound_afterFills [ExactDivision] {c : Cache} (hc : NoPositions a c) (hfs : Tradable fs)
    (hone : OneInstrument fs) (hall : AllOwnOrFlat a i (new c) fs) :
    Sound a i (distinctFills fs) (afterFills (new c) fs) := by
  induction fs using List.reverseRecOn with
  | nil =>
    have hcurrent : (new c).cache.positionByInstrument a i = none := by
      rw [Cache.positionByInstrument, show (new c).cache = c from rfl, hc.unindexed i]
      rfl
    refine ⟨?_, ?_, fun x _ h => absurd h.choose_spec.1 (by simp [fillsOf, distinctFills])⟩
    · change _ = (((new c).cache.positionByInstrument a i).map signedPosition).getD 0
      rw [hcurrent]
      rfl
    · change _ = (((new c).cache.positionByInstrument a i).map
        fun q => signedPosition q * q.entryPrice).getD 0 - _
      rw [hcurrent]
      simp [realizedPnL, afterFills, new, netCost, fillsOf, distinctFills]
  | append_singleton fs f ih =>
    have hbefore : Tradable fs := fun g hg => hfs g (List.mem_append_left _ hg)
    have hsound := ih hbefore (hone.of_subset (List.subset_append_left ..))
      fun pre g hpre => hall pre g (hpre.trans (List.prefix_append ..))
    have htracks := tracks_afterFills (i := i) hc hbefore
    obtain ⟨hf, hside⟩ := hfs f (by simp)
    rw [distinctFills_concat, afterFills_concat]
    rcases addDistinct_cases (distinctFills fs) f with ⟨hmem, heq⟩ | ⟨hmem, heq⟩
    · rw [heq, afterFill, run_applyFill_applied hf ((htracks.applied f).mpr hmem)]
      exact hsound
    · have hnew : (afterFills (new c) fs).hasAppliedFill f = false := by
        rw [← Bool.not_eq_true, htracks.applied]
        exact hmem
      have hbook := booked_afterFill hf hside htracks.amounts hnew
      have hseen := hone.distinctFills_concat
      rw [heq]
      by_cases hof : f.accountID = a ∧ f.instrumentID = i
      · exact hsound.book htracks hof hseen hf hside hbook
          (hall fs f (List.prefix_refl _) hof.1 hof.2 hnew)
      · exact hsound.other htracks hof hseen hbook

/-- Fills of any accounts and instruments, applied to a portfolio whose cache has
no position of the account. The totals are right after every fill, and every new
fill of the instrument realizes on its own position, exactly when every new fill
of the instrument names the position stored last or finds it flat. -/
theorem profit_of_positions_iff [ExactDivision] {c : Cache} (hc : NoPositions a c)
    (hfs : Tradable fs) (hone : OneInstrument fs) :
    ((∀ pre, pre <+: fs →
          Totals a i (fillsOf a i (distinctFills pre)) (afterFills (new c) pre)) ∧
        ∀ pre f, pre ++ [f] <+: fs → f.accountID = a → f.instrumentID = i →
          (afterFills (new c) pre).hasAppliedFill f = false →
          RealizesOwn (afterFills (new c) pre) f) ↔
      AllOwnOrFlat a i (new c) fs := by
  have hdistinct {pre : List FillReport} {f : FillReport} (hpre : pre ++ [f] <+: fs)
      (hnew : (afterFills (new c) pre).hasAppliedFill f = false) :
      distinctFills (pre ++ [f]) = distinctFills pre ++ [f] ∧
        Tracks a i (distinctFills pre) (afterFills (new c) pre) ∧
        Booked (afterFills (new c) pre) f (afterFills (new c) (pre ++ [f])) := by
    have htracks : Tracks a i (distinctFills pre) (afterFills (new c) pre) :=
      tracks_afterFills hc fun g hg => hfs g (hpre.subset (List.mem_append_left _ hg))
    obtain ⟨hf, hside⟩ := hfs f (hpre.subset (by simp))
    refine ⟨?_, htracks, ?_⟩
    · rcases addDistinct_cases (distinctFills pre) f with ⟨hmem, -⟩ | ⟨-, heq⟩
      · rw [(htracks.applied f).mpr hmem] at hnew
        cases hnew
      · rw [distinctFills_concat, heq]
    · rw [afterFills_concat]
      exact booked_afterFill hf hside htracks.amounts hnew
  constructor
  · rintro ⟨htotals, -⟩
    -- induction on the number of fills: up to here the condition has kept the books sound
    have hprefix (n : Nat) : ∀ pre f, pre.length < n → pre ++ [f] <+: fs → f.accountID = a →
        f.instrumentID = i → (afterFills (new c) pre).hasAppliedFill f = false →
        OwnOrFlat (afterFills (new c) pre) f := by
      induction n with
      | zero => exact fun pre f hlen => absurd hlen (Nat.not_lt_zero _)
      | succ n ih =>
        intro pre f hlen hpre hfa hfi hnew
        obtain ⟨hconcat, htracks, hbook⟩ := hdistinct hpre hnew
        have hone' : OneInstrument (pre ++ [f]) := hone.of_subset hpre.subset
        have hsound : Sound a i (distinctFills pre) (afterFills (new c) pre) := by
          refine sound_afterFills hc
            (fun g hg => hfs g (hpre.subset (List.mem_append_left _ hg)))
            (hone'.of_subset (List.subset_append_left ..)) fun pre' g hpre' => ?_
          have hlen' := hpre'.length_le
          rw [List.length_append, List.length_singleton] at hlen'
          exact ih pre' g (by omega) (hpre'.trans ((List.prefix_append ..).trans hpre))
        refine ownOrFlat_of_totals htracks hsound ⟨hfa, hfi⟩ hone'.distinctFills_concat
          (hfs f (hpre.subset (by simp))).1 hbook ?_
        rw [← hconcat]
        exact htotals _ hpre
    exact fun pre f => hprefix (pre.length + 1) pre f (Nat.lt_succ_self _)
  · intro hall
    have hsound {pre : List FillReport} (hpre : pre <+: fs) :
        Sound a i (distinctFills pre) (afterFills (new c) pre) :=
      sound_afterFills hc (fun g hg => hfs g (hpre.subset hg)) (hone.of_subset hpre.subset)
        fun pre' g hpre' => hall pre' g (hpre'.trans hpre)
    refine ⟨fun pre hpre => ?_, fun pre f hpre hfa hfi hnew => ?_⟩
    · have htracks : Tracks a i (distinctFills pre) (afterFills (new c) pre) :=
        tracks_afterFills hc fun g hg => hfs g (hpre.subset hg)
      exact htracks.totals_iff.mpr ⟨(hsound hpre).net, (hsound hpre).realized⟩
    · obtain ⟨-, htracks, -⟩ := hdistinct hpre hnew
      have hone' : OneInstrument (pre ++ [f]) := hone.of_subset hpre.subset
      exact (own_agrees htracks (hsound ((List.prefix_append ..).trans hpre)) ⟨hfa, hfi⟩
        hone'.distinctFills_concat (hall pre f hpre hfa hfi hnew)).1

end

/-! ### A hedge -/

/-- A long position of 5 and a short one of 2 in the same instrument, and then
the long one sold. -/
def hedgeFills : List FillReport :=
  let long : FillReport :=
    { accountID := "acct", instrumentID := ⟨"BTC-USDT-PERP", "BINANCE"⟩, orderID := "order-1",
      tradeID := "trade-1", positionID := "long", side := .buy, price := 100, quantity := 5,
      timestamp := 2 }
  let short := { long with orderID := "order-2", tradeID := "trade-2", positionID := "short",
                           side := .sell, price := 110, quantity := 2 }
  [long, short, { long with orderID := "order-3", tradeID := "trade-3", side := .sell,
                            price := 120 }]

theorem hedgeFills_tradable : Tradable hedgeFills := by
  have hvalid : ∀ f ∈ hedgeFills, f.validate = .ok () ∧ (f.side = .buy ∨ f.side = .sell) := by
    decide +kernel
  exact fun f hf => ⟨FillReport.validate_eq_ok.mp (hvalid f hf).1, (hvalid f hf).2⟩

theorem hedgeFills_oneInstrument : OneInstrument hedgeFills := by
  have hsame : ∀ f ∈ hedgeFills, f.instrumentID = ⟨"BTC-USDT-PERP", "BINANCE"⟩ := by
    decide +kernel
  exact fun f hf g hg _ _ => (hsame f hf).trans (hsame g hg).symm

theorem noPositions_new (a : AccountID) : NoPositions a Cache.new :=
  ⟨amounts_new, fun _ => OrdMap.get_empty _, fun _ => OrdMap.get_empty _⟩

theorem profit_of_positions_iff_sample :
    ((∀ pre, pre <+: hedgeFills →
          @Totals "acct" ⟨"BTC-USDT-PERP", "BINANCE"⟩
            (fillsOf "acct" ⟨"BTC-USDT-PERP", "BINANCE"⟩ (distinctFills pre))
            (@afterFills exactDecimals (new Cache.new) pre)) ∧
        ∀ pre f, pre ++ [f] <+: hedgeFills → f.accountID = "acct" →
          f.instrumentID = ⟨"BTC-USDT-PERP", "BINANCE"⟩ →
          (@afterFills exactDecimals (new Cache.new) pre).hasAppliedFill f = false →
          RealizesOwn (@afterFills exactDecimals (new Cache.new) pre) f) ↔
      @AllOwnOrFlat exactDecimals "acct" ⟨"BTC-USDT-PERP", "BINANCE"⟩ (new Cache.new)
        hedgeFills :=
  @profit_of_positions_iff exactDecimals _ _ _ exactDivision_exactDecimals _
    (noPositions_new _) hedgeFills_tradable hedgeFills_oneInstrument

/-- Opening the short position realizes 20 on the long one. With the short one
stored last, selling the long one then realizes nothing, although it was bought
at 100 and is sold at 120, and the total is not what the fills have earned. -/
theorem hedge_realizes_on_other :
    let p := @afterFills exactDecimals (new Cache.new) (hedgeFills.take 2)
    let p' := @afterFills exactDecimals (new Cache.new) hedgeFills
    let a := "acct"
    let i : InstrumentID := ⟨"BTC-USDT-PERP", "BINANCE"⟩
    (∃ f ∈ hedgeFills.drop 2,
        realizedDelta f (p.cache.positionByInstrument a i) = none ∧
        realizedDelta f (p.cache.position a (fillPositionID f)) = some 100) ∧
      p'.realizedPnL a i + ((p'.setMark a i 130).unrealizedPnL a i).1 = 20 ∧
      earned 130 (fillsOf a i (distinctFills hedgeFills)) = 60 := by
  decide +kernel

end Exchanges.Portfolio
