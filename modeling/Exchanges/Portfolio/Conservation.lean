import Exchanges.Portfolio.Effects

/-!
Conservation of profit: realized and unrealized profit together are what the
fills have earned at the mark.

`Reflects` ties the cached position and the realized profit of an account and
an instrument to the fills applied for them. The entry price is chosen such that
the realized profit is always the value of the position at entry, less what was
paid for it. Averaging, partial closes, flattening and reversals all keep this.
-/

namespace Exchanges.Portfolio

open Exchanges.Lib Exchanges.Model

set_option linter.unusedSectionVars false

section

variable [DecimalPackage]

/-! ### Sums over fills -/

/-- What the fills add up to, with sells negative. -/
def netQuantity (fs : List FillReport) : Decimal := (fs.map fillSignedQuantity).sum

/-- What was paid for the fills, with sells as income. -/
def netCost (fs : List FillReport) : Decimal :=
  (fs.map fun f => fillSignedQuantity f * f.price).sum

/-- What the fills have earned when the instrument trades at `mark`. -/
def earned (mark : Decimal) (fs : List FillReport) : Decimal :=
  (fs.map fun f => fillSignedQuantity f * (mark - f.price)).sum

theorem earned_eq (mark : Decimal) (fs : List FillReport) :
    earned mark fs = netQuantity fs * mark - netCost fs := by
  induction fs with
  | nil => simp [earned, netQuantity, netCost]
  | cons f fs ih =>
    simp only [earned, netQuantity, netCost, List.map_cons, List.sum_cons] at ih ⊢
    rw [ih]
    ring

omit [DecimalPackage] in
theorem netQuantity_append (fs : List FillReport) (f : FillReport) :
    netQuantity (fs ++ [f]) = netQuantity fs + fillSignedQuantity f := by
  simp [netQuantity]

theorem netCost_append (fs : List FillReport) (f : FillReport) :
    netCost (fs ++ [f]) = netCost fs + fillSignedQuantity f * f.price := by
  simp [netCost]

/-! ### One fill on one position -/

section Step

variable {position : PositionStatusReport} {f : FillReport} {net : Decimal}

/-- The position is the signed quantity `net`. -/
def IsNet (position : PositionStatusReport) (net : Decimal) : Prop :=
  position.side = sideFromSigned net ∧ position.quantity = |net|

omit [DecimalPackage] in
theorem sideFromSigned_pos (h : 0 < net) : sideFromSigned net = .long := if_pos h

omit [DecimalPackage] in
theorem sideFromSigned_neg (h : net < 0) : sideFromSigned net = .short := by
  rw [sideFromSigned, if_neg (by linarith), if_pos h]

omit [DecimalPackage] in
theorem sideFromSigned_zero : sideFromSigned 0 = .flat := by
  simp [sideFromSigned]

theorem sideFromSigned_eq_flat : sideFromSigned net = .flat ↔ net = 0 := by
  rcases lt_trichotomy net 0 with h | rfl | h
  · simp [sideFromSigned_neg h, h.ne]
  · simp [sideFromSigned_zero]
  · simp [sideFromSigned_pos h, h.ne']

omit [DecimalPackage] in
theorem signedPosition_of_isNet (h : IsNet position net) : signedPosition position = net := by
  obtain ⟨hside, hquantity⟩ := h
  rw [signedPosition, hside, hquantity]
  rcases lt_trichotomy net 0 with h | rfl | h
  · rw [sideFromSigned_neg h, if_pos rfl, abs_of_neg h, neg_neg]
  · simp [sideFromSigned_zero]
  · rw [sideFromSigned_pos h, if_neg (by decide), abs_of_pos h]

/-- A fill moves the position that it names by its signed quantity. -/
theorem isNet_nextPosition {c : Cache} (hq : 0 < f.quantity) :
    IsNet (nextPosition c f)
      (((c.position f.accountID (fillPositionID f)).map signedPosition).getD 0 +
        fillSignedQuantity f) := by
  have habs : f.quantity = |fillSignedQuantity f| := by
    unfold fillSignedQuantity
    split
    · rw [abs_neg, abs_of_pos hq]
    · rw [abs_of_pos hq]
  unfold nextPosition
  dsimp only
  cases c.position f.accountID (fillPositionID f) with
  | none =>
    rw [Option.map_none, Option.getD_none, zero_add]
    exact ⟨rfl, habs⟩
  | some existing => exact ⟨rfl, rfl⟩

theorem signedPosition_nextPosition {c : Cache} (hq : 0 < f.quantity) :
    signedPosition (nextPosition c f) =
      ((c.position f.accountID (fillPositionID f)).map signedPosition).getD 0 +
        fillSignedQuantity f := signedPosition_of_isNet (isNet_nextPosition hq)

/-- The fill's direction: `1` for a buy and `-1` for a sell. -/
theorem fillSignedQuantity_cases (h : f.side = .buy ∨ f.side = .sell) :
    f.side = .buy ∧ fillSignedQuantity f = f.quantity ∨
      f.side = .sell ∧ fillSignedQuantity f = -f.quantity := by
  rcases h with h | h
  · exact .inl ⟨h, by rw [fillSignedQuantity, h, if_neg (by decide)]⟩
  · exact .inr ⟨h, by rw [fillSignedQuantity, h, if_pos rfl]⟩

theorem sameDirection_long (h : position.side = .long) :
    sameDirection position f = decide (f.side = .buy) := by
  simp [sameDirection, h]

theorem sameDirection_short (h : position.side = .short) :
    sameDirection position f = decide (f.side = .sell) := by
  simp [sameDirection, h]

theorem sameDirection_flat (h : position.side = .flat) : sameDirection position f = false := by
  simp [sameDirection, h]

/-- The entry price of the position after the fill. -/
def entryAfter (position : PositionStatusReport) (f : FillReport) (net : Decimal) : Decimal :=
  if sideFromSigned net = .flat then 0 else nextEntryPrice position f

theorem mul_entryAfter (position : PositionStatusReport) (f : FillReport) (net : Decimal) :
    net * entryAfter position f net = net * nextEntryPrice position f := by
  unfold entryAfter
  split
  · next hflat => rw [sideFromSigned_eq_flat.mp hflat, zero_mul, zero_mul]
  · rfl

section Exact

variable [ExactDivision] (hq : 0 < f.quantity) (hside : f.side = .buy ∨ f.side = .sell)
include hq hside

/-- The value of the position at its entry price changes by what is paid for the
fill and by what the fill realizes. For a short position a sell adds to it and
a buy closes it. -/
theorem entry_value_next_short (hnet : net < 0) (h : IsNet position net) :
    (net + fillSignedQuantity f) * nextEntryPrice position f =
      net * position.entryPrice + fillSignedQuantity f * f.price +
        (realizedDelta f (some position)).getD 0 := by
  obtain ⟨hpos, hquantity⟩ := h
  rw [sideFromSigned_neg hnet] at hpos
  rw [abs_of_neg hnet] at hquantity
  have hopen : ¬ (position.side = .flat ∨ position.quantity = 0) := by
    rw [hpos, hquantity]
    simp [hnet.ne]
  rw [realizedDelta, if_neg hopen, nextEntryPrice, sameDirection_short hpos, hquantity]
  rcases fillSignedQuantity_cases hside with ⟨hbuy, hsigned⟩ | ⟨hsell, hsigned⟩
  · have hmin : 0 < min (-net) f.quantity := lt_min (by linarith) hq
    rw [hsigned, hbuy, hpos]
    simp only [reduceCtorEq, decide_false, Bool.false_eq_true, if_false, hmin,
      not_true_eq_false, if_true, Option.getD_some]
    rcases le_or_gt (-net) f.quantity with hle | hlt
    · rw [min_eq_left hle, if_neg (by linarith)]
      ring
    · rw [min_eq_right hlt.le, if_pos hlt]
      ring
  · have htotal : 0 < -net + f.quantity := by linarith
    rw [hsigned, hsell]
    simp only [decide_true, if_true, htotal, ExactDivision.div_eq, Option.getD_none, add_zero]
    field_simp
    ring

theorem entry_value_next_long (hnet : 0 < net) (h : IsNet position net) :
    (net + fillSignedQuantity f) * nextEntryPrice position f =
      net * position.entryPrice + fillSignedQuantity f * f.price +
        (realizedDelta f (some position)).getD 0 := by
  obtain ⟨hpos, hquantity⟩ := h
  rw [sideFromSigned_pos hnet] at hpos
  rw [abs_of_pos hnet] at hquantity
  have hopen : ¬ (position.side = .flat ∨ position.quantity = 0) := by
    rw [hpos, hquantity]
    simp [hnet.ne']
  rw [realizedDelta, if_neg hopen, nextEntryPrice, sameDirection_long hpos, hquantity]
  rcases fillSignedQuantity_cases hside with ⟨hbuy, hsigned⟩ | ⟨hsell, hsigned⟩
  · have htotal : 0 < net + f.quantity := by linarith
    rw [hsigned, hbuy]
    simp only [decide_true, if_true, htotal, ExactDivision.div_eq, Option.getD_none, add_zero]
    field_simp
  · have hmin : 0 < min net f.quantity := lt_min hnet hq
    rw [hsigned, hsell, hpos]
    simp only [reduceCtorEq, decide_false, Bool.false_eq_true, if_false, hmin,
      not_true_eq_false, Option.getD_some]
    rcases le_or_gt net f.quantity with hle | hlt
    · rw [min_eq_left hle, if_neg (by linarith)]
      ring
    · rw [min_eq_right hlt.le, if_pos hlt]
      ring

theorem entry_value_next (h : IsNet position net) :
    (net + fillSignedQuantity f) * nextEntryPrice position f =
      net * position.entryPrice + fillSignedQuantity f * f.price +
        (realizedDelta f (some position)).getD 0 := by
  rcases lt_trichotomy net 0 with hnet | rfl | hnet
  · exact entry_value_next_short hq hside hnet h
  · -- a flat position realizes nothing and is entered at the fill's price
    obtain ⟨hpos, hquantity⟩ := h
    rw [sideFromSigned_zero] at hpos
    rw [abs_zero] at hquantity
    rw [realizedDelta, if_pos (.inl hpos), nextEntryPrice, sameDirection_flat hpos, hquantity]
    simp [not_lt.mpr hq.le]
  · exact entry_value_next_long hq hside hnet h

end Exact

end Step

/-! ### The books of an account and an instrument -/

/-- The position and the realized profit of `a` and `i` are those of the fills
`fs`. -/
structure Reflects (a : AccountID) (i : InstrumentID) (fs : List FillReport) (p : Portfolio) :
    Prop where
  flat : fs = [] → p.cache.position a i.string = none ∧
    p.cache.positionInst.get (a, i) = none ∧ p.realizedPnL a i = 0
  held : fs ≠ [] → ∃ position, p.cache.position a i.string = some position ∧
    p.cache.positionInst.get (a, i) = some i.string ∧ IsNet position (netQuantity fs) ∧
    p.realizedPnL a i = netQuantity fs * position.entryPrice - netCost fs

section Reflects

variable {a : AccountID} {i : InstrumentID} {fs : List FillReport} {p p' : Portfolio}
  {f : FillReport}

theorem Reflects.positionByInstrument (h : Reflects a i fs p) :
    p.cache.positionByInstrument a i = p.cache.position a i.string := by
  by_cases hfs : fs = []
  · obtain ⟨hnone, hinst, -⟩ := h.flat hfs
    rw [Cache.positionByInstrument, hinst, hnone]
    rfl
  · obtain ⟨position, hget, hinst, -⟩ := h.held hfs
    rw [Cache.positionByInstrument, hinst]
    rfl

theorem realizedPnL_applyRealized (previous : Option PositionStatusReport) :
    (p.applyRealizedPnLFromPosition f previous).realizedPnL f.accountID f.instrumentID =
      p.realizedPnL f.accountID f.instrumentID + (realizedDelta f previous).getD 0 := by
  unfold applyRealizedPnLFromPosition
  cases realizedDelta f previous with
  | none => exact (add_zero _).symm
  | some pnl =>
    dsimp only [realizedPnL]
    rw [OrdMap.get_put_self]
    rfl

/-- A new fill of the account and the instrument is one more fill reflected. -/
theorem Reflects.book [ExactDivision] (h : Reflects a i fs p) (hbook : Booked p f p')
    (hf : f.WellFormed) (hside : f.side = .buy ∨ f.side = .sell) (hid : f.positionID = "")
    (ha : f.accountID = a) (hi : f.instrumentID = i) : Reflects a i (fs ++ [f]) p' := by
  subst ha hi
  have hpid : fillPositionID f = f.instrumentID.string := if_neg (not_not.mpr hid)
  have hposition : p'.cache.position f.accountID f.instrumentID.string =
      some (nextPosition p.cache f) := by
    rw [Cache.position, hbook.positions, hpid, OrdMap.get_put_self]
  have hrealized : p'.realizedPnL f.accountID f.instrumentID =
      p.realizedPnL f.accountID f.instrumentID +
        (realizedDelta f (p.cache.position f.accountID f.instrumentID.string)).getD 0 := by
    rw [← h.positionByInstrument, ← realizedPnL_applyRealized, realizedPnL, hbook.realized]
    rfl
  refine ⟨fun hnil => absurd hnil (by simp), fun _ => ⟨_, hposition, ?_, ?_⟩⟩
  · rw [hbook.positionInst, hpid, OrdMap.get_put_self]
  rw [hrealized, netQuantity_append, netCost_append]
  by_cases hfs : fs = []
  · obtain ⟨hnone, -, hzero⟩ := h.flat hfs
    rw [hzero, hnone, hfs, nextPosition, hpid, hnone]
    refine ⟨⟨?_, ?_⟩, ?_⟩
    · simp [netQuantity]
    · rcases fillSignedQuantity_cases hside with ⟨-, hs⟩ | ⟨-, hs⟩
      · simp [netQuantity, hs, abs_of_pos hf.quantity_pos]
      · simp [netQuantity, hs, abs_of_pos hf.quantity_pos]
    · simp [netQuantity, netCost, realizedDelta]
  · obtain ⟨position, hget, -, hnet, hvalue⟩ := h.held hfs
    rw [hvalue, hget, nextPosition, hpid, hget]
    dsimp only
    rw [signedPosition_of_isNet hnet]
    refine ⟨⟨rfl, rfl⟩, ?_⟩
    have hentry := mul_entryAfter position f (netQuantity fs + fillSignedQuantity f)
    rw [entryAfter] at hentry
    rw [hentry, entry_value_next hf.quantity_pos hside hnet]
    ring

/-- A fill of another account or instrument is none of its business. -/
theorem Reflects.other (h : Reflects a i fs p) (hbook : Booked p f p') (hf : f.WellFormed)
    (hvalid : i.validate = .ok ()) (hid : f.positionID = "")
    (hne : ¬ (f.accountID = a ∧ f.instrumentID = i)) : Reflects a i fs p' := by
  have hpid : fillPositionID f = f.instrumentID.string := if_neg (not_not.mpr hid)
  have hkey : (a, i.string) ≠ (f.accountID, f.instrumentID.string) := by
    intro heq
    obtain ⟨ha, hi⟩ := Prod.mk.inj heq
    exact hne ⟨ha.symm, InstrumentID.string_injective hf.instrument hvalid hi.symm⟩
  have hkey' : (a, i) ≠ (f.accountID, f.instrumentID) := by
    intro heq
    obtain ⟨ha, hi⟩ := Prod.mk.inj heq
    exact hne ⟨ha.symm, hi.symm⟩
  have hposition : p'.cache.position a i.string = p.cache.position a i.string := by
    rw [Cache.position, hbook.positions, hpid, OrdMap.get_put_of_ne _ hkey]
    rfl
  have hinst : p'.cache.positionInst.get (a, i) = p.cache.positionInst.get (a, i) := by
    rw [hbook.positionInst, OrdMap.get_put_of_ne _ hkey']
  have hrealized : p'.realizedPnL a i = p.realizedPnL a i := by
    rw [realizedPnL, hbook.realized]
    unfold applyRealizedPnLFromPosition
    split
    · rfl
    · dsimp only
      rw [OrdMap.get_put_of_ne _ hkey']
      rfl
  refine ⟨fun hfs => ?_, fun hfs => ?_⟩
  · obtain ⟨hnone, hi, hzero⟩ := h.flat hfs
    exact ⟨hposition.trans hnone, hinst.trans hi, hrealized.trans hzero⟩
  · obtain ⟨position, hget, hi, hnet, hvalue⟩ := h.held hfs
    exact ⟨position, hposition.trans hget, hinst.trans hi, hnet, hrealized.trans hvalue⟩

end Reflects

/-! ### Sequences of fills -/

/-- One more fill, unless its account, order and trade came before. -/
def addDistinct (seen : List FillReport) (f : FillReport) : List FillReport :=
  if Cache.fillKey f ∈ seen.map Cache.fillKey then seen else seen ++ [f]

/-- The fills without repetitions. -/
def distinctFills (fs : List FillReport) : List FillReport := fs.foldl addDistinct []

def fillsOf (a : AccountID) (i : InstrumentID) (fs : List FillReport) : List FillReport :=
  fs.filter fun f => decide (f.accountID = a ∧ f.instrumentID = i)

/-- The portfolio has applied the fills `seen`, and no others. -/
structure HasApplied (a : AccountID) (i : InstrumentID) (seen : List FillReport)
    (p : Portfolio) : Prop where
  applied : ∀ f, p.hasAppliedFill f = true ↔ Cache.fillKey f ∈ seen.map Cache.fillKey
  reflects : Reflects a i (fillsOf a i seen) p

section Runs

variable {a : AccountID} {i : InstrumentID} {seen fs : List FillReport} {p p' : Portfolio}
  {f : FillReport}

theorem HasApplied.step [ExactDivision] (h : HasApplied a i seen p) (hi : i.validate = .ok ())
    (hid : f.positionID = "") (hside : f.side = .buy ∨ f.side = .sell)
    (hrun : (applyFill f).run p = (.ok (), p')) : HasApplied a i (addDistinct seen f) p' := by
  obtain ⟨hf, ⟨happlied, rfl⟩ | ⟨hnew, hbook⟩⟩ := applyFill_ok hrun
  · rwa [addDistinct, if_pos ((h.applied f).mp happlied)]
  have hfresh : Cache.fillKey f ∉ seen.map Cache.fillKey := by
    rw [← h.applied f, hnew]
    exact Bool.false_ne_true
  have hdefault : withDefaultSide f = f := by
    apply withDefaultSide_of_ne
    rcases hside with h | h <;> simp [h]
  rw [hdefault] at hbook
  rw [addDistinct, if_neg hfresh]
  refine ⟨fun g => ?_, ?_⟩
  · have hg := h.applied g
    simp only [hasAppliedFill, hbook.applied, OrdMap.get_put] at hg ⊢
    split
    · next heq => simp [heq]
    · next hne => simp [hg, hne]
  · by_cases hof : f.accountID = a ∧ f.instrumentID = i
    · have happend : fillsOf a i (seen ++ [f]) = fillsOf a i seen ++ [f] := by
        simp [fillsOf, hof]
      rw [happend]
      exact h.reflects.book hbook hf hside hid hof.1 hof.2
    · have hsame : fillsOf a i (seen ++ [f]) = fillsOf a i seen := by
        simp [fillsOf, hof]
      rw [hsame]
      exact h.reflects.other hbook hf hi hid hof

theorem HasApplied.run [ExactDivision] (h : HasApplied a i seen p) (hi : i.validate = .ok ())
    (hfs : ∀ f ∈ fs, f.positionID = "" ∧ (f.side = .buy ∨ f.side = .sell))
    (hrun : (Prog.forEach applyFill fs).run p = (.ok (), p')) :
    HasApplied a i (fs.foldl addDistinct seen) p' := by
  induction fs generalizing seen p with
  | nil =>
    cases hrun
    exact h
  | cons f fs ih =>
    obtain ⟨hf, hfs⟩ := List.forall_mem_cons.mp hfs
    rw [Prog.forEach_cons] at hrun
    obtain ⟨u, p₁, hfirst, hrest⟩ := Prog.run_bind_eq_ok.mp hrun
    exact ih (h.step hi hf.1 hf.2 hfirst) hfs hrest

/-- No position of the account and the instrument has been stored. -/
def NoPosition (a : AccountID) (i : InstrumentID) (c : Cache) : Prop :=
  c.position a i.string = none ∧ c.positionInst.get (a, i) = none

theorem hasApplied_new {c : Cache} (h : NoPosition a i c) : HasApplied a i [] (new c) := by
  refine ⟨fun f => ?_, fun _ => ⟨h.1, h.2, ?_⟩, fun hne => absurd rfl hne⟩
  · simp [hasAppliedFill, new]
  · simp [realizedPnL, new]

/-- With the position marked at `m`, its unrealized profit is its value less its
value at entry. -/
theorem unrealizedPnL_setMark {m net : Decimal} (hm : 0 < m) {position : PositionStatusReport}
    (hposition : p.cache.positionByInstrument a i = some position) (hnet : IsNet position net) :
    ((p.setMark a i m).unrealizedPnL a i).1 = net * (m - position.entryPrice) := by
  have hfresh : (p.setMark a i m).unrealizedCache.get (a, i) = none :=
    OrdMap.get_delete_self ..
  have hmark : (p.setMark a i m).marks.get (a, i) = some m := OrdMap.get_put_self ..
  have hcached : (p.setMark a i m).cache.positionByInstrument a i = some position := hposition
  rw [unrealizedPnL, hfresh]
  dsimp only
  rw [computeUnrealizedPnL, hcached, hmark]
  obtain ⟨hside, hquantity⟩ := hnet
  dsimp only [Option.getD_some]
  rw [hside, hquantity, if_neg (not_not.mpr hm)]
  rcases lt_trichotomy net 0 with h | rfl | h
  · rw [sideFromSigned_neg h, abs_of_neg h, if_neg (by simp [h.ne]), if_pos rfl]
    ring
  · simp
  · rw [sideFromSigned_pos h, abs_of_pos h, if_neg (by simp [h.ne']), if_neg (by decide)]
    ring

theorem unrealizedPnL_none {m : Decimal} (h : p.cache.positionByInstrument a i = none) :
    ((p.setMark a i m).unrealizedPnL a i).1 = 0 := by
  have hfresh : (p.setMark a i m).unrealizedCache.get (a, i) = none :=
    OrdMap.get_delete_self ..
  have hcached : (p.setMark a i m).cache.positionByInstrument a i = none := h
  rw [unrealizedPnL, hfresh]
  dsimp only
  rw [computeUnrealizedPnL, hcached]

end Runs

/-- What the portfolio says about an account and an instrument after the fills
`fs`: the position is their signed sum, and realized and unrealized profit
together are what they have earned at any mark. -/
def Conserves (a : AccountID) (i : InstrumentID) (fs : List FillReport) (p : Portfolio) : Prop :=
  (fs = [] → p.cache.positionByInstrument a i = none) ∧
    (fs ≠ [] → ∃ position, p.cache.positionByInstrument a i = some position ∧
      IsNet position (netQuantity fs)) ∧
    ∀ m, 0 < m → p.realizedPnL a i + ((p.setMark a i m).unrealizedPnL a i).1 = earned m fs

theorem HasApplied.conserves {a : AccountID} {i : InstrumentID} {seen : List FillReport}
    {p : Portfolio} (h : HasApplied a i seen p) : Conserves a i (fillsOf a i seen) p := by
  have hinst := h.reflects.positionByInstrument
  refine ⟨fun hnil => ?_, fun hne => ?_, fun m hm => ?_⟩
  · rw [hinst]
    exact (h.reflects.flat hnil).1
  · obtain ⟨position, hget, -, hnet, -⟩ := h.reflects.held hne
    exact ⟨position, hinst.trans hget, hnet⟩
  · by_cases hnil : fillsOf a i seen = []
    · obtain ⟨hnone, -, hzero⟩ := h.reflects.flat hnil
      rw [hzero, unrealizedPnL_none (hinst.trans hnone), hnil]
      simp [earned]
    · obtain ⟨position, hget, -, hnet, hvalue⟩ := h.reflects.held hnil
      rw [hvalue, unrealizedPnL_setMark hm (hinst.trans hget) hnet, earned_eq]
      ring

/-- Fills applied one after the other, without an error, to a portfolio that has
no position of the account and the instrument. Fills of other accounts and
instruments may come in between. -/
theorem profit_conserved [ExactDivision] {c : Cache} {a : AccountID} {i : InstrumentID}
    {fs : List FillReport} {p : Portfolio} (hi : i.validate = .ok ())
    (hstart : NoPosition a i c)
    (hfs : ∀ f ∈ fs, f.positionID = "" ∧ (f.side = .buy ∨ f.side = .sell))
    (hrun : (Prog.forEach applyFill fs).run (new c) = (.ok (), p)) :
    Conserves a i (fillsOf a i (distinctFills fs)) p :=
  ((hasApplied_new hstart).run hi hfs hrun).conserves

end

/-- A buy of 5, a sell of 8 that reverses the position, and the buy once more. -/
def sampleFills : List FillReport :=
  let buy : FillReport :=
    { accountID := "acct", instrumentID := ⟨"BTC-USDT-PERP", "BINANCE"⟩, orderID := "order-1",
      tradeID := "trade-1", side := .buy, price := 100, quantity := 5, timestamp := 2 }
  let sell := { buy with orderID := "order-2", tradeID := "trade-2", side := .sell,
                         price := 110, quantity := 8 }
  [buy, sell, buy]

theorem profit_conserved_sample :
    let p := ((Prog.forEach (@applyFill exactDecimals) sampleFills).run (new Cache.new)).2
    Conserves "acct" ⟨"BTC-USDT-PERP", "BINANCE"⟩
      (fillsOf "acct" ⟨"BTC-USDT-PERP", "BINANCE"⟩ (distinctFills sampleFills)) p := by
  have hok : ((Prog.forEach (@applyFill exactDecimals) sampleFills).run
      (new Cache.new)).1 = .ok () := by decide +kernel
  have hstart : NoPosition "acct" ⟨"BTC-USDT-PERP", "BINANCE"⟩ Cache.new :=
    ⟨OrdMap.get_empty _, OrdMap.get_empty _⟩
  exact @profit_conserved exactDecimals exactDivision_exactDecimals _ _ _ _ _ (by decide +kernel)
    hstart (by simp [sampleFills]) (Prod.ext hok rfl)

end Exchanges.Portfolio
