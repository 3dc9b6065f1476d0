import Exchanges.Backtest.Positions

/-!
Orders that may only reduce a position.

The quantity of such an order that may be matched is capped by the cached
position at the moment a source is tried. A book splits the cap over several
levels, each filled on its own, so that the cap has to hold at the later ones
too: between two of them nothing may move the position but the fill itself. That
is so as long as no strategy issues commands when it is told of an execution
event, and as long as the order has no list that its fill would set in motion.
A trace without either is called quiet, and what is quiet at the end was quiet
all along.
-/

namespace Exchanges.Backtest

open Exchanges.Lib Exchanges.Lib.Prog Exchanges.Model Exchanges.Cache Relation
open Exchanges.Account (samplePerp HoldsPositions)

set_option linter.unusedSectionVars false

/-- The entry is neither about a command issued from inside an execution
callback nor about a list of orders. -/
def Entry.IsQuiet : Entry → Prop
  | .commanded execution => execution = false
  | .listed _ => False
  | _ => True

instance : DecidablePred Entry.IsQuiet
  | .commanded _ => inferInstanceAs (Decidable (_ = _))
  | .listed _ => isFalse id
  | .market .. | .clock .. | .callback .. | .reported .. | .accepted .. | .tested .. | .filled ..
  | .positioned .. => isTrue trivial

def Quiet (r : Runtime) : Prop := ∀ e ∈ r.trace, e.IsQuiet

section ReduceOnly

variable [DecimalPackage] {cfg : Config} {V : OrderStatusReport → Prop}
  {G : Runtime → Matched → Prop} {r r' : Runtime}

/-! ### Quiet runs -/

theorem Quiet.of_extends {matched : Option Matched} (hq : Quiet r')
    (h : Extends cfg matched r r') : Quiet r := by
  obtain ⟨entries, heq, -⟩ := h
  intro e he
  exact hq e (by simp [heq, he])

theorem Quiet.of_steps (hq : Quiet r') (h : ReflTransGen (Step cfg V G) r r') : Quiet r := by
  induction h with
  | refl => exact hq
  | tail _ hstep ih =>
    cases hstep with
    | plain step => exact ih (hq.of_extends step.extends)
    | filled drawn fits guard => exact ih (hq.of_extends (booked_extends cfg _ _ drawn))

/-- As long as a run is quiet no order belongs to a list. -/
def Unlisted (r : Runtime) : Prop :=
  Quiet r → (∀ key, r.heldChildren.get key = none) ∧ ∀ key, r.orderListMembers.get key = none

theorem Plain.unlisted (h : Plain cfg V r r') (hr : Unlisted r) : Unlisted r' := by
  intro hq
  have hold := hr (hq.of_extends h.extends)
  cases h with
  | internal same =>
    rw [same.heldChildren, same.orderListMembers]
    exact hold
  | listed list =>
    obtain ⟨_, _, heq⟩ := indexOrderList_eq list r
    exact absurd (hq (.listed list) (by simp [heq])) id
  | released key =>
    refine ⟨fun key' => ?_, hold.2⟩
    change (r.heldChildren.delete key).get key' = none
    rw [OrdMap.get_delete, hold.1]
    split_ifs <;> rfl
  | _ => exact hold

/-- What the loop over the levels of a book relies on. -/
structure Ready (r : Runtime) : Prop where
  consumed : Consumed r
  keyed : Keyed r.cache
  unlisted : Unlisted r

theorem Ready.plain (hr : Ready r) (h : Plain cfg V r r') : Ready r' :=
  ⟨h.consumed_nonneg hr.consumed, hr.keyed.congr h.positions, h.unlisted hr.unlisted⟩

theorem Ready.booked (hr : Ready r) (m : Matched) (drawn : Nat) : Ready (booked r m drawn) := by
  have hextends := booked_extends {} r m drawn
  obtain ⟨pf, heq⟩ := booked_eq r m drawn
  refine ⟨?_, ?_, fun hq => ?_⟩
  · rw [heq]
    exact hr.consumed
  · rw [heq]
    exact hr.keyed.afterFill _
  · have hold := hr.unlisted (hq.of_extends hextends)
    rw [heq]
    exact hold

theorem stable_ready : Stable Ready (Step cfg V G) := by
  intro r r' hstep hr
  cases hstep with
  | plain step => exact hr.plain step
  | filled drawn fits guard => exact hr.booked _ drawn

/-! ### What is done in quiet between two fills -/

/-- Steps that leave the positions alone unless there is noise. -/
def Calm (cfg : Config) (r r' : Runtime) : Prop :=
  ReflTransGen (AnyStep cfg fun _ => True) r r' ∧
    (Quiet r' → HoldsPositions r.cache.positions r.cache.positionInst r'.cache)

theorem Calm.of_star (h : ReflTransGen (Calm cfg) r r') : Calm cfg r r' := by
  induction h with
  | refl => exact ⟨.refl, fun _ => ⟨rfl, rfl⟩⟩
  | tail _ hstep ih =>
    refine ⟨ih.1.trans hstep.1, fun hq => ?_⟩
    obtain ⟨hpositions, hids⟩ := ih.2 (hq.of_steps hstep.1)
    obtain ⟨hpositions', hids'⟩ := hstep.2 hq
    exact ⟨hpositions'.trans hpositions, hids'.trans hids⟩

theorem stable_ready_calm : Stable Ready (Calm cfg) := fun _ _ hcalm hr =>
  stable_ready.star hcalm.1 hr

theorem ground_calm (cfg : Config) : Ground cfg (fun _ _ => True) Ready (Calm cfg) where
  acceptance _ := trivial
  modified _ _ _ _ := trivial
  triggered _ _ _ _ := trivial
  stored _ _ := trivial
  kept _ _ _ _ h := h
  consumed hr := hr.consumed
  stable := stable_ready_calm
  plain hstep := ⟨.single (.plain hstep), fun _ => hstep.positions⟩

/-- In a noisy state anything goes. -/
theorem calm_of_noise (hnoise : ¬ Quiet r)
    (h : ReflTransGen (AnyStep cfg fun _ => True) r r') : Calm cfg r r' :=
  ⟨h, fun hq => absurd (hq.of_steps h) hnoise⟩

/-- A program that does nothing in quiet. -/
theorem goes_calm_of_quiet {α : Type} {p : Prog Runtime Err α}
    (hany : Goes Consumed (AnyStep cfg fun _ => True) p)
    (hquiet : ∀ s, Ready s → Quiet s → (p.run s).2 = s) : Goes Ready (Calm cfg) p := by
  intro s hs
  by_cases hq : Quiet s
  · exact Follows.of_eq (hquiet s hs hq)
  · exact .single (calm_of_noise hq (hany s hs.consumed))

section Below

variable {below : Nested}
  (closed : Closed cfg below (fun _ _ => True) Consumed (AnyStep cfg fun _ => True))

include closed

/-- A strategy that is told of an execution event issues no command, or makes
noise. -/
theorem goes_runScript_calm (id : StrategyID) (script : Script) :
    Goes Ready (Calm cfg) (runScript (execute cfg below id) id true script) := by
  induction script with
  | done result => exact Goes.lift _
  | remember memory next ih =>
    refine Goes.bind stable_ready_calm (Goes.modify fun s _ => ?_) fun _ => ih
    exact (ground_calm cfg).plain
      (.internal ⟨rfl, rfl, rfl, rfl, rfl, rfl, rfl, rfl, rfl, rfl, rfl⟩ (.of_eq rfl))
  | command command next ih =>
    intro s hs
    have hstep : AnyStep cfg (fun _ => True) s
        { s with trace := s.trace ++ [.commanded true] } := .plain (.commanded s true)
    have hnoise : ¬ Quiet { s with trace := s.trace ++ [.commanded true] } := fun hq =>
      absurd (hq (.commanded true) (by simp)) (by simp [Entry.IsQuiet])
    have hrest : Follows (AnyStep cfg fun _ => True) (do
        let reply ← (execute cfg below id command).attempt
        let r ← Prog.get
        runScript (execute cfg below id) id true (next reply (r.view id)))
        { s with trace := s.trace ++ [.commanded true] } :=
      Goes.bind closed.stable (closed.goes_execute id command).attempt
        (fun reply => Goes.get_bind' fun r => closed.goes_runScript id true _) _
        (closed.stable _ _ hstep hs.consumed)
    refine .tail (.single ⟨.single hstep, fun hq => absurd hq hnoise⟩) ?_
    exact calm_of_noise hnoise hrest

theorem goes_callStrategy_calm (s : Strategy) (script : View → Script) :
    Goes Ready (Calm cfg) (callStrategy cfg below s true script) := by
  refine Goes.get_bind fun r hr => ?_
  refine Goes.bind_at stable_ready_calm hr ?_ fun _ => goes_runScript_calm closed _ _
  exact Follows.single ((ground_calm cfg).plain (.callback r))

end Below

theorem calls_calm (cfg : Config) (strategies : List Strategy) (depth : Nat) :
    Calls cfg (nestedAt cfg strategies depth) (fun _ _ => True) Ready (Calm cfg) where
  toGround := ground_calm cfg
  tell event t := by
    cases depth with
    | zero => exact Goes.fail _
    | succ depth =>
      exact goes_forAll stable_ready_calm (fun s => goes_callStrategy_calm
        ((ground_consumed cfg _).closed strategies depth) s _) strategies

section AfterFill

variable {nested : Nested}
  (inner : Inner cfg nested (fun _ _ => True) Consumed (AnyStep cfg fun _ => True))
  (calls : Calls cfg nested (fun _ _ => True) Ready (Calm cfg))

theorem onOpenSiblings_quiet {filled : OrderStatusReport}
    {f : OrderStatusReport → Prog Runtime Err Unit} {s : Runtime} (hs : Ready s) (hq : Quiet s) :
    ((onOpenSiblings filled f).run s).2 = s := by
  rw [onOpenSiblings, run_get_bind, (hs.unlisted hq).2]
  rfl

include inner calls

/-- Without lists a fill causes at most the cancellation of its own order. -/
theorem goes_afterFill_calm (fill : FillReport) :
    Goes Ready (Calm cfg) (afterFill cfg nested fill) := by
  refine Goes.bind stable_ready_calm (Calls.goes_withOrder fill fun order =>
    Goes.get_bind' fun r => ?_) fun _ => ?_
  · split_ifs
    · exact calls.goes_cancelUnfilledRemainder _ _
    · exact Goes.pure ()
  refine Goes.bind stable_ready_calm (Calls.goes_withOrder fill fun order => ?_) fun _ => ?_
  · refine goes_calm_of_quiet (inner.goes_updateOuoSiblings _ _) fun s hs hq => ?_
    unfold updateOuoSiblings
    split
    · rfl
    · exact onOpenSiblings_quiet hs hq
  refine Goes.bind stable_ready_calm (Calls.goes_withOrder fill fun order => ?_) fun _ => ?_
  · refine goes_calm_of_quiet (inner.goes_updateHeldChildren _) fun s hs hq => ?_
    rw [updateHeldChildren, run_get_bind]
    dsimp only
    rw [(hs.unlisted hq).1, if_pos (.inl rfl)]
    rfl
  refine Calls.goes_withOrder fill fun order => ?_
  split_ifs
  · refine goes_calm_of_quiet (inner.goes_cancelOcoSiblings _) fun s hs hq => ?_
    unfold cancelOcoSiblings
    split
    · rfl
    · exact onOpenSiblings_quiet hs hq
  · exact Goes.pure ()

/-- In quiet, a successful fill leaves the positions as it has booked them. -/
theorem positions_fillOrder {s s' : Runtime} (hs : Ready s) {order : OrderStatusReport}
    {price quantity : Decimal} {ts : Time} {source : FillSource} {consumed : Decimal}
    {earlier : List (Decimal × FillReport)} {fill : FillReport}
    (hrun : (fillOrder cfg nested order price quantity ts source consumed earlier).run s =
      (.ok fill, s')) (hq : Quiet s') :
    Quiet s ∧ HoldsPositions (cacheAfterFill s.cache fill).positions
      (cacheAfterFill s.cache fill).positionInst s'.cache := by
  have hfill := fillOrder_ok hrun
  rcases run_fillOrder cfg nested s order price quantity ts source consumed earlier with
    ⟨err, hfail⟩ | ⟨previous, position, hannounce⟩
  · rw [hfail] at hrun
    cases (Prod.mk.inj hrun).1
  · rw [hannounce] at hrun
    obtain ⟨-, rfl⟩ := Prod.mk.inj hrun
    have hcalm : ∀ s₂, Ready s₂ → Calm cfg s₂ ((announceFill cfg nested
        (madeFill cfg s order price quantity ts source) previous position).run s₂).2 :=
      fun s₂ hs₂ => .of_star (calls.goes_announceFill (goes_afterFill_calm inner calls _)
        previous position s₂ hs₂)
    obtain ⟨hsteps, hpositions⟩ := hcalm _ (hs.booked _ _)
    have hpositions := hpositions hq
    rw [booked_cache] at hpositions
    rw [hfill]
    exact ⟨(hq.of_steps hsteps).of_extends (booked_extends cfg s _ _), hpositions⟩

end AfterFill

/-! ### What a capped fill does to the position -/

theorem matchQuantity_le_reduceOnly {c : Cache} {order : OrderStatusReport}
    (hreduce : order.reduceOnly = true) (hpos : 0 < matchQuantity c order) :
    matchQuantity c order ≤ reduceOnlyQuantity c order := by
  unfold matchQuantity at hpos ⊢
  dsimp only at hpos ⊢
  split_ifs at hpos ⊢ with hwhole hreducible
  · simp [hreduce] at hwhole
    exact absurd hpos (not_lt.mpr hwhole)
  · exact min_le_right ..
  · exact absurd hpos (lt_irrefl 0)

/-- What is reducible is a position on the other side. -/
theorem reduceOnlyQuantity_pos {c : Cache} {order : OrderStatusReport}
    (hpos : 0 < reduceOnlyQuantity c order) :
    ∃ p, c.positionByInstrument order.accountID order.instrumentID = some p ∧
      p.quantity = reduceOnlyQuantity c order ∧
      (order.side = .sell ∧ p.side = .long ∨ order.side = .buy ∧ p.side = .short) := by
  unfold reduceOnlyQuantity at hpos ⊢
  split at hpos
  · exact absurd hpos (lt_irrefl 0)
  · next p hp =>
      rw [hp]
      split_ifs at hpos ⊢ with hnone hsell hbuy
      · exact absurd hpos (lt_irrefl 0)
      · exact ⟨p, rfl, rfl, .inl hsell⟩
      · exact ⟨p, rfl, rfl, .inr hbuy⟩
      · exact absurd hpos (lt_irrefl 0)

/-- The position does not grow and does not change sides. -/
def Reduces (before after : Decimal) : Prop := |after| ≤ |before| ∧ 0 ≤ before * after

section Capped

variable {c : Cache} {order : OrderStatusReport} {f : FillReport}

/-- The fill is one of the order. -/
structure FillOf (order : OrderStatusReport) (f : FillReport) : Prop where
  accountID : f.accountID = order.accountID
  instrumentID : f.instrumentID = order.instrumentID
  side : f.side = order.side

theorem nextPosition_existing {p : PositionStatusReport}
    (h : c.position f.accountID f.instrumentID.string = some p) :
    (nextPosition c f).side = sideFromSigned (signedPosition p + signedFill f) ∧
      (nextPosition c f).quantity = |signedPosition p + signedFill f| := by
  unfold nextPosition
  dsimp only
  rw [h]
  exact ⟨rfl, rfl⟩

/-- The position that a capped fill reduces, and the one that it leads to. -/
theorem positions_capped (hc : Keyed c) (hf : FillOf order f) (hpos : 0 < f.quantity)
    (hle : f.quantity ≤ reduceOnlyQuantity c order) (hwf : f.WellFormed)
    (hpositions : (cacheAfterFill c f).positions =
      c.positions.put (f.accountID, (nextPosition c f).positionID) (nextPosition c f)) :
    (cacheAfterFill c f).positionByInstrument order.accountID order.instrumentID =
        some (nextPosition c f) ∧
      ∃ p, c.positionByInstrument order.accountID order.instrumentID = some p ∧
        p.quantity = reduceOnlyQuantity c order ∧
        (nextPosition c f).quantity = p.quantity - f.quantity ∧
        (order.side = .sell ∧ p.side = .long ∧
            (nextPosition c f).side = (if f.quantity < p.quantity then .long else .flat) ∨
          order.side = .buy ∧ p.side = .short ∧
            (nextPosition c f).side = (if f.quantity < p.quantity then .short else .flat)) := by
  obtain ⟨p, hp, hquantity, hsides⟩ := reduceOnlyQuantity_pos (hpos.trans_le hle)
  have hvalid : order.instrumentID.validate = .ok () := hf.instrumentID ▸ hwf.instrument
  have hstored : c.position f.accountID f.instrumentID.string = some p := by
    rw [Cache.position, hf.accountID, hf.instrumentID, ← hc.positionByInstrument hvalid, hp]
  obtain ⟨hside, hnext⟩ := nextPosition_existing hstored
  rw [← hquantity] at hle
  refine ⟨?_, p, hp, hquantity, ?_⟩
  · rw [(hc.afterFill f).positionByInstrument hvalid, hpositions, (nextPosition_ids c f).2.1,
      hf.accountID, hf.instrumentID, OrdMap.get_put_self]
  · rcases hsides with ⟨hsell, hlong⟩ | ⟨hbuy, hshort⟩
    · have hsigned : signedPosition p + signedFill f = p.quantity - f.quantity := by
        simp [signedPosition, signedFill, hlong, hf.side, hsell, sub_eq_add_neg]
      rw [hsigned] at hside hnext
      refine ⟨by rw [hnext, abs_of_nonneg (sub_nonneg.mpr hle)], .inl ⟨hsell, hlong, ?_⟩⟩
      rw [hside, sideFromSigned]
      split_ifs with h1 h2 h2 <;> first | rfl | (exfalso; linarith)
    · have hsigned : signedPosition p + signedFill f = -(p.quantity - f.quantity) := by
        simp [signedPosition, signedFill, hshort, hf.side, hbuy, sub_eq_add_neg, add_comm]
      rw [hsigned] at hside hnext
      refine ⟨by rw [hnext, abs_neg, abs_of_nonneg (sub_nonneg.mpr hle)],
        .inr ⟨hbuy, hshort, ?_⟩⟩
      rw [hside, sideFromSigned]
      split_ifs with h1 h2 h2 <;> first | rfl | (exfalso; linarith)

/-- A capped fill uses up no more of the cap than its quantity. -/
theorem reduceOnlyQuantity_afterFill (hc : Keyed c) (hf : FillOf order f) (hpos : 0 < f.quantity)
    (hle : f.quantity ≤ reduceOnlyQuantity c order) :
    reduceOnlyQuantity c order - f.quantity ≤ reduceOnlyQuantity (cacheAfterFill c f) order := by
  obtain ⟨hpositions, hids⟩ | ⟨hwf, -, hpositions, -⟩ := positions_cacheAfterFill c f
  · have hsame : reduceOnlyQuantity (cacheAfterFill c f) order = reduceOnlyQuantity c order := by
      rw [reduceOnlyQuantity, reduceOnlyQuantity, Cache.positionByInstrument,
        Cache.positionByInstrument, hpositions, hids]
    rw [hsame]
    exact sub_le_self _ hpos.le
  · obtain ⟨hnext, p, hp, hquantity, hleft, hsides⟩ :=
      positions_capped hc hf hpos hle hwf hpositions
    rw [← hquantity, ← hleft]
    rw [← hquantity] at hle
    unfold reduceOnlyQuantity
    rw [hnext]
    dsimp only
    by_cases hall : f.quantity < p.quantity
    · have hrest : 0 < (nextPosition c f).quantity := by
        rw [hleft]
        exact sub_pos.mpr hall
      rcases hsides with ⟨hsell, -, hside⟩ | ⟨hbuy, -, hside⟩
      · rw [if_pos hall] at hside
        simp [hrest, hside, hsell]
      · rw [if_pos hall] at hside
        simp [hrest, hside, hbuy]
    · have hrest : (nextPosition c f).quantity = 0 := by
        rw [hleft]
        exact sub_eq_zero.mpr (le_antisymm (not_lt.mp hall) hle)
      simp [hrest]

/-- A capped fill reduces the position. -/
theorem reduces_afterFill (hc : Keyed c) (hf : FillOf order f) (hpos : 0 < f.quantity)
    (hle : f.quantity ≤ reduceOnlyQuantity c order) :
    Reduces (cachedPosition c f.accountID f.instrumentID)
      (cachedPosition (cacheAfterFill c f) f.accountID f.instrumentID) := by
  obtain ⟨hpositions, hids⟩ | ⟨hwf, -, hpositions, -⟩ := positions_cacheAfterFill c f
  · have hsame : cachedPosition (cacheAfterFill c f) f.accountID f.instrumentID =
        cachedPosition c f.accountID f.instrumentID := by
      rw [cachedPosition, cachedPosition, Cache.positionByInstrument,
        Cache.positionByInstrument, hpositions, hids]
    rw [hsame]
    exact ⟨le_rfl, mul_self_nonneg _⟩
  · obtain ⟨hnext, p, hp, hquantity, hleft, hsides⟩ :=
      positions_capped hc hf hpos hle hwf hpositions
    rw [← hquantity] at hle
    rw [hf.accountID, hf.instrumentID, cachedPosition, cachedPosition, hnext, hp]
    have hp0 : 0 ≤ p.quantity := hpos.le.trans hle
    have hrest : 0 ≤ p.quantity - f.quantity := sub_nonneg.mpr hle
    have hsmaller : |p.quantity - f.quantity| ≤ |p.quantity| := by
      rw [abs_of_nonneg hrest, abs_of_nonneg hp0]
      exact sub_le_self _ hpos.le
    have hsame : 0 ≤ p.quantity * (p.quantity - f.quantity) := mul_nonneg hp0 hrest
    dsimp only
    rcases hsides with ⟨-, hlong, hside⟩ | ⟨-, hshort, hside⟩
    · have hafter : signedPosition (nextPosition c f) = p.quantity - f.quantity := by
        rw [signedPosition, hside, hleft]
        split_ifs <;> simp_all
      have hbefore : signedPosition p = p.quantity := by simp [signedPosition, hlong]
      rw [hafter, hbefore]
      exact ⟨hsmaller, hsame⟩
    · have hbefore : signedPosition p = -p.quantity := by simp [signedPosition, hshort]
      have hafter : signedPosition (nextPosition c f) = -(p.quantity - f.quantity) := by
        rw [signedPosition, hside, hleft]
        by_cases hall : f.quantity < p.quantity
        · simp [hall]
        · have hzero : p.quantity - f.quantity = 0 :=
            sub_eq_zero.mpr (le_antisymm (not_lt.mp hall) hle)
          simp [hall, hzero]
      rw [hafter, hbefore]
      refine ⟨by rwa [abs_neg, abs_neg], ?_⟩
      rwa [neg_mul_neg]

end Capped

/-! ### Capped runs -/

/-- In quiet, a fill of an order that may only reduce is within the position. -/
def Capped (r : Runtime) (m : Matched) : Prop :=
  Quiet r → m.order.reduceOnly = true → m.fill.quantity ≤ reduceOnlyQuantity r.cache m.order

theorem fillOf_madeFill (cfg : Config) (s : Runtime) (order : OrderStatusReport)
    (price quantity : Decimal) (ts : Time) (source : FillSource) :
    FillOf order (madeFill cfg s order price quantity ts source) :=
  ⟨by simp [madeFill, rawFill], by simp [madeFill, rawFill], by simp [madeFill, rawFill]⟩

/-- The cap covers the matches that are still to be filled. -/
structure Covered (order : OrderStatusReport) (left : List Match) (s : Runtime) : Prop where
  pos : ∀ m ∈ left, 0 < m.quantity
  le : Quiet s → order.reduceOnly = true →
    (left.map (·.quantity)).sum ≤ reduceOnlyQuantity s.cache order

theorem Covered.head_le {order : OrderStatusReport} {m : Match} {left : List Match} {s : Runtime}
    (h : Covered order (m :: left) s) (hq : Quiet s) (hreduce : order.reduceOnly = true) :
    m.quantity + (left.map (·.quantity)).sum ≤ reduceOnlyQuantity s.cache order ∧
      m.quantity ≤ reduceOnlyQuantity s.cache order := by
  have hle := h.le hq hreduce
  rw [List.map_cons, List.sum_cons] at hle
  have hrest : 0 ≤ (left.map (·.quantity)).sum := by
    refine List.sum_nonneg fun x hx => ?_
    obtain ⟨m', hm', rfl⟩ := List.mem_map.mp hx
    exact (h.pos m' (List.mem_cons_of_mem m hm')).le
  exact ⟨hle, by linarith⟩

section Closed

variable {nested : Nested}
  (inner : Inner cfg nested (fun _ _ => True) Consumed (AnyStep cfg fun _ => True))
  (calls : Calls cfg nested (fun _ _ => True) Ready (Calm cfg))

include inner calls

/-- The cap still covers the other matches after the first of them is filled. -/
theorem Covered.tail {order : OrderStatusReport} {m : Match} {left : List Match}
    {s s' : Runtime} {consumed : Decimal} {earlier : List (Decimal × FillReport)}
    {fill : FillReport} (h : Covered order (m :: left) s) (hs : Ready s)
    (hrun : (fillOrder cfg nested order m.price m.quantity m.timestamp m.source consumed
      earlier).run s = (.ok fill, s')) : Covered order left s' := by
  refine ⟨fun m' hm' => h.pos m' (List.mem_cons_of_mem m hm'), fun hq hreduce => ?_⟩
  obtain ⟨hq₀, hpositions, hids⟩ := positions_fillOrder inner calls hs hrun hq
  obtain ⟨hle, hhead⟩ := h.head_le hq₀ hreduce
  have hfill := fillOrder_ok hrun
  have hquantity : fill.quantity = m.quantity := by simp [hfill, madeFill, rawFill]
  have hof : FillOf order fill := hfill ▸ fillOf_madeFill ..
  have hpos : 0 < fill.quantity := hquantity ▸ h.pos m List.mem_cons_self
  rw [← hquantity] at hle hhead
  have hafter := reduceOnlyQuantity_afterFill hs.keyed hof hpos hhead
  have hsame : reduceOnlyQuantity s'.cache order =
      reduceOnlyQuantity (cacheAfterFill s.cache fill) order := by
    rw [reduceOnlyQuantity, reduceOnlyQuantity, Cache.positionByInstrument,
      Cache.positionByInstrument, hpositions, hids]
  rw [hsame]
  linarith

theorem closed_of_inner (hinner : Inner cfg nested (fun _ _ => True) Ready
    (Step cfg (fun _ => True) Capped)) :
    Closed cfg nested (fun _ _ => True) Ready (Step cfg (fun _ => True) Capped) :=
  { hinner with
    single := fun {r m} drawn hr fits _ hle => by
      refine .filled drawn fits fun _ hreduce => ?_
      exact hle.trans (matchQuantity_le_reduceOnly hreduce (fits.quantity_pos.trans_le hle))
    book := fun {o} hopen => by
      refine (hinner.knowing o).goes_matchAgainstBook (P := Covered o) (fun hr => hr.2) hopen
        (fun {s book} drawn hs hpos => ⟨fun m hm => ?_, fun _ hreduce => ?_⟩)
        (fun {s m rest consumed earlier} hs hP hq hreduce => ?_)
        (fun {s s' m rest consumed earlier fill} hs hP hrun => ?_)
      · exact (matchLevels_match _ _ _ _ _ _ _ _ m hm).2.2.2
      · exact (matchOrderBook_total _ _ _ _ _ _ hpos (matchQuantity_le _ _ hpos)).trans
          (matchQuantity_le_reduceOnly hreduce hpos)
      · have hhead := (hP.head_le hq hreduce).2
        simpa [madeFill, rawFill] using hhead
      · have hcovered := hP.tail inner calls hs.1 hrun
        exact ⟨hcovered.pos, hcovered.le⟩ }

end Closed

theorem ground_capped (cfg : Config) :
    Ground cfg (fun _ _ => True) Ready (Step cfg (fun _ => True) Capped) where
  acceptance _ := trivial
  modified _ _ _ _ := trivial
  triggered _ _ _ _ := trivial
  stored _ _ := trivial
  kept _ _ _ _ h := h
  consumed hr := hr.consumed
  stable := stable_ready
  plain := .plain

theorem closed_capped (cfg : Config) (strategies : List Strategy) (depth : Nat) :
    Closed cfg (nestedAt cfg strategies depth) (fun _ _ => True) Ready
      (Step cfg (fun _ => True) Capped) := by
  have hany := (ground_consumed cfg fun _ _ => True).closed strategies
  induction depth with
  | zero =>
    exact closed_of_inner (hany 0).toInner (calls_calm cfg strategies 0)
      ((ground_capped cfg).inner_zero strategies)
  | succ depth ih =>
    exact closed_of_inner (hany (depth + 1)).toInner (calls_calm cfg strategies (depth + 1))
      ih.inner_succ

theorem stable_ready_move (events : List Event) : Stable Ready (Move (Step cfg V G) events) := by
  intro r r' hmove hr
  obtain ⟨matched, hextends, -⟩ := hmove.extends
  cases hmove with
  | step step => exact stable_ready _ _ step hr
  | clock tick t due => exact ⟨hr.consumed, hr.keyed, fun hq => hr.unlisted (hq.of_extends hextends)⟩
  | @market event now =>
    have hconsumed := stable_consumed cfg V G events _ _ (.market r now) hr.consumed
    obtain ⟨_, _, heq⟩ := rememberEvent_eq event r
    refine ⟨hconsumed, ?_, fun hq => ?_⟩
    · rw [Runtime.withMarket, heq]
      exact hr.keyed
    · have hold := hr.unlisted (hq.of_extends hextends)
      rw [Runtime.withMarket, heq]
      exact hold

/-- Every position entry of an order that may only reduce is about a reduction. -/
def OnlyReduces (r : Runtime) : Prop :=
  ∀ before after m, .positioned before after m ∈ r.trace → m.order.reduceOnly = true →
    Reduces (cachedPosition before m.fill.accountID m.fill.instrumentID)
      (cachedPosition after m.fill.accountID m.fill.instrumentID)

theorem Fits.fillOf {m : Matched} (h : Fits cfg V r m) : FillOf m.order m.fill := by
  obtain ⟨drawn, quantity, ts, hfill⟩ := h.fill
  exact ⟨by simp [hfill, rawFill], by simp [hfill, rawFill], by simp [hfill, rawFill]⟩

theorem stable_onlyReduces (events : List Event) :
    Stable (fun r => Keyed r.cache ∧ (Quiet r → OnlyReduces r))
      (Move (Step cfg V Capped) events) := by
  rintro r r' hmove ⟨hkeyed, hreduces⟩
  refine ⟨?_, fun hq before after m hmem hreduce => ?_⟩
  · cases hmove with
    | step step =>
      cases step with
      | plain step => exact hkeyed.congr step.positions
      | filled drawn fits guard =>
        rw [booked_cache]
        exact hkeyed.afterFill _
    | clock tick t due => exact hkeyed
    | @market event now =>
      obtain ⟨_, _, heq⟩ := rememberEvent_eq event r
      rw [Runtime.withMarket, heq]
      exact hkeyed
  · obtain ⟨matched, hextends, hfill⟩ := hmove.extends
    have hq₀ := hq.of_extends hextends
    rcases hextends.mem hmem with hold | hnew
    · exact hreduces hq₀ before after m hold hreduce
    · cases hnew
      obtain ⟨fits, hcapped, drawn, rfl⟩ := hfill m rfl
      rw [booked_cache]
      exact reduces_afterFill hkeyed fits.fillOf fits.quantity_pos (hcapped hq₀ hreduce)

theorem ready_initial {c : Cache} (h : WithoutPositions c) (p : Portfolio) :
    Ready (initial c p) where
  consumed _ _ := le_rfl
  keyed := h.keyed
  unlisted _ := ⟨OrdMap.get_empty, OrdMap.get_empty⟩

/-- In a run whose strategies issue no commands from inside execution callbacks
and no lists of orders, a fill of an order that may only reduce never lets the
position grow or change sides. -/
theorem reduce_only_reduces (setup : Setup) {c : Cache} (p : Portfolio)
    (hc : WithoutPositions c) (hquiet : Quiet (setup.result c p)) :
    OnlyReduces (setup.result c p) := by
  have hmoves := moves_result (closed_capped setup.cfg setup.strategies setup.depth)
    (stable_ready_move setup.events) (fun _ _ _ _ h => h) Step.currentTime (ready_initial hc p)
  refine ((stable_onlyReduces setup.events).star hmoves ⟨hc.keyed, fun _ => ?_⟩).2 hquiet
  intro before after m hmem
  simp [initial] at hmem

end ReduceOnly

/-! ### A position that is closed -/

/-- A sale of five, more than there will be, that may only reduce. -/
def sampleSell : SubmitOrder :=
  { accountID := "acct", instrumentID := samplePerp, clientOrderID := "sell", side := .sell
    type := .limit, quantity := 5, price := 90, reduceOnly := true }

def sampleBids (t : Time) (bids : List OrderBookLevel) : Event :=
  ⟨t, .marketData,
    .market { orderBook := some { instrumentID := samplePerp, bids := bids, timestamp := t } }⟩

/-- A strategy that buys from the first book and then sells. -/
def buyThenSell : Strategy := .answering "trader"
  (fun event => match event.orderBook with
    | some book => if book.bids = [] then [.submitOrder sampleBuy] else [.submitOrder sampleSell]
    | none => []) fun _ => []

def closedSetup : Setup :=
  { strategies := [buyThenSell]
    events := [sampleAsks 1 [⟨100, 2⟩], sampleBids 2 [⟨95, 2⟩, ⟨94, 9⟩]]
    depth := 2
    timers := 1 }

/-- The entry tells of a fill that led from one position to another. -/
def Entry.moves (before after : Decimal) : Entry → Bool
  | .positioned c c' m => m.order.reduceOnly &&
      decide (cachedPosition c m.fill.accountID m.fill.instrumentID = before) &&
      decide (cachedPosition c' m.fill.accountID m.fill.instrumentID = after)
  | _ => false

theorem reduce_only_reduces_closed :
    (@Setup.result exactDecimals closedSetup Cache.new (Portfolio.new Cache.new)).trace.any
        (Entry.moves 1 0) = true ∧
      OnlyReduces (@Setup.result exactDecimals closedSetup Cache.new
        (Portfolio.new Cache.new)) := by
  refine ⟨by decide +kernel, ?_⟩
  exact @reduce_only_reduces exactDecimals closedSetup Cache.new (Portfolio.new Cache.new)
    ⟨OrdMap.get_empty, OrdMap.get_empty⟩ (by unfold Quiet; decide +kernel)

end Exchanges.Backtest
