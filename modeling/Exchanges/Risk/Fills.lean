import Exchanges.Lib.Trace
import Exchanges.Risk.Limits

/-!
What accepted orders can do to a position when they are filled.

Orders of one account and instrument are accepted one after another and recorded
as open. Then they are filled, in any order and by any amounts. The check of an
order that must not increase the position looks at the position alone and not at
the orders that were accepted before. The check of the position limit looks at
the open orders, but lets buys and sells cancel. Either way the orders can do
together what none of them can do alone.
-/

namespace Exchanges.Risk

open Exchanges.Lib Exchanges.Model Relation

set_option linter.unusedSectionVars false

/-! ### Fills of open orders -/

/-- A position, and the open orders with what is left of them. -/
structure Book where
  position : Decimal
  orders : List (OrderSide × Decimal)

/-- Some quantity of one of the orders is filled. -/
inductive Book.Fill : Book → Book → Prop where
  | mk {position leaves quantity : Decimal} {side : OrderSide}
      {before after : List (OrderSide × Decimal)} (nonneg : 0 ≤ quantity)
      (within : quantity ≤ leaves) :
      Book.Fill ⟨position, before ++ (side, leaves) :: after⟩
        ⟨applySignedOrder position side quantity, before ++ (side, leaves - quantity) :: after⟩

/-- What is left to be bought; an order that is not a sell is taken for a buy. -/
def toBuy (orders : List (OrderSide × Decimal)) : Decimal :=
  ((orders.filter fun o => o.1 ≠ .sell).map Prod.snd).sum

def toSell (orders : List (OrderSide × Decimal)) : Decimal :=
  ((orders.filter fun o => o.1 = .sell).map Prod.snd).sum

section Totals

variable {l l' : List (OrderSide × Decimal)}

theorem toBuy_append : toBuy (l ++ l') = toBuy l + toBuy l' := by
  simp [toBuy]

theorem toSell_append : toSell (l ++ l') = toSell l + toSell l' := by
  simp [toSell]

theorem toBuy_cons (side : OrderSide) (leaves : Decimal) :
    toBuy ((side, leaves) :: l) = (if side = .sell then 0 else leaves) + toBuy l := by
  unfold toBuy
  rw [List.filter_cons]
  by_cases h : side = .sell <;> simp [h]

theorem toSell_cons (side : OrderSide) (leaves : Decimal) :
    toSell ((side, leaves) :: l) = (if side = .sell then leaves else 0) + toSell l := by
  unfold toSell
  rw [List.filter_cons]
  by_cases h : side = .sell <;> simp [h]

theorem toBuy_nonneg (h : ∀ o ∈ l, 0 ≤ o.2) : 0 ≤ toBuy l := by
  refine List.sum_nonneg fun x hx => ?_
  obtain ⟨o, ho, rfl⟩ := List.mem_map.mp hx
  exact h o (List.mem_filter.mp ho).1

theorem toSell_nonneg (h : ∀ o ∈ l, 0 ≤ o.2) : 0 ≤ toSell l := by
  refine List.sum_nonneg fun x hx => ?_
  obtain ⟨o, ho, rfl⟩ := List.mem_map.mp hx
  exact h o (List.mem_filter.mp ho).1

end Totals

/-- The position stays between where all sells and where all buys would take it. -/
structure Book.Between (low high : Decimal) (b : Book) : Prop where
  leaves : ∀ o ∈ b.orders, 0 ≤ o.2
  low : low ≤ b.position - toSell b.orders
  high : b.position + toBuy b.orders ≤ high

theorem Book.Fill.between {low high : Decimal} {b b' : Book} (h : b.Fill b')
    (hb : b.Between low high) : b'.Between low high := by
  obtain ⟨hleaves, hlow, hhigh⟩ := hb
  cases h with
  | @mk position leaves quantity side before after nonneg within =>
    dsimp only at hleaves hlow hhigh
    rw [toSell_append, toSell_cons] at hlow
    rw [toBuy_append, toBuy_cons] at hhigh
    refine ⟨?_, ?_, ?_⟩
    · intro o ho
      rcases List.mem_append.mp ho with ho | ho
      · exact hleaves o (List.mem_append_left _ ho)
      · rcases List.mem_cons.mp ho with rfl | ho
        · exact sub_nonneg.mpr within
        · exact hleaves o (List.mem_append_right _ (List.mem_cons_of_mem _ ho))
    · dsimp only
      rw [toSell_append, toSell_cons, applySignedOrder]
      split at hlow <;> simp_all <;> linarith
    · dsimp only
      rw [toBuy_append, toBuy_cons, applySignedOrder]
      split at hhigh <;> simp_all <;> linarith

theorem Book.between_run {low high : Decimal} {b b' : Book} (h : ReflTransGen Book.Fill b b')
    (hb : b.Between low high) : b'.Between low high := by
  induction h with
  | refl => exact hb
  | tail _ hstep ih => exact hstep.between ih

/-- All orders for which `chosen` holds can be filled to the end. -/
theorem Book.fill_chosen (chosen : OrderSide → Bool) (l : List (OrderSide × Decimal))
    (hl : ∀ o ∈ l, 0 ≤ o.2) :
    ∀ (position : Decimal) (before : List (OrderSide × Decimal)), ∃ after,
      ReflTransGen Book.Fill ⟨position, before ++ l⟩
        ⟨((l.filter fun o => chosen o.1).foldl (fun x o => applySignedOrder x o.1 o.2) position),
          after⟩ := by
  induction l with
  | nil => exact fun position before => ⟨_, .refl⟩
  | cons o l ih =>
    intro position before
    obtain ⟨side, leaves⟩ := o
    have hrest := fun o ho => hl o (List.mem_cons_of_mem _ ho)
    have hleaves : 0 ≤ leaves := hl _ List.mem_cons_self
    cases hchosen : chosen side with
    | false =>
      obtain ⟨after, hrun⟩ := ih hrest position (before ++ [(side, leaves)])
      rw [List.append_assoc] at hrun
      refine ⟨after, ?_⟩
      rw [List.filter_cons_of_neg (by simp [hchosen])]
      exact hrun
    | true =>
      obtain ⟨after, hrun⟩ := ih hrest (applySignedOrder position side leaves)
        (before ++ [(side, leaves - leaves)])
      rw [List.append_assoc] at hrun
      refine ⟨after, ?_⟩
      rw [List.filter_cons_of_pos (by simp [hchosen]), List.foldl_cons]
      exact ReflTransGen.head (.mk hleaves (le_refl _)) hrun

theorem foldl_orders (l : List (OrderSide × Decimal)) : ∀ position : Decimal,
    l.foldl (fun x o => applySignedOrder x o.1 o.2) position =
      position - toSell l + toBuy l := by
  induction l with
  | nil => simp [toSell, toBuy]
  | cons o l ih =>
    intro position
    rw [List.foldl_cons, ih, toSell_cons, toBuy_cons, applySignedOrder]
    split <;> ring

/-- What holds of every position between the two ends, and only there, holds of all
positions that fills lead to exactly if it holds at the ends. -/
theorem fills_iff {P : Decimal → Prop} {position : Decimal} {l : List (OrderSide × Decimal)}
    (hl : ∀ o ∈ l, 0 ≤ o.2)
    (hP : ∀ x y z, P x → P z → x ≤ y → y ≤ z → P y) :
    (∀ b, ReflTransGen Book.Fill ⟨position, l⟩ b → P b.position) ↔
      P (position - toSell l) ∧ P (position + toBuy l) := by
  constructor
  · intro h
    obtain ⟨after, hsells⟩ := Book.fill_chosen (fun side => decide (side = .sell)) l hl position []
    obtain ⟨after', hbuys⟩ := Book.fill_chosen (fun side => decide (side ≠ .sell)) l hl position []
    have hlow := h _ hsells
    have hhigh := h _ hbuys
    dsimp only at hlow hhigh
    rw [foldl_orders] at hlow hhigh
    exact ⟨by simpa [toSell, toBuy, List.filter_filter] using hlow,
      by simpa [toSell, toBuy, List.filter_filter] using hhigh⟩
  · rintro ⟨hlow, hhigh⟩ b hrun
    have hb := Book.between_run hrun ⟨hl, le_refl _, le_refl _⟩
    have hbuy := toBuy_nonneg hb.leaves
    have hsell := toSell_nonneg hb.leaves
    exact hP _ _ _ hlow hhigh (by linarith [hb.low]) (by linarith [hb.high])

/-! ### Accepted orders -/

/-- A check, and the report under which the order is recorded. -/
structure Request where
  visits : Visits
  now : Time
  order : SubmitOrder
  report : OrderStatusReport

/-- The report is that of the order, new and open. -/
structure Request.Records (r : Request) (c : Cache) : Prop where
  accountID : r.report.accountID = r.order.accountID
  instrumentID : r.report.instrumentID = r.order.instrumentID
  side : r.report.side = r.order.side
  quantity : r.report.quantity = r.order.quantity
  filled : r.report.filledQuantity = 0
  reduceOnly : r.report.reduceOnly = r.order.reduceOnly
  isOpen : r.report.status.isOpen = true
  isNew : c.order r.report.accountID r.report.orderID = none

def Request.open (r : Request) : OrderSide × Decimal := (r.order.side, r.order.quantity)

section Accepted

variable [DecimalPackage]

/-- Orders are accepted one after another, and each of them is recorded. -/
inductive Accepted (e : Engine) : List Request → Engine → Prop where
  | none : Accepted e [] e
  | next {rs : List Request} {r : Request} {e₁ e₂ : Engine} {c : Cache} (run : Accepted e rs e₁)
      (accepted : (check r.visits r.now r.order).run e₁ = (.ok (), e₂))
      (records : r.Records e₁.cache) (recorded : e₂.cache.putOrder r.report = .ok c) :
      Accepted e (rs ++ [r]) { e₂ with cache := c }

variable {e e' : Engine} {rs : List Request}

/-- Recording an order changes only what the cache knows about orders. -/
theorem Accepted.frame (h : Accepted e rs e') :
    e'.cfg = e.cfg ∧ Cache.OrdersOnly e.cache e'.cache := by
  induction h with
  | none => exact ⟨rfl, .refl _⟩
  | next _ accepted _ recorded ih =>
    obtain ⟨-, -, window, rfl⟩ := check_ok accepted
    obtain ⟨-, rfl⟩ := Cache.putOrder_eq_ok.mp recorded
    exact ⟨ih.1, ih.2.trans (Cache.ordersOnly_storeOrder ..)⟩

theorem Accepted.currentPosition (h : Accepted e rs e') (a : AccountID) (i : InstrumentID) :
    currentPosition e'.cache a i = Risk.currentPosition e.cache a i := by
  rw [h.frame.2]
  rfl

theorem Accepted.estimatedPrice (h : Accepted e rs e') (order : SubmitOrder) :
    estimatedPrice e'.cache order = Risk.estimatedPrice e.cache order := by
  rw [h.frame.2]
  rfl

/-- What a check with its answer says about the order, for each accepted order. -/
theorem Accepted.forall (h : Accepted e rs e') {P : Request → Prop}
    (hP : ∀ {pre : List Request} {r : Request} {e₁ e₂ : Engine}, Accepted e pre e₁ →
      (check r.visits r.now r.order).run e₁ = (.ok (), e₂) → r ∈ rs → P r) :
    ∀ r ∈ rs, P r := by
  induction h with
  | none => exact fun r hr => nomatch hr
  | next run accepted _ _ ih =>
    intro r hr
    rcases List.mem_append.mp hr with hr' | hr'
    · exact ih (fun hpre hcheck hmem => hP hpre hcheck (List.mem_append_left _ hmem)) r hr'
    · rw [List.mem_singleton] at hr'
      subst hr'
      exact hP run accepted hr

theorem quantity_pos {order : SubmitOrder} (h : order.validate = .ok ()) : 0 < order.quantity := by
  simp only [SubmitOrder.validate, except_seq_eq_ok, reject_eq_ok, not_or, not_not] at h
  exact h.1.2.2.2

theorem Accepted.open_nonneg (h : Accepted e rs e') :
    ∀ o ∈ rs.map Request.open, 0 ≤ o.2 := by
  intro o ho
  obtain ⟨r, hr, rfl⟩ := List.mem_map.mp ho
  exact h.forall (P := fun r => 0 ≤ r.order.quantity)
    (fun _ hcheck _ => (quantity_pos (check_ok hcheck).1).le) r hr

end Accepted

/-! ### Orders that must not increase the position -/

/-- An order that does not increase the position takes from it, and not more than
there is. -/
theorem not_increased {x quantity : Decimal} {side : OrderSide} (hquantity : 0 < quantity)
    (h : exposureIncreased x (applySignedOrder x side quantity) = false) :
    0 < x ∧ side = .sell ∧ quantity ≤ x ∨ x < 0 ∧ side ≠ .sell ∧ quantity ≤ -x := by
  unfold exposureIncreased applySignedOrder at h
  rcases lt_trichotomy x 0 with hx | rfl | hx
  · right
    by_cases hside : side = .sell
    · have hproduct : ¬ x * (x - quantity) < 0 := by nlinarith
      have hlonger : |x| < |x - quantity| := by
        rw [abs_of_neg hx, abs_of_neg (by linarith)]
        linarith
      simp [hside, hx.ne, (show x - quantity ≠ 0 by linarith), hproduct, hlonger] at h
    · refine ⟨hx, hside, ?_⟩
      by_contra hmore
      have hproduct : x * (x + quantity) < 0 := by nlinarith
      simp [hside, hx.ne, (show x + quantity ≠ 0 by linarith), hproduct] at h
  · by_cases hside : side = .sell <;> simp [hside, hquantity.ne'] at h
  · left
    by_cases hside : side = .sell
    · refine ⟨hx, hside, ?_⟩
      by_contra hmore
      have hproduct : x * (x - quantity) < 0 := by nlinarith
      simp [hside, hx.ne', (show x - quantity ≠ 0 by linarith), hproduct] at h
    · have hproduct : ¬ x * (x + quantity) < 0 := by nlinarith
      have hlonger : |x| < |x + quantity| := by
        rw [abs_of_pos hx, abs_of_pos (by linarith)]
        linarith
      simp [hside, hx.ne', (show x + quantity ≠ 0 by linarith), hproduct, hlonger] at h

/-- A position that is not larger than another one and on the same side of zero. -/
def NotBeyond (x y : Decimal) : Prop := |y| ≤ |x| ∧ 0 ≤ y * x

theorem notBeyond_of_pos {x y : Decimal} (hx : 0 < x) : NotBeyond x y ↔ 0 ≤ y ∧ y ≤ x := by
  unfold NotBeyond
  rw [abs_of_pos hx, mul_nonneg_iff_of_pos_right hx, abs_le]
  constructor
  · rintro ⟨⟨-, hle⟩, hy⟩
    exact ⟨hy, hle⟩
  · rintro ⟨hy, hle⟩
    exact ⟨⟨by linarith, hle⟩, hy⟩

theorem notBeyond_neg {x y : Decimal} : NotBeyond (-x) (-y) ↔ NotBeyond x y := by
  simp [NotBeyond]

theorem NotBeyond.between (x : Decimal) :
    ∀ a b c, NotBeyond x a → NotBeyond x c → a ≤ b → b ≤ c → NotBeyond x b := by
  intro a b c ha hc hab hbc
  rcases lt_trichotomy x 0 with hx | rfl | hx
  · rw [← notBeyond_neg, notBeyond_of_pos (neg_pos.mpr hx)] at ha hc ⊢
    exact ⟨by linarith, by linarith⟩
  · simp only [NotBeyond, abs_zero, abs_nonpos_iff, mul_zero, le_refl, and_true] at ha hc ⊢
    linarith
  · rw [notBeyond_of_pos hx] at ha hc ⊢
    exact ⟨by linarith, by linarith⟩

theorem toBuy_of_sells {l : List (OrderSide × Decimal)} (h : ∀ o ∈ l, o.1 = .sell) :
    toBuy l = 0 ∧ toSell l = (l.map Prod.snd).sum := by
  unfold toBuy toSell
  rw [List.filter_eq_nil_iff.mpr (by simpa using h), List.filter_eq_self.mpr (by simpa using h)]
  exact ⟨rfl, rfl⟩

theorem toSell_of_buys {l : List (OrderSide × Decimal)} (h : ∀ o ∈ l, o.1 ≠ .sell) :
    toSell l = 0 ∧ toBuy l = (l.map Prod.snd).sum := by
  unfold toBuy toSell
  rw [List.filter_eq_nil_iff.mpr (by simpa using h), List.filter_eq_self.mpr (by simpa using h)]
  exact ⟨rfl, rfl⟩

section Reducing

variable [DecimalPackage] {e e' : Engine} {rs : List Request} {a : AccountID} {i : InstrumentID}

theorem not_increases_of_ok {v : Visits} {order : SubmitOrder} {duplicate existing : Bool}
    (h : checkOrder e v order duplicate existing = .ok ())
    (hreduce : normalizedTradingState e.cfg.tradingState = .reducing ∨ order.reduceOnly = true) :
    increasesCurrentExposure e.cache order = false := by
  simp only [checkOrder, except_seq_eq_ok] at h
  obtain ⟨-, -, h⟩ := h
  split at h
  · cases h
  · simp only [checkInstrument, except_seq_eq_ok, reject_eq_ok] at h
    obtain ⟨-, hstate, -, -, -, hreduceOnly⟩ := h
    rcases hreduce with hreducing | honly
    · rw [checkTradingState, hreducing] at hstate
      simpa using hstate
    · simpa [honly] using hreduceOnly

/-- Orders that are accepted because each of them reduces the position cannot
enlarge or turn it together exactly if they do not add up to more than it. -/
theorem reducing_orders_safe_iff (hrun : Accepted e rs e')
    (hone : ∀ r ∈ rs, r.order.accountID = a ∧ r.order.instrumentID = i)
    (hreduce : ∀ r ∈ rs, normalizedTradingState e.cfg.tradingState = .reducing ∨
      r.order.reduceOnly = true) :
    (∀ b, ReflTransGen Book.Fill ⟨currentPosition e.cache a i, rs.map Request.open⟩ b →
        |b.position| ≤ |currentPosition e.cache a i| ∧
          0 ≤ b.position * currentPosition e.cache a i) ↔
      (rs.map (·.order.quantity)).sum ≤ |currentPosition e.cache a i| := by
  generalize hx : currentPosition e.cache a i = x
  have hsides := hrun.forall (P := fun r => 0 < x ∧ r.order.side = .sell ∧ r.order.quantity ≤ x ∨
      x < 0 ∧ r.order.side ≠ .sell ∧ r.order.quantity ≤ -x) fun {pre r e₁ e₂} hpre hcheck hr => by
    obtain ⟨hvalid, hok, -⟩ := check_ok hcheck
    have hposition := hpre.currentPosition a i
    have hincreases := not_increases_of_ok hok (hpre.frame.1 ▸ hreduce r hr)
    rw [increasesCurrentExposure, (hone r hr).1, (hone r hr).2, hposition, hx] at hincreases
    exact not_increased (quantity_pos hvalid) hincreases
  have htotal : (rs.map (·.order.quantity)).sum = ((rs.map Request.open).map Prod.snd).sum := by
    rw [List.map_map]
    rfl
  have hnonneg := hrun.open_nonneg
  have htotal_nonneg : 0 ≤ ((rs.map Request.open).map Prod.snd).sum := by
    refine List.sum_nonneg fun q hq => ?_
    obtain ⟨o, ho, rfl⟩ := List.mem_map.mp hq
    exact hnonneg o ho
  refine (fills_iff (P := NotBeyond x) hnonneg (NotBeyond.between x)).trans ?_
  rw [htotal]
  rcases lt_trichotomy x 0 with hneg | rfl | hpos
  · -- a short position: every accepted order buys
    obtain ⟨hsell, hbuy⟩ := toSell_of_buys (l := rs.map Request.open) (by
      intro o ho
      obtain ⟨r, hr, rfl⟩ := List.mem_map.mp ho
      exact ((hsides r hr).resolve_left fun h => absurd h.1 hneg.not_gt).2.1)
    rw [hsell, hbuy, sub_zero, ← notBeyond_neg, notBeyond_of_pos (neg_pos.mpr hneg),
      ← notBeyond_neg, notBeyond_of_pos (neg_pos.mpr hneg), abs_of_neg hneg]
    constructor
    · rintro ⟨-, h, -⟩
      linarith
    · intro h
      exact ⟨⟨by linarith, le_refl _⟩, by linarith, by linarith⟩
  · -- no position: nothing is accepted
    have hnil : rs = [] := List.eq_nil_iff_forall_not_mem.mpr fun r hr => by
      rcases hsides r hr with h | h
      · exact lt_irrefl _ h.1
      · exact lt_irrefl _ h.1
    subst hnil
    simp [NotBeyond, toSell, toBuy]
  · -- a long position: every accepted order sells
    obtain ⟨hbuy, hsell⟩ := toBuy_of_sells (l := rs.map Request.open) (by
      intro o ho
      obtain ⟨r, hr, rfl⟩ := List.mem_map.mp ho
      exact ((hsides r hr).resolve_right fun h => absurd h.1 hpos.not_gt).2.1)
    rw [hsell, hbuy, add_zero, notBeyond_of_pos hpos, notBeyond_of_pos hpos, abs_of_pos hpos]
    constructor
    · rintro ⟨⟨h, -⟩, -⟩
      linarith
    · intro h
      exact ⟨⟨by linarith, by linarith⟩, hpos.le, le_refl _⟩

end Reducing

/-! ### Two orders that each close the position -/

def heldPerp : Instrument :=
  { id := ⟨"BTC-USDT-PERP", "BINANCE"⟩, rawSymbol := "BTCUSDT", type := .perp, base := "BTC"
    quote := "USDT", settle := "USDT", priceTick := 1, sizeTick := 1, status := .trading }

/-- A limit order at 10 and its report. -/
def request (id : OrderID) (side : OrderSide) (quantity : Decimal) (reduceOnly : Bool) : Request :=
  { visits := ⟨[heldPerp], fun _ => [heldPerp], [heldPerp], [heldPerp]⟩
    now := 0
    order := { accountID := "acct", instrumentID := heldPerp.id, side := side, type := .limit
               quantity := quantity, price := 10, reduceOnly := reduceOnly }
    report := { accountID := "acct", instrumentID := heldPerp.id, orderID := id, side := side
                type := .limit, quantity := quantity, price := 10, reduceOnly := reduceOnly
                status := .accepted } }

/-- The engine after the order of a request was recorded. -/
def record (e : Engine) (r : Request) : Engine :=
  { e with cache := e.cache.storeOrder (Cache.normalizeOrder r.report) }

theorem accepted_record [DecimalPackage] {e e₁ : Engine} {rs : List Request} {id : OrderID}
    {side : OrderSide} {quantity : Decimal} {reduceOnly : Bool} (h : Accepted e rs e₁)
    (hrate : e₁.cfg.maxCommandsPerWindow ≤ 0)
    (hvalid : (request id side quantity reduceOnly).order.validate = .ok ())
    (hok : checkOrder e₁ (request id side quantity reduceOnly).visits
      (request id side quantity reduceOnly).order true false = .ok ())
    (hreport : (Cache.normalizeOrder (request id side quantity reduceOnly).report).validate =
      .ok ())
    (hnew : e₁.cache.order "acct" id = none) :
    Accepted e (rs ++ [request id side quantity reduceOnly])
      (record e₁ (request id side quantity reduceOnly)) := by
  have hwindow : checkCommandRate 0 e₁ = (.ok (), e₁) := if_pos hrate
  have haccepted : (check (request id side quantity reduceOnly).visits
      (request id side quantity reduceOnly).now (request id side quantity reduceOnly).order).run e₁ =
        (.ok (), e₁) := by
    rw [run_check, hvalid, show (request id side quantity reduceOnly).now = 0 from rfl, hwindow]
    exact Prod.ext hok rfl
  exact .next h haccepted ⟨rfl, rfl, rfl, rfl, rfl, rfl, rfl, hnew⟩
    (Cache.putOrder_eq_ok.mpr ⟨OrderStatusReport.validate_eq_ok.mp hreport, rfl⟩)

/-- An account that is long 5. -/
def longFive : Engine :=
  { cache := ({ Cache.new with
      instruments := (∅ : OrdMap InstrumentID Instrument).put heldPerp.id heldPerp } :
        Cache).storePosition
      { accountID := "acct", instrumentID := heldPerp.id, positionID := "position-1"
        side := .long, quantity := 5, entryPrice := 10 } }

/-- Two sells of 5 that may only reduce the position. -/
def twoCloses : List Request := [request "order-1" .sell 5 true, request "order-2" .sell 5 true]

theorem accepted_twoCloses : @Accepted exactDecimals longFive twoCloses
    (record (record longFive (request "order-1" .sell 5 true))
      (request "order-2" .sell 5 true)) := by
  let _ := exactDecimals
  have hfirst : Accepted longFive [request "order-1" .sell 5 true]
      (record longFive (request "order-1" .sell 5 true)) := by
    refine accepted_record .none ?_ ?_ ?_ ?_ ?_ <;> decide +kernel
  refine accepted_record hfirst ?_ ?_ ?_ ?_ ?_ <;> decide +kernel

theorem twoCloses_one : ∀ r ∈ twoCloses, r.order.accountID = "acct" ∧
    r.order.instrumentID = heldPerp.id := by
  decide +kernel

theorem reducing_orders_safe_iff_twoCloses :
    (∀ b, ReflTransGen Book.Fill
        ⟨currentPosition longFive.cache "acct" heldPerp.id, twoCloses.map Request.open⟩ b →
        |b.position| ≤ |currentPosition longFive.cache "acct" heldPerp.id| ∧
          0 ≤ b.position * currentPosition longFive.cache "acct" heldPerp.id) ↔
      (twoCloses.map (·.order.quantity)).sum ≤
        |currentPosition longFive.cache "acct" heldPerp.id| :=
  @reducing_orders_safe_iff exactDecimals _ _ _ _ _ accepted_twoCloses twoCloses_one
    fun r hr => .inr ((by decide +kernel : ∀ r ∈ twoCloses, r.order.reduceOnly = true) r hr)

/-- Both are accepted, and when both are filled the position is short 5. -/
theorem reducing_orders_turn_position :
    (∃ e', @Accepted exactDecimals longFive twoCloses e') ∧
      currentPosition longFive.cache "acct" heldPerp.id = 5 ∧
      ∃ b, ReflTransGen Book.Fill ⟨5, twoCloses.map Request.open⟩ b ∧ b.position = -5 := by
  refine ⟨⟨_, accepted_twoCloses⟩, by decide +kernel, ?_⟩
  obtain ⟨after, hrun⟩ := Book.fill_chosen (fun _ => true) (twoCloses.map Request.open)
    (by decide +kernel) 5 []
  refine ⟨_, hrun, ?_⟩
  dsimp only
  decide +kernel

/-! ### The limit of a position -/

/-- Where the orders on the side of an order, and the order itself, would take the
position. -/
def aloneAfter (x : Decimal) (before : List (OrderSide × Decimal)) (o : OrderSide × Decimal) :
    Decimal :=
  applySignedOrder (if o.1 = .sell then x - toSell before else x + toBuy before) o.1 o.2

/-- What holds of a position and between any two positions holds at both ends
exactly if it holds after each order with those on its side. -/
theorem ends_iff {P : Decimal → Prop} {x : Decimal} (hx : P x)
    (hP : ∀ a b c, P a → P c → a ≤ b → b ≤ c → P b) {l : List (OrderSide × Decimal)}
    (hl : ∀ o ∈ l, 0 ≤ o.2) :
    P (x - toSell l) ∧ P (x + toBuy l) ↔ Along (fun before o => P (aloneAfter x before o)) l := by
  induction l using List.reverseRecOn with
  | nil => simpa [along_nil, toSell, toBuy] using hx
  | append_singleton l o ih =>
    obtain ⟨side, quantity⟩ := o
    have hrest : ∀ o ∈ l, 0 ≤ o.2 := fun o ho => hl o (List.mem_append_left _ ho)
    have hquantity : 0 ≤ quantity := hl _ (List.mem_append_right _ List.mem_cons_self)
    have hsell := toSell_nonneg hrest
    have hbuy := toBuy_nonneg hrest
    rw [along_concat, ← ih hrest, toSell_append, toBuy_append, toSell_cons, toBuy_cons,
      aloneAfter, applySignedOrder]
    by_cases hside : side = .sell
    · simp only [hside, if_true, toSell, toBuy, List.filter_nil, List.map_nil, List.sum_nil,
        add_zero, ← sub_sub]
      constructor
      · rintro ⟨hlow, hhigh⟩
        exact ⟨⟨hP _ _ _ hlow hx (by linarith) (by unfold toSell at hsell; linarith), hhigh⟩, hlow⟩
      · rintro ⟨⟨-, hhigh⟩, hlow⟩
        exact ⟨hlow, hhigh⟩
    · simp only [hside, if_false, toSell, toBuy, List.filter_nil, List.map_nil, List.sum_nil,
        add_zero, ← add_assoc]
      constructor
      · rintro ⟨hlow, hhigh⟩
        exact ⟨⟨hlow, hP _ _ _ hx hhigh (by unfold toBuy at hbuy; linarith) (by linarith)⟩, hhigh⟩
      · rintro ⟨⟨hlow, -⟩, hhigh⟩
        exact ⟨hlow, hhigh⟩

section PositionLimit

variable [DecimalPackage] {e e' : Engine} {rs : List Request} {a : AccountID} {i : InstrumentID}
  {price : Decimal}

/-- Under a positive limit an order that is accepted has a positive price. -/
theorem price_pos_of_ok {v : Visits} {order : SubmitOrder} {duplicate existing : Bool}
    (hlimit : 0 < e.cfg.maxPositionNotional)
    (h : checkOrder e v order duplicate existing = .ok ()) : 0 < estimatedPrice e.cache order := by
  simp only [checkOrder, except_seq_eq_ok] at h
  obtain ⟨-, -, h⟩ := h
  split at h
  · cases h
  · simp only [checkInstrument, checkLimits, checkLimit, except_seq_eq_ok, checkIf_eq_ok,
      reject_eq_ok, not_not] at h
    exact (h.2.2.2.1.2.1 (positionKind.resolved_le .global hlimit).1).1

/-- Accepted orders keep the position within its limit, whichever of them are
filled, exactly if each of them kept it within the limit together with the open
orders on its own side. -/
theorem position_limit_kept_iff (hrun : Accepted e rs e')
    (hone : ∀ r ∈ rs, r.order.accountID = a ∧ r.order.instrumentID = i)
    (hlimit : 0 < e.cfg.maxPositionNotional)
    (hprice : ∀ r ∈ rs, estimatedPrice e.cache r.order = price)
    (hstart : |currentPosition e.cache a i| * price ≤ e.cfg.maxPositionNotional) :
    (∀ b, ReflTransGen Book.Fill ⟨currentPosition e.cache a i, rs.map Request.open⟩ b →
        |b.position| * price ≤ e.cfg.maxPositionNotional) ↔
      Along (fun before o => |aloneAfter (currentPosition e.cache a i) before o| * price ≤
        e.cfg.maxPositionNotional) (rs.map Request.open) := by
  rcases rs.eq_nil_or_concat with rfl | ⟨rest, last, rfl⟩
  · refine iff_of_true (fun b hb => ?_) along_nil
    rcases ReflTransGen.cases_head hb with rfl | ⟨b', hstep, -⟩
    · exact hstart
    · generalize hstate : (⟨currentPosition e.cache a i, [].map Request.open⟩ : Book) = s at hstep
      cases hstep
      simp at hstate
  · have hpositive : 0 < price := by
      have hall := hrun.forall (P := fun r => 0 < price) fun {pre r e₁ e₂} hpre hcheck hr => by
        obtain ⟨-, hok, -⟩ := check_ok hcheck
        have hpos := price_pos_of_ok (hpre.frame.1 ▸ hlimit) hok
        rwa [hpre.estimatedPrice, hprice r hr] at hpos
      exact hall last (by simp)
    have hbetween : ∀ x y z : Decimal, |x| * price ≤ e.cfg.maxPositionNotional →
        |z| * price ≤ e.cfg.maxPositionNotional → x ≤ y → y ≤ z →
          |y| * price ≤ e.cfg.maxPositionNotional := by
      intro x y z hx hz hxy hyz
      rcases le_max_iff.mp (abs_le_max_abs_abs hxy hyz) with h | h
      · exact (mul_le_mul_of_nonneg_right h hpositive.le).trans hx
      · exact (mul_le_mul_of_nonneg_right h hpositive.le).trans hz
    exact (fills_iff (P := fun y => |y| * price ≤ e.cfg.maxPositionNotional) hrun.open_nonneg
      hbetween).trans (ends_iff (P := fun y => |y| * price ≤ e.cfg.maxPositionNotional) hstart
        hbetween hrun.open_nonneg)

end PositionLimit

/-! ### A buy and a sell that cancel in the projection -/

/-- No more than 10, which is one at a price of 10. -/
def oneAtTen : Engine :=
  { cache := { Cache.new with
      instruments := (∅ : OrdMap InstrumentID Instrument).put heldPerp.id heldPerp }
    cfg := { maxPositionNotional := 10 } }

def netted : List Request := [request "order-1" .buy 1 false, request "order-2" .sell 2 false]

theorem accepted_netted : @Accepted exactDecimals oneAtTen netted
    (record (record oneAtTen (request "order-1" .buy 1 false))
      (request "order-2" .sell 2 false)) := by
  let _ := exactDecimals
  have hfirst : Accepted oneAtTen [request "order-1" .buy 1 false]
      (record oneAtTen (request "order-1" .buy 1 false)) := by
    refine accepted_record .none ?_ ?_ ?_ ?_ ?_ <;> decide +kernel
  refine accepted_record hfirst ?_ ?_ ?_ ?_ ?_ <;> decide +kernel

theorem position_limit_kept_iff_netted :
    (∀ b, ReflTransGen Book.Fill
        ⟨currentPosition oneAtTen.cache "acct" heldPerp.id, netted.map Request.open⟩ b →
        |b.position| * 10 ≤ oneAtTen.cfg.maxPositionNotional) ↔
      Along (fun before o => |aloneAfter (currentPosition oneAtTen.cache "acct" heldPerp.id)
        before o| * 10 ≤ oneAtTen.cfg.maxPositionNotional) (netted.map Request.open) :=
  @position_limit_kept_iff exactDecimals _ _ _ _ _ _ accepted_netted (by decide +kernel)
    (by decide +kernel) (by decide +kernel) (by decide +kernel)

/-- The sell of 2 is accepted because of the open buy. When it alone is filled, the
position is short 2, which is worth 20. -/
theorem position_limit_exceeded_netted :
    (∃ e', @Accepted exactDecimals oneAtTen netted e') ∧
      currentPosition oneAtTen.cache "acct" heldPerp.id = 0 ∧
      ∃ b, ReflTransGen Book.Fill ⟨0, netted.map Request.open⟩ b ∧
        oneAtTen.cfg.maxPositionNotional < |b.position| * 10 := by
  refine ⟨⟨_, accepted_netted⟩, by decide +kernel, ?_⟩
  obtain ⟨after, hrun⟩ := Book.fill_chosen (fun side => decide (side = .sell))
    (netted.map Request.open) (by decide +kernel) 0 []
  refine ⟨_, hrun, ?_⟩
  dsimp only
  decide +kernel

end Exchanges.Risk
