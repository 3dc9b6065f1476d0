import Exchanges.Backtest.Matching
import Exchanges.Lib.Greedy

/-!
An order is matched with a book at the best prices.

Without a fill model the walk along the levels is the greedy one: it stops at the first
level beyond the limit of the order, and on a side that is sorted these are all the
levels within it. What the walk takes, and what it pays, are then those of the greedy
allocation. For a sell the same holds with the prices reversed.
-/

namespace Exchanges.Backtest

open Exchanges.Lib Exchanges.Model

/-- A matching core without a fill model: every touch fills. -/
def noFillModel : FillModel where
  shouldFillLimitTouch _ drawn := (true, drawn)
  applySlippage _ price drawn := (price, drawn)

/-- The side that the order trades with is strictly sorted, the best price first. -/
def SortedFor (order : OrderStatusReport) (book : OrderBook) : Prop :=
  (bookLevels order book).Pairwise fun level level' =>
    if order.side = .sell then level'.price < level.price else level.price < level'.price

/-- The levels that satisfy the limit of the order. -/
def levelsWithin (order : OrderStatusReport) (book : OrderBook) : List OrderBookLevel :=
  (bookLevels order book).filter fun level => canMatch order level.price

/-- What is left of a level. -/
def available (consumed : Decimal → Decimal) (level : OrderBookLevel) : Decimal :=
  max (level.size - consumed level.price) 0

/-- The open quantity of the order, capped by the maximum. -/
def wanted (order : OrderStatusReport) (maxQuantity : Decimal) : Decimal :=
  if 0 < maxQuantity then min (max (openQuantity order) 0) maxQuantity
  else max (openQuantity order) 0

/-- A way of taking from the levels within the limit. -/
def Allocation (order : OrderStatusReport) (book : OrderBook) (consumed : Decimal → Decimal)
    (take : OrderBookLevel → Decimal) : Prop :=
  ∀ level ∈ levelsWithin order book, 0 ≤ take level ∧ take level ≤ available consumed level

def allocated (order : OrderStatusReport) (book : OrderBook) (take : OrderBookLevel → Decimal) :
    Decimal :=
  ((levelsWithin order book).map take).sum

def paid (order : OrderStatusReport) (book : OrderBook) (take : OrderBookLevel → Decimal) :
    Decimal :=
  ((levelsWithin order book).map fun level => level.price * take level).sum

/-- What the matches pay in all. -/
def matchCost (found : List Match) : Decimal := (found.map fun m => m.price * m.quantity).sum

section Matching

variable {c : Cache} {order : OrderStatusReport} {book : OrderBook}
  {consumed : Decimal → Decimal} {ts : Time}

/-- The walk along the levels is the greedy one, up to the first that is beyond the
limit. -/
theorem matchLevels_eq_greedy (hpost : postOnlyCanFill order ts = true)
    (levels : List OrderBookLevel) : ∀ quantity drawn,
    (matchLevels noFillModel c order ts consumed levels quantity drawn).1 =
      (greedy (fun level => level.size - consumed level.price)
        (levels.takeWhile fun level => canMatch order level.price) quantity).map
          fun t => ⟨.orderBook, t.1.price, t.2, ts⟩ := by
  have htouch : ∀ price quantity drawn, shouldFillLimitTouch noFillModel c order price quantity
      ts .orderBook drawn = (true, drawn) := fun _ _ _ => if_pos hpost
  induction levels with
  | nil => exact fun _ _ => rfl
  | cons level levels ih =>
    intro quantity drawn
    rw [matchLevels]
    dsimp only
    cases hcan : canMatch order level.price with
    | false =>
      rw [if_pos (.inr rfl), List.takeWhile_cons_of_neg (by simp [hcan])]
      rfl
    | true =>
      rw [List.takeWhile_cons_of_pos (p := fun level : OrderBookLevel => canMatch order level.price) hcan]
      by_cases hquantity : 0 < quantity
      · rw [if_neg (by simp [hquantity]), greedy, htouch]
        by_cases hpos : 0 < min quantity (level.size - consumed level.price)
        · rw [if_neg (not_not.mpr hpos), if_pos hpos, if_pos rfl, List.map_cons, ih]
        · rw [if_pos hpos, if_neg hpos, ih]
      · rw [if_pos (.inl hquantity), greedy_eq_nil (not_lt.mp hquantity)]
        rfl

/-- On a sorted side the levels within the limit come first. -/
theorem takeWhile_canMatch (hside : order.side = .buy ∨ order.side = .sell)
    (hsorted : SortedFor order book) :
    ((bookLevels order book).takeWhile fun level => canMatch order level.price) =
      levelsWithin order book := by
  -- beyond the limit it only gets worse
  have hworse : ∀ level level' : OrderBookLevel, (if order.side = .sell then
      level'.price < level.price else level.price < level'.price) →
      canMatch order level.price = false → canMatch order level'.price = false := by
    intro level level' hlt hbeyond
    unfold canMatch at hbeyond ⊢
    cases hstyle : order.type.isMarketStyle with
    | true => simp [hstyle] at hbeyond
    | false =>
      rcases hside with hbuy | hsell
      · simp only [hstyle, hbuy] at hlt hbeyond ⊢
        simp at hlt hbeyond ⊢
        exact hbeyond.trans hlt
      · simp only [hstyle, hsell] at hlt hbeyond ⊢
        simp at hlt hbeyond ⊢
        exact hlt.trans hbeyond
  unfold levelsWithin
  unfold SortedFor at hsorted
  revert hsorted
  generalize bookLevels order book = levels
  intro hsorted
  induction levels with
  | nil => rfl
  | cons level levels ih =>
    obtain ⟨hfirst, hrest⟩ := List.pairwise_cons.mp hsorted
    cases hcan : canMatch order level.price with
    | true =>
      rw [List.takeWhile_cons_of_pos (p := fun level : OrderBookLevel => canMatch order level.price) hcan,
        List.filter_cons_of_pos (p := fun level : OrderBookLevel => canMatch order level.price) hcan,
        ih hrest]
    | false =>
      rw [List.takeWhile_cons_of_neg (by simp [hcan]),
        List.filter_cons_of_neg (by simp [hcan]), eq_comm, List.filter_eq_nil_iff]
      intro level' hmem
      rw [hworse level level' (hfirst level' hmem) hcan]
      exact Bool.false_ne_true

/-- The matches of a book, level by level. -/
def taken (order : OrderStatusReport) (book : OrderBook) (consumed : Decimal → Decimal)
    (maxQuantity : Decimal) : List (OrderBookLevel × Decimal) :=
  greedy (fun level => level.size - consumed level.price) (levelsWithin order book)
    (if 0 < maxQuantity ∧ maxQuantity < openQuantity order then maxQuantity
      else openQuantity order)

variable {maxQuantity : Decimal} {drawn : Nat}

theorem matchOrderBook_eq_taken (hside : order.side = .buy ∨ order.side = .sell)
    (hsorted : SortedFor order book) (hpost : postOnlyCanFill order book.timestamp = true) :
    (matchOrderBook noFillModel c order book consumed maxQuantity drawn).1 =
      (taken order book consumed maxQuantity).map
        fun t => ⟨.orderBook, t.1.price, t.2, book.timestamp⟩ := by
  rw [matchOrderBook, matchLevels_eq_greedy hpost, takeWhile_canMatch hside hsorted]
  rfl

theorem takenTotal_taken : takenTotal (taken order book consumed maxQuantity) =
    min (wanted order maxQuantity)
      ((levelsWithin order book).map (available consumed)).sum := by
  have hwanted : max (if 0 < maxQuantity ∧ maxQuantity < openQuantity order then maxQuantity
      else openQuantity order) 0 = wanted order maxQuantity := by
    unfold wanted
    by_cases hmax : 0 < maxQuantity
    · rw [if_pos hmax]
      by_cases hlt : maxQuantity < openQuantity order
      · rw [if_pos ⟨hmax, hlt⟩, max_eq_left hmax.le, min_eq_right (hlt.le.trans (le_max_left ..))]
      · rw [if_neg fun h => hlt h.2, min_eq_left (max_le (not_lt.mp hlt) hmax.le)]
    · rw [if_neg hmax, if_neg fun h => hmax h.1]
  rw [taken, takenTotal_greedy, hwanted]
  rfl

/-- The prices of a sorted side are all different, and so are those of the matches. -/
theorem nodup_prices (hsorted : SortedFor order book) :
    ((bookLevels order book).map (·.price)).Nodup := by
  rw [List.Nodup, List.pairwise_map]
  refine hsorted.imp fun {level level'} hlt heq => ?_
  rw [heq] at hlt
  split at hlt <;> exact lt_irrefl _ hlt

theorem nodup_prices_taken (hsorted : SortedFor order book) :
    ((taken order book consumed maxQuantity).map fun t => t.1.price).Nodup := by
  have hsublist : ((taken order book consumed maxQuantity).map (·.1)).Sublist
      (bookLevels order book) := (greedy_sublist _ _).trans List.filter_sublist
  have hprices := (nodup_prices hsorted).sublist (hsublist.map (·.price))
  rwa [List.map_map] at hprices

/-- With one match at most at a price, what is taken there is bounded by it. -/
theorem takenAt_le {found : List Match} (hnodup : (found.map (·.price)).Nodup) {price bound : Decimal}
    (hbound : 0 ≤ bound) (h : ∀ m ∈ found, m.price = price → m.quantity ≤ bound) :
    takenAt price found ≤ bound := by
  induction found with
  | nil => exact hbound
  | cons m found ih =>
    rw [List.map_cons, List.nodup_cons] at hnodup
    rw [takenAt_cons]
    by_cases hprice : m.price = price
    · have hrest : takenAt price found ≤ 0 := by
        have hnone : found.filter (fun m => m.price = price) = [] := by
          rw [List.filter_eq_nil_iff]
          intro m' hm' hsame
          refine hnodup.1 (List.mem_map.mpr ⟨m', hm', ?_⟩)
          rw [of_decide_eq_true hsame, hprice]
        rw [takenAt, hnone]
        exact le_rfl
      rw [if_pos hprice]
      linarith [h m List.mem_cons_self hprice]
    · rw [if_neg hprice, zero_add]
      exact ih hnodup.2 fun m' hm' => h m' (List.mem_cons_of_mem _ hm')

/-- What is paid for the taken levels, as the matches have it. -/
theorem matchCost_map (found : List (OrderBookLevel × Decimal)) (ts : Time) :
    matchCost (found.map fun t => ⟨.orderBook, t.1.price, t.2, ts⟩) =
      takenCost (·.price) found := by
  rw [matchCost, takenCost, List.map_map]
  rfl

/-- A buy pays no more, and a sell receives no less, than any other allocation of the
same total. -/
theorem takenCost_taken_best (hsorted : SortedFor order book) {take : OrderBookLevel → Decimal}
    (htake : Allocation order book consumed take)
    (htotal : allocated order book take = takenTotal (taken order book consumed maxQuantity)) :
    (order.side = .buy → takenCost (·.price) (taken order book consumed maxQuantity) ≤
        paid order book take) ∧
      (order.side = .sell → paid order book take ≤
        takenCost (·.price) (taken order book consumed maxQuantity)) := by
  have hpairwise := List.Pairwise.filter (fun level => canMatch order level.price) hsorted
  have htake' : ∀ level ∈ levelsWithin order book, 0 ≤ take level ∧
      take level ≤ max (level.size - consumed level.price) 0 := htake
  have htotal' : ((levelsWithin order book).map take).sum = takenTotal (greedy
      (fun level => level.size - consumed level.price) (levelsWithin order book)
      (if 0 < maxQuantity ∧ maxQuantity < openQuantity order then maxQuantity
        else openQuantity order)) := htotal
  constructor
  · intro hbuy
    have hrising : (levelsWithin order book).Pairwise fun level level' =>
        level.price ≤ level'.price := by
      refine hpairwise.imp fun hlt => ?_
      rw [hbuy, if_neg (by decide)] at hlt
      exact le_of_lt hlt
    exact takenCost_greedy_le hrising htake' htotal'
  · intro hsell
    have hrising : (levelsWithin order book).Pairwise fun level level' =>
        -level.price ≤ -level'.price := by
      refine hpairwise.imp fun hlt => ?_
      rw [if_pos hsell] at hlt
      exact neg_le_neg (le_of_lt hlt)
    have hle := takenCost_greedy_le hrising htake' htotal'
    have hpaid : ((levelsWithin order book).map fun level => -level.price * take level).sum =
        -paid order book take := by
      simp [paid, neg_mul, List.sum_neg, Function.comp_def]
    have hcost : takenCost (fun level : OrderBookLevel => -level.price)
        (taken order book consumed maxQuantity) =
        -takenCost (·.price) (taken order book consumed maxQuantity) := by
      simp [takenCost, neg_mul, List.sum_neg, Function.comp_def]
    rw [hpaid] at hle
    exact neg_le_neg_iff.mp (hcost ▸ hle)

/-- The matches of an order with a sorted book: within its limit, within what is left of
each level, as much as is wanted and available, and at the best prices. -/
theorem matchOrderBook_best (c : Cache) (order : OrderStatusReport) (book : OrderBook)
    (consumed : Decimal → Decimal) (maxQuantity : Decimal) (drawn : Nat)
    (hside : order.side = .buy ∨ order.side = .sell) (hsorted : SortedFor order book)
    (hpost : postOnlyCanFill order book.timestamp = true) :
    let found := (matchOrderBook noFillModel c order book consumed maxQuantity drawn).1
    (∀ m ∈ found, ∃ level ∈ levelsWithin order book, m.price = level.price ∧ 0 < m.quantity) ∧
      (∀ level ∈ levelsWithin order book,
        takenAt level.price found ≤ available consumed level) ∧
      (found.map (·.quantity)).sum = min (wanted order maxQuantity)
        ((levelsWithin order book).map (available consumed)).sum ∧
      ∀ take, Allocation order book consumed take →
        allocated order book take = (found.map (·.quantity)).sum →
          (order.side = .buy → matchCost found ≤ paid order book take) ∧
            (order.side = .sell → paid order book take ≤ matchCost found) := by
  dsimp only
  rw [matchOrderBook_eq_taken hside hsorted hpost]
  have hsum : (((taken order book consumed maxQuantity).map fun t =>
      (⟨.orderBook, t.1.price, t.2, book.timestamp⟩ : Match)).map (·.quantity)).sum =
      takenTotal (taken order book consumed maxQuantity) := by
    rw [List.map_map]
    rfl
  rw [hsum, matchCost_map]
  refine ⟨fun m hm => ?_, fun level hlevel => ?_, takenTotal_taken, fun take htake htotal =>
    takenCost_taken_best hsorted htake htotal⟩
  · obtain ⟨t, ht, rfl⟩ := List.mem_map.mp hm
    obtain ⟨hmem, hpos, -⟩ := mem_greedy ht
    exact ⟨t.1, hmem, rfl, hpos⟩
  · have hnodup := @nodup_prices_taken order book consumed maxQuantity hsorted
    refine takenAt_le (by rwa [List.map_map]) (le_max_right ..) fun m hm hprice => ?_
    obtain ⟨t, ht, rfl⟩ := List.mem_map.mp hm
    obtain ⟨hmem, -, hle⟩ := mem_greedy ht
    -- the level is the one at this price
    have hsame : t.1 = level := by
      have hlevels : ((bookLevels order book).map (·.price)).Nodup := nodup_prices hsorted
      exact List.inj_on_of_nodup_map hlevels (List.mem_of_mem_filter hmem)
        (List.mem_of_mem_filter hlevel) hprice
    rw [← hsame]
    exact hle.trans (le_max_left ..)

end Matching

def limitBuy : OrderStatusReport :=
  { accountID := "acct", instrumentID := ⟨"BTC-USDT-PERP", "BINANCE"⟩, orderID := "1"
    status := .accepted, side := .buy, type := .limit, quantity := 3, price := 100 }

def threeAsks : OrderBook :=
  { instrumentID := ⟨"BTC-USDT-PERP", "BINANCE"⟩, asks := [⟨99, 1⟩, ⟨100, 5⟩, ⟨101, 1⟩] }

/-- The best level in full and the rest at the limit, for 299 in all. -/
theorem limitBuy_best : matchCost
      (matchOrderBook noFillModel Cache.new limitBuy threeAsks (fun _ => 0) 0 0).1 = 299 ∧
    ∀ take, Allocation limitBuy threeAsks (fun _ => 0) take →
      allocated limitBuy threeAsks take = 3 → 299 ≤ paid limitBuy threeAsks take := by
  have hcost : matchCost
      (matchOrderBook noFillModel Cache.new limitBuy threeAsks (fun _ => 0) 0 0).1 = 299 := by
    decide +kernel
  have htotal : ((matchOrderBook noFillModel Cache.new limitBuy threeAsks (fun _ => 0) 0 0).1.map
      (·.quantity)).sum = 3 := by decide +kernel
  have hbest := (matchOrderBook_best Cache.new limitBuy threeAsks (fun _ => 0) 0 0 (.inl rfl)
    (by unfold SortedFor; decide +kernel) rfl).2.2.2
  refine ⟨hcost, fun take htake hallocated => ?_⟩
  rw [← hcost]
  exact (hbest take htake (hallocated.trans htotal.symm)).1 rfl

end Exchanges.Backtest
