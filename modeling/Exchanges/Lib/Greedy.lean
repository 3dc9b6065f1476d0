import Mathlib

/-!
Meeting a demand from a list of offers, one after the other.

Every offer has an amount that is available, possibly none, and a price. `greedy` walks
along the list and takes from each offer what is still wanted, as far as it is available.
It takes in all what can be had, up to the demand. If the prices rise along the list, it
is the cheapest way to take so much: there is a marginal price such that everything below
it has been taken in full and nothing above it has been touched, and against such a price
no other allocation does better, offer by offer.
-/

namespace Exchanges.Lib

set_option linter.unusedSectionVars false

variable {α K : Type} [Field K] [LinearOrder K] [IsStrictOrderedRing K]

/-- The offers that are taken from, each with the amount. -/
def greedy (available : α → K) : List α → K → List (α × K)
  | [], _ => []
  | x :: xs, demand =>
    if 0 < min demand (available x) then
      (x, min demand (available x)) :: greedy available xs (demand - min demand (available x))
    else greedy available xs demand

/-- The sum of what is taken. -/
def takenTotal (taken : List (α × K)) : K := (taken.map (·.2)).sum

/-- What is paid for it. -/
def takenCost (price : α → K) (taken : List (α × K)) : K :=
  (taken.map fun t => price t.1 * t.2).sum

section Greedy

variable {available price take : α → K}

theorem greedy_eq_nil {xs : List α} {demand : K} (h : demand ≤ 0) :
    greedy available xs demand = [] := by
  induction xs with
  | nil => rfl
  | cons x xs ih => rw [greedy, if_neg (not_lt.mpr ((min_le_left ..).trans h)), ih]

theorem greedy_sublist (xs : List α) : ∀ demand : K,
    ((greedy available xs demand).map (·.1)).Sublist xs := by
  induction xs with
  | nil => exact fun _ => .slnil
  | cons x xs ih =>
    intro demand
    rw [greedy]
    split
    · exact (ih _).cons_cons x
    · exact (ih _).cons x

theorem mem_greedy {xs : List α} {t : α × K} : ∀ {demand : K},
    t ∈ greedy available xs demand → t.1 ∈ xs ∧ 0 < t.2 ∧ t.2 ≤ available t.1 := by
  induction xs with
  | nil => exact fun h => absurd h List.not_mem_nil
  | cons x xs ih =>
    intro demand h
    rw [greedy] at h
    split at h
    · next hpos =>
        rcases List.mem_cons.mp h with rfl | h
        · exact ⟨List.mem_cons_self, hpos, min_le_right ..⟩
        · exact ⟨List.mem_cons_of_mem _ (ih h).1, (ih h).2⟩
    · exact ⟨List.mem_cons_of_mem _ (ih h).1, (ih h).2⟩

/-- All that is available is taken, up to the demand. -/
theorem takenTotal_greedy (xs : List α) : ∀ demand : K,
    takenTotal (greedy available xs demand) =
      min (max demand 0) (xs.map fun x => max (available x) 0).sum := by
  induction xs with
  | nil => exact fun demand => (min_eq_right (le_max_right demand 0)).symm
  | cons x xs ih =>
    intro demand
    have hrest : 0 ≤ (xs.map fun x => max (available x) 0).sum :=
      List.sum_nonneg (by simp)
    rw [greedy, List.map_cons, List.sum_cons]
    split
    · next hpos =>
        have hdemand : 0 < demand := lt_of_lt_of_le hpos (min_le_left ..)
        have havailable : 0 < available x := lt_of_lt_of_le hpos (min_le_right ..)
        have hcons : takenTotal ((x, min demand (available x)) ::
            greedy available xs (demand - min demand (available x))) =
            min demand (available x) +
              takenTotal (greedy available xs (demand - min demand (available x))) := rfl
        rw [hcons, ih, max_eq_left hdemand.le, max_eq_left havailable.le,
          max_eq_left (sub_nonneg.mpr (min_le_left ..))]
        rcases le_total demand (available x) with hle | hle
        · rw [min_eq_left hle, sub_self, min_eq_left hrest, add_zero,
            min_eq_left (le_add_of_le_of_nonneg hle hrest)]
        · rw [min_eq_right hle, ← min_add_add_left, add_sub_cancel]
    · next hnone =>
        rw [ih]
        rcases min_le_iff.mp (not_lt.mp hnone) with hdemand | havailable
        · have hboth : 0 ≤ max (available x) 0 + (xs.map fun x => max (available x) 0).sum :=
            add_nonneg (le_max_right ..) hrest
          rw [max_eq_right hdemand, min_eq_left hrest, min_eq_left hboth]
        · rw [max_eq_right havailable, zero_add]

/-- The marginal price: at this price no other allocation is worth less. -/
theorem exists_marginal_price {xs : List α} (hsorted : xs.Pairwise fun x y => price x ≤ price y)
    (htake : ∀ x ∈ xs, 0 ≤ take x ∧ take x ≤ max (available x) 0) :
    ∀ (demand bound : K), (∀ x ∈ xs, bound ≤ price x) → ∃ marginal, bound ≤ marginal ∧
      ((greedy available xs demand).map fun t => (price t.1 - marginal) * t.2).sum ≤
        (xs.map fun x => (price x - marginal) * take x).sum := by
  induction xs with
  | nil => exact fun _ bound _ => ⟨bound, le_rfl, le_rfl⟩
  | cons x xs ih =>
    intro demand bound hbound
    obtain ⟨hfirst, hrest⟩ := List.pairwise_cons.mp hsorted
    have hx := htake x List.mem_cons_self
    have htakeRest : ∀ y ∈ xs, 0 ≤ take y ∧ take y ≤ max (available y) 0 :=
      fun y hy => htake y (List.mem_cons_of_mem _ hy)
    -- at the price of the first offer the later ones have no value
    have hvalue : 0 ≤ (xs.map fun y => (price y - price x) * take y).sum := by
      refine List.sum_nonneg fun v hv => ?_
      obtain ⟨y, hy, rfl⟩ := List.mem_map.mp hv
      exact mul_nonneg (sub_nonneg.mpr (hfirst y hy)) (htakeRest y hy).1
    have hatFirst : 0 ≤ ((x :: xs).map fun y => (price y - price x) * take y).sum := by
      rw [List.map_cons, List.sum_cons, sub_self, zero_mul, zero_add]
      exact hvalue
    rw [greedy]
    split
    · next hpos =>
        rcases le_total demand (available x) with hle | hle
        · -- the first offer meets the demand
          refine ⟨price x, hbound x List.mem_cons_self, ?_⟩
          rw [min_eq_left hle, sub_self, greedy_eq_nil le_rfl, List.map_singleton,
            List.sum_singleton, sub_self, zero_mul]
          exact hatFirst
        · obtain ⟨marginal, hmarginal, hle'⟩ :=
            ih hrest htakeRest (demand - available x) (price x) hfirst
          refine ⟨marginal, (hbound x List.mem_cons_self).trans hmarginal, ?_⟩
          rw [min_eq_right hle] at hpos ⊢
          rw [max_eq_left hpos.le] at hx
          rw [List.map_cons, List.sum_cons, List.map_cons, List.sum_cons]
          exact add_le_add (mul_le_mul_of_nonpos_left hx.2 (sub_nonpos.mpr hmarginal)) hle'
    · next hnone =>
        rcases min_le_iff.mp (not_lt.mp hnone) with hdemand | havailable
        · refine ⟨price x, hbound x List.mem_cons_self, ?_⟩
          rw [greedy_eq_nil hdemand]
          exact hatFirst
        · -- nothing can be taken from the first offer
          obtain ⟨marginal, hmarginal, hle⟩ :=
            ih hrest htakeRest demand bound fun y hy => hbound y (List.mem_cons_of_mem _ hy)
          have hzero : take x = 0 :=
            le_antisymm (hx.2.trans (max_eq_right havailable).le) hx.1
          refine ⟨marginal, hmarginal, ?_⟩
          rw [List.map_cons, List.sum_cons, hzero, mul_zero, zero_add]
          exact hle

theorem sum_sub_mul (price amount : α → K) (marginal : K) (xs : List α) :
    (xs.map fun x => (price x - marginal) * amount x).sum =
      (xs.map fun x => price x * amount x).sum - marginal * (xs.map amount).sum := by
  induction xs with
  | nil => simp
  | cons x xs ih =>
    rw [List.map_cons, List.sum_cons, List.map_cons, List.sum_cons, List.map_cons,
      List.sum_cons, ih]
    ring

/-- No other allocation of the same total is cheaper. -/
theorem takenCost_greedy_le {xs : List α} (hsorted : xs.Pairwise fun x y => price x ≤ price y)
    (htake : ∀ x ∈ xs, 0 ≤ take x ∧ take x ≤ max (available x) 0) {demand : K}
    (htotal : (xs.map take).sum = takenTotal (greedy available xs demand)) :
    takenCost price (greedy available xs demand) ≤ (xs.map fun x => price x * take x).sum := by
  have hbound : ∃ bound, ∀ x ∈ xs, bound ≤ price x := by
    cases xs with
    | nil => exact ⟨0, nofun⟩
    | cons x xs =>
      refine ⟨price x, fun y hy => ?_⟩
      rcases List.mem_cons.mp hy with rfl | hy
      · exact le_rfl
      · exact (List.pairwise_cons.mp hsorted).1 y hy
  obtain ⟨bound, hbound⟩ := hbound
  obtain ⟨marginal, -, hle⟩ := exists_marginal_price hsorted htake demand bound hbound
  have htaken := sum_sub_mul (fun t : α × K => price t.1) (·.2) marginal
    (greedy available xs demand)
  rw [htaken, sum_sub_mul, htotal] at hle
  exact (sub_le_sub_iff_right _).mp hle

end Greedy

end Exchanges.Lib
