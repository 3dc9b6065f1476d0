import Mathlib.Order.Lattice

/-!
A price that is followed from the first one that counts.

Prices come one after another. The first ones may be passed over; from then on
the best price so far is kept. A program keeps it as a state that each price
updates. `extreme_eq` says what the state is after all of them: the best of the
prices from the first one that is not passed over.
-/

namespace Exchanges.Lib

variable {α : Type}

/-- Which prices are passed over before one counts, and which of two is better. -/
structure Trailing (α : Type) where
  awaits : α → Bool
  better : α → α → α

namespace Trailing

variable (t : Trailing α)

/-- What one price makes of the best price so far. -/
def step (extreme : Option α) (price : α) : Option α :=
  match extreme with
  | some best => some (t.better best price)
  | none => if t.awaits price then none else some price

/-- The best price after all of them. -/
def extreme (prices : List α) : Option α := prices.foldl t.step none

theorem extreme_concat (prices : List α) (price : α) :
    t.extreme (prices ++ [price]) = t.step (t.extreme prices) price := by
  rw [extreme, List.foldl_append]
  rfl

/-- The best price of a list. -/
def best : List α → Option α
  | [] => none
  | first :: rest => some (rest.foldl t.better first)

theorem foldl_step_some (prices : List α) (first : α) :
    prices.foldl t.step (some first) = some (prices.foldl t.better first) := by
  induction prices generalizing first with
  | nil => rfl
  | cons price prices ih => exact ih (t.better first price)

theorem extreme_eq (prices : List α) :
    t.extreme prices = t.best (prices.dropWhile t.awaits) := by
  induction prices with
  | nil => rfl
  | cons price prices ih =>
    rw [extreme, List.foldl_cons, step]
    by_cases h : t.awaits price = true
    · rw [if_pos h, List.dropWhile_cons_of_pos h]
      exact ih
    · rw [if_neg h, List.dropWhile_cons_of_neg h, foldl_step_some]
      rfl

end Trailing

end Exchanges.Lib
