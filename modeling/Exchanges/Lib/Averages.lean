import Mathlib.Algebra.BigOperators.Group.List.Lemmas
import Mathlib.Algebra.Order.BigOperators.Group.List
import Mathlib.Algebra.Order.Field.Basic
import Mathlib.Tactic.FieldSimp
import Mathlib.Tactic.Linarith

/-!
Values between the least and the greatest of a list.

Means and mixtures do not leave the range of what they are made of, so a value
that starts in the range of its inputs and is mixed with each new one stays there.
-/

namespace Exchanges.Lib

set_option linter.unusedSectionVars false

variable {K : Type} [Field K] [LinearOrder K] [IsStrictOrderedRing K]

/-- The value is between the least and the greatest element. -/
def Between (xs : List K) (v : K) : Prop := (∃ x ∈ xs, x ≤ v) ∧ ∃ x ∈ xs, v ≤ x

instance (xs : List K) (v : K) : Decidable (Between xs v) := inferInstanceAs (Decidable (_ ∧ _))

theorem between_singleton (x : K) : Between [x] x :=
  ⟨⟨x, List.mem_singleton.mpr rfl, le_refl x⟩, x, List.mem_singleton.mpr rfl, le_refl x⟩

/-- A part of the way from the value to a new element. -/
theorem Between.mix {xs : List K} {v x m : K} (h : Between xs v) (hm : 0 ≤ m) (hm' : m ≤ 1) :
    Between (xs ++ [x]) ((x - v) * m + v) := by
  obtain ⟨⟨low, hlow, hle⟩, high, hhigh, hge⟩ := h
  have hx : x ∈ xs ++ [x] := List.mem_append_right xs (List.mem_singleton.mpr rfl)
  rcases le_total x v with hxv | hvx
  · have hdown : (x - v) * m ≤ 0 := mul_nonpos_of_nonpos_of_nonneg (sub_nonpos.mpr hxv) hm
    have hreach : x - v ≤ (x - v) * m := by nlinarith
    exact ⟨⟨x, hx, by linarith⟩, high, List.mem_append_left _ hhigh, by linarith⟩
  · have hup : 0 ≤ (x - v) * m := mul_nonneg (sub_nonneg.mpr hvx) hm
    have hreach : (x - v) * m ≤ x - v := by nlinarith
    exact ⟨⟨low, List.mem_append_left _ hlow, by linarith⟩, x, hx, by linarith⟩

theorem between_mean {xs : List K} (h : xs ≠ []) : Between xs (xs.sum / xs.length) := by
  have hpos : (0 : K) < xs.length := Nat.cast_pos.mpr (List.length_pos_of_ne_nil h)
  have hconst : (xs.map fun _ => xs.sum / xs.length).sum = (xs.map fun x => x).sum := by
    rw [List.map_const', List.sum_replicate, nsmul_eq_mul, List.map_id']
    field_simp
  exact ⟨List.exists_le_of_sum_le h _ _ hconst.ge, List.exists_le_of_sum_le h _ _ hconst.le⟩

theorem Between.nonneg {xs : List K} {v : K} (h : Between xs v) (hxs : ∀ x ∈ xs, 0 ≤ x) :
    0 ≤ v := by
  obtain ⟨⟨x, hx, hle⟩, -⟩ := h
  exact (hxs x hx).trans hle

end Exchanges.Lib
