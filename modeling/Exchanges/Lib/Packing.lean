import Mathlib.Algebra.Order.Ring.Int
import Mathlib.Tactic.Linarith
import Mathlib.Tactic.Ring

/-!
Fields packed into one number, the first field at the top.

Each field is shifted in from below. As long as a field keeps to its width it does
not carry into the fields above it, so the number is bounded by the widths and
determines every field. A loop that reads bits from the bottom has read all of a
number when it has read as many bits as the number has.
-/

namespace Exchanges.Lib

/-- A field, with its width in bits. -/
structure BitField where
  width : ℕ
  value : ℤ

/-- The field keeps to its width. -/
def BitField.Fits (f : BitField) : Prop := 0 ≤ f.value ∧ f.value < 2 ^ f.width

/-- Shift in one field after the other. -/
def pack (top : ℤ) (fields : List BitField) : ℤ :=
  fields.foldl (fun word f => word * 2 ^ f.width + f.value) top

theorem pack_nonneg {fields : List BitField} (hfit : ∀ f ∈ fields, f.Fits) :
    ∀ {top : ℤ}, 0 ≤ top → 0 ≤ pack top fields := by
  induction fields with
  | nil => exact fun h => h
  | cons f fields ih =>
    intro top h
    have hf := (hfit f List.mem_cons_self).1
    exact ih (fun g hg => hfit g (List.mem_cons_of_mem f hg)) (by positivity)

theorem pack_lt {fields : List BitField} (hfit : ∀ f ∈ fields, f.Fits) :
    ∀ {top : ℤ} {width : ℕ}, top < 2 ^ width →
      pack top fields < 2 ^ (width + (fields.map BitField.width).sum) := by
  induction fields with
  | nil => exact fun h => h
  | cons f fields ih =>
    intro top width h
    rw [List.map_cons, List.sum_cons, ← add_assoc]
    refine ih (fun g hg => hfit g (List.mem_cons_of_mem f hg)) ?_
    have hf := (hfit f List.mem_cons_self).2
    have hpos : (0 : ℤ) < 2 ^ f.width := by positivity
    calc top * 2 ^ f.width + f.value < top * 2 ^ f.width + 2 ^ f.width := by linarith
      _ = (top + 1) * 2 ^ f.width := by ring
      _ ≤ 2 ^ width * 2 ^ f.width := Int.mul_le_mul_of_nonneg_right h hpos.le
      _ = 2 ^ (width + f.width) := (pow_add 2 width f.width).symm

theorem shift_add_inj {width : ℕ} {x x' y y' : ℤ} (hy : 0 ≤ y ∧ y < 2 ^ width)
    (hy' : 0 ≤ y' ∧ y' < 2 ^ width) (h : x * 2 ^ width + y = x' * 2 ^ width + y') :
    x = x' ∧ y = y' := by
  have hquot : ∀ {x y : ℤ}, 0 ≤ y ∧ y < 2 ^ width → (x * 2 ^ width + y) / 2 ^ width = x := by
    intro x y hy
    rw [add_comm, Int.add_mul_ediv_right _ _ (by positivity), Int.ediv_eq_zero_of_lt hy.1 hy.2,
      zero_add]
  have hx : x = x' := by rw [← hquot (x := x) hy, h, hquot hy']
  exact ⟨hx, by rw [hx] at h; linarith⟩

/-- Words of the same widths are packed from the same fields. -/
theorem pack_inj : ∀ {fields fields' : List BitField} {top top' : ℤ},
    fields.map BitField.width = fields'.map BitField.width → (∀ f ∈ fields, f.Fits) →
    (∀ f ∈ fields', f.Fits) → pack top fields = pack top' fields' →
      top = top' ∧ fields = fields'
  | [], [], _, _, _, _, _, h => ⟨h, rfl⟩
  | [], _ :: _, _, _, hwidths, _, _, _ => by cases hwidths
  | _ :: _, [], _, _, hwidths, _, _, _ => by cases hwidths
  | f :: fields, f' :: fields', top, top', hwidths, hfit, hfit', h => by
    obtain ⟨hwidth, hwidths⟩ := List.cons.inj hwidths
    obtain ⟨hf, hfit⟩ := List.forall_mem_cons.mp hfit
    obtain ⟨hf', hfit'⟩ := List.forall_mem_cons.mp hfit'
    obtain ⟨htop, rfl⟩ := pack_inj hwidths hfit hfit' h
    rw [BitField.Fits, ← hwidth] at hf'
    have htop : top * 2 ^ f.width + f.value = top' * 2 ^ f'.width + f'.value := htop
    rw [← hwidth] at htop
    obtain ⟨rfl, hvalue⟩ := shift_add_inj hf hf' htop
    cases f
    cases f'
    obtain rfl := hwidth
    obtain rfl := hvalue
    exact ⟨rfl, rfl⟩

/-! ### Reading bits -/

/-- The bits that a loop of some turns reads, and what it leaves of the number. -/
def readBits : ℕ → ℤ → List Bool × ℤ
  | 0, x => ([], x)
  | n + 1, x => (decide (x % 2 ≠ 0) :: (readBits n (x / 2)).1, (readBits n (x / 2)).2)

/-- The number with the given bits. -/
def ofBits (bits : List Bool) : ℤ := bits.foldr (fun b n => (if b then 1 else 0) + 2 * n) 0

theorem readBits_of_lt (n : ℕ) : ∀ {x : ℤ}, 0 ≤ x → x < 2 ^ n →
    ofBits (readBits n x).1 = x ∧ (readBits n x).2 = 0 := by
  induction n with
  | zero =>
    intro x h0 h
    obtain rfl : x = 0 := by linarith [h, pow_zero (2 : ℤ)]
    exact ⟨rfl, rfl⟩
  | succ n ih =>
    intro x h0 h
    have hhalf : x / 2 < 2 ^ n := by
      rw [pow_succ] at h
      omega
    obtain ⟨hbits, hrest⟩ := ih (Int.ediv_nonneg h0 two_pos.le) hhalf
    refine ⟨?_, hrest⟩
    change (if decide (x % 2 ≠ 0) = true then 1 else 0) + 2 * ofBits (readBits n (x / 2)).1 = x
    rw [hbits]
    rcases Int.emod_two_eq_zero_or_one x with hx | hx <;> simp [hx] <;> omega

end Exchanges.Lib
